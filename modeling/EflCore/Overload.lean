/-
# `EflCore.Overload` — choosing among overloads that take pointers to classes

A set of overloads, one for each class of a list, takes a pointer to that class.
Called with a `T*` it is resolved in two steps.

    viable     the overload for `X` is viable if `X` is `T` or a base of `T`
    best       the one for `X` is better than the one for `Y` if `Y` is a base of `X`

An exact match is the second step with `X` for `T`.  The call is to the one viable
overload that is better than every other, and where there is none it is ambiguous or
has no candidate, and does not compile (`none`).

The call is therefore to the overload for the nearest class (`resolve_eq_some`), if there
is one; a class of the list is nearest to itself whatever its bases are (`nearest_listed`),
and is found at its own place (`resolve_listed`).
-/
import Mathlib.Data.List.Basic
import Mathlib.Data.List.Nodup

namespace Overload

/-- Classes, and which is a proper base of which. -/
structure Hierarchy (C : Type) where
  isBase : C → C → Bool
  irrefl : ∀ X, isBase X X = false
  trans : ∀ {X Y Z}, isBase X Y = true → isBase Y Z = true → isBase X Z = true

namespace Hierarchy
variable {C : Type} (H : Hierarchy C)

theorem asymm {X Y : C} (h : H.isBase X Y = true) : H.isBase Y X = false := by
  by_contra hYX
  have hX := H.trans h (eq_true_of_ne_false hYX)
  rw [H.irrefl] at hX
  cases hX

variable [DecidableEq C]

/-- A `T*` converts to an `X*`. -/
def converts (T X : C) : Bool := decide (X = T) || H.isBase X T

/-- Of the overloads `params`, the one at `i`, for `X`, is viable for a `T*` and better
than every other viable one. -/
def isBest (params : List C) (T : C) : C × Nat → Bool
  | (X, i) => H.converts T X &&
      params.zipIdx.all fun (Y, j) => j == i || !H.converts T Y || H.isBase Y X

/-- The place of the overload that is called with a `T*`. -/
def resolve (params : List C) (T : C) : Option Nat :=
  (params.zipIdx.find? (H.isBest params T)).map Prod.snd

variable {H} {params : List C} {T X : C} {i j : Nat}

theorem converts_iff : H.converts T X = true ↔ X = T ∨ H.isBase X T = true := by
  rw [converts, Bool.or_eq_true, decide_eq_true_eq]

theorem isBest_iff : H.isBest params T (X, i) = true ↔ H.converts T X = true ∧
    ∀ Y j, params[j]? = some Y → j ≠ i → H.converts T Y = true → H.isBase Y X = true := by
  simp only [isBest, Bool.and_eq_true, List.all_eq_true, Prod.forall,
    List.mk_mem_zipIdx_iff_getElem?, Bool.or_eq_true, Bool.not_eq_true', beq_iff_eq]
  refine and_congr_right fun _ => forall₃_congr fun Y j _ => ?_
  constructor
  · rintro ((hij | hY) | hbase) hne hconv
    · exact absurd hij hne
    · rw [hconv] at hY
      cases hY
    · exact hbase
  · intro h
    by_cases hij : j = i
    · exact .inl (.inl hij)
    · cases hY : H.converts T Y with
      | false => exact .inl (.inr rfl)
      | true => exact .inr (h hij hY)

/-- Of the classes that a `T*` converts to a pointer to, `X` is derived from every other. -/
structure Nearest (H : Hierarchy C) (params : List C) (T X : C) : Prop where
  mem : X ∈ params
  converts : H.converts T X = true
  below : ∀ Y ∈ params, Y ≠ X → H.converts T Y = true → H.isBase Y X = true

/-- Two nearest classes would be bases of each other. -/
theorem Nearest.unique {Y : C} (hX : H.Nearest params T X) (hY : H.Nearest params T Y) :
    X = Y := by
  by_contra hne
  have hXY := hY.below X hX.mem hne hX.converts
  have hYX := hX.below Y hY.mem (Ne.symm hne) hY.converts
  rw [H.asymm hXY] at hYX
  cases hYX

/-- A class of the list is nearest to itself. -/
theorem nearest_listed (hT : T ∈ params) : H.Nearest params T X ↔ X = T := by
  have hself : H.Nearest params T T := by
    refine ⟨hT, converts_iff.mpr (.inl rfl), ?_⟩
    intro Y _ hne hconv
    exact (converts_iff.mp hconv).resolve_left hne
  constructor
  · intro hX
    exact hX.unique hself
  · rintro rfl
    exact hself

/-- The best overload is the one for the nearest class. -/
theorem isBest_iff_nearest (hnodup : params.Nodup) (hi : params[i]? = some X) :
    H.isBest params T (X, i) = true ↔ H.Nearest params T X := by
  rw [isBest_iff]
  constructor
  · rintro ⟨hconv, hbest⟩
    refine ⟨List.mem_of_getElem? hi, hconv, ?_⟩
    intro Y hY hne hconvY
    obtain ⟨j, hj⟩ := List.mem_iff_getElem?.mp hY
    refine hbest Y j hj ?_ hconvY
    rintro rfl
    exact hne (Option.some.inj (hj.symm.trans hi))
  · rintro ⟨-, hconv, hbelow⟩
    refine ⟨hconv, ?_⟩
    intro Y j hj hne hconvY
    refine hbelow Y (List.mem_of_getElem? hj) ?_ hconvY
    rintro rfl
    obtain ⟨hlt, -⟩ := List.getElem?_eq_some_iff.mp hj
    exact hne ((List.getElem?_inj hlt hnodup).mp (hj.trans hi.symm))

/-- The call is to the overload for the nearest class. -/
theorem resolve_eq_some (hnodup : params.Nodup) :
    H.resolve params T = some i ↔ ∃ X, params[i]? = some X ∧ H.Nearest params T X := by
  rw [resolve, Option.map_eq_some_iff]
  constructor
  · rintro ⟨⟨X, j⟩, hfound, rfl⟩
    have hj := List.mk_mem_zipIdx_iff_getElem?.mp (List.mem_of_find?_eq_some hfound)
    exact ⟨X, hj, (isBest_iff_nearest hnodup hj).mp (List.find?_some hfound)⟩
  · rintro ⟨X, hi, hX⟩
    have hbest := (isBest_iff_nearest hnodup hi).mpr hX
    have hsome : (params.zipIdx.find? (H.isBest params T)).isSome = true :=
      List.find?_isSome.mpr ⟨(X, i), List.mk_mem_zipIdx_iff_getElem?.mpr hi, hbest⟩
    obtain ⟨⟨Y, j⟩, hfound⟩ := Option.isSome_iff_exists.mp hsome
    have hj := List.mk_mem_zipIdx_iff_getElem?.mp (List.mem_of_find?_eq_some hfound)
    have hY := (isBest_iff_nearest hnodup hj).mp (List.find?_some hfound)
    obtain rfl := hY.unique hX
    obtain ⟨hlt, -⟩ := List.getElem?_eq_some_iff.mp hj
    exact ⟨_, hfound, (List.getElem?_inj hlt hnodup).mp (hj.trans hi.symm)⟩

theorem resolve_listed (hnodup : params.Nodup) (hi : params[i]? = some T) :
    H.resolve params T = some i :=
  (resolve_eq_some hnodup).mpr ⟨T, hi, (nearest_listed (List.mem_of_getElem? hi)).mpr rfl⟩

end Hierarchy

end Overload
