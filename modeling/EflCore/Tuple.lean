/-
# `EflCore.Tuple` — a tuple of equal types, on leaves and on an array

`Tuple.hpp` and `Tuple/Cxx17Base.hpp`, for a tuple whose members all have one type.  Up
to C++17 it has a base class for each member, with its number in the type; from C++20 on,
if there are at least two members and they are no references, it has one array
(`TupleSelector`).  Both are read through `extract_leaf<I>`, in four overloads, one for
each way to pass the tuple.

    TupleBranch   extract_leaf<I>(TupleLeaf<I, T>& l)   →  l.data_
    TupleArr      extract_leaf<I>(TupleArr<N, T>& l)    →  l.data_[N]

The second line is the odd one: the subscript is the length of the array, which deduction
finds in the argument, and not the number that was asked for.  `I` is not used.

An accessor returns a reference, which is a place in the tuple and a way to use it; what
it refers to is read later.  `operator[]` and `get` pass on what `extract_leaf` returns,
and `getStdTuple`, `constructWithSelf` and `H::apply` read all members in order.

**Proved here.**  The tuple on leaves is what it was built from, through every accessor
(`branch_sees`); the one on an array never is: whatever member is asked for, the reference
is to the place past the last (`tupleArr_never`).
-/
import Mathlib.Data.List.Forall2

namespace EflCore

/-- How an object is passed or used: `&`, `&&`, `const&`, `const&&`. -/
inductive ValueCat where
  | lvalue
  | rvalue
  | constLvalue
  | constRvalue
  deriving DecidableEq, Repr

/-- Naming an object makes an lvalue of it. -/
def ValueCat.named : ValueCat → ValueCat
  | lvalue | rvalue => lvalue
  | constLvalue | constRvalue => constLvalue

/-- What `operator[]` makes of it: the overload for `const&&` has the return type of the one for
`const&`. -/
def ValueCat.subscripted : ValueCat → ValueCat
  | constRvalue => constLvalue
  | cat => cat

/-- A reference to a member. -/
structure MemberRef where
  place : Nat
  cat : ValueCat
  deriving DecidableEq

/-! ## The two backings -/

structure TupleArr (N : Nat) (T : Type) where
  data_ : Fin N → T

namespace TupleArr
variable {N : Nat} {T : Type}

/-- `extract_leaf<I>(l)`: `l.data_[N]`. -/
def extract_leaf (_I : Nat) (cat : ValueCat) (_l : TupleArr N T) : MemberRef := ⟨N, cat⟩

/-- What is at a place of the array; past its end there is nothing to read. -/
def read (l : TupleArr N T) (r : MemberRef) : Option T :=
  if h : r.place < N then some (l.data_ ⟨r.place, h⟩) else none

end TupleArr

structure TupleLeaf (T : Type) where
  I : Nat
  data_ : T

/-- The leaves a branch is made of. -/
structure TupleBranch (T : Type) where
  leaves : List (TupleLeaf T)

namespace TupleBranch
variable {T : Type}

/-- The leaf with the number `I`. -/
def leaf (I : Nat) (l : TupleBranch T) : Option (TupleLeaf T) :=
  l.leaves.find? fun leaf => leaf.I == I

/-- `extract_leaf<I>(l)`; with no such leaf it does not compile. -/
def extract_leaf (I : Nat) (cat : ValueCat) (l : TupleBranch T) : Option MemberRef :=
  (l.leaf I).map fun leaf => ⟨leaf.I, cat⟩

def read (l : TupleBranch T) (r : MemberRef) : Option T := (l.leaf r.place).map TupleLeaf.data_

end TupleBranch

/-! ## `Tuple` -/

/-- `MkIdSeq<N>`. -/
def mkIdSeq (N : Nat) : List Nat := List.range N

/-- `tuple_type<TT...>`, for `N` times `T`. -/
inductive TupleType (N : Nat) (T : Type) where
  | arr (l : TupleArr N T)
  | branch (l : TupleBranch T)

structure Tuple (N : Nat) (T : Type) where
  data_ : TupleType N T

namespace Tuple
variable {N : Nat} {T : Type}

/-- `TupleSelector` chooses an array from C++20 on, for two members or more that are no
references. -/
def isArray_ (cxx20 isReference : Bool) (N : Nat) : Bool := cxx20 && 2 ≤ N && !isReference

/-- The tuple of the values `vs`. -/
def ofValues (cxx20 isReference : Bool) (vs : List T) : Tuple vs.length T :=
  if isArray_ cxx20 isReference vs.length then
    ⟨.arr ⟨vs.get⟩⟩
  else
    ⟨.branch ⟨List.zipWith TupleLeaf.mk (mkIdSeq vs.length) vs⟩⟩

/-- `extract_leaf<I>(tup.data_)`. -/
def extract_leaf (I : Nat) (cat : ValueCat) (tup : Tuple N T) : Option MemberRef :=
  match tup.data_ with
  | .arr l => some (l.extract_leaf I cat)
  | .branch l => l.extract_leaf I cat

/-- `operator[](Id<I>)`, which requires that `I < sizeof...(TT)`. -/
def subscript (I : Nat) (cat : ValueCat) (tup : Tuple N T) : Option MemberRef :=
  if I < N then (tup.extract_leaf I cat).map fun r => ⟨r.place, cat.subscripted⟩ else none

/-- `get<I>(tup)`. -/
def get (I : Nat) (cat : ValueCat) (tup : Tuple N T) : Option MemberRef := tup.extract_leaf I cat

/-- The value a reference refers to. -/
def read (tup : Tuple N T) (r : MemberRef) : Option T :=
  match tup.data_ with
  | .arr l => l.read r
  | .branch l => l.read r

/-- `FWD_CAST(tup[Id<II>{}])...`: `tup` is the name of a parameter. -/
def members (cat : ValueCat) (tup : Tuple N T) : Option (List T) :=
  (mkIdSeq N).mapM fun II => (tup.subscript II cat.named).bind tup.read

/-- The members of `getStdTuple()`. -/
def getStdTuple (cat : ValueCat) (tup : Tuple N T) : Option (List T) := tup.members cat

/-- `constructWithSelf<U>()`; `U` makes an object of the members. -/
def constructWithSelf {β : Type} (U : List T → β) (tup : Tuple N T) : Option β :=
  (tup.members .constLvalue).map U

/-- `H::apply(f, tup)`, through `getStdTuple`. -/
def apply {β : Type} (f : List T → β) (cat : ValueCat) (tup : Tuple N T) : Option β :=
  (tup.getStdTuple cat).map f

end Tuple

/-! ## What a tuple should be -/

section
variable {N : Nat} {T : Type}

/-- The reference `r` is to a member of the tuple, and the member is `v`. -/
def Yields (tup : Tuple N T) (r : Option MemberRef) (v : T) : Prop :=
  ∃ m, r = some m ∧ m.place < N ∧ tup.read m = some v

/-- The members of the tuple are `vs`, through every accessor. -/
structure Sees (tup : Tuple N T) (vs : List T) : Prop where
  extract_leaf : ∀ (I : Fin N) cat v, vs[I.1]? = some v → Yields tup (tup.extract_leaf I cat) v
  subscript : ∀ (I : Fin N) cat v, vs[I.1]? = some v → Yields tup (tup.subscript I cat) v
  get : ∀ (I : Fin N) cat v, vs[I.1]? = some v → Yields tup (tup.get I cat) v
  getStdTuple : ∀ cat, tup.getStdTuple cat = some vs
  constructWithSelf : ∀ (β : Type) (U : List T → β), tup.constructWithSelf U = some (U vs)
  apply : ∀ (β : Type) (f : List T → β) cat, tup.apply f cat = some (f vs)

/-- The tuple shows none of its members, through any accessor. -/
structure SeesNone (tup : Tuple N T) : Prop where
  extract_leaf : ∀ (I : Fin N) cat v, ¬ Yields tup (tup.extract_leaf I cat) v
  subscript : ∀ (I : Fin N) cat v, ¬ Yields tup (tup.subscript I cat) v
  get : ∀ (I : Fin N) cat v, ¬ Yields tup (tup.get I cat) v
  getStdTuple : ∀ cat, tup.getStdTuple cat = none
  constructWithSelf : ∀ (β : Type) (U : List T → β), tup.constructWithSelf U = none
  apply : ∀ (β : Type) (f : List T → β) cat, tup.apply f cat = none

end

/-! ## Everything goes through `extract_leaf` -/

theorem mapM_eq_some {α β : Type} {f : α → Option β} {xs : List α} {ys : List β}
    (h : List.Forall₂ (fun x y => f x = some y) xs ys) : xs.mapM f = some ys := by
  induction h with
  | nil => rfl
  | cons hx _ ih => simp [List.mapM_cons, hx, ih]

theorem mapM_eq_none {α β : Type} {f : α → Option β} {xs : List α} (hne : xs ≠ [])
    (h : ∀ x ∈ xs, f x = none) : xs.mapM f = none := by
  cases xs with
  | nil => exact absurd rfl hne
  | cons x xs => simp [List.mapM_cons, h x List.mem_cons_self]

section
variable {T : Type} {vs : List T} {tup : Tuple vs.length T}

theorem Tuple.subscript_of_lt (I : Fin vs.length) (cat : ValueCat) :
    tup.subscript I cat = (tup.extract_leaf I cat).map fun r => ⟨r.place, cat.subscripted⟩ :=
  if_pos I.2

/-- What is read does not depend on the way. -/
theorem Tuple.read_subscripted (r : MemberRef) (cat : ValueCat) :
    tup.read ⟨r.place, cat⟩ = tup.read r := by
  unfold Tuple.read
  split <;> rfl

theorem Tuple.yields_subscript (I : Fin vs.length) (cat : ValueCat) (v : T) :
    Yields tup (tup.subscript I cat) v ↔ Yields tup (tup.extract_leaf I cat) v := by
  rw [Tuple.subscript_of_lt]
  constructor
  · rintro ⟨_, hm, hlt, hread⟩
    obtain ⟨m, hm', rfl⟩ := Option.map_eq_some_iff.mp hm
    exact ⟨m, hm', hlt, (tup.read_subscripted m _).symm.trans hread⟩
  · rintro ⟨m, hm, hlt, hread⟩
    exact ⟨_, Option.map_eq_some_iff.mpr ⟨m, hm, rfl⟩, hlt, (tup.read_subscripted m _).trans hread⟩

theorem sees_of_extract_leaf
    (h : ∀ (I : Fin vs.length) cat v, vs[I.1]? = some v → Yields tup (tup.extract_leaf I cat) v) :
    Sees tup vs := by
  have members : ∀ cat, tup.members cat = some vs := by
    intro cat
    refine mapM_eq_some (List.forall₂_iff_get.mpr ⟨List.length_range, fun i hi hi' => ?_⟩)
    obtain ⟨m, hm, -, hread⟩ := h ⟨i, hi'⟩ cat.named _ (List.getElem?_eq_getElem hi')
    have hII : (mkIdSeq vs.length).get ⟨i, hi⟩ = i := by simp [mkIdSeq]
    rw [hII, Tuple.subscript_of_lt ⟨i, hi'⟩, hm, Option.map_some, Option.bind_some,
      Tuple.read_subscripted, hread]
    rfl
  have subscript : ∀ (I : Fin vs.length) cat v, vs[I.1]? = some v →
      Yields tup (tup.subscript I cat) v := by
    intro I cat v hv
    exact (tup.yields_subscript I cat v).mpr (h I cat v hv)
  have constructed : tup.members .constLvalue = some vs := members _
  refine ⟨h, subscript, h, members, fun β U => ?_, fun β f cat => ?_⟩
  · rw [Tuple.constructWithSelf, constructed, Option.map_some]
  · rw [Tuple.apply, Tuple.getStdTuple, members, Option.map_some]

theorem seesNone_of_extract_leaf (hne : vs.length ≠ 0)
    (h : ∀ (I : Fin vs.length) cat, ∃ m, tup.extract_leaf I cat = some m ∧ tup.read m = none) :
    SeesNone tup := by
  have extract_leaf : ∀ (I : Fin vs.length) cat v, ¬ Yields tup (tup.extract_leaf I cat) v := by
    rintro I cat v ⟨m, hm, -, hread⟩
    obtain ⟨m', hm', hnone⟩ := h I cat
    obtain rfl : m = m' := Option.some.inj (hm.symm.trans hm')
    rw [hnone] at hread
    cases hread
  have subscript : ∀ (I : Fin vs.length) cat v, ¬ Yields tup (tup.subscript I cat) v := by
    intro I cat v hyields
    exact extract_leaf I cat v ((tup.yields_subscript I cat v).mp hyields)
  have members : ∀ cat, tup.members cat = none := by
    intro cat
    refine mapM_eq_none (List.ne_nil_of_length_pos (by simp [mkIdSeq]; omega)) fun I hI => ?_
    have hlt : I < vs.length := List.mem_range.mp hI
    obtain ⟨m, hm, hnone⟩ := h ⟨I, hlt⟩ cat.named
    rw [Tuple.subscript_of_lt ⟨I, hlt⟩, hm, Option.map_some, Option.bind_some,
      Tuple.read_subscripted, hnone]
  refine ⟨extract_leaf, subscript, extract_leaf, members, fun β U => ?_, fun β f cat => ?_⟩
  · rw [Tuple.constructWithSelf, members, Option.map_none]
  · rw [Tuple.apply, Tuple.getStdTuple, members, Option.map_none]

end

/-! ## On leaves -/

section
variable {T : Type} {isReference : Bool} {vs : List T}

theorem find?_leaves (vs : List T) (k I : Nat) :
    (List.zipWith TupleLeaf.mk (List.range' k vs.length) vs).find? (fun leaf => leaf.I == k + I)
      = vs[I]?.map (TupleLeaf.mk (k + I)) := by
  induction vs generalizing k I with
  | nil => rfl
  | cons v vs ih =>
      rw [List.length_cons, List.range'_succ, List.zipWith_cons_cons]
      cases I with
      | zero =>
          rw [List.find?_cons_of_pos (by simp)]
          rfl
      | succ I =>
          have hnext : k + (I + 1) = k + 1 + I := by omega
          rw [List.find?_cons_of_neg (by simp), List.getElem?_cons_succ, hnext, ih]

/-- The leaf with a number holds the value at that place. -/
theorem leaf_ofValues (vs : List T) (I : Nat) :
    (TupleBranch.mk (List.zipWith TupleLeaf.mk (mkIdSeq vs.length) vs)).leaf I
      = vs[I]?.map (TupleLeaf.mk I) := by
  have hfind := find?_leaves vs 0 I
  simp only [Nat.zero_add] at hfind
  rw [TupleBranch.leaf, mkIdSeq, List.range_eq_range', hfind]

/-- A tuple that is not on an array shows the values it was built from. -/
theorem branch_sees {cxx20 : Bool} (h : Tuple.isArray_ cxx20 isReference vs.length = false) :
    Sees (Tuple.ofValues cxx20 isReference vs) vs := by
  refine sees_of_extract_leaf fun I cat v hv => ?_
  have hbranch : Tuple.ofValues cxx20 isReference vs
      = ⟨.branch ⟨List.zipWith TupleLeaf.mk (mkIdSeq vs.length) vs⟩⟩ := by
    rw [Tuple.ofValues, h]
    rfl
  rw [hbranch]
  refine ⟨⟨I, cat⟩, ?_, I.2, ?_⟩
  · simp only [Tuple.extract_leaf, TupleBranch.extract_leaf, leaf_ofValues, hv, Option.map_some]
  · simp only [Tuple.read, TupleBranch.read, leaf_ofValues, hv, Option.map_some]

/-! ## On an array -/

/-- Past the end of the array there is nothing. -/
theorem TupleArr.read_extract_leaf {N : Nat} (l : TupleArr N T) (I : Nat) (cat : ValueCat) :
    l.read (l.extract_leaf I cat) = none := dif_neg (Nat.lt_irrefl N)

/-- From C++20 on a tuple of two or more values of one type, which is no reference type,
shows none of them, where before it showed them all. -/
theorem tupleArr_never (vs : List T) (h : 2 ≤ vs.length) :
    Sees (Tuple.ofValues false false vs) vs ∧ SeesNone (Tuple.ofValues true false vs) := by
  refine ⟨branch_sees rfl, seesNone_of_extract_leaf (by omega) fun I cat => ?_⟩
  have harr : Tuple.ofValues true false vs = ⟨.arr ⟨vs.get⟩⟩ := if_pos (by simp [Tuple.isArray_, h])
  rw [harr]
  exact ⟨_, rfl, TupleArr.read_extract_leaf ..⟩

/-- `Tuple<int, int>{1, 2}`. -/
theorem pair_never :
    Sees (Tuple.ofValues false false [1, 2]) [1, 2] ∧ SeesNone (Tuple.ofValues true false [1, 2]) :=
  tupleArr_never [1, 2] (by decide)

/-- `get<0>` of a `Tuple<int, int>{1, 2}` in C++20 is the reference to the third of its two
members. -/
theorem pair_get_past_end :
    (Tuple.ofValues false false [1, 2]).get 0 .lvalue = some ⟨0, .lvalue⟩ ∧
    (Tuple.ofValues false false [1, 2]).read ⟨0, .lvalue⟩ = some 1 ∧
    (Tuple.ofValues true false [1, 2]).get 0 .lvalue = some ⟨2, .lvalue⟩ ∧
    (Tuple.ofValues true false [1, 2]).read ⟨2, .lvalue⟩ = none ∧
    ¬ Sees (Tuple.ofValues true false [1, 2]) [1, 2] := by
  refine ⟨rfl, rfl, rfl, rfl, ?_⟩
  intro h
  have hstd := h.getStdTuple .lvalue
  cases hstd

end
end EflCore
