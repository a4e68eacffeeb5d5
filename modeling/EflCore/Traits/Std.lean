/-
# `EflCore.Traits.Std` — traits the language did not have yet

`Traits/Std.hpp`, where the standard is too old to have the trait: before C++14 `is_null_pointer`,
before C++20 `is_bounded_array`, `is_unbounded_array` and `remove_cvref`, before C++23
`is_scoped_enum`.  A trait that matches a type against a pattern sees the type as it is, with its
qualifiers, and one that is put together from other traits depends on their order.

    is_bounded_array       T[N]
    is_unbounded_array     T[]
    is_null_pointer        decltype(nullptr), and nothing that is const or volatile
    remove_cvref           remove_reference of remove_cv: the qualifiers of a reference are
                           removed, which has none, and then the reference
    is_scoped_enum         an enumeration that converts to its underlying type

The last line is the definition of the enumerations that are *not* scoped.

**Proved here**, for every type.  The five are what the standard says exactly of the
types that are no enumeration, no reference to a qualified type and no qualified `nullptr_t`
(`traits_right_iff`).
-/
import EflCore.CxxType

namespace EflCore

open CxxType

section
variable {ι : Type}

/-! ## The traits -/

namespace Traits

def isNullPointer : Ty ι → Bool
  | .object (.named ⟨false, false⟩ .nullptr_t) => true
  | _ => false

def isBoundedArray : Ty ι → Bool
  | .object (.array _ (some _)) => true
  | _ => false

def isUnboundedArray : Ty ι → Bool
  | .object (.array _ none) => true
  | _ => false

def removeCvref (T : Ty ι) : Ty ι := T.removeCv.removeReference

/-- `H::IsScopedEnum<T, B>`. -/
def isScopedEnumIf (T : Ty ι) : Bool → Bool
  | false => false
  | true => T.underlyingType.any T.isConvertible

def isScopedEnum (T : Ty ι) : Bool := isScopedEnumIf T T.isEnum

end Traits

/-- The traits of a type are what the standard says they are. -/
structure TraitsRight (T : Ty ι) : Prop where
  isNullPointer : Traits.isNullPointer T = T.isNullPointer
  isBoundedArray : Traits.isBoundedArray T = T.isBoundedArray
  isUnboundedArray : Traits.isUnboundedArray T = T.isUnboundedArray
  removeCvref : Traits.removeCvref T = T.removeCvref
  idempotent : Traits.removeCvref (Traits.removeCvref T) = Traits.removeCvref T
  isScopedEnum : Traits.isScopedEnum T = T.isScopedEnum
  notConverted : Traits.isScopedEnum T = true ↔
    ∃ U, T.underlyingType = some U ∧ T.isConvertible U = false

/-- No enumeration, no qualified `nullptr_t` and no reference to a qualified type. -/
structure Covered (T : Ty ι) : Prop where
  notEnum : T.isEnum = false
  nullptr : ∀ c, T = .object (.named c .nullptr_t) → c = .none
  reference : ∀ U, T = .lref U ∨ T = .rref U → U.cv = .none

/-! ## One trait at a time -/

variable {T : Ty ι}

/-- The specialisation is of `nullptr_t` itself. -/
theorem isNullPointer_eq_iff :
    Traits.isNullPointer T = T.isNullPointer ↔
      ∀ c, T = .object (.named c .nullptr_t) → c = .none := by
  by_cases h : ∃ c, T = .object (.named c .nullptr_t)
  · obtain ⟨⟨x, y⟩, rfl⟩ := h
    cases x <;> cases y <;> simp [Traits.isNullPointer, Ty.isNullPointer, Cv.none]
  · have hfallback : Traits.isNullPointer T = false := by
      unfold Traits.isNullPointer
      split
      · exact absurd ⟨_, rfl⟩ h
      · rfl
    have hstd : T.isNullPointer = false := by
      unfold Ty.isNullPointer
      split
      · exact absurd ⟨_, rfl⟩ h
      · rfl
    rw [hfallback, hstd]
    exact ⟨fun _ c hc => absurd ⟨c, hc⟩ h, fun _ => rfl⟩

/-- Behind a reference the qualifiers stay. -/
theorem removeCvref_reference {U : Obj ι} (hT : T = .lref U ∨ T = .rref U) :
    Traits.removeCvref T = .object U := by
  rcases hT with rfl | rfl
  · rfl
  · rfl

theorem forall_referent_iff {U : Obj ι} {p : Obj ι → Prop} (hT : T = .lref U ∨ T = .rref U) :
    (∀ V, T = .lref V ∨ T = .rref V → p V) ↔ p U := by
  constructor
  · intro h
    exact h U hT
  · rintro hU V (hV | hV)
    · rcases hT with rfl | rfl
      · cases hV
        exact hU
      · cases hV
    · rcases hT with rfl | rfl
      · cases hV
      · cases hV
        exact hU

theorem removeCvref_eq_iff :
    Traits.removeCvref T = T.removeCvref ↔ ∀ U, T = .lref U ∨ T = .rref U → U.cv = .none := by
  by_cases href : ∃ U, T = .lref U ∨ T = .rref U
  · obtain ⟨U, hT⟩ := href
    have hstd : T.removeCvref = .object U.removeCv := by
      rcases hT with rfl | rfl
      · rfl
      · rfl
    rw [removeCvref_reference hT, hstd, Ty.object.injEq, eq_comm, Obj.removeCv_eq_iff,
      forall_referent_iff hT]
  · cases T with
    | object U => exact iff_of_true rfl fun V hV => absurd ⟨V, hV⟩ href
    | lref U => exact absurd ⟨U, .inl rfl⟩ href
    | rref U => exact absurd ⟨U, .inr rfl⟩ href

/-- Of an enumeration the trait says the opposite. -/
theorem isScopedEnum_of_isEnum (h : T.isEnum = true) :
    Traits.isScopedEnum T = !T.isScopedEnum := by
  unfold Ty.isEnum at h
  split at h
  · rfl
  · rfl
  · cases h

theorem isScopedEnum_eq_iff : Traits.isScopedEnum T = T.isScopedEnum ↔ T.isEnum = false := by
  cases henum : T.isEnum with
  | true =>
      rw [isScopedEnum_of_isEnum henum]
      simp
  | false =>
      have hfallback : Traits.isScopedEnum T = false := by
        rw [Traits.isScopedEnum, henum]
        rfl
      have hstd : T.isScopedEnum = false := by
        unfold Ty.isScopedEnum
        split
        · cases henum
        · rfl
      rw [hfallback, hstd]

/-- All five traits are what they are in the standard exactly of the types that are no
enumeration, no reference to something qualified, and no qualified `nullptr_t`. -/
theorem traits_right_iff (T : Ty ι) : TraitsRight T ↔ Covered T := by
  constructor
  · intro h
    exact
      { notEnum := isScopedEnum_eq_iff.mp h.isScopedEnum
        nullptr := isNullPointer_eq_iff.mp h.isNullPointer
        reference := removeCvref_eq_iff.mp h.removeCvref }
  · intro h
    have hcvref := removeCvref_eq_iff.mpr h.reference
    have hscoped := isScopedEnum_eq_iff.mpr h.notEnum
    refine ⟨isNullPointer_eq_iff.mpr h.nullptr, rfl, rfl, hcvref, ?_, hscoped, ?_⟩
    · -- what is left is no reference
      rw [hcvref]
      cases T <;> exact congrArg Ty.object (Obj.removeCv_removeCv _)
    · rw [hscoped]
      exact Ty.isScopedEnum_iff

end

/-- `int`, and `enum class E : int`. -/
inductive TypeName where
  | int
  | E
  deriving DecidableEq, Repr

/-- `const int*&&`: the pointer has no qualifier. -/
theorem traits_of_pointer :
    TraitsRight (.rref (.pointer .none (.named .const (.fundamental TypeName.int)))) := by
  refine (traits_right_iff _).mpr ⟨rfl, ?_, ?_⟩
  · intro c h
    cases h
  · rintro U (h | h)
    · cases h
    · cases h
      rfl

/-- `const int&`, `E` and `const nullptr_t`. -/
theorem traits_wrong :
    let int : NamedType TypeName := .fundamental .int
    (∃ T, (TypeExpr.lref (.const (.named int))).type = some T ∧
      Traits.removeCvref T ≠ T.removeCvref ∧
      Traits.removeCvref (Traits.removeCvref T) ≠ Traits.removeCvref T) ∧
    (∃ T, (TypeExpr.named (.scopedEnum TypeName.E TypeName.int)).type = some T ∧
      Traits.isScopedEnum T ≠ T.isScopedEnum) ∧
    (∃ T, (TypeExpr.const (.named (ι := TypeName) .nullptr_t)).type = some T ∧
      Traits.isNullPointer T ≠ T.isNullPointer) ∧
    ¬ ∀ (e : TypeExpr TypeName) (T : Ty TypeName), e.type = some T → TraitsRight T := by
  refine ⟨⟨_, rfl, by decide, by decide⟩, ⟨_, rfl, by decide⟩, ⟨_, rfl, by decide⟩, ?_⟩
  intro h
  have hE := h (.named (.scopedEnum .E .int)) _ rfl
  exact absurd hE.isScopedEnum (by decide)

end EflCore
