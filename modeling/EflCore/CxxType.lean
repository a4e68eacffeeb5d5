/-
# `EflCore.CxxType` — the types that can be written down

A type expression is written with `const`, `volatile`, `*`, `&`, `&&`, `[n]` and `[]` around the
types that have names.  What it denotes is not the expression again.

    const T&, of a named reference     the reference: a qualifier on it is dropped
    & and && on a reference            one reference, `&&` only if all of them are
    const on an array                  an array of const elements
    * and [n] on a reference           nothing

So what it denotes (`Ty`) is an object type or a reference to one, and in an object type there
is no reference at all; an array has no qualifiers of its own but those of its elements.  Two
expressions denote the same type exactly if they come to the same `Ty`.

Beside them stand traits of the language's own library, each by what it says of a type.
-/
import Mathlib.Init
import Mathlib.Tactic.Basic

namespace CxxType

/-- Qualifiers. -/
structure Cv where
  isConst : Bool
  isVolatile : Bool
  deriving DecidableEq, Repr

namespace Cv

def none : Cv := ⟨false, false⟩

def const : Cv := ⟨true, false⟩

def volatile : Cv := ⟨false, true⟩

/-- The qualifiers of either. -/
def union (c d : Cv) : Cv := ⟨c.isConst || d.isConst, c.isVolatile || d.isVolatile⟩

end Cv

/-- Types with names in `ι`; an enumeration is named with its underlying type. -/
inductive NamedType (ι : Type) where
  | void
  | fundamental (n : ι)
  | nullptr_t
  | class_ (n : ι)
  | scopedEnum (n underlying : ι)
  | unscopedEnum (n underlying : ι)
  deriving DecidableEq, Repr

/-- Object types, and `void`. -/
inductive Obj (ι : Type) where
  | named (cv : Cv) (n : NamedType ι)
  | pointer (cv : Cv) (pointee : Obj ι)
  | array (element : Obj ι) (bound : Option Nat)
  deriving DecidableEq, Repr

inductive Ty (ι : Type) where
  | object (T : Obj ι)
  | lref (T : Obj ι)
  | rref (T : Obj ι)
  deriving DecidableEq, Repr

section
variable {ι : Type}

/-! ## Formation -/

namespace Obj

/-- The qualifiers of a type; those of an array are those of its elements. -/
def cv : Obj ι → Cv
  | named c _ | pointer c _ => c
  | array T _ => T.cv

/-- The type with these qualifiers added. -/
def addCv (c : Cv) : Obj ι → Obj ι
  | named d n => named (c.union d) n
  | pointer d T => pointer (c.union d) T
  | array T n => array (T.addCv c) n

/-- There are references to it and arrays of it, as far as `void` goes. -/
def isVoid : Obj ι → Bool
  | named _ .void => true
  | _ => false

/-- It can be the type of an element. -/
def isComplete : Obj ι → Bool
  | named _ .void | array _ none => false
  | _ => true

end Obj

inductive TypeExpr (ι : Type) where
  | named (n : NamedType ι)
  | const (e : TypeExpr ι)
  | volatile (e : TypeExpr ι)
  | pointer (e : TypeExpr ι)
  | lref (e : TypeExpr ι)
  | rref (e : TypeExpr ι)
  | bounded (e : TypeExpr ι) (n : Nat)
  | unbounded (e : TypeExpr ι)

namespace Ty

/-- Qualifiers on a reference are dropped. -/
def addCv (c : Cv) : Ty ι → Ty ι
  | object T => object (T.addCv c)
  | lref T => lref T
  | rref T => rref T

def addPointer : Ty ι → Option (Ty ι)
  | object T => some (object (.pointer .none T))
  | lref _ | rref _ => none

def addLref : Ty ι → Option (Ty ι)
  | object T => if T.isVoid then none else some (lref T)
  | lref T | rref T => some (lref T)

def addRref : Ty ι → Option (Ty ι)
  | object T => if T.isVoid then none else some (rref T)
  | lref T => some (lref T)
  | rref T => some (rref T)

def arrayOf (bound : Option Nat) : Ty ι → Option (Ty ι)
  | object T => if T.isComplete ∧ bound ≠ some 0 then some (object (.array T bound)) else none
  | lref _ | rref _ => none

end Ty

/-- The type an expression denotes, if it denotes one. -/
def TypeExpr.type : TypeExpr ι → Option (Ty ι)
  | named n => some (.object (.named .none n))
  | const e => e.type.map (Ty.addCv .const)
  | volatile e => e.type.map (Ty.addCv .volatile)
  | pointer e => e.type.bind Ty.addPointer
  | lref e => e.type.bind Ty.addLref
  | rref e => e.type.bind Ty.addRref
  | bounded e n => e.type.bind (Ty.arrayOf (some n))
  | unbounded e => e.type.bind (Ty.arrayOf none)

/-! ## Traits -/

namespace Obj

/-- `std::remove_cv`. -/
def removeCv : Obj ι → Obj ι
  | named _ n => named .none n
  | pointer _ T => pointer .none T
  | array T n => array T.removeCv n

/-- Nothing is taken from a type exactly if it has no qualifiers. -/
theorem removeCv_eq_iff {T : Obj ι} : T.removeCv = T ↔ T.cv = .none := by
  induction T with
  | named c n => simp [removeCv, cv, eq_comm]
  | pointer c T => simp [removeCv, cv, eq_comm]
  | array T n ih => simp [removeCv, cv, ih]

theorem cv_removeCv (T : Obj ι) : T.removeCv.cv = .none := by
  induction T with
  | named c n => rfl
  | pointer c T => rfl
  | array T n ih => exact ih

@[simp] theorem removeCv_removeCv (T : Obj ι) : T.removeCv.removeCv = T.removeCv :=
  removeCv_eq_iff.mpr T.cv_removeCv

end Obj

namespace Ty

/-- `std::remove_cv`. -/
def removeCv : Ty ι → Ty ι
  | object T => object T.removeCv
  | lref T => lref T
  | rref T => rref T

/-- `std::remove_reference`. -/
def removeReference : Ty ι → Ty ι
  | object T | lref T | rref T => object T

/-- `std::is_enum`. -/
def isEnum : Ty ι → Bool
  | object (.named _ (.scopedEnum _ _)) | object (.named _ (.unscopedEnum _ _)) => true
  | _ => false

/-- `std::underlying_type`, of an enumeration. -/
def underlyingType : Ty ι → Option (Ty ι)
  | object (.named _ (.scopedEnum _ U)) | object (.named _ (.unscopedEnum _ U)) =>
      some (object (.named .none (.fundamental U)))
  | _ => none

/-- `std::is_convertible`, from an enumeration to a fundamental type that is not `void`: a scoped
one is converted to nothing, and an unscoped one to every arithmetic type. -/
def isConvertible : Ty ι → Ty ι → Bool
  | object (.named _ (.unscopedEnum _ _)), object (.named _ (.fundamental _)) => true
  | _, _ => false

/-- `std::remove_cvref`: the type that is referred to, without its qualifiers. -/
def removeCvref (T : Ty ι) : Ty ι := T.removeReference.removeCv

/-- `std::is_bounded_array`. -/
def isBoundedArray : Ty ι → Bool
  | object (.array _ (some _)) => true
  | _ => false

/-- `std::is_unbounded_array`. -/
def isUnboundedArray : Ty ι → Bool
  | object (.array _ none) => true
  | _ => false

/-- `std::is_null_pointer`: qualified or not. -/
def isNullPointer : Ty ι → Bool
  | object (.named _ .nullptr_t) => true
  | _ => false

/-- `std::is_scoped_enum`: qualified or not. -/
def isScopedEnum : Ty ι → Bool
  | object (.named _ (.scopedEnum _ _)) => true
  | _ => false

/-- Scoped are the enumerations that do not convert to their underlying type. -/
theorem isScopedEnum_iff {T : Ty ι} :
    T.isScopedEnum = true ↔ ∃ U, T.underlyingType = some U ∧ T.isConvertible U = false := by
  match T with
  | object (.named _ n) => cases n <;> simp [isScopedEnum, underlyingType, isConvertible]
  | object (.pointer _ _) | object (.array _ _) | lref _ | rref _ =>
      simp [isScopedEnum, underlyingType]

@[simp] theorem removeCvref_object (T : Obj ι) : removeCvref (object T) = object T.removeCv := rfl

@[simp] theorem removeCvref_removeCvref (T : Ty ι) : T.removeCvref.removeCvref = T.removeCvref := by
  cases T <;> simp [removeCvref, removeReference, removeCv]

end Ty

end
end CxxType
