/-
# `EflCore.Option.Compare` — the comparison operators of `Option`

`Option/Compare.hpp`, one definition for each overload, with the operands and the
connectives in the order the source has them.  A formula is evaluated from left to
right and stops as soon as it is decided, so it is a computation (`Eval`): `*t` of
an empty option is undefined, and a formula is right only if it never gets there.

| namespace      | operands             |
| :--            | :--                  |
| `OptionOption` | `Option<T>`, `Option<U>` |
| `OptionValue`  | `Option<T>`, `U`     |
| `ValueOption`  | `U`, `Option<T>`     |
| `OptionNull`   | `Option<T>`, `NullOpt` |
| `NullOption`   | `NullOpt`, `Option<T>` |

Two things get in the way of a formula that is right.  `*t` asserts that there is a value,
and there is a build whose macros abort on what is true (`OptionKind.Passes`).  And `U` can be
an option itself; then the first line is more specialized than the next two, where its operators
are there.

**Proved here.**

* The `!=` are the negations of the `==` exactly when, of every two options that are compared,
  the right one is empty or both hold equal values, and nothing that is read aborts
  (`option_ne_iff`).
* The ordering operators on `Option<T>` are the order of `T` with a least element below it,
  `nullopt`, and mixed comparisons therefore consistent, transitive and total, exactly when `T` is
  no option and the assertions let true conditions pass (`option_order_iff`).
-/
import EflCore.Checked
import Mathlib.Order.Compare
import Mathlib.Order.Hom.Basic
import Mathlib.Order.WithBot

namespace EflCore

open Lifetime (Stop)

/-- The value of an expression, unless evaluating it goes wrong. -/
abbrev Eval (α : Type) : Type := Except Stop α

section
variable {T U : Type}

/-- `bool_cast` of an option. -/
def boolCast (t : Option T) : Bool := t.isSome

/-- What kind of class an `Option<T>` is. -/
inductive OptionKind where
  /-- one of this library, in the build `b` -/
  | own (b : Build)
  /-- derived from `std::optional<T>`, as from C++17 on where `T` is no reference -/
  | std

/-- `EFLI_CXPR11ASSERT_(expr)`, where the class is of this library. -/
def OptionKind.cxpr11Assert : OptionKind → Bool → Eval Unit
  | own b, expr => if dbgAssert b expr then throw .aborted else pure ()
  | std, _ => pure ()

/-- The assertions of the class let a true condition pass. -/
def OptionKind.Passes : OptionKind → Prop
  | own b => b.dialect = .cxx14 → b.debug = false
  | std => True

/-- `unwrap() const&`. -/
def unwrap (c : OptionKind) (t : Option T) : Eval T := do
  c.cxpr11Assert t.isSome
  match t with
  | some v => pure v
  | none => throw .undefined

/-- `*t`, which is `operator*() const&`. -/
def star (c : OptionKind) (t : Option T) : Eval T := do
  c.cxpr11Assert t.isSome
  unwrap c t

theorem star_some {c : OptionKind} (h : c.Passes) (x : T) : star c (some x) = .ok x := by
  cases c with
  | std => rfl
  | own b =>
      have hpass : dbgAssert b true = false := (dbgAssert_true b).mpr h
      simp only [star, unwrap, OptionKind.cxpr11Assert, Option.isSome_some, hpass,
        Bool.false_eq_true, if_false]
      rfl

theorem star_some_aborts {c : OptionKind} (h : ¬ c.Passes) (x : T) :
    star c (some x) = .error .aborted := by
  cases c with
  | std => exact absurd trivial h
  | own b =>
      have habort : dbgAssert b true = true := by
        rw [← Bool.not_eq_false, dbgAssert_true]
        exact h
      simp only [star, OptionKind.cxpr11Assert, Option.isSome_some, habort, if_true]
      rfl

/-- Nothing is read of an empty option. -/
theorem star_none (c : OptionKind) (x : T) : star c (none : Option T) ≠ .ok x := by
  cases c with
  | std =>
      intro h
      cases h
  | own b =>
      cases hassert : dbgAssert b false with
      | true =>
          simp only [star, OptionKind.cxpr11Assert, Option.isSome_none, hassert, if_true]
          intro h
          cases h
      | false =>
          simp only [star, unwrap, OptionKind.cxpr11Assert, Option.isSome_none, hassert,
            Bool.false_eq_true, if_false]
          intro h
          cases h

/-! ## Equality

The element types come with an `==` and a `!=` of their own, which are
complementary. -/

/-- `==` and `!=` on `T` and `U`. -/
structure EqOps (T U : Type) where
  eq : T → U → Bool
  ne : T → U → Bool
  ne_eq : ∀ x y, ne x y = !eq x y

namespace OptionOption
variable (c d : OptionKind)

def eq (op : EqOps T U) (t : Option T) (u : Option U) : Eval Bool :=
  pure (boolCast t == boolCast u) <&&> (pure (!boolCast t) <||> op.eq <$> star c t <*> star d u)

def ne (op : EqOps T U) (t : Option T) (u : Option U) : Eval Bool :=
  pure (boolCast t != boolCast u) <&&> (pure (boolCast t) <||> op.ne <$> star c t <*> star d u)

end OptionOption

namespace OptionValue
variable (c : OptionKind)

def eq (op : EqOps T U) (t : Option T) (u : U) : Eval Bool :=
  pure (boolCast t) <&&> (op.eq · u) <$> star c t

def ne (op : EqOps T U) (t : Option T) (u : U) : Eval Bool :=
  pure (!boolCast t) <||> (op.ne · u) <$> star c t

end OptionValue

namespace ValueOption
variable (c : OptionKind)

def eq (op : EqOps U T) (u : U) (t : Option T) : Eval Bool :=
  pure (boolCast t) <&&> op.eq u <$> star c t

def ne (op : EqOps U T) (u : U) (t : Option T) : Eval Bool :=
  pure (!boolCast t) <||> op.ne u <$> star c t

end ValueOption

namespace OptionNull

def eq (t : Option T) : Eval Bool := pure (!boolCast t)

def ne (t : Option T) : Eval Bool := pure (boolCast t)

end OptionNull

namespace NullOption

def eq (t : Option T) : Eval Bool := pure (!boolCast t)

def ne (t : Option T) : Eval Bool := pure (boolCast t)

end NullOption

/-- The other operand of a comparison with an option, as overload resolution sees it: an
`Option<U>`, if the overload for two options is viable for that, and otherwise a value. -/
inductive Compared (U : Type) where
  | value (v : U)
  | option (v : Option U)

namespace Compared

/-- `t == v`, and so on; `c` and `d` are the classes of `Option<T>` and `Option<U>`. -/
def eqRight (c d : OptionKind) (op : EqOps T U) (t : Option T) : Compared U → Eval Bool
  | value v => OptionValue.eq c op t v
  | option v => OptionOption.eq c d op t v

def neRight (c d : OptionKind) (op : EqOps T U) (t : Option T) : Compared U → Eval Bool
  | value v => OptionValue.ne c op t v
  | option v => OptionOption.ne c d op t v

def eqLeft (c d : OptionKind) (po : EqOps U T) (t : Option T) : Compared U → Eval Bool
  | value v => ValueOption.eq c po v t
  | option v => OptionOption.eq d c po v t

def neLeft (c d : OptionKind) (po : EqOps U T) (t : Option T) : Compared U → Eval Bool
  | value v => ValueOption.ne c po v t
  | option v => OptionOption.ne d c po v t

end Compared

/-- Two expressions evaluate, and one is the negation of the other. -/
def Opposite (x y : Eval Bool) : Prop := ∃ b, x = .ok b ∧ y = .ok (!b)

variable {V : Type}

/-- What equality of an option with an option, a value and `nullopt` should be; the value may be
an option. -/
structure EqualityRight (c d e : OptionKind) (op : EqOps T U) (vr : EqOps T V) (vl : EqOps V T)
    (t : Option T) (u : Option U) (v : Compared V) : Prop where
  options : Opposite (OptionOption.eq c d op t u) (OptionOption.ne c d op t u)
  equal_iff : OptionOption.eq c d op t u = .ok true ↔
    t = none ∧ u = none ∨ ∃ x y, t = some x ∧ u = some y ∧ op.eq x y = true
  value_right : Opposite (v.eqRight c e vr t) (v.neRight c e vr t)
  value_left : Opposite (v.eqLeft c e vl t) (v.neLeft c e vl t)
  null_right : Opposite (OptionNull.eq t) (OptionNull.ne t)
  null_left : Opposite (NullOption.eq t) (NullOption.ne t)

/-- The second option is empty, or both hold equal values that can be read. -/
def Agree (c d : OptionKind) (op : EqOps T U) (t : Option T) (u : Option U) : Prop :=
  u = none ∨ ∃ x y, t = some x ∧ u = some y ∧ op.eq x y = true ∧ c.Passes ∧ d.Passes

section
variable {c d e : OptionKind} {op : EqOps T U} {t : Option T} {u : Option U}

theorem optionOption_some (hc : c.Passes) (hd : d.Passes) (x : T) (y : U) :
    OptionOption.eq c d op (some x) (some y) = .ok (op.eq x y) := by
  show (op.eq <$> star c (some x) <*> star d (some y) : Eval Bool) = _
  rw [star_some hc, star_some hd]
  rfl

/-- Both have to be read before `==` of two values is known. -/
theorem optionOption_some_aborts (h : ¬ (c.Passes ∧ d.Passes)) (x : T) (y : U) :
    OptionOption.eq c d op (some x) (some y) = .error .aborted := by
  show (op.eq <$> star c (some x) <*> star d (some y) : Eval Bool) = _
  by_cases hc : c.Passes
  · rw [star_some hc, star_some_aborts fun hd => h ⟨hc, hd⟩]
    rfl
  · rw [star_some_aborts hc]
    rfl

/-- The two formulas of `(Option, Option)` agree where the right option is empty,
or both hold equal values, and nowhere else: two different values are not `!=`,
and against an empty left option `!=` reads it. -/
theorem optionOption_opposite_iff :
    Opposite (OptionOption.eq c d op t u) (OptionOption.ne c d op t u) ↔ Agree c d op t u := by
  constructor
  · rintro ⟨b, heq, hne⟩
    cases u with
    | none => exact .inl rfl
    | some y =>
        cases t with
        | none =>
            -- `!=` goes on to read the empty one
            have hread : (op.ne <$> star c none <*> star d (some y) : Eval Bool) = .ok !b := hne
            cases hstar : star c (none : Option T) with
            | ok x => exact absurd hstar (star_none c x)
            | error e =>
                rw [hstar] at hread
                cases hread
        | some x =>
            have hpass : c.Passes ∧ d.Passes := by
              by_contra h
              rw [optionOption_some_aborts h] at heq
              cases heq
            rw [optionOption_some hpass.1 hpass.2] at heq
            obtain rfl : op.eq x y = b := Except.ok.inj heq
            have hne : false = !op.eq x y := Except.ok.inj hne
            exact .inr ⟨x, y, rfl, rfl, by simpa using hne.symm, hpass⟩
  · rintro (rfl | ⟨x, y, rfl, rfl, hxy, hc, hd⟩)
    · cases t with
      | none => exact ⟨true, rfl, rfl⟩
      | some x => exact ⟨false, rfl, rfl⟩
    · exact ⟨true, (optionOption_some hc hd x y).trans (congrArg Except.ok hxy), rfl⟩

theorem optionOption_eq_iff (h : Agree c d op t u) :
    OptionOption.eq c d op t u = .ok true ↔
      t = none ∧ u = none ∨ ∃ x y, t = some x ∧ u = some y ∧ op.eq x y = true := by
  rcases h with rfl | ⟨x, y, rfl, rfl, hxy, hc, hd⟩
  · cases t with
    | none => exact iff_of_true rfl (.inl ⟨rfl, rfl⟩)
    | some x =>
        refine iff_of_false ?_ ?_
        · intro h
          cases h
        · rintro (⟨⟨⟩, -⟩ | ⟨_, _, -, ⟨⟩, _⟩)
  · refine iff_of_true ?_ (.inr ⟨x, y, rfl, rfl, hxy⟩)
    exact (optionOption_some hc hd x y).trans (congrArg Except.ok hxy)

theorem optionValue_opposite_iff {op : EqOps T V} {v : V} :
    Opposite (OptionValue.eq c op t v) (OptionValue.ne c op t v) ↔ (t ≠ none → c.Passes) := by
  cases t with
  | none => exact iff_of_true ⟨false, rfl, rfl⟩ fun h => absurd rfl h
  | some x =>
      rw [forall_prop_of_true (Option.some_ne_none x)]
      have heq : OptionValue.eq c op (some x) v = (op.eq · v) <$> star c (some x) := rfl
      have hne : OptionValue.ne c op (some x) v = (op.ne · v) <$> star c (some x) := rfl
      rw [heq, hne]
      by_cases hc : c.Passes
      · rw [star_some hc]
        exact iff_of_true ⟨op.eq x v, rfl, congrArg Except.ok (op.ne_eq x v)⟩ hc
      · rw [star_some_aborts hc]
        refine iff_of_false ?_ hc
        rintro ⟨b, hb, -⟩
        cases hb

theorem valueOption_opposite_iff {op : EqOps V T} {v : V} :
    Opposite (ValueOption.eq c op v t) (ValueOption.ne c op v t) ↔ (t ≠ none → c.Passes) := by
  cases t with
  | none => exact iff_of_true ⟨false, rfl, rfl⟩ fun h => absurd rfl h
  | some x =>
      rw [forall_prop_of_true (Option.some_ne_none x)]
      have heq : ValueOption.eq c op v (some x) = op.eq v <$> star c (some x) := rfl
      have hne : ValueOption.ne c op v (some x) = op.ne v <$> star c (some x) := rfl
      rw [heq, hne]
      by_cases hc : c.Passes
      · rw [star_some hc]
        exact iff_of_true ⟨op.eq v x, rfl, congrArg Except.ok (op.ne_eq v x)⟩ hc
      · rw [star_some_aborts hc]
        refine iff_of_false ?_ hc
        rintro ⟨b, hb, -⟩
        cases hb

end

/-- Equality is right exactly when the two options agree, a value is compared with no option that
cannot be read, and an option in the place of the value agrees on either side. -/
theorem option_ne_iff (c d e : OptionKind) (op : EqOps T U) (vr : EqOps T V) (vl : EqOps V T)
    (t : Option T) (u : Option U) (v : Compared V) :
    EqualityRight c d e op vr vl t u v ↔
      Agree c d op t u ∧ match v with
        | .value _ => t ≠ none → c.Passes
        | .option w => Agree c e vr t w ∧ Agree e c vl w t := by
  have hnull : Opposite (OptionNull.eq t) (OptionNull.ne t) := by
    cases t with
    | none => exact ⟨true, rfl, rfl⟩
    | some x => exact ⟨false, rfl, rfl⟩
  constructor
  · intro h
    refine ⟨optionOption_opposite_iff.mp h.options, ?_⟩
    cases v with
    | value v => exact optionValue_opposite_iff.mp h.value_right
    | option w =>
        exact ⟨optionOption_opposite_iff.mp h.value_right, optionOption_opposite_iff.mp h.value_left⟩
  · rintro ⟨hagree, hv⟩
    refine ⟨optionOption_opposite_iff.mpr hagree, optionOption_eq_iff hagree, ?_, ?_, hnull, hnull⟩
    · cases v with
      | value v => exact optionValue_opposite_iff.mpr hv
      | option w => exact optionOption_opposite_iff.mpr hv.1
    · cases v with
      | value v => exact valueOption_opposite_iff.mpr hv
      | option w => exact optionOption_opposite_iff.mpr hv.2

/-- The operators of `int`. -/
def intOps : EqOps Int Int where
  eq x y := decide (x = y)
  ne x y := !decide (x = y)
  ne_eq _ _ := rfl

/-- `1` and `2` are neither equal nor unequal, and `nullopt != 1` reads an empty option. -/
theorem option_ne_wrong :
    OptionOption.eq .std .std intOps (some 1) (some 2) = .ok false ∧
    OptionOption.ne .std .std intOps (some 1) (some 2) = .ok false ∧
    OptionOption.ne .std .std intOps none (some 1) = .error .undefined ∧
    ∀ v, ¬ EqualityRight .std .std .std intOps intOps intOps (some 1) (some 2) v := by
  refine ⟨rfl, rfl, rfl, fun v h => ?_⟩
  obtain ⟨b, heq, hne⟩ := h.options
  cases heq
  cases hne

/-! ## Order

`T` has a linear order, and its operators are those of the order. -/

inductive RelOp where
  | lt
  | gt
  | le
  | ge

namespace RelOp

/-- The relation itself. -/
def holds {α : Type} [LinearOrder α] : RelOp → α → α → Bool
  | lt, x, y => decide (x < y)
  | gt, x, y => decide (x > y)
  | le, x, y => decide (x ≤ y)
  | ge, x, y => decide (x ≥ y)

/-- The operator on `T`. -/
def eval [LinearOrder T] (r : RelOp) (x y : T) : Eval Bool := pure (r.holds x y)

/-- `(x <=> y) @ 0`. -/
def ofOrdering : RelOp → Ordering → Bool
  | lt => Ordering.isLT
  | gt => Ordering.isGT
  | le => Ordering.isLE
  | ge => Ordering.isGE

end RelOp

namespace OptionOption
variable (c d : OptionKind)

section
variable (op : T → U → Eval Bool) (t : Option T) (u : Option U)

def lt : Eval Bool :=
  pure (boolCast u) <&&> (pure (!boolCast t) <||> do op (← star c t) (← star d u))

def gt : Eval Bool :=
  pure (boolCast t) <&&> (pure (!boolCast u) <||> do op (← star c t) (← star d u))

def le : Eval Bool :=
  pure (!boolCast t) <||> (pure (boolCast u) <&&> do op (← star c t) (← star d u))

def ge : Eval Bool :=
  pure (!boolCast u) <||> (pure (boolCast t) <&&> do op (← star c t) (← star d u))

def rel : RelOp → Eval Bool
  | .lt => lt c d op t u
  | .gt => gt c d op t u
  | .le => le c d op t u
  | .ge => ge c d op t u

end

/-- `operator<=>`. -/
def cmp [LinearOrder T] (t u : Option T) : Eval Ordering :=
  if boolCast t && boolCast u then compare <$> star c t <*> star d u
  else pure (compare (boolCast t) (boolCast u))

end OptionOption

namespace OptionValue
variable (c : OptionKind)

section
variable (op : T → U → Eval Bool) (t : Option T) (u : U)

def lt : Eval Bool := pure (!boolCast t) <||> do op (← star c t) u

def gt : Eval Bool := pure (boolCast t) <&&> do op (← star c t) u

def le : Eval Bool := pure (!boolCast t) <||> do op (← star c t) u

def ge : Eval Bool := pure (boolCast t) <&&> do op (← star c t) u

def rel : RelOp → Eval Bool
  | .lt => lt c op t u
  | .gt => gt c op t u
  | .le => le c op t u
  | .ge => ge c op t u

end

/-- `operator<=>`. -/
def cmp [LinearOrder T] (t : Option T) (u : T) : Eval Ordering :=
  if boolCast t then (compare · u) <$> star c t else pure .lt

end OptionValue

namespace ValueOption
variable (c : OptionKind) (op : U → T → Eval Bool) (u : U) (t : Option T)

def lt : Eval Bool := pure (boolCast t) <&&> do op u (← star c t)

def gt : Eval Bool := pure (!boolCast t) <||> do op u (← star c t)

def le : Eval Bool := pure (boolCast t) <&&> do op u (← star c t)

def ge : Eval Bool := pure (!boolCast t) <||> do op u (← star c t)

def rel : RelOp → Eval Bool
  | .lt => lt c op u t
  | .gt => gt c op u t
  | .le => le c op u t
  | .ge => ge c op u t

end ValueOption

namespace OptionNull

def rel (t : Option T) : RelOp → Eval Bool
  | .lt => pure false
  | .gt => pure (boolCast t)
  | .le => pure (!boolCast t)
  | .ge => pure true

/-- `operator<=>`. -/
def cmp (t : Option T) : Eval Ordering := pure (compare (boolCast t) false)

end OptionNull

namespace NullOption

def rel (t : Option T) : RelOp → Eval Bool
  | .lt => pure (boolCast t)
  | .gt => pure false
  | .le => pure true
  | .ge => pure (!boolCast t)

end NullOption

section Order
variable [LinearOrder T]

/-! ### Which overload a comparison means -/

/-- An operand of a comparison. -/
inductive Operand (T : Type) where
  | option (t : Option T)
  | value (v : T)
  | nullopt

/-- `T` is an `Option<W>`, ordered as such, and the overloads for two options are viable for an
`Option<T>` and a `T`. -/
structure OptionElement (T : Type) [LinearOrder T] where
  W : Type
  [order : LinearOrder W]
  cls : OptionKind
  iso : T ≃o WithBot W

namespace OptionElement

instance (N : OptionElement T) : LinearOrder N.W := N.order

/-- A `T`, as the option it is. -/
def option (N : OptionElement T) (v : T) : Option N.W := N.iso v

/-- `t @ v` for an option `t` and a value `v`; what the formula compares is a `T` and a `W`. -/
def relRight (N : OptionElement T) (c : OptionKind) (t : Option T) (v : T) (r : RelOp) :
    Eval Bool :=
  OptionOption.rel c N.cls (fun x w => OptionValue.rel N.cls r.eval (N.option x) w r) t (N.option v) r

def relLeft (N : OptionElement T) (c : OptionKind) (v : T) (t : Option T) (r : RelOp) : Eval Bool :=
  OptionOption.rel N.cls c (fun w x => ValueOption.rel N.cls r.eval w (N.option x) r) (N.option v) t r

end OptionElement

/-- `a <=> b`; with the option on the right it is rewritten as `0 <=> (b <=> a)`.  For an option
and a value it is constrained to values that are no options. -/
def evalCmp (c : OptionKind) (N : Option (OptionElement T)) :
    Operand T → Operand T → Option (Eval Ordering)
  | .option t, .option u => some (OptionOption.cmp c c t u)
  | .option t, .value v => if N.isSome then none else some (OptionValue.cmp c t v)
  | .option t, .nullopt => some (OptionNull.cmp t)
  | .value v, .option t => if N.isSome then none else some (Ordering.swap <$> OptionValue.cmp c t v)
  | .nullopt, .option t => some (Ordering.swap <$> OptionNull.cmp t)
  | _, _ => none

/-- `a @ b`.  From C++20 on there are no relational operators for `nullopt`, and the
comparison is rewritten with `<=>`. -/
def evalRel (c : OptionKind) (N : Option (OptionElement T)) (cxx20 : Bool) (r : RelOp) :
    Operand T → Operand T → Option (Eval Bool)
  | .option t, .option u => some (OptionOption.rel c c r.eval t u r)
  | .option t, .value v => some <| match N with
      | some N => N.relRight c t v r
      | none => OptionValue.rel c r.eval t v r
  | .value v, .option t => some <| match N with
      | some N => N.relLeft c v t r
      | none => ValueOption.rel c r.eval v t r
  | .option t, .nullopt =>
      if cxx20 then (evalCmp c N (.option t) .nullopt).map (r.ofOrdering <$> ·)
      else some (OptionNull.rel t r)
  | .nullopt, .option t =>
      if cxx20 then (evalCmp c N .nullopt (.option t)).map (r.ofOrdering <$> ·)
      else some (NullOption.rel t r)
  | _, _ => none

/-! ### The lifted order -/

/-- What an operand stands for: a value, or the least element. -/
def Operand.lift : Operand T → WithBot T
  | .option none | .nullopt => ⊥
  | .option (some v) | .value v => v

/-- The comparisons there are: at least one operand is an option. -/
def Operand.Comparable : Operand T → Operand T → Prop
  | .option _, _ | _, .option _ => True
  | _, _ => False

/-- A comparison with `0` is the relation. -/
theorem ofOrdering_compare {α : Type} [LinearOrder α] (r : RelOp) (x y : α) :
    r.ofOrdering (compare x y) = r.holds x y := by
  rcases lt_trichotomy x y with h | rfl | h
  · rw [compare_lt_iff_lt.mpr h]
    cases r <;> simp [RelOp.ofOrdering, RelOp.holds, h, h.le, h.not_ge, h.not_gt]
  · rw [compare_eq_iff_eq.mpr rfl]
    cases r <;> simp [RelOp.ofOrdering, RelOp.holds]
  · rw [compare_gt_iff_gt.mpr h]
    cases r <;> simp [RelOp.ofOrdering, RelOp.holds, h, h.le, h.not_ge, h.not_gt]

theorem compare_swap {α : Type} [LinearOrder α] (x y : α) : (compare x y).swap = compare y x := by
  rcases lt_trichotomy x y with h | rfl | h
  · rw [compare_lt_iff_lt.mpr h, compare_gt_iff_gt.mpr h]; rfl
  · rw [compare_eq_iff_eq.mpr rfl]; rfl
  · rw [compare_gt_iff_gt.mpr h, compare_lt_iff_lt.mpr h]; rfl

theorem compare_coe (x y : T) : compare (x : WithBot T) y = compare x y := by
  rcases lt_trichotomy x y with h | rfl | h
  · rw [compare_lt_iff_lt.mpr h, compare_lt_iff_lt.mpr (WithBot.coe_lt_coe.mpr h)]
  · rw [compare_eq_iff_eq.mpr rfl, compare_eq_iff_eq.mpr rfl]
  · rw [compare_gt_iff_gt.mpr h, compare_gt_iff_gt.mpr (WithBot.coe_lt_coe.mpr h)]

theorem compare_bot_coe (y : T) : compare (⊥ : WithBot T) y = .lt :=
  compare_lt_iff_lt.mpr (WithBot.bot_lt_coe y)

theorem compare_coe_bot (x : T) : compare (x : WithBot T) ⊥ = .gt :=
  compare_gt_iff_gt.mpr (WithBot.bot_lt_coe x)

theorem compare_bot_bot : compare (⊥ : WithBot T) ⊥ = .eq := compare_eq_iff_eq.mpr rfl

/-! The three overloads of `<=>`, and the relational formulas that are not written with it,
where values can be read. -/

section Read
variable {c : OptionKind} (hread : Nonempty T → c.Passes)

include hread

omit [LinearOrder T] in
theorem star_read (x : T) : star c (some x) = .ok x := star_some (hread ⟨x⟩) x

theorem optionOption_cmp (t u : Option T) :
    OptionOption.cmp c c t u = .ok (compare (Operand.option t).lift (Operand.option u).lift) := by
  rcases t with _ | x <;> rcases u with _ | y
  · exact congrArg Except.ok compare_bot_bot.symm
  · exact congrArg Except.ok (compare_bot_coe y).symm
  · exact congrArg Except.ok (compare_coe_bot x).symm
  · show (compare <$> star c (some x) <*> star c (some y) : Eval Ordering) = _
    rw [star_read hread, star_read hread]
    exact congrArg Except.ok (compare_coe x y).symm

theorem optionValue_cmp (t : Option T) (v : T) :
    OptionValue.cmp c t v = .ok (compare (Operand.option t).lift (Operand.value v).lift) := by
  rcases t with _ | x
  · exact congrArg Except.ok (compare_bot_coe v).symm
  · show ((compare · v) <$> star c (some x) : Eval Ordering) = _
    rw [star_read hread]
    exact congrArg Except.ok (compare_coe x v).symm

omit hread in
theorem optionNull_cmp (t : Option T) :
    OptionNull.cmp t = .ok (compare (Operand.option t).lift (Operand.nullopt : Operand T).lift) := by
  rcases t with _ | x
  · exact congrArg Except.ok compare_bot_bot.symm
  · exact congrArg Except.ok (compare_coe_bot x).symm

theorem evalCmp_eq {a b : Operand T} (h : a.Comparable b) :
    evalCmp c none a b = some (.ok (compare a.lift b.lift)) := by
  cases a with
  | option t =>
      cases b with
      | option u => exact congrArg some (optionOption_cmp hread t u)
      | value v => exact congrArg some (optionValue_cmp hread t v)
      | nullopt => exact congrArg some (optionNull_cmp t)
  | value v =>
      cases b with
      | option t =>
          show some (Ordering.swap <$> OptionValue.cmp c t v) = _
          rw [optionValue_cmp hread]
          exact congrArg (some ∘ Except.ok) (compare_swap _ _)
      | value | nullopt => exact h.elim
  | nullopt =>
      cases b with
      | option t =>
          show some (Ordering.swap <$> OptionNull.cmp t) = _
          rw [optionNull_cmp]
          exact congrArg (some ∘ Except.ok) (compare_swap _ _)
      | value | nullopt => exact h.elim

end Read

/-! The lifted relations, by which operands are the least element. -/

namespace RelOp

theorem holds_bot_bot (r : RelOp) :
    r.holds (⊥ : WithBot T) ⊥ = match r with | lt | gt => false | le | ge => true := by
  cases r <;> simp [holds]

theorem holds_bot_coe (r : RelOp) (y : T) :
    r.holds (⊥ : WithBot T) y = match r with | lt | le => true | gt | ge => false := by
  cases r <;> simp [holds]

theorem holds_coe_bot (r : RelOp) (x : T) :
    r.holds (x : WithBot T) ⊥ = match r with | lt | le => false | gt | ge => true := by
  cases r <;> simp [holds]

theorem holds_coe (r : RelOp) (x y : T) : r.holds (x : WithBot T) y = r.holds x y := by
  cases r <;> simp [holds]

end RelOp

section Read
variable {c : OptionKind} (hread : Nonempty T → c.Passes)

include hread

theorem optionOption_rel (r : RelOp) (t u : Option T) :
    OptionOption.rel c c r.eval t u r
      = .ok (r.holds (Operand.option t).lift (Operand.option u).lift) := by
  rcases t with _ | x <;> rcases u with _ | y
  · have h := RelOp.holds_bot_bot (T := T) r
    cases r <;> exact congrArg Except.ok h.symm
  · have h := RelOp.holds_bot_coe r y
    cases r <;> exact congrArg Except.ok h.symm
  · have h := RelOp.holds_coe_bot r x
    cases r <;> exact congrArg Except.ok h.symm
  · have hread₂ : OptionOption.rel c c r.eval (some x) (some y) r
        = (do r.eval (← star c (some x)) (← star c (some y))) := by cases r <;> rfl
    rw [hread₂, star_read hread, star_read hread]
    exact congrArg Except.ok (RelOp.holds_coe r x y).symm

theorem optionValue_rel (r : RelOp) (t : Option T) (v : T) :
    OptionValue.rel c r.eval t v r
      = .ok (r.holds (Operand.option t).lift (Operand.value v).lift) := by
  rcases t with _ | x
  · have h := RelOp.holds_bot_coe r v
    cases r <;> exact congrArg Except.ok h.symm
  · have hread₁ : OptionValue.rel c r.eval (some x) v r = (do r.eval (← star c (some x)) v) := by
      cases r <;> rfl
    rw [hread₁, star_read hread]
    exact congrArg Except.ok (RelOp.holds_coe r x v).symm

theorem valueOption_rel (r : RelOp) (v : T) (t : Option T) :
    ValueOption.rel c r.eval v t r
      = .ok (r.holds (Operand.value v).lift (Operand.option t).lift) := by
  rcases t with _ | x
  · have h := RelOp.holds_coe_bot r v
    cases r <;> exact congrArg Except.ok h.symm
  · have hread₁ : ValueOption.rel c r.eval v (some x) r = (do r.eval v (← star c (some x))) := by
      cases r <;> rfl
    rw [hread₁, star_read hread]
    exact congrArg Except.ok (RelOp.holds_coe r v x).symm

omit hread in
theorem optionNull_rel (r : RelOp) (t : Option T) :
    OptionNull.rel t r
      = .ok (r.holds (Operand.option t).lift (Operand.nullopt : Operand T).lift) := by
  rcases t with _ | x
  · have h := RelOp.holds_bot_bot (T := T) r
    cases r <;> exact congrArg Except.ok h.symm
  · have h := RelOp.holds_coe_bot r x
    cases r <;> exact congrArg Except.ok h.symm

omit hread in
theorem nullOption_rel (r : RelOp) (t : Option T) :
    NullOption.rel t r
      = .ok (r.holds (Operand.nullopt : Operand T).lift (Operand.option t).lift) := by
  rcases t with _ | x
  · have h := RelOp.holds_bot_bot (T := T) r
    cases r <;> exact congrArg Except.ok h.symm
  · have h := RelOp.holds_bot_coe r x
    cases r <;> exact congrArg Except.ok h.symm

/-- The rewriting of a relational operator with `<=>`. -/
theorem ofOrdering_evalCmp (r : RelOp) {a b : Operand T} (h : a.Comparable b) :
    (evalCmp c none a b).map (r.ofOrdering <$> ·) = some (.ok (r.holds a.lift b.lift)) := by
  rw [evalCmp_eq hread h]
  exact congrArg (some ∘ Except.ok) (ofOrdering_compare r _ _)

theorem evalRel_eq (cxx20 : Bool) (r : RelOp) {a b : Operand T} (h : a.Comparable b) :
    evalRel c none cxx20 r a b = some (.ok (r.holds a.lift b.lift)) := by
  cases a with
  | option t =>
      cases b with
      | option u => exact congrArg some (optionOption_rel hread r t u)
      | value v => exact congrArg some (optionValue_rel hread r t v)
      | nullopt =>
          cases cxx20 with
          | true => exact ofOrdering_evalCmp hread r h
          | false => exact congrArg some (optionNull_rel r t)
  | value v =>
      cases b with
      | option t => exact congrArg some (valueOption_rel hread r v t)
      | value | nullopt => exact h.elim
  | nullopt =>
      cases b with
      | option t =>
          cases cxx20 with
          | true => exact ofOrdering_evalCmp hread r h
          | false => exact congrArg some (nullOption_rel r t)
      | value | nullopt => exact h.elim

end Read

/-- `a @ b` evaluates to `true`. -/
def Says (c : OptionKind) (N : Option (OptionElement T)) (cxx20 : Bool) (r : RelOp)
    (a b : Operand T) : Prop := evalRel c N cxx20 r a b = some (.ok true)

theorem says_iff {c : OptionKind} (hread : Nonempty T → c.Passes) (cxx20 : Bool) (r : RelOp)
    {a b : Operand T} (h : a.Comparable b) :
    Says c none cxx20 r a b ↔ r.holds a.lift b.lift = true := by
  rw [Says, evalRel_eq hread cxx20 r h]
  simp

omit [LinearOrder T] in
theorem Operand.Comparable.symm {a b : Operand T} (h : a.Comparable b) : b.Comparable a := by
  cases a <;> cases b <;> first | exact h.elim | trivial

/-- Every comparison is that of the lifted order, and so they fit together, whichever
overloads they go through. -/
structure OrderRight (c : OptionKind) (N : Option (OptionElement T)) (cxx20 : Bool) : Prop where
  rel : ∀ r (a b : Operand T), a.Comparable b →
    evalRel c N cxx20 r a b = some (.ok (r.holds a.lift b.lift))
  cmp : ∀ a b : Operand T, a.Comparable b → evalCmp c N a b = some (.ok (compare a.lift b.lift))
  consistent : ∀ a b : Operand T, a.Comparable b →
    (Says c N cxx20 .lt a b ↔ Says c N cxx20 .gt b a) ∧
    (Says c N cxx20 .lt a b ↔ ¬ Says c N cxx20 .ge a b) ∧
    (Says c N cxx20 .le a b ↔ Says c N cxx20 .ge b a) ∧
    (Says c N cxx20 .le a b ↔ ¬ Says c N cxx20 .gt a b)
  transitive : ∀ a b d : Operand T, a.Comparable b → b.Comparable d → a.Comparable d →
    (Says c N cxx20 .lt a b → Says c N cxx20 .lt b d → Says c N cxx20 .lt a d) ∧
    (Says c N cxx20 .le a b → Says c N cxx20 .le b d → Says c N cxx20 .le a d)
  total : ∀ a b : Operand T, a.Comparable b → Says c N cxx20 .le a b ∨ Says c N cxx20 .le b a

variable {c : OptionKind} {N : Option (OptionElement T)} {cxx20 : Bool}

theorem OrderRight.of_read (hread : Nonempty T → c.Passes) :
    OrderRight (T := T) c none cxx20 where
  rel r _ _ := evalRel_eq hread cxx20 r
  cmp _ _ := evalCmp_eq hread
  consistent a b h := by
    simp only [says_iff hread cxx20 _ h, says_iff hread cxx20 _ h.symm, RelOp.holds,
      decide_eq_true_eq, gt_iff_lt, ge_iff_le, not_le, not_lt, and_self]
  transitive a b d hab hbd had := by
    simp only [says_iff hread cxx20 _ hab, says_iff hread cxx20 _ hbd, says_iff hread cxx20 _ had,
      RelOp.holds, decide_eq_true_eq]
    exact ⟨lt_trans, le_trans⟩
  total a b h := by
    simp only [says_iff hread cxx20 _ h, says_iff hread cxx20 _ h.symm, RelOp.holds,
      decide_eq_true_eq]
    exact le_total _ _

/-- A value that is an empty option is taken for the least element. -/
theorem OptionElement.not_orderRight (N : OptionElement T) : ¬ OrderRight c (some N) cxx20 := by
  intro h
  have hless := h.rel .lt (.option none) (.value (N.iso.symm ⊥)) trivial
  have hempty : N.option (N.iso.symm ⊥) = none := N.iso.apply_symm_apply ⊥
  have hvalue : evalRel c (some N) cxx20 .lt (.option none) (.value (N.iso.symm ⊥))
      = some (.ok false) := by
    show some (N.relRight c none (N.iso.symm ⊥) .lt) = _
    rw [OptionElement.relRight, hempty]
    rfl
  rw [hvalue] at hless
  have hholds := Except.ok.inj (Option.some.inj hless)
  exact absurd (WithBot.bot_lt_coe (N.iso.symm ⊥)) (of_decide_eq_false hholds.symm)

/-- Where the assertions abort, so does the comparison of two values. -/
theorem OrderRight.passes (h : OrderRight c N cxx20) (x : T) : c.Passes := by
  by_contra hpass
  have hread : evalRel c N cxx20 .lt (.option (some x)) (.option (some x))
      = some (do RelOp.lt.eval (← star c (some x)) (← star c (some x))) := rfl
  have hless := h.rel .lt (.option (some x)) (.option (some x)) trivial
  rw [hread, star_some_aborts hpass] at hless
  cases hless

/-- The operators are those of the lifted order exactly when `T` is no option and whatever there
is to be read can be. -/
theorem option_order_iff (c : OptionKind) (N : Option (OptionElement T)) (cxx20 : Bool) :
    OrderRight c N cxx20 ↔ N = none ∧ (Nonempty T → c.Passes) := by
  constructor
  · intro h
    refine ⟨?_, fun ⟨x⟩ => h.passes x⟩
    cases N with
    | none => rfl
    | some N => exact absurd h N.not_orderRight
  · rintro ⟨rfl, hread⟩
    exact .of_read hread

end Order

/-- `Option<int>(1) < Option<int>(2)` aborts in the debug build of C++14 that does not detect
constant evaluation; and an `Option<Option<int>>` without a value is not less than an
`Option<int>` without one. -/
theorem option_order_wrong :
    (evalRel (T := Int) (.own ⟨.cxx14, true⟩) none false .lt (.option (some 1)) (.option (some 2))
      = some (.error .aborted)) ∧
    ¬ OrderRight (T := Int) (.own ⟨.cxx14, true⟩) none false ∧
    evalRel (T := WithBot Int) .std (some ⟨Int, .std, .refl _⟩) false .lt (.option none) (.value ⊥)
      = some (.ok false) ∧
    ¬ OrderRight (T := WithBot Int) .std (some ⟨Int, .std, .refl _⟩) false := by
  refine ⟨rfl, ?_, rfl, OptionElement.not_orderRight _⟩
  intro h
  have hbuild := h.passes 1 rfl
  cases hbuild

end
end EflCore
