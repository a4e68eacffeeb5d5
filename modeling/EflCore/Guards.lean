/-
# `EflCore.Guards` — one guard, three expansions

What a checked accessor asserts is its guard.  In a debug build each assertion is expanded by
`EFLI_CXPRASSERT_IMPL_` (`_Builtins/Assert.hpp`), and which of its three definitions that is
depends on the language level and on whether constant evaluation can be detected.

    .cxx14CxprEval    if (... && !(expr)) ...      aborts on what is false
    .cxx14            if (expr) ...                aborts on what is true
    .cxx11            (expr ? (void)(0) : ...)     aborts on what is false

A run is a sequence of accesses to one object, in a build.  It should stop at the first access
whose guard is false and otherwise return what each access returns (`expected`).  An accessor
may assert more than one thing: what it asserts first, and what the accessor it calls does.

    operator[]  front  back             the element is there
    slice  dropFront  removePrefix      data_, and the part is there
    dropBack(n)                         n <= size_, and then what slice(0, size_ - n) asserts
    unwrap  operator*  operator->       there is a value; error: there is none

**Proved here.**  In the first and the third expansion every run is as it should be
(`Guarded.runAll_eq_expected`).  In the second it is so exactly if its first access stops there
by accident (`Guarded.runAll_cxx14_iff`): an assertion that is true aborts beside one that is
false.  Only `dropBack` asserts two different things, so there is no such accident but that of a
null view and, in the C++17 `Option`, the exception of `optional::value` that cannot leave
`unwrap` (`guards_agree_iff`).
-/
import EflCore.Option.Lifetime
import EflCore.Result.Refinement
import EflCore.View.Slice

namespace EflCore

open Layout Buffer Lifetime

/-! ## Runs -/

/-- What is seen of a run: what the accesses returned, and whether the run was aborted, by an
assertion or by `std::terminate`. -/
structure Seen (R : Type) where
  values : List R
  aborted : Bool
  deriving DecidableEq

namespace Seen
variable {R : Type}

def done : Seen R := ⟨[], false⟩

def stopped : Seen R := ⟨[], true⟩

/-- The same after an access that returned `r`. -/
def after (r : R) (seen : Seen R) : Seen R := { seen with values := r :: seen.values }

theorem after_ne_stopped (r : R) (seen : Seen R) : seen.after r ≠ stopped := by
  intro h
  cases congrArg Seen.values h

end Seen

/-- The accesses `X` of a class, as calls on an object in a state `S`.  A call may stop after its
assertions, but not where they hold. -/
structure Guarded (S X R : Type) where
  call : X → S → Checked (Except Stop R)
  next : X → S → S
  asserts_ne_nil : ∀ x s, (call x s).asserts ≠ []
  value_of_holds : ∀ {x s}, (call x s).Holds → ∃ r, (call x s).value = .ok r

namespace Guarded
variable {S X R : Type} (G : Guarded S X R)

/-- A run of the build. -/
def runAll (b : Build) : S → List X → Seen R
  | _, [] => .done
  | s, x :: xs =>
      match (G.call x s).run b with
      | .ok (.ok r) => (runAll b (G.next x s) xs).after r
      | .ok (.error _) | .error _ => .stopped

/-- What it should be. -/
def expected : S → List X → Seen R
  | _, [] => .done
  | s, x :: xs =>
      if (G.call x s).Holds then
        match (G.call x s).value with
        | .ok r => (expected (G.next x s) xs).after r
        | .error _ => .stopped
      else .stopped

/-- A guard that is false, and a call that stops where the macros are inverted. -/
def Mixed (x : X) (s : S) : Prop :=
  ¬ (G.call x s).Holds ∧
    ((∃ c ∈ (G.call x s).asserts, c.expr = true) ∨ ∃ e, (G.call x s).value = .error e)

variable {G} {x : X} {s : S} {xs : List X} {b : Build}

theorem runAll_of_passes {r : R} (h : (G.call x s).Passes b) (hr : (G.call x s).value = .ok r) :
    G.runAll b s (x :: xs) = (G.runAll b (G.next x s) xs).after r := by
  rw [runAll, (Checked.run_eq_ok_iff _).mpr h, hr]

theorem runAll_of_not_passes (h : ¬ (G.call x s).Passes b) :
    G.runAll b s (x :: xs) = .stopped := by
  have hany : (G.call x s).asserts.any (Assertion.aborts b) = true := by
    by_contra hnone
    refine h fun c hc => ?_
    exact eq_false_of_ne_true fun hb => hnone (List.any_eq_true.mpr ⟨c, hc, hb⟩)
  rw [runAll, Checked.run, if_pos hany]

theorem runAll_of_error {e : Stop} (he : (G.call x s).value = .error e) :
    G.runAll b s (x :: xs) = .stopped := by
  by_cases h : (G.call x s).Passes b
  · rw [runAll, (Checked.run_eq_ok_iff _).mpr h, he]
  · exact runAll_of_not_passes h

theorem expected_of_not_holds (h : ¬ (G.call x s).Holds) :
    G.expected s (x :: xs) = .stopped := by
  rw [expected, if_neg h]

theorem expected_of_holds {r : R} (h : (G.call x s).Holds) (hr : (G.call x s).value = .ok r) :
    G.expected s (x :: xs) = (G.expected (G.next x s) xs).after r := by
  rw [expected, if_pos h, hr]

/-- Where the macros check, every run is as it should be: what is asserted decides at each
access, and it decides the same. -/
theorem runAll_eq_expected (hb : b.checks = true) (s : S) (xs : List X) :
    G.runAll b s xs = G.expected s xs := by
  induction xs generalizing s with
  | nil => rfl
  | cons x xs ih =>
      by_cases h : (G.call x s).Holds
      · obtain ⟨r, hr⟩ := G.value_of_holds h
        rw [runAll_of_passes ((Checked.passes_iff hb _).mpr h) hr, expected_of_holds h hr, ih]
      · have hstop : ¬ (G.call x s).Passes b := fun hpass => h ((Checked.passes_iff hb _).mp hpass)
        rw [runAll_of_not_passes hstop, expected_of_not_holds h]

theorem passes_cxx14 {α : Type} {y : Checked α} :
    y.Passes ⟨.cxx14, true⟩ ↔ ∀ c ∈ y.asserts, c.expr = false := by
  refine forall₂_congr fun c _ => ?_
  cases c with
  | cxpr e | dbg e => rfl

/-- Where they are inverted, an access stops the run by something that is true, or by itself. -/
theorem runAll_cxx14_stopped_iff :
    G.runAll ⟨.cxx14, true⟩ s (x :: xs) = .stopped ↔
      (∃ c ∈ (G.call x s).asserts, c.expr = true) ∨ ∃ e, (G.call x s).value = .error e := by
  constructor
  · intro hrun
    by_contra hnone
    rw [not_or, not_exists, not_exists] at hnone
    have hpass : (G.call x s).Passes ⟨.cxx14, true⟩ := by
      rw [passes_cxx14]
      intro c hc
      exact eq_false_of_ne_true fun htrue => hnone.1 c ⟨hc, htrue⟩
    cases hvalue : (G.call x s).value with
    | error e => exact hnone.2 e hvalue
    | ok r =>
        rw [runAll_of_passes hpass hvalue] at hrun
        exact Seen.after_ne_stopped _ _ hrun
  · rintro (⟨c, hc, htrue⟩ | ⟨e, he⟩)
    · refine runAll_of_not_passes ?_
      intro hpass
      have hfalse := passes_cxx14.mp hpass c hc
      rw [htrue] at hfalse
      cases hfalse
    · exact runAll_of_error he

/-- There the first access decides: one whose guard holds stops the run, and should not. -/
theorem runAll_cxx14_iff (s : S) (xs : List X) :
    G.runAll ⟨.cxx14, true⟩ s xs = G.expected s xs ↔ ∀ x ∈ xs.head?, G.Mixed x s := by
  cases xs with
  | nil => exact iff_of_true rfl fun x hx => by cases hx
  | cons x xs =>
      simp only [List.head?_cons, Option.mem_def, Option.some.injEq, forall_eq']
      by_cases h : (G.call x s).Holds
      · obtain ⟨r, hr⟩ := G.value_of_holds h
        obtain ⟨c, hc⟩ := List.exists_mem_of_ne_nil _ (G.asserts_ne_nil x s)
        have hstop : G.runAll ⟨.cxx14, true⟩ s (x :: xs) = .stopped :=
          runAll_cxx14_stopped_iff.mpr (.inl ⟨c, hc, h c hc⟩)
        rw [hstop, expected_of_holds h hr]
        exact iff_of_false (Ne.symm (Seen.after_ne_stopped _ _)) fun hmixed => hmixed.1 h
      · rw [expected_of_not_holds h, runAll_cxx14_stopped_iff]
        exact (and_iff_right h).symm

theorem mixed_iff_of_ok {r : R} (hr : (G.call x s).value = .ok r) :
    G.Mixed x s ↔ ¬ (∀ c ∈ (G.call x s).asserts, c.expr = true) ∧
      ∃ c ∈ (G.call x s).asserts, c.expr = true := by
  refine and_congr_right fun _ => or_iff_left ?_
  rintro ⟨e, he⟩
  cases hr.symm.trans he

/-- A call that asserts only one thing, if more than once, is not mixed. -/
theorem not_mixed {e : Bool} {r : R} (hexpr : ∀ c ∈ (G.call x s).asserts, c.expr = e)
    (hr : (G.call x s).value = .ok r) : ¬ G.Mixed x s := by
  rw [mixed_iff_of_ok hr]
  rintro ⟨hholds, c, hc, htrue⟩
  obtain rfl : e = true := (hexpr c hc).symm.trans htrue
  exact hholds hexpr

variable (G) in
/-- In the debug builds `D`, the run of `xs` is what it should be. -/
def Agrees (D : List Dialect) (s : S) (xs : List X) : Prop :=
  ∀ d ∈ D, G.runAll ⟨d, true⟩ s xs = G.expected s xs

/-- One of the expansions is inverted, and the others check. -/
theorem agrees_iff {D : List Dialect} (hD : .cxx14 ∈ D) :
    G.Agrees D s xs ↔ ∀ x ∈ xs.head?, G.Mixed x s := by
  rw [← runAll_cxx14_iff]
  constructor
  · intro h
    exact h .cxx14 hD
  · intro h d _
    cases d with
    | cxx14 => exact h
    | cxx14CxprEval | cxx11 => exact runAll_eq_expected rfl s xs

end Guarded

/-! ## Views -/

namespace View
variable {t : Target} (v : View t)

def isEmpty : Bool := decide (v.size_ = 0#_)

/-- `operator[](n)`. -/
def subscript (n : t.SzType) : Checked Ptr := do
  Checked.dbgAssert (n < v.size_)
  pure (v.data_.add n.toNat)

def front : Checked Ptr := do
  Checked.dbgAssert (!v.isEmpty)
  pure (v.data_.add 0)

def back : Checked Ptr := do
  Checked.dbgAssert (!v.isEmpty)
  pure (v.data_.add (v.size_ - 1#_).toNat)

end View

namespace ArrayRef
variable {t : Target} (v : ArrayRef t)

def subscript (n : t.SzType) : Checked Ptr := View.subscript v n

def front : Checked Ptr := View.front v

def back : Checked Ptr := View.back v

end ArrayRef

namespace ImmutArrayRef
variable {t : Target} (v : ImmutArrayRef t)

def subscript (n : t.SzType) : Checked Ptr := View.subscript v n

/-- Asserts what `ArrayRef::front` asserts, and calls it. -/
def front : Checked Ptr := do
  Checked.dbgAssert (!View.isEmpty v)
  ArrayRef.front v

def back : Checked Ptr := do
  Checked.dbgAssert (!View.isEmpty v)
  ArrayRef.back v

end ImmutArrayRef

namespace StrRef
variable {t : Target} (v : StrRef t)

def subscript (n : t.SzType) : Checked Ptr := View.subscript v n

def front : Checked Ptr := View.front v

def back : Checked Ptr := View.back v

end StrRef

namespace ViewOp
variable {t : Target} {C : ViewClass}

/-- Something is asserted whatever the view is. -/
def isGuarded : ViewOp t C → Bool
  | takeFront _ | takeBack _ => false
  | _ => true

/-- The call cuts the view it is called on. -/
def isModifier : ViewOp t C → Bool
  | removePrefix _ | removeSuffix _ => true
  | _ => false

end ViewOp

/-- The accesses of a view.  After a call for a part the run may go on with the part. -/
inductive ViewAccess (t : Target) (C : ViewClass) where
  | subscript (n : t.SzType)
  | front
  | back
  | part (op : ViewOp t C) (guarded : op.isGuarded = true) (goesOn : Bool)

/-- What an access of a view returns: a reference to an element, or a part. -/
inductive ViewValue (t : Target) where
  | element (p : Ptr)
  | part (v : View t)
  deriving DecidableEq

namespace ViewAccess
variable {t : Target}

/-- The access, of the class it is of. -/
def call : {C : ViewClass} → ViewAccess t C → View t → Checked (Except Stop (ViewValue t))
  | .arrayRef, subscript n, v => do pure (.ok (.element (← ArrayRef.subscript v n)))
  | .arrayRef, front, v => do pure (.ok (.element (← ArrayRef.front v)))
  | .arrayRef, back, v => do pure (.ok (.element (← ArrayRef.back v)))
  | .immutArrayRef, subscript n, v => do pure (.ok (.element (← ImmutArrayRef.subscript v n)))
  | .immutArrayRef, front, v => do pure (.ok (.element (← ImmutArrayRef.front v)))
  | .immutArrayRef, back, v => do pure (.ok (.element (← ImmutArrayRef.back v)))
  | .strRef, subscript n, v => do pure (.ok (.element (← StrRef.subscript v n)))
  | .strRef, front, v => do pure (.ok (.element (← StrRef.front v)))
  | .strRef, back, v => do pure (.ok (.element (← StrRef.back v)))
  | _, part op _ _, v => do pure (.ok (.part (← op.run v)))

/-- The view the run goes on with. -/
def next {C : ViewClass} : ViewAccess t C → View t → View t
  | part op _ goesOn, v => if goesOn || op.isModifier then (op.run v).value else v
  | subscript _, v | front, v | back, v => v

variable {C : ViewClass} {v : View t}

theorem asserts_dropBack {n : t.SzType} {h : (ViewOp.dropBack n : ViewOp t C).isGuarded = true}
    {g : Bool} : ((part (.dropBack n) h g).call v).asserts =
      [.dbg (n ≤ v.size_), .dbg (v.data_.isSome && 0#_ + (v.size_ - n) ≤ v.size_)] := by
  cases C <;> rfl

/-- All but `dropBack` assert one thing, though it may be twice. -/
theorem asserts_cases (x : ViewAccess t C) (v : View t) :
    (∃ e, (x.call v).asserts ≠ [] ∧ ∀ c ∈ (x.call v).asserts, c.expr = e) ∨
      ∃ n h g, x = part (.dropBack n) h g := by
  have once {e : Bool} : [Assertion.dbg e] ≠ [] ∧ ∀ c ∈ [Assertion.dbg e], c.expr = e :=
    ⟨List.cons_ne_nil _ _, List.forall_mem_singleton.mpr rfl⟩
  have twice {e : Bool} : [Assertion.dbg e, .dbg e] ≠ [] ∧
      ∀ c ∈ [Assertion.dbg e, .dbg e], c.expr = e :=
    ⟨List.cons_ne_nil _ _, List.forall_mem_cons.mpr ⟨rfl, once.2⟩⟩
  cases x with
  | subscript n => cases C <;> exact .inl ⟨_, once⟩
  | front | back =>
      cases C with
      | arrayRef | strRef => exact .inl ⟨_, once⟩
      | immutArrayRef => exact .inl ⟨_, twice⟩
  | part op h g =>
      cases op with
      | dropBack n => exact .inr ⟨n, h, g, rfl⟩
      | sliceAt _ _ | slice _ | dropFront _ => cases C <;> exact .inl ⟨_, once⟩
      | removePrefix _ | removeSuffix _ => exact .inl ⟨_, once⟩
      | takeFront _ | takeBack _ => cases h

theorem asserts_ne_nil (x : ViewAccess t C) (v : View t) : (x.call v).asserts ≠ [] := by
  rcases asserts_cases x v with ⟨-, hnil, -⟩ | ⟨n, h, g, rfl⟩
  · exact hnil
  · rw [asserts_dropBack]
    exact List.cons_ne_nil _ _

theorem exists_value (x : ViewAccess t C) (v : View t) : ∃ r, (x.call v).value = .ok r := by
  cases C <;> cases x <;> exact ⟨_, rfl⟩

end ViewAccess

section
variable {t : Target}

def viewGuarded (t : Target) (C : ViewClass) : Guarded (View t) (ViewAccess t C) (ViewValue t) where
  call := ViewAccess.call
  next := ViewAccess.next
  asserts_ne_nil := ViewAccess.asserts_ne_nil
  value_of_holds _ := ViewAccess.exists_value ..

/-- Taking away too many wraps around. -/
theorem sub_le_iff {w : Nat} {m n : BitVec w} : m - n ≤ m ↔ n ≤ m := by
  constructor
  · intro h
    by_contra hlt
    have hlt : m.toNat < n.toNat := Nat.lt_of_not_le hlt
    have hle := BitVec.le_def.mp h
    have hn := n.isLt
    rw [BitVec.toNat_sub_of_lt hlt] at hle
    omega
  · intro h
    rw [BitVec.le_def, BitVec.toNat_sub_of_le h]
    exact Nat.sub_le ..

section
variable {C : ViewClass} {x : ViewAccess t C} {v : View t}

/-- Of what `dropBack` asserts one is true and one is false exactly if there is a part of a null
view, as far as the size goes. -/
theorem mixed_dropBack {n : t.SzType} {h : (.dropBack n : ViewOp t C).isGuarded = true} {g : Bool} :
    (viewGuarded t C).Mixed (.part (.dropBack n) h g) v ↔ v.data_ = none ∧ n ≤ v.size_ := by
  obtain ⟨r, hr⟩ := ViewAccess.exists_value (.part (.dropBack n) h g) v
  have hasserts : ((viewGuarded t C).call (.part (.dropBack n) h g) v).asserts =
      [.dbg (n ≤ v.size_), .dbg (v.data_.isSome && 0#_ + (v.size_ - n) ≤ v.size_)] :=
    ViewAccess.asserts_dropBack
  rw [Guarded.mixed_iff_of_ok hr, hasserts, BitVec.zero_add]
  simp only [List.forall_mem_cons, List.exists_mem_cons_iff, Assertion.expr, decide_eq_true_eq,
    Bool.and_eq_true, sub_le_iff]
  cases v.data_ with
  | none => simp
  | some a => simp

theorem mixed_view_iff :
    (viewGuarded t C).Mixed x v ↔
      ∃ n h g, x = .part (.dropBack n) h g ∧ v.data_ = none ∧ n ≤ v.size_ := by
  constructor
  · intro hmixed
    rcases ViewAccess.asserts_cases x v with ⟨e, -, hexpr⟩ | ⟨n, h, g, rfl⟩
    · obtain ⟨r, hr⟩ := ViewAccess.exists_value x v
      exact absurd hmixed (Guarded.not_mixed hexpr hr)
    · exact ⟨n, h, g, rfl, mixed_dropBack.mp hmixed⟩
  · rintro ⟨n, h, g, rfl, hnull⟩
    exact mixed_dropBack.mpr hnull

end

/-! ## Options and results -/

/-- The function of the C++17 `Option` that asserts something; it is `noexcept`. -/
inductive OptionalAccess where
  | unwrap
  deriving DecidableEq, Repr

/-- `optional::value()` in a function that is `noexcept`. -/
def optionalValue {V : Type} : Option V → Except Stop V
  | some v => .ok v
  | none => .error .terminated

section
variable {V : Type}

/-- What is returned refers to the payload, if there is one. -/
def optionGuarded (V : Type) : Guarded (OptionBase V) OptionAccess (Option V) where
  call x s := ⟨x.asserts s.active_, .ok s.data_⟩
  next _ s := s
  asserts_ne_nil x s := by cases x <;> exact List.cons_ne_nil _ _
  value_of_holds _ := ⟨_, rfl⟩

/-- `Option<T&>`, by its `data_`. -/
def optionRefGuarded (R : Type) : Guarded (Option R) OptionAccess (Option R) where
  call x data_ := ⟨x.asserts data_.isSome, .ok data_⟩
  next _ data_ := data_
  asserts_ne_nil x _ := by cases x <;> exact List.cons_ne_nil _ _
  value_of_holds _ := ⟨_, rfl⟩

/-- The C++17 `Option`, by what it contains. -/
def optionalGuarded (V : Type) : Guarded (Option V) OptionalAccess V where
  call _ o := ⟨[.dbg o.isSome], optionalValue o⟩
  next _ o := o
  asserts_ne_nil _ _ := List.cons_ne_nil _ _
  value_of_holds {_ o} h := by
    cases o with
    | some v => exact ⟨v, rfl⟩
    | none => cases List.forall_mem_singleton.mp h

/-- On the side of the error the member is `err_` for either class. -/
def resultGuarded (c : ResultClass V) : Guarded (ResultBase V) Accessor (Option V) where
  call x s := ⟨x.asserts c s.active_, .ok (if x.member = .data_ then c.seen s else s.data_)⟩
  next _ s := s
  asserts_ne_nil x _ := by cases c <;> cases x <;> exact List.cons_ne_nil _ _
  value_of_holds _ := ⟨_, rfl⟩

end

variable {x : OptionAccess} {e : Bool}

theorem OptionAccess.expr_eq : ∀ c ∈ x.asserts e, c.expr = e := by
  cases x <;> simp [asserts, Assertion.expr]

theorem Accessor.expr_eq {c : ResultClass V} (y : Accessor) (e : Bool) :
    ∀ q ∈ y.asserts c e, q.expr = if y.member = .data_ then e else !e := by
  cases c <;> cases y <;> simp [asserts, member, Assertion.expr]

theorem not_mixed_option {s : OptionBase V} : ¬ (optionGuarded V).Mixed x s :=
  Guarded.not_mixed OptionAccess.expr_eq rfl

theorem not_mixed_optionRef {data_ : Option V} : ¬ (optionRefGuarded V).Mixed x data_ :=
  Guarded.not_mixed OptionAccess.expr_eq rfl

theorem not_mixed_result {c : ResultClass V} {y : Accessor} {s : ResultBase V} :
    ¬ (resultGuarded c).Mixed y s :=
  Guarded.not_mixed (Accessor.expr_eq y s.active_) rfl

/-- Only `optional::value` notices that there is nothing. -/
theorem mixed_optional {y : OptionalAccess} {o : Option V} :
    (optionalGuarded V).Mixed y o ↔ o = none := by
  cases o with
  | none =>
      refine iff_of_true ⟨?_, .inr ⟨_, rfl⟩⟩ rfl
      intro h
      cases List.forall_mem_singleton.mp h
  | some v =>
      refine iff_of_false ?_ (Option.some_ne_none v)
      exact Guarded.not_mixed (e := true) (List.forall_mem_singleton.mpr rfl) rfl

end

/-! ## The three expansions -/

/-- The classes whose accesses assert something. -/
inductive GuardedClass where
  | view (t : Target) (C : ViewClass)
  | option (V : Type)
  | optionRef (R : Type)
  /-- the C++17 `Option` -/
  | optional (V : Type)
  | result {V : Type} (c : ResultClass V)

namespace GuardedClass

def State : GuardedClass → Type
  | view t _ => View t
  | option V => OptionBase V
  | optionRef R => Option R
  | optional V => Option V
  | @result V _ => ResultBase V

def Access : GuardedClass → Type
  | view t C => ViewAccess t C
  | option _ | optionRef _ => OptionAccess
  | optional _ => OptionalAccess
  | result _ => Accessor

def Value : GuardedClass → Type
  | view t _ => ViewValue t
  | option V => Option V
  | optionRef R => Option R
  | optional V => V
  | @result V _ => Option V

def accesses : (K : GuardedClass) → Guarded K.State K.Access K.Value
  | view t C => viewGuarded t C
  | option V => optionGuarded V
  | optionRef R => optionRefGuarded R
  | optional V => optionalGuarded V
  | result c => resultGuarded c

/-- The expansions of builds that have the class. -/
def dialects : GuardedClass → List Dialect
  | optional _ => [.cxx14CxprEval, .cxx14]
  | view _ _ | option _ | optionRef _ | result _ => [.cxx14CxprEval, .cxx14, .cxx11]

/-- The access is `dropBack` of a null view, as far as the size allows it, or any of an empty
C++17 `Option`. -/
def StopsByAccident : (K : GuardedClass) → K.State → K.Access → Prop
  | view _ _, v, x => ∃ n h g, x = .part (.dropBack n) h g ∧ v.data_ = none ∧ n ≤ v.size_
  | optional _, o, _ => o = none
  | option _, _, _ | optionRef _, _, _ | result _, _, _ => False

theorem mixed_iff (K : GuardedClass) (s : K.State) (x : K.Access) :
    K.accesses.Mixed x s ↔ K.StopsByAccident s x := by
  cases K with
  | view t C => exact mixed_view_iff
  | optional V => exact mixed_optional
  | option V => exact iff_of_false not_mixed_option id
  | optionRef R => exact iff_of_false not_mixed_optionRef id
  | result c => exact iff_of_false not_mixed_result id

theorem cxx14_mem (K : GuardedClass) : .cxx14 ∈ K.dialects := by
  cases K <;> exact List.mem_cons_of_mem _ List.mem_cons_self

end GuardedClass

/-- Of every object and every sequence of accesses: the expansions agree with the guards exactly
on nothing at all and on what begins with an access that stops by accident. -/
theorem guards_agree_iff (K : GuardedClass) (s : K.State) (xs : List K.Access) :
    K.accesses.Agrees K.dialects s xs ↔ ∀ x ∈ xs.head?, K.StopsByAccident s x := by
  rw [Guarded.agrees_iff K.cxx14_mem]
  exact forall₂_congr fun x _ => K.mixed_iff s x

/-- `StrRef("hi", 2)[0]` aborts where it should not, and `Option<int>()` is unwrapped where it
should abort. -/
theorem hi_not_subscripted :
    let hi : View x64 := ⟨some 0, 2#_⟩
    let access : ViewAccess x64 .strRef := .subscript 0#_
    ((viewGuarded x64 .strRef).expected hi [access] = ⟨[.element (some 0)], false⟩ ∧
      (viewGuarded x64 .strRef).runAll ⟨.cxx14, true⟩ hi [access] = .stopped) ∧
    ((optionGuarded Nat).expected ⟨none, false⟩ [.unwrap] = .stopped ∧
      (optionGuarded Nat).runAll ⟨.cxx14, true⟩ ⟨none, false⟩ [.unwrap] = ⟨[none], false⟩) ∧
    ¬ (GuardedClass.view x64 .strRef).accesses.Agrees (GuardedClass.view x64 .strRef).dialects
      hi [access] := by
  refine ⟨⟨rfl, rfl⟩, ⟨rfl, rfl⟩, ?_⟩
  intro h
  have hrun := h .cxx14 (GuardedClass.cxx14_mem _)
  cases hrun

end EflCore
