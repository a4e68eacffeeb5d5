/-
# `EflCore.Option.Reference` — an option of a reference is a pointer

`Option<T&>` is one member, `data_`, which is null or the address of the referent.  A copy
copies it.  A move copies it and then makes that of the source null, and here the order matters,
because the source may be the target.

    operator=(Option&& O)      data_ = O.data_;   O.data_ = nullptr
    swap(Option& O)            tmp = O.data_;     O.data_ = data_;     data_ = tmp

The second is right for one option as well as for two.  The first is not: if `O` is `*this` it
copies nothing and then forgets what it had.

**Proved here**, for any number of options and any sequence of calls.  Every call does to the
options what it is for and drops no reference but the one it writes over (`RefConforms`),
exactly as long as no option that refers to something is moved to itself (`ref_run_iff`).
-/
import EflCore.Lifetime.Program
import Mathlib.Logic.Function.Basic

namespace EflCore

open Lifetime

/-- Options by name, referents `R` by their addresses: `none` is no option, `some none` one whose
`data_` is null. -/
abbrev RefWorld (A R : Type) : Type := A → Option (Option R)

section
variable {A R : Type}

/-! ## The class -/

namespace OptionRef

def data_ (a : A) : Prog (RefWorld A R) (Option R) := fun w =>
  match w a with
  | some p => .ok p w
  | none => .error .undefined w

variable [DecidableEq A]

def setData (a : A) (p : Option R) : Prog (RefWorld A R) Unit :=
  modify fun w => Function.update w a (some p)

def clear (a : A) : Prog (RefWorld A R) Unit := setData a none

/-- `Option()` and `Option(NullOpt)`. -/
def ctor (a : A) : Prog (RefWorld A R) Unit := setData a none

/-- `Option(T& t)`, and `Option(U& u)` for a `U` derived from `T`. -/
def ofReferent (a : A) (t : R) : Prog (RefWorld A R) Unit := setData a (some t)

def copyConstruct (a O : A) : Prog (RefWorld A R) Unit := do
  setData a (← data_ O)

def moveConstruct (a O : A) : Prog (RefWorld A R) Unit := do
  setData a (← data_ O)
  setData O none

def assignNull (a : A) : Prog (RefWorld A R) Unit := do
  let _ ← data_ (R := R) a
  clear a

def assignCopy (a O : A) : Prog (RefWorld A R) Unit := do
  let _ ← data_ (R := R) a
  setData a (← data_ O)

def assignMove (a O : A) : Prog (RefWorld A R) Unit := do
  let _ ← data_ (R := R) a
  setData a (← data_ O)
  setData O none

/-- `operator=(U& u)`.  It is for classes only; where `T` is none, `u` becomes a temporary option
that is moved from, and `data_` is the same. -/
def assign (a : A) (u : R) : Prog (RefWorld A R) Unit := do
  let _ ← data_ (R := R) a
  setData a (some u)

def emplace (a : A) (u : R) : Prog (RefWorld A R) Unit := assign a u

def reset (a : A) : Prog (RefWorld A R) Unit := do
  let _ ← data_ (R := R) a
  clear a

def swap (a O : A) : Prog (RefWorld A R) Unit := do
  let tmp ← data_ O
  setData O (← data_ a)
  setData a tmp

def dtor (a : A) : Prog (RefWorld A R) Unit := do
  let _ ← data_ (R := R) a
  modify fun w => Function.update w a none

end OptionRef

/-! ## Calls, and what they are for -/

inductive RefOp (A R : Type) where
  | default (a : A)
  | ofReferent (a : A) (t : R)
  | copyConstruct (a O : A)
  | moveConstruct (a O : A)
  | assignNull (a : A)
  | assignCopy (a O : A)
  | assignMove (a O : A)
  | assign (a : A) (u : R)
  | emplace (a : A) (u : R)
  | reset (a : A)
  | swap (a O : A)
  | destroy (a : A)

namespace RefOp

/-- Options are constructed where there is none and used where there is one. -/
def Legal (w : RefWorld A R) : RefOp A R → Prop
  | default a | ofReferent a _ => w a = none
  | copyConstruct a O | moveConstruct a O => w a = none ∧ w O ≠ none
  | assignCopy a O | assignMove a O | swap a O => w a ≠ none ∧ w O ≠ none
  | assignNull a | assign a _ | emplace a _ | reset a | destroy a => w a ≠ none

/-- The option the call writes a reference over, or takes one away from. -/
def target : RefOp A R → Option A
  | assignNull a | assignCopy a _ | assignMove a _ | assign a _ | emplace a _ | reset a
  | destroy a => some a
  | default _ | ofReferent _ _ | copyConstruct _ _ | moveConstruct _ _ | swap _ _ => none

variable [DecidableEq A]

def run : RefOp A R → Prog (RefWorld A R) Unit
  | default a => OptionRef.ctor a
  | ofReferent a t => OptionRef.ofReferent a t
  | copyConstruct a O => OptionRef.copyConstruct a O
  | moveConstruct a O => OptionRef.moveConstruct a O
  | assignNull a => OptionRef.assignNull a
  | assignCopy a O => OptionRef.assignCopy a O
  | assignMove a O => OptionRef.assignMove a O
  | assign a u => OptionRef.assign a u
  | emplace a u => OptionRef.emplace a u
  | reset a => OptionRef.reset a
  | swap a O => OptionRef.swap a O
  | destroy a => OptionRef.dtor a

/-- What the call is for.  What a move takes from is empty afterwards, unless it is what the move
gives to. -/
def after (w : RefWorld A R) : RefOp A R → RefWorld A R
  | default a | assignNull a | reset a => Function.update w a (some none)
  | ofReferent a u | assign a u | emplace a u => Function.update w a (some (some u))
  | copyConstruct a O | assignCopy a O => Function.update w a (w O)
  | moveConstruct a O | assignMove a O => Function.update (Function.update w O (some none)) a (w O)
  | swap a O => Function.update (Function.update w O (w a)) a (w O)
  | destroy a => Function.update w a none

end RefOp

/-- Some option refers to `r`. -/
def Referred (w : RefWorld A R) (r : R) : Prop := ∃ a, w a = some (some r)

variable [DecidableEq A]

def refStep (w : RefWorld A R) (op : RefOp A R) (w' : RefWorld A R) : Prop :=
  op.Legal w ∧ op.run w = .ok () w'

/-- The call did what it is for, and the only reference that may be gone is that of its target. -/
structure RefConforms (w : RefWorld A R) (op : RefOp A R) (w' : RefWorld A R) : Prop where
  after : w' = op.after w
  dropped : ∀ r, Referred w r → Referred w' r ∨ ∃ a, op.target = some a ∧ w a = some (some r)

variable {w w' : RefWorld A R} {a O : A} {p : Option R}

/-! ## What the calls do -/

section Ends
variable {E : Stop → RefWorld A R → Prop}

omit [DecidableEq A] in
theorem ends_data {Q : Option R → RefWorld A R → Prop} (ha : w a = some p) :
    Ends (OptionRef.data_ a) w Q E ↔ Q p w := by
  simp only [Ends, OptionRef.data_, ha]

theorem ends_setData {Q : Unit → RefWorld A R → Prop} :
    Ends (OptionRef.setData a p) w Q E ↔ Q () (Function.update w a (some p)) := Iff.rfl

/-- A move copies first. -/
theorem ends_move {Q : Unit → RefWorld A R → Prop} (hO : w O = some p) :
    Ends (do OptionRef.setData a (← OptionRef.data_ O); OptionRef.setData O none) w Q E ↔
      Q () (Function.update (Function.update w a (some p)) O (some none)) := by
  rw [ends_bind, ends_data hO, ends_bind, ends_setData, ends_setData]

end Ends

/-- What a call leaves.  A move leaves its source empty in any case. -/
def RefOp.leaves (w : RefWorld A R) (op : RefOp A R) : RefWorld A R :=
  match op with
  | .moveConstruct a O | .assignMove a O =>
      Function.update (Function.update w a (w O)) O (some none)
  | op => op.after w

/-- A legal call returns. -/
theorem run_refOp {op : RefOp A R} (h : op.Legal w) : op.run w = .ok () (op.leaves w) := by
  refine Ends.eq_ok ?_
  cases op with
  | default a => exact ⟨rfl, rfl⟩
  | ofReferent a t => exact ⟨rfl, rfl⟩
  | copyConstruct a O =>
      obtain ⟨-, hO⟩ := h
      obtain ⟨p, hp⟩ := Option.ne_none_iff_exists'.mp hO
      simp only [RefOp.run, OptionRef.copyConstruct, ends_bind, ends_data hp, ends_setData,
        RefOp.leaves, RefOp.after, hp, and_self]
  | moveConstruct a O =>
      obtain ⟨-, hO⟩ := h
      obtain ⟨p, hp⟩ := Option.ne_none_iff_exists'.mp hO
      simp only [RefOp.run, OptionRef.moveConstruct, ends_move hp, RefOp.leaves, hp, and_self]
  | assignNull a | assign a u | emplace a u | reset a | destroy a =>
      obtain ⟨q, hq⟩ := Option.ne_none_iff_exists'.mp h
      simp only [RefOp.run, OptionRef.assignNull, OptionRef.assign, OptionRef.emplace,
        OptionRef.reset, OptionRef.dtor, OptionRef.clear, ends_bind, ends_data hq, ends_setData,
        ends_modify, RefOp.leaves, RefOp.after, and_self]
  | assignCopy a O =>
      obtain ⟨ha, hO⟩ := h
      obtain ⟨q, hq⟩ := Option.ne_none_iff_exists'.mp ha
      obtain ⟨p, hp⟩ := Option.ne_none_iff_exists'.mp hO
      simp only [RefOp.run, OptionRef.assignCopy, ends_bind, ends_data hq, ends_data hp,
        ends_setData, RefOp.leaves, RefOp.after, hp, and_self]
  | assignMove a O =>
      obtain ⟨ha, hO⟩ := h
      obtain ⟨q, hq⟩ := Option.ne_none_iff_exists'.mp ha
      obtain ⟨p, hp⟩ := Option.ne_none_iff_exists'.mp hO
      rw [RefOp.run, OptionRef.assignMove, ends_bind, ends_data hq, ends_move hp]
      simp only [RefOp.leaves, hp, and_self]
  | swap a O =>
      obtain ⟨ha, hO⟩ := h
      obtain ⟨q, hq⟩ := Option.ne_none_iff_exists'.mp ha
      obtain ⟨p, hp⟩ := Option.ne_none_iff_exists'.mp hO
      simp only [RefOp.run, OptionRef.swap, ends_bind, ends_data hp, ends_data hq, ends_setData,
        RefOp.leaves, RefOp.after, hp, hq, and_self]

/-! ## When that is what it is for -/

/-- No option that refers to something is moved to itself. -/
def RefOp.NoSelfMove (w : RefWorld A R) (op : RefOp A R) : Prop :=
  ∀ a r, op = .assignMove a a → w a ≠ some (some r)

/-- The order of the two writes of a move matters only if they are to the same option. -/
theorem leaves_eq_after {op : RefOp A R} (h : op.Legal w) (hself : op.NoSelfMove w) :
    op.leaves w = op.after w := by
  cases op with
  | moveConstruct a O =>
      have hne : O ≠ a := by
        rintro rfl
        exact h.2 h.1
      exact (Function.update_comm hne.symm ..)
  | assignMove a O =>
      rcases eq_or_ne O a with rfl | hne
      · obtain ⟨p, hp⟩ := Option.ne_none_iff_exists'.mp h.1
        have hnone : p = none := Option.eq_none_iff_forall_ne_some.mpr fun r hr =>
          hself O r rfl (hp.trans (congrArg some hr))
        rw [RefOp.leaves, RefOp.after, Function.update_idem, Function.update_idem, hp, hnone]
      · exact (Function.update_comm hne.symm ..)
  | default | ofReferent | copyConstruct | assignNull => rfl
  | assignCopy | assign | emplace | reset | swap | destroy => rfl

theorem noSelfMove_of_eq {op : RefOp A R} (h : op.leaves w = op.after w) : op.NoSelfMove w := by
  rintro a r rfl hr
  have ha := congrFun h a
  rw [RefOp.leaves, RefOp.after, Function.update_self, Function.update_self, hr] at ha
  cases ha

omit [DecidableEq A] in
theorem Referred.intro {r : R} (h : w a = some (some r)) : Referred w r := ⟨a, h⟩

theorem Referred.update {r : R} {x : A} (h : w x = some (some r)) (hx : x ≠ a)
    (q : Option (Option R)) : Referred (Function.update w a q) r :=
  ⟨x, (Function.update_of_ne hx ..).trans h⟩

/-- Nothing is lost but what is written over. -/
theorem dropped_after {op : RefOp A R} (h : op.Legal w) {r : R} (hr : Referred w r) :
    Referred (op.after w) r ∨ ∃ a, op.target = some a ∧ w a = some (some r) := by
  obtain ⟨x, hx⟩ := hr
  have fresh : ∀ a, w a = none → x ≠ a := by
    rintro a ha rfl
    rw [ha] at hx
    cases hx
  cases op with
  | default a | ofReferent a u => exact .inl (.update hx (fresh a h) _)
  | copyConstruct a O => exact .inl (.update hx (fresh a h.1) _)
  | moveConstruct a O =>
      refine .inl ?_
      rcases eq_or_ne x O with rfl | hne
      · exact ⟨a, (Function.update_self ..).trans hx⟩
      · exact .update ((Function.update_of_ne hne ..).trans hx) (fresh a h.1) _
  | assignNull a | assignCopy a O | assign a u | emplace a u | reset a | destroy a =>
      rcases eq_or_ne x a with rfl | hne
      · exact .inr ⟨x, rfl, hx⟩
      · exact .inl (.update hx hne _)
  | assignMove a O =>
      rcases eq_or_ne x a with rfl | hne
      · exact .inr ⟨x, rfl, hx⟩
      · refine .inl ?_
        rcases eq_or_ne x O with rfl | hneO
        · exact ⟨a, (Function.update_self ..).trans hx⟩
        · exact .update ((Function.update_of_ne hneO ..).trans hx) hne _
  | swap a O =>
      refine .inl ?_
      rcases eq_or_ne x O with rfl | hneO
      · exact ⟨a, (Function.update_self ..).trans hx⟩
      · rcases eq_or_ne x a with rfl | hne
        · refine ⟨O, ?_⟩
          rw [RefOp.after, Function.update_of_ne hneO.symm, Function.update_self, hx]
        · exact .update ((Function.update_of_ne hneO ..).trans hx) hne _

/-- A call does what it is for exactly if it moves no option that refers to something to itself. -/
theorem conforms_iff {op : RefOp A R} (h : refStep w op w') :
    RefConforms w op w' ↔ op.NoSelfMove w := by
  obtain ⟨hlegal, hok⟩ := h
  have hleft : op.leaves w = w' := by
    have hrun := (run_refOp hlegal).symm.trans hok
    cases hrun
    rfl
  subst hleft
  constructor
  · intro hconforms
    exact noSelfMove_of_eq hconforms.after
  · intro hself
    have hafter := leaves_eq_after hlegal hself
    refine ⟨hafter, fun r hr => ?_⟩
    rw [hafter]
    exact dropped_after hlegal hr

/-- Every call of a run does what it is for exactly as long as no option that refers to something
is moved to itself. -/
theorem ref_run_iff (ops : List (RefOp A R)) (w : RefWorld A R) :
    Run (fun w op w' => refStep w op w' ∧ RefConforms w op w') (fun _ => none) ops w ↔
      Run (guarded (fun w op => RefOp.NoSelfMove w op) refStep) (fun _ => none) ops w := by
  constructor
  · intro h
    exact h.mono fun _ _ _ hstep => ⟨(conforms_iff hstep.1).mp hstep.2, hstep.1⟩
  · intro h
    exact h.mono fun _ _ _ hstep => ⟨hstep.2, (conforms_iff hstep.2).mpr hstep.1⟩

/-- There is always a next one. -/
theorem refStep_returns {op : RefOp A R} (h : op.Legal w) : ∃ w', refStep w op w' :=
  ⟨_, h, run_refOp h⟩

end

/-- `b = std::move(b);` leaves nothing of what `b` referred to. -/
theorem moved_to_itself :
    ∃ w w' : RefWorld Nat Nat,
      Run refStep (fun _ => none) ([] ++ [.ofReferent 0 7]) w ∧ w 0 = some (some 7) ∧
      refStep w (.assignMove 0 0) w' ∧ w' 0 = some none ∧ ¬ Referred w' 7 ∧
      ¬ RefConforms w (.assignMove 0 0) w' := by
  have gone : ∀ x, Function.update (Function.update (Function.update (fun _ : Nat => none) 0
      (some (some 7))) 0 (some (some 7))) 0 (some none) x ≠ some (some 7) := by
    intro x
    rw [Function.update_idem, Function.update_idem]
    rcases eq_or_ne x 0 with rfl | hx
    · rw [Function.update_self]
      exact nofun
    · rw [Function.update_of_ne hx]
      exact nofun
  refine ⟨_, _, .snoc .nil ⟨rfl, rfl⟩, rfl, ⟨⟨nofun, nofun⟩, rfl⟩, rfl, ?_, ?_⟩
  · rintro ⟨x, hx⟩
    exact gone x hx
  · intro hconforms
    have hafter := congrFun hconforms.after 0
    cases hafter

end EflCore
