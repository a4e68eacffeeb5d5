/-
# `EflCore.Lifetime.Program` — programs that can stop, and runs of their steps

A program over a state `σ` is an `EStateM` action: it returns a value or stops,
and the state it leaves is kept either way, because an exception in C++ does not
roll anything back.  There are four ways to stop.

| | |
| :-- | :-- |
| `exception`  | an exception leaves the call; the caller goes on from the state it left |
| `terminated` | an exception met a `noexcept` boundary; the run is over |
| `aborted`    | an assertion failed; the run is over |
| `undefined`  | the program read an object that is not there; nothing is promised |

`Ends x s Q E` says how `x` ends from `s`: in `Q` when it returns, in `E` when it
stops.  It is a weakest precondition, read through the rules `ends_…`, one for
each way to build a program; a program that is a `do` block is proved by those
rules and the facts about the calls in it.

A run (`Run`) is a list of labelled steps.  `Run.invariant` is the induction
over runs, once.  `Run.sound_iff_guarded` is for a promise that is kept *exactly* as
long as every step meets a guard, because the first step that does not meet it does
damage that no later step repairs.  `Run.calls_sound_iff` is the same for the calls of a run,
some of which may be undefined.
-/
import Mathlib.Data.List.Basic
import Mathlib.Init
import Mathlib.Tactic.Basic

namespace Lifetime

/-- The ways a program stops without returning. -/
inductive Stop where
  | exception
  | terminated
  | aborted
  | undefined
  deriving DecidableEq, Repr

/-- A program over `σ` that returns an `α` or stops. -/
abbrev Prog (σ α : Type) := EStateM Stop σ α

namespace Prog
variable {σ α : Type}

/-- The body of a function declared `noexcept`. -/
def noexcept (x : Prog σ α) : Prog σ α := fun s =>
  match x s with
  | .error .exception s' => .error .terminated s'
  | r => r

/-- `c` is what stack unwinding does when an exception leaves `x`. -/
def unwinding (x : Prog σ α) (c : Prog σ Unit) : Prog σ α := fun s =>
  match x s with
  | .error .exception s' =>
      match c s' with
      | .ok _ s'' => .error .exception s''
      | .error e s'' => .error e s''
  | r => r

/-- Stops the run when `b` says so. -/
def abortIf (b : Bool) : Prog σ Unit := if b then throw .aborted else pure ()

/-- `acc || x`. -/
def or (acc x : Prog σ Bool) : Prog σ Bool := do
  if (← acc) then pure true else x

/-- The left fold `(... || xs)`; over an empty pack it is `false`. -/
def foldOr (xs : List (Prog σ Bool)) : Prog σ Bool := xs.foldl or (pure false)

end Prog

/-! ## How a program ends -/

section Ends
variable {σ α β : Type}

/-- From `s`, `x` returns in `Q` or stops in `E`. -/
def Ends (x : Prog σ α) (s : σ) (Q : α → σ → Prop) (E : Stop → σ → Prop) : Prop :=
  match x s with
  | .ok a s' => Q a s'
  | .error e s' => E e s'

variable {s : σ} {Q : α → σ → Prop} {E : Stop → σ → Prop}

@[simp] theorem ends_pure (a : α) : Ends (pure a : Prog σ α) s Q E ↔ Q a s := Iff.rfl

@[simp] theorem ends_bind (x : Prog σ β) (f : β → Prog σ α) :
    Ends (x >>= f) s Q E ↔ Ends x s (fun b s' => Ends (f b) s' Q E) E := by
  simp only [Ends, bind, EStateM.bind]
  cases x s <;> rfl

@[simp] theorem ends_map (f : β → α) (x : Prog σ β) :
    Ends (f <$> x) s Q E ↔ Ends x s (fun b s' => Q (f b) s') E := by
  simp only [Ends, Functor.map, EStateM.map]
  cases x s <;> rfl

@[simp] theorem ends_throw (e : Stop) : Ends (throw e : Prog σ α) s Q E ↔ E e s := Iff.rfl

@[simp] theorem ends_modify {Q : PUnit → σ → Prop} (f : σ → σ) :
    Ends (modify f : Prog σ PUnit) s Q E ↔ Q ⟨⟩ (f s) := Iff.rfl

theorem ends_ite (c : Prop) [Decidable c] (x y : Prog σ α) :
    Ends (if c then x else y) s Q E ↔ (c → Ends x s Q E) ∧ (¬c → Ends y s Q E) := by
  by_cases h : c <;> simp [h]

@[simp] theorem ends_noexcept (x : Prog σ α) :
    Ends x.noexcept s Q E ↔
      Ends x s Q fun e s' => E (if e = .exception then .terminated else e) s' := by
  simp only [Ends, Prog.noexcept]
  cases x s with
  | ok a s' => rfl
  | error e s' => cases e <;> rfl

@[simp] theorem ends_unwinding (x : Prog σ α) (c : Prog σ Unit) :
    Ends (x.unwinding c) s Q E ↔
      Ends x s Q fun e s' =>
        if e = .exception then Ends c s' (fun _ s'' => E .exception s'') E else E e s' := by
  simp only [Ends, Prog.unwinding]
  cases x s with
  | ok a s' => rfl
  | error e s' =>
      cases e with
      | exception => simp only [if_true]; cases c s' <;> rfl
      | terminated | aborted | undefined => rfl

@[simp] theorem ends_abortIf (b : Bool) {Q : Unit → σ → Prop} :
    Ends (Prog.abortIf b : Prog σ Unit) s Q E ↔ if b then E .aborted s else Q () s := by
  cases b <;> rfl

theorem ends_abortIf_of {b : Bool} {Q : Unit → σ → Prop} (hQ : Q () s) (hA : E .aborted s) :
    Ends (Prog.abortIf b) s Q E := by
  rw [ends_abortIf]
  split
  · exact hA
  · exact hQ

section FoldOr
variable {Q : Bool → σ → Prop}

theorem ends_or (acc x : Prog σ Bool) :
    Ends (acc.or x) s Q E ↔ Ends acc s (fun b s' => if b then Q true s' else Ends x s' Q E) E := by
  rw [Prog.or, ends_bind]
  refine iff_of_eq (congrArg (Ends acc s · E) ?_)
  funext b s'
  cases b <;> rfl

/-- What has been folded so far comes first. -/
theorem ends_foldl_or (xs : List (Prog σ Bool)) (acc : Prog σ Bool) (s : σ) :
    Ends (xs.foldl Prog.or acc) s Q E ↔
      Ends acc s (fun b s' => if b then Q true s' else Ends (Prog.foldOr xs) s' Q E) E := by
  induction xs generalizing acc s with
  | nil =>
      refine iff_of_eq (congrArg (Ends acc s · E) ?_)
      funext b s'
      cases b <;> rfl
  | cons x xs ih =>
      rw [List.foldl_cons, ih, ends_or]
      refine iff_of_eq (congrArg (Ends acc s · E) ?_)
      funext b s'
      cases b with
      | true => rfl
      | false =>
          have hfold : Ends (Prog.foldOr (x :: xs)) s' Q E ↔ Ends x s'
              (fun b s'' => if b then Q true s'' else Ends (Prog.foldOr xs) s'' Q E) E := by
            rw [Prog.foldOr, List.foldl_cons, ih, ends_or, ends_pure]
            rfl
          exact propext hfold.symm

/-- A fold runs its operands in order, up to the first that is true. -/
theorem ends_foldOr_cons (x : Prog σ Bool) (xs : List (Prog σ Bool)) :
    Ends (Prog.foldOr (x :: xs)) s Q E ↔
      Ends x s (fun b s' => if b then Q true s' else Ends (Prog.foldOr xs) s' Q E) E := by
  rw [Prog.foldOr, List.foldl_cons, ends_foldl_or, ends_or, ends_pure]
  rfl

end FoldOr

theorem Ends.mono {x : Prog σ α} {Q' : α → σ → Prop} {E' : Stop → σ → Prop}
    (h : Ends x s Q E) (hQ : ∀ a s', Q a s' → Q' a s') (hE : ∀ e s', E e s' → E' e s') :
    Ends x s Q' E' := by
  simp only [Ends] at h ⊢
  cases hx : x s with
  | ok a s' => rw [hx] at h; exact hQ a s' h
  | error e s' => rw [hx] at h; exact hE e s' h

theorem Ends.and {x : Prog σ α} {Q' : α → σ → Prop} {E' : Stop → σ → Prop} (h : Ends x s Q E)
    (h' : Ends x s Q' E') :
    Ends x s (fun a s' => Q a s' ∧ Q' a s') fun e s' => E e s' ∧ E' e s' := by
  simp only [Ends] at h h' ⊢
  cases hx : x s with
  | ok a s' =>
      rw [hx] at h h'
      exact ⟨h, h'⟩
  | error e s' =>
      rw [hx] at h h'
      exact ⟨h, h'⟩

theorem Ends.of_ok {x : Prog σ α} {a : α} {s' : σ} (h : Ends x s Q E) (hx : x s = .ok a s') :
    Q a s' := by
  simpa only [Ends, hx] using h

theorem Ends.of_error {x : Prog σ α} {e : Stop} {s' : σ} (h : Ends x s Q E)
    (hx : x s = .error e s') : E e s' := by
  simpa only [Ends, hx] using h

/-- A program that cannot stop returns. -/
theorem Ends.returns {x : Prog σ α} (h : Ends x s Q fun _ _ => False) : ∃ a s', Q a s' := by
  cases hx : x s with
  | ok a s' => exact ⟨a, s', h.of_ok hx⟩
  | error e s' => exact (h.of_error hx).elim

theorem ends_congr {x y : Prog σ α} (h : x s = y s) : Ends x s Q E ↔ Ends y s Q E := by
  simp only [Ends, h]

/-- The branch that is not taken. -/
theorem not_taken {P : Prop} (h : false = true) : P := absurd h Bool.false_ne_true

theorem not_skipped {P : Prop} (h : ¬ true = true) : P := absurd rfl h

/-- A program that can only end in one way ends in it. -/
theorem Ends.eq_ok {x : Prog σ α} {a : α} {s' : σ}
    (h : Ends x s (fun b t => b = a ∧ t = s') fun _ _ => False) : x s = .ok a s' := by
  cases hx : x s with
  | ok b t =>
      obtain ⟨rfl, rfl⟩ := h.of_ok hx
      rfl
  | error e t => exact (h.of_error hx).elim

end Ends

/-! ## Programs that stay within a preorder

What is said of a program here holds whichever way it ends, so it can be said of the
parts of a program one by one. -/

section Within
variable {σ α β : Type} {R : σ → σ → Prop}

/-- However `x` ends, `R` relates the state it began in to the one it leaves. -/
def Prog.Within (R : σ → σ → Prop) (x : Prog σ α) : Prop :=
  ∀ s, Ends x s (fun _ s' => R s s') fun _ s' => R s s'

theorem within_pure (hrefl : ∀ s, R s s) (a : α) : Prog.Within R (pure a) := hrefl

theorem within_throw (hrefl : ∀ s, R s s) (e : Stop) : Prog.Within R (throw e : Prog σ α) := hrefl

theorem within_bind (htrans : ∀ s s' s'', R s s' → R s' s'' → R s s'') {x : Prog σ β}
    {f : β → Prog σ α} (hx : x.Within R) (hf : ∀ b, (f b).Within R) : (x >>= f).Within R := by
  intro s
  rw [ends_bind]
  refine (hx s).mono ?_ fun _ _ => id
  intro b s' hs
  exact (hf b s').mono (fun _ _ => htrans _ _ _ hs) fun _ _ => htrans _ _ _ hs

theorem within_ite {c : Prop} [Decidable c] {x y : Prog σ α} (hx : x.Within R) (hy : y.Within R) :
    (if c then x else y).Within R := by
  split
  · exact hx
  · exact hy

theorem within_noexcept {x : Prog σ α} (hx : x.Within R) : x.noexcept.Within R := by
  intro s
  rw [ends_noexcept]
  exact hx s

theorem within_unwinding (htrans : ∀ s s' s'', R s s' → R s' s'' → R s s'') {x : Prog σ α}
    {c : Prog σ Unit} (hx : x.Within R) (hc : c.Within R) : (x.unwinding c).Within R := by
  intro s
  rw [ends_unwinding]
  refine (hx s).mono (fun _ _ => id) fun e s' hs => ?_
  split
  · exact (hc s').mono (fun _ _ => htrans _ _ _ hs) fun _ _ => htrans _ _ _ hs
  · exact hs

end Within

/-! ### Programs that only add to a log -/

section Appends
variable {σ α β ε : Type} {log : σ → List ε}

/-- However `x` ends, what was in the log is still there. -/
def Prog.Appends (log : σ → List ε) (x : Prog σ α) : Prop :=
  ∀ s, Ends x s (fun _ s' => log s <+: log s') fun _ s' => log s <+: log s'

theorem appends_pure (a : α) : Prog.Appends log (pure a) :=
  within_pure (R := fun s s' => log s <+: log s') (fun _ => List.prefix_rfl) a

theorem appends_throw (e : Stop) : Prog.Appends log (throw e : Prog σ α) :=
  within_throw (R := fun s s' => log s <+: log s') (fun _ => List.prefix_rfl) e

theorem appends_bind {x : Prog σ β} {f : β → Prog σ α} (hx : x.Appends log)
    (hf : ∀ b, (f b).Appends log) : (x >>= f).Appends log :=
  within_bind (R := fun s s' => log s <+: log s') (fun _ _ _ => List.IsPrefix.trans) hx hf

theorem appends_ite {c : Prop} [Decidable c] {x y : Prog σ α} (hx : x.Appends log)
    (hy : y.Appends log) : (if c then x else y).Appends log := within_ite hx hy

theorem appends_abortIf (b : Bool) : (Prog.abortIf b : Prog σ Unit).Appends log :=
  appends_ite (appends_throw _) (appends_pure _)

theorem appends_modify {f : σ → σ} (hf : ∀ s, log s <+: log (f s)) :
    (modify f : Prog σ PUnit).Appends log := hf

theorem appends_noexcept {x : Prog σ α} (hx : x.Appends log) : x.noexcept.Appends log :=
  within_noexcept hx

theorem appends_unwinding {x : Prog σ α} {c : Prog σ Unit} (hx : x.Appends log)
    (hc : c.Appends log) : (x.unwinding c).Appends log :=
  within_unwinding (R := fun s s' => log s <+: log s') (fun _ _ _ => List.IsPrefix.trans) hx hc

theorem appends_forM {ι : Type} {f : ι → Prog σ Unit} (h : ∀ i, (f i).Appends log)
    (is : List ι) : (forM is f : Prog σ Unit).Appends log := by
  induction is with
  | nil => exact appends_pure ()
  | cons i is ih =>
      rw [List.forM_cons]
      exact appends_bind (h i) fun _ => ih

end Appends

/-! ### Programs that keep a promise -/

section Keeps
variable {σ α β : Type} {I : σ → Prop}

/-- However `x` ends, what it was promised still holds. -/
def Prog.Keeps (I : σ → Prop) (x : Prog σ α) : Prop := x.Within fun s s' => I s → I s'

theorem Prog.Keeps.ends {x : Prog σ α} (hx : x.Keeps I) {s : σ} (hs : I s) :
    Ends x s (fun _ => I) fun _ => I := (hx s).mono (fun _ _ h => h hs) fun _ _ h => h hs

theorem keeps_pure (a : α) : Prog.Keeps I (pure a) := within_pure (fun _ => id) a

theorem keeps_throw (e : Stop) : Prog.Keeps I (throw e : Prog σ α) := within_throw (fun _ => id) e

theorem keeps_bind {x : Prog σ β} {f : β → Prog σ α} (hx : x.Keeps I) (hf : ∀ b, (f b).Keeps I) :
    (x >>= f).Keeps I := within_bind (fun _ _ _ h h' hs => h' (h hs)) hx hf

theorem keeps_unwinding {x : Prog σ α} {c : Prog σ Unit} (hx : x.Keeps I) (hc : c.Keeps I) :
    (x.unwinding c).Keeps I := within_unwinding (fun _ _ _ h h' hs => h' (h hs)) hx hc

theorem keeps_foldOr {xs : List (Prog σ Bool)} (h : ∀ x ∈ xs, x.Keeps I) :
    (Prog.foldOr xs).Keeps I := by
  have hfold : ∀ acc : Prog σ Bool, acc.Keeps I → (xs.foldl Prog.or acc).Keeps I := by
    induction xs with
    | nil => exact fun acc hacc => hacc
    | cons x xs ih =>
        intro acc hacc
        refine ih (fun y hy => h y (List.mem_cons_of_mem x hy)) _ ?_
        refine keeps_bind hacc fun b => within_ite (keeps_pure true) ?_
        exact h x List.mem_cons_self
  exact hfold _ (keeps_pure false)

theorem keeps_mapM {ι : Type} {f : ι → Prog σ β} (h : ∀ i, (f i).Keeps I) (is : List ι) :
    (is.mapM f).Keeps I := by
  induction is with
  | nil => exact keeps_pure []
  | cons i is ih =>
      rw [List.mapM_cons]
      exact keeps_bind (h i) fun b => keeps_bind ih fun bs => keeps_pure (b :: bs)

end Keeps

/-- What an exception may leave: a state in `P`.  A run that is over promises
nothing, and no program may get to `undefined`. -/
def Safe {σ : Type} (P : σ → Prop) : Stop → σ → Prop
  | .exception, s => P s
  | .terminated, _ | .aborted, _ => True
  | .undefined, _ => False

theorem safe_of_aborted {σ : Type} {P : σ → Prop} {e : Stop} {s : σ} (h : e = .aborted) :
    Safe P e s := by
  subst h
  trivial

theorem safe_masked {σ : Type} {P : σ → Prop} {e : Stop} {s : σ} (h : Safe P e s) :
    Safe P (if e = .exception then .terminated else e) s := by
  cases e with
  | exception => trivial
  | terminated | aborted => trivial
  | undefined => exact h

/-- Where exceptions may not leave, they are not asked what they leave. -/
theorem Ends.noexcept {σ α : Type} {x : Prog σ α} {s : σ} {Q : α → σ → Prop} {P : σ → Prop}
    (h : Ends x s Q (Safe P)) : Ends x.noexcept s Q (Safe P) := by
  rw [ends_noexcept]
  exact h.mono (fun _ _ => id) fun _ _ => safe_masked

/-! ## Runs -/

section Run
variable {σ ι : Type}

/-- The states reached from `s₀`, each with the steps taken on the way. -/
inductive Run (step : σ → ι → σ → Prop) (s₀ : σ) : List ι → σ → Prop
  | nil : Run step s₀ [] s₀
  | snoc {is : List ι} {i : ι} {s s' : σ} :
      Run step s₀ is s → step s i s' → Run step s₀ (is ++ [i]) s'

/-- The steps that meet `G` in the state they are taken in. -/
def guarded (G : σ → ι → Prop) (step : σ → ι → σ → Prop) : σ → ι → σ → Prop :=
  fun s i s' => G s i ∧ step s i s'

variable {step : σ → ι → σ → Prop} {s₀ s : σ} {is : List ι}

/-- What relates the start to no steps and is kept by every step relates the state
after a run to its steps. -/
theorem Run.relates {R : List ι → σ → Prop} (h₀ : R [] s₀)
    (keep : ∀ is s i s', R is s → step s i s' → R (is ++ [i]) s') (h : Run step s₀ is s) :
    R is s := by
  induction h with
  | nil => exact h₀
  | snoc _ hstep ih => exact keep _ _ _ _ ih hstep

/-- What holds at the start and is kept by every step holds after every run. -/
theorem Run.invariant {P : σ → Prop} (h₀ : P s₀)
    (keep : ∀ s i s', P s → step s i s' → P s') (h : Run step s₀ is s) : P s :=
  h.relates (R := fun _ s => P s) h₀ fun _ s i s' => keep s i s'

/-- A run is a run of any steps its own are among. -/
theorem Run.mono {step' : σ → ι → σ → Prop} (hstep : ∀ s i s', step s i s' → step' s i s')
    (h : Run step s₀ is s) : Run step' s₀ is s := by
  induction h with
  | nil => exact .nil
  | snoc _ hs ih => exact .snoc ih (hstep _ _ _ hs)

/-- A run of guarded steps is a run. -/
theorem Run.of_guarded {G : σ → ι → Prop} (h : Run (guarded G step) s₀ is s) :
    Run step s₀ is s := h.mono fun _ _ _ => And.right

/-- If a guarded step keeps `P` and any other step does damage that stays, then a run
is damaged or all its steps met their guard. -/
theorem Run.guarded_or_spoiled {P : σ → Prop} {D : σ → Prop} {G : σ → ι → Prop} (h₀ : P s₀)
    (keep : ∀ s i s', P s → G s i → step s i s' → P s')
    (spoil : ∀ s i s', P s → ¬ G s i → step s i s' → D s')
    (stay : ∀ s i s', D s → step s i s' → D s') (h : Run step s₀ is s) :
    (P s ∧ Run (guarded G step) s₀ is s) ∨ D s := by
  induction h with
  | nil => exact .inl ⟨h₀, .nil⟩
  | @snoc is i s s' _ hstep ih =>
      rcases ih with ⟨hP, hrun⟩ | hbad
      · by_cases hG : G s i
        · exact .inl ⟨keep s i s' hP hG hstep, .snoc hrun ⟨hG, hstep⟩⟩
        · exact .inr (spoil s i s' hP hG hstep)
      · exact .inr (stay s i s' hbad hstep)

/-- What an invariant of the guarded steps promises and the damage done by any other
step rules out holds after a run exactly when every step of the run met its guard. -/
theorem Run.sound_iff_guarded {P S : σ → Prop} (D : σ → Prop) {G : σ → ι → Prop} (h₀ : P s₀)
    (keep : ∀ s i s', P s → G s i → step s i s' → P s')
    (spoil : ∀ s i s', P s → ¬ G s i → step s i s' → D s')
    (stay : ∀ s i s', D s → step s i s' → D s') (sound : ∀ s, P s → S s)
    (excl : ∀ s, D s → ¬ S s) (h : Run step s₀ is s) :
    S s ↔ Run (guarded G step) s₀ is s := by
  constructor
  · intro hS
    have hsplit := h.guarded_or_spoiled h₀ keep spoil stay
    exact hsplit.elim And.right fun hbad => absurd hS (excl s hbad)
  · intro hrun
    refine sound s (hrun.invariant h₀ ?_)
    exact fun s i s' hP hstep => keep s i s' hP hstep.1 hstep.2

end Run

/-! ### Runs of calls

A call of a run returns, or an exception leaves it, and the run goes on from there.  What is
undefined is a state of the run like any other (`none`), but the last one. -/

section Calls
variable {σ ι : Type}

/-- One call, of those that may be made. -/
def going (legal : σ → ι → Prop) (call : ι → Prog σ Unit) : Option σ → ι → Option σ → Prop
  | some s, i, some s' => legal s i ∧ (call i s = .ok () s' ∨ call i s = .error .exception s')
  | some s, i, none => legal s i ∧ ∃ s', call i s = .error .undefined s'
  | none, _, _ => False

/-- If the run goes on, it does from a state in `D`. -/
def Spoils (D : σ → Prop) : Stop → σ → Prop
  | .exception, s => D s
  | .terminated, _ | .aborted, _ | .undefined, _ => True

variable {legal : σ → ι → Prop} {call : ι → Prog σ Unit} {P D : σ → Prop} {i : ι} {s : σ}
  {o : Option σ}

theorem going_safe (h : going legal call (some s) i o)
    (hends : Ends (call i) s (fun _ => P) (Safe P)) : ∃ s', o = some s' ∧ P s' := by
  cases o with
  | none =>
      obtain ⟨-, s', hundefined⟩ := h
      exact (hends.of_error hundefined).elim
  | some s' =>
      refine ⟨s', rfl, ?_⟩
      rcases h.2 with hok | herr
      · exact hends.of_ok hok
      · exact hends.of_error herr

theorem going_spoils (h : going legal call (some s) i o)
    (hends : Ends (call i) s (fun _ => D) (Spoils D)) : ∀ s' ∈ o, D s' := by
  rintro s' rfl
  rcases h.2 with hok | herr
  · exact hends.of_ok hok
  · exact hends.of_error herr

/-- `Run.sound_iff_guarded` for the calls of a run, where to be undefined is not to be sound. -/
theorem Run.calls_sound_iff {S : σ → Prop} {G : σ → ι → Prop} {is : List ι} (h₀ : P s)
    (keep : ∀ s i, P s → legal s i → G s i → Ends (call i) s (fun _ => P) (Safe P))
    (spoil : ∀ s i, P s → legal s i → ¬ G s i → Ends (call i) s (fun _ => D) (Spoils D))
    (stay : ∀ s i, D s → Ends (call i) s (fun _ => D) fun _ => D) (sound : ∀ s, P s → S s)
    (excl : ∀ s, D s → ¬ S s) (h : Run (going legal call) (some s) is o) :
    (∃ s', o = some s' ∧ S s') ↔
      Run (guarded (fun o i => ∀ s ∈ o, G s i) (going legal call)) (some s) is o := by
  have hlegal : ∀ {s i o}, going legal call (some s) i o → legal s i := by
    intro s i o hstep
    cases o with
    | none => exact hstep.1
    | some s' => exact hstep.1
  refine h.sound_iff_guarded (P := fun o => ∃ s, o = some s ∧ P s)
    (S := fun o => ∃ s, o = some s ∧ S s) (fun o => ∀ s ∈ o, D s) ⟨s, rfl, h₀⟩ ?_ ?_ ?_ ?_ ?_
  · rintro _ i o' ⟨s, rfl, hs⟩ hG hstep
    exact going_safe hstep (keep s i hs (hlegal hstep) (hG s rfl))
  · rintro _ i o' ⟨s, rfl, hs⟩ hG hstep
    refine going_spoils hstep (spoil s i hs (hlegal hstep) fun hGs => hG ?_)
    rintro _ ⟨⟩
    exact hGs
  · intro o i o' hD hstep
    cases o with
    | none => exact hstep.elim
    | some s =>
        refine going_spoils hstep ((stay s i (hD s rfl)).mono (fun _ _ => id) ?_)
        intro e s' hs'
        cases e with
        | exception => exact hs'
        | terminated | aborted | undefined => trivial
  · rintro _ ⟨s, rfl, hs⟩
    exact ⟨s, rfl, sound s hs⟩
  · rintro o hD ⟨s, rfl, hs⟩
    exact excl s (hD s rfl) hs

end Calls

end Lifetime
