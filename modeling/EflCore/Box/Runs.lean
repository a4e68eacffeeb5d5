/-
# `EflCore.Box.Runs` — runs of box operations

The rules a client keeps are these.  A box is constructed where there is none, and if it is one
of an object, while there is the object; it is used where there is one; a pointer handed to
`NewFromPtr` or `Delete` is null or one that `release` returned.

**Proved here.**  A run of box operations is sound exactly when no step resets or overwrites a
box that is empty, or uses one that ends on the way, or deletes null through the allocator, or
asks an allocator that fails (`box_run_sound_iff`).  A constructor may throw, and an assertion
or the end of the stack may end the run.
-/
import EflCore.Box.Accounts

namespace EflCore

open Lifetime

section
variable {B A : Type}

inductive BoxOp (B A : Type) where
  | default (b : B)
  | new (b : B) (answer : Option A) (throws : Bool)
  | newFromPtr (b : B) (p : Option A)
  | moveConstruct (b box : B)
  | moveAssign (b box : B)
  | release (b : B)
  | reset (b : B)
  | swap (b box : B)
  | delete (p : Option A)
  | allocatorDelete (p : Option A)
  | destroy (b : B)

namespace BoxOp

/-- The call, and what it means for the pointers the client holds. -/
def run [DecidableEq B] [DecidableEq A] (env : BoxEnv B A) (depth : Nat) :
    BoxOp B A → Prog (BoxWorld B A) Unit
  | default b => Box.default b
  | new b answer throws => Box.new b answer throws
  | newFromPtr b p => do
      modify fun w => w.setReleased p false
      Box.newFromPtr b p
  | moveConstruct b box => Box.moveConstruct b box
  | moveAssign b box => Box.moveAssign env depth b box
  | release b => do
      let p ← Box.release b
      modify fun w => w.setReleased p true
  | reset b => Box.reset env depth b
  | swap b box => Box.swap b box
  | delete p => do
      modify fun w => w.setReleased p false
      Box.delete env depth p
  | allocatorDelete p => do
      modify fun w => w.setReleased p false
      BoxAllocator.delete env depth p
  | destroy b => Box.destroy env depth b

/-- A pointer the client may hand back. -/
def Held (w : BoxWorld B A) (p : Option A) : Prop := p ≠ none → w.released p = true

/-- A place to construct a box in. -/
def Room [DecidableEq A] (env : BoxEnv B A) (w : BoxWorld B A) (b : B) : Prop :=
  w.boxes b = none ∧ ∀ a, b ∈ env.members a → Live w.log (some a)

/-- The rules of the interface; the allocator's own is that it hands out no block
that is out already. -/
def Legal [DecidableEq A] (env : BoxEnv B A) (w : BoxWorld B A) : BoxOp B A → Prop
  | default b => Room env w b
  | new b answer _ => Room env w b ∧ ¬ Allocated w.log answer
  | newFromPtr b p => Room env w b ∧ Held w p
  | moveConstruct b box => Room env w b ∧ w.boxes box ≠ none
  | moveAssign b box => w.boxes b ≠ none ∧ w.boxes box ≠ none ∧ b ≠ box
  | swap b box => w.boxes b ≠ none ∧ w.boxes box ≠ none
  | release b | reset b | destroy b => w.boxes b ≠ none
  | delete p | allocatorDelete p => Held w p

/-- A box is reset or overwritten only if it owns an object, and neither it nor the box that is
assigned ends with that object.  Null is not handed to the allocator, nor does the allocator
answer with it. -/
def Careful (env : BoxEnv B A) (w : BoxWorld B A) : BoxOp B A → Prop
  | reset b => ∃ a, w.boxes b = some (some a) ∧ ¬ w.Inside env b a
  | moveAssign b box =>
      ∃ a, w.boxes b = some (some a) ∧ ¬ w.Inside env b a ∧ ¬ w.Inside env box a
  | allocatorDelete p => p ≠ none
  | new _ answer _ => answer ≠ none
  | _ => True

end BoxOp

/-- One call.  What is undefined is the end of a run. -/
def boxStep [DecidableEq B] [DecidableEq A] (env : BoxEnv B A) (depth : Nat) :
    Option (BoxWorld B A) → BoxOp B A → Option (BoxWorld B A) → Prop :=
  going (BoxOp.Legal env) (BoxOp.run env depth)

/-! ## Calls that keep a state orderly -/

section Keep
variable [DecidableEq B] [DecidableEq A] {env : BoxEnv B A} {depth : Nat} {w w' : BoxWorld B A}

open BoxWorld BoxOp

omit [DecidableEq B] in
theorem BoxWorld.Orderly.next (h : Orderly env w) (hs : w'.Sound)
    (hlive : ∀ x, Live w.log x → Live w'.log x)
    (hbox : ∀ c, w'.boxes c ≠ none → w.boxes c ≠ none ∨ Room env w c) : Orderly env w' where
  sound := hs
  homed c x hc hmem := by
    refine hlive _ ?_
    rcases hbox c hc with hold | hroom
    · exact h.homed c x hold hmem
    · exact hroom.2 x hmem

theorem setBox_room {b : B} {d : Option (Option A)} (hb : w.boxes b ≠ none ∨ Room env w b) (c : B)
    (hc : (w.setBox b d).boxes c ≠ none) : w.boxes c ≠ none ∨ Room env w c := by
  rw [setBox_boxes] at hc
  split at hc
  · next hcb => exact hcb ▸ hb
  · exact .inl hc

theorem keeps_default {b : B} (h : Orderly env w) (hb : Room env w b) :
    Ends (Box.default b) w (fun _ => Orderly env) (Safe (Orderly env)) := by
  refine h.next (h.sound.relabel rfl (.refl _) fun i q => ?_) (fun _ => id) (setBox_room (.inr hb))
  rw [owns_setBox_null]
  refine and_iff_left_of_imp fun hi => ?_
  rintro rfl
  exact not_owns_dead hb.1 q hi

theorem keeps_new {b : B} {answer : Option A} {throws : Bool} (h : Orderly env w)
    (hb : Room env w b) (hfresh : ¬ Allocated w.log answer) (hanswer : answer ≠ none) :
    Ends (Box.new b answer throws) w (fun _ => Orderly env) (Safe (Orderly env)) := by
  obtain ⟨a, rfl⟩ := Option.ne_none_iff_exists'.mp hanswer
  have hgrows : ∀ {w' : BoxWorld B A}, w'.Sound → (∀ i q, w.Owns i q → w'.Owns i q) →
      ∀ x, Live w.log x → Live w'.log x := by
    intro w' hs hown x hx
    obtain ⟨i, hi⟩ := (h.sound.accounts.live_iff x).mp hx
    exact (hs.accounts.live_iff x).mpr ⟨i, hown i x hi⟩
  simp only [Box.new, ends_bind, ends_new, ends_initBoxData]
  cases throws with
  | true =>
      have hs := h.sound.leak hfresh
      exact h.next hs (hgrows hs fun i q => (owns_emit ..).mpr) fun c => .inl
  | false =>
      have hown : ∀ i q, ((w.emit [.acquire (some a), .construct (some a) ()]).setBox b
          (some (some a))).Owns i q ↔ w.Owns i q ∨ i = some b ∧ q = some a := by
        intro i q
        rw [owns_setBox, owns_emit]
        split
        · next hi =>
          subst hi
          have hdead := not_owns_dead hb.1 q
          constructor
          · rintro ⟨-, rfl⟩
            exact .inr ⟨rfl, rfl⟩
          · rintro (hi | ⟨-, rfl⟩)
            · exact absurd hi hdead
            · exact ⟨Option.some_ne_none a, rfl⟩
        · next hi => exact ⟨.inl, fun h => h.resolve_right fun h => hi h.1⟩
      have hs := h.sound.adopt (some b) rfl hfresh hown
      exact h.next hs (hgrows hs fun i q hi => (hown i q).mpr (.inl hi)) (setBox_room (.inr hb))

/-- Two handles change what they hold; a box that is not there holds null. -/
theorem exchange_orderly {b c : B} {p q : Option A} (h : Orderly env w)
    (hroom : w.boxes b ≠ none ∨ Room env w b) (hroom' : w.boxes c ≠ none ∨ Room env w c)
    (hb : ∀ r, w.Owns (some b) r ↔ r ≠ none ∧ p = r)
    (hc : ∀ r, w.Owns (some c) r ↔ r ≠ none ∧ q = r) :
    Orderly env ((w.setBox b (some q)).setBox c (some p)) := by
  refine h.next (h.sound.relabel rfl (.swap (some b) (some c)) fun i r => ?_) (fun _ => id) ?_
  · rw [owns_setBox, owns_setBox]
    rcases eq_or_ne i (some c) with rfl | hic
    · rw [if_pos rfl, Equiv.swap_apply_right, hb]
    · rw [if_neg hic]
      rcases eq_or_ne i (some b) with rfl | hib
      · rw [if_pos rfl, Equiv.swap_apply_left, hc]
      · rw [if_neg hib, Equiv.swap_apply_of_ne_of_ne hib hic]
  · intro e he
    rw [setBox_boxes] at he
    split at he
    · next hec => exact hec ▸ hroom'
    · exact setBox_room hroom e he

omit [DecidableEq A] in
theorem setBox_alive {c : B} (hc : w.boxes c ≠ none) (b : B) (p : Option A) :
    ∃ r, (w.setBox b (some p)).boxes c = some r := by
  rw [setBox_boxes]
  split
  · exact ⟨p, rfl⟩
  · exact Option.ne_none_iff_exists'.mp hc

theorem keeps_moveConstruct {b box : B} (h : Orderly env w) (hb : Room env w b)
    (hbox : w.boxes box ≠ none) :
    Ends (Box.moveConstruct b box) w (fun _ => Orderly env) (Safe (Orderly env)) := by
  obtain ⟨q, hq⟩ := Option.ne_none_iff_exists'.mp hbox
  obtain ⟨r, hr⟩ := setBox_alive hbox b q
  simp only [Box.moveConstruct, ends_bind, ends_boxData, hq, ends_initBoxData, ends_setBoxData, hr]
  refine exchange_orderly h (.inr hb) (.inl hbox) (fun r => ?_) (owns_box_iff hq)
  exact ⟨fun hr => absurd hr (not_owns_dead hb.1 r), fun hr => absurd hr.2.symm hr.1⟩

theorem keeps_swap {b box : B} (h : Orderly env w) (hb : w.boxes b ≠ none)
    (hbox : w.boxes box ≠ none) :
    Ends (Box.swap b box) w (fun _ => Orderly env) (Safe (Orderly env)) := by
  obtain ⟨p, hp⟩ := Option.ne_none_iff_exists'.mp hb
  obtain ⟨q, hq⟩ := Option.ne_none_iff_exists'.mp hbox
  obtain ⟨r, hr⟩ := setBox_alive hbox b q
  simp only [Box.swap, ends_bind, ends_boxData, hp, hq, ends_setBoxData, hr]
  exact exchange_orderly h (.inl hb) (.inl hbox) (owns_box_iff hp) (owns_box_iff hq)

theorem keeps_release {b : B} (h : Orderly env w) (hb : w.boxes b ≠ none) :
    Ends (BoxOp.run env depth (.release b)) w (fun _ => Orderly env) (Safe (Orderly env)) := by
  obtain ⟨p, hp⟩ := Option.ne_none_iff_exists'.mp hb
  simp only [BoxOp.run, Box.release, ends_bind, ends_boxData, hp, ends_setBoxData, ends_pure,
    ends_modify]
  have howns := owns_box_iff hp
  refine h.next (h.sound.move rfl none (p := p) (fun hne => ⟨some b, (howns p).mpr ⟨hne, rfl⟩⟩)
    fun i q => ?_) (fun _ => id) (setBox_room (.inl hb))
  rw [owns_setReleased, owns_setBox_null]
  have := h.sound.accounts.unique i (some b) p
  have : w.Owns i q → q ≠ none := And.left
  grind

theorem keeps_newFromPtr {b : B} {p : Option A} (h : Orderly env w) (hb : Room env w b)
    (hp : Held w p) :
    Ends (BoxOp.run env depth (.newFromPtr b p)) w (fun _ => Orderly env) (Safe (Orderly env)) := by
  simp only [BoxOp.run, Box.newFromPtr, ends_bind, ends_initBoxData, ends_modify]
  have held : p ≠ none → w.Owns none p := fun hne => ⟨hne, hp hne⟩
  refine h.next (h.sound.move rfl (some b) (p := p) (fun hne => ⟨none, held hne⟩) fun i q => ?_)
    (fun _ => id) fun c => setBox_room (w := w) (.inr hb) c
  rw [owns_setBox, owns_setReleased]
  have := h.sound.accounts.unique i none p
  have : w.Owns i q → q ≠ none := And.left
  have := not_owns_dead hb.1 q
  grind

/-! ### Calls that delete -/

variable (hT : env.trivialDtor = false)
include hT

theorem keeps_reset {b : B} {a : A} (h : Orderly env w) (hb : w.boxes b = some (some a))
    (hself : ¬ w.Inside env b a) :
    Ends (Box.reset env depth b) w
      (fun _ w' => Orderly env w' ∧ w'.boxes b = some none ∧
        ∀ c, c ≠ b → ¬ w.Inside env c a → w'.boxes c = w.boxes c)
      (Safe (Orderly env)) := by
  have hskip : Deleting env (· = b) (some a) [] w := by
    refine h.deleting.pend_box rfl (fun _ => id) hb id fun i q => ?_
    simp only [OwnsBut, not_false_eq_true, implies_true, true_and]
    refine and_congr_left fun _ => ⟨fun hi hib => hi b hib rfl, ?_⟩
    rintro hib c rfl rfl
    exact hib rfl
  rw [ends_reset env depth hb]
  refine (hskip.delete hT depth ?_).mono ?_ fun _ _ => safe_of_aborted
  · rintro _ rfl
    exact hself
  · rintro - w' ⟨h', hsame⟩
    rw [ends_setBoxData_of ((hsame b hself).trans hb)]
    refine ⟨h'.orderly rfl (fun c hc => ?_) fun i q => ?_, ?_, fun c hc hout => ?_⟩
    · rw [setBox_boxes] at hc
      split at hc
      · next hcb => rw [hcb, hsame b hself, hb]; exact Option.some_ne_none _
      · exact hc
    · rw [owns_setBox_null, and_comm]
      refine and_congr_left fun _ => ⟨?_, fun hi hib => hi b hib rfl⟩
      rintro hib c rfl rfl
      exact hib rfl
    · rw [setBox_boxes, if_pos rfl]
    · rw [setBox_boxes, if_neg hc, hsame c hout]

theorem keeps_moveAssign {b box : B} {a : A} (h : Orderly env w) (hb : w.boxes b = some (some a))
    (hself : ¬ w.Inside env b a) (hbox : w.boxes box ≠ none) (hout : ¬ w.Inside env box a)
    (hne : b ≠ box) :
    Ends (Box.moveAssign env depth b box) w (fun _ => Orderly env) (Safe (Orderly env)) := by
  obtain ⟨q, hq⟩ := Option.ne_none_iff_exists'.mp hbox
  rw [Box.moveAssign, ends_bind]
  refine (keeps_reset hT h hb hself).mono ?_ fun _ _ => id
  rintro - w' ⟨hs, hb', hsame⟩
  have hq' : w'.boxes box = some q := (hsame box hne.symm hout).trans hq
  rw [ends_take hb' hq']
  have alive : ∀ {c : B} {d : Option A}, w'.boxes c = some d → w'.boxes c ≠ none := by
    intro c d hc
    rw [hc]
    exact nofun
  exact exchange_orderly hs (.inl (alive hb')) (.inl (alive hq')) (owns_box_iff hb')
    (owns_box_iff hq')

theorem keeps_deleteReleased {p : Option A} (h : Orderly env w) (hp : Held w p) (hne : p ≠ none) :
    Ends (BoxAllocator.delete env depth p) (w.setReleased p false) (fun _ => Orderly env)
      (Safe (Orderly env)) := by
  obtain ⟨a, rfl⟩ := Option.ne_none_iff_exists'.mp hne
  have held : w.Owns none (some a) := ⟨hne, hp hne⟩
  have hpend : Deleting env (fun _ => False) (some a) [] (w.setReleased (some a) false) := by
    have hlog : (w.setReleased (some a) false).log = w.log := rfl
    refine h.deleting.pend hlog (fun _ => id) (fun _ => ⟨none, fun _ _ => id, held⟩) fun i q => ?_
    simp only [OwnsBut, not_false_eq_true, implies_true, true_and, owns_setReleased]
    have := h.sound.accounts.unique i none (some a)
    grind
  refine (hpend.delete hT depth fun _ => False.elim).mono ?_ fun _ _ => safe_of_aborted
  exact fun _ _ h' => h'.1.done

theorem keeps_destroy {b : B} (h : Orderly env w) (hb : w.boxes b ≠ none) :
    Ends (Box.destroy env depth b) w (fun _ => Orderly env) (Safe (Orderly env)) := by
  obtain ⟨p, hp⟩ := Option.ne_none_iff_exists'.mp hb
  have hpend := h.deleting.endBox hp id
  simp only [Box.destroy, destroyBox, ends_bind, ends_boxData, hp, ends_modify]
  cases p with
  | none => exact hpend.done
  | some a =>
      refine (hpend.delete hT depth fun _ => False.elim).mono ?_ fun _ _ => safe_of_aborted
      exact fun _ _ h' => h'.1.done

omit [DecidableEq B] hT in
/-- Null may be passed around; nothing owns it. -/
theorem BoxWorld.Orderly.forgetNull (h : Orderly env w) : Orderly env (w.setReleased none false) := by
  refine h.next (h.sound.relabel rfl (.refl _) fun i q => ?_) (fun _ => id) fun _ => .inl
  rw [owns_setReleased]
  split
  · next hi =>
    rw [hi.1, hi.2]
    exact iff_of_false (fun hq => hq.1 rfl) fun hq => hq.1 rfl
  · rfl

/-- A legal and careful call keeps an orderly state orderly. -/
theorem keeps_op {op : BoxOp B A} (h : Orderly env w) (hlegal : op.Legal env w)
    (hop : op.Careful env w) :
    Ends (op.run env depth) w (fun _ => Orderly env) (Safe (Orderly env)) := by
  cases op with
  | default b => exact keeps_default h hlegal
  | new b answer throws => exact keeps_new h hlegal.1 hlegal.2 hop
  | newFromPtr b p => exact keeps_newFromPtr h hlegal.1 hlegal.2
  | moveConstruct b box => exact keeps_moveConstruct h hlegal.1 hlegal.2
  | moveAssign b box =>
      obtain ⟨a, hb, hself, hout⟩ := hop
      exact keeps_moveAssign hT h hb hself hlegal.2.1 hout hlegal.2.2
  | release b => exact keeps_release h hlegal
  | reset b =>
      obtain ⟨a, hb, hself⟩ := hop
      exact (keeps_reset hT h hb hself).mono (fun _ _ hs => hs.1) fun _ _ => id
  | swap b box => exact keeps_swap h hlegal.1 hlegal.2
  | delete p =>
      cases p with
      | none => exact h.forgetNull
      | some a => exact keeps_deleteReleased hT h hlegal nofun
  | allocatorDelete p => exact keeps_deleteReleased hT h hlegal hop
  | destroy b => exact keeps_destroy hT h hlegal

end Keep

/-! ## The other calls

Where the target is empty, a destructor is called on null, and a log never forgets.  Where a box
ends on the way, it is used when it has. -/

/-- A destructor has been called on the null pointer. -/
def DestroyedNull (w : BoxWorld B A) : Prop := .destroy none () ∈ w.log

section Spoil

theorem appends_boxData (b : B) : (boxData b : Prog (BoxWorld B A) _).Appends BoxWorld.log := by
  intro w
  rw [ends_boxData]
  split <;> exact List.prefix_rfl

theorem appends_emit (es : List (Event (Option A) Unit)) :
    (emit es : Prog (BoxWorld B A) Unit).Appends BoxWorld.log :=
  appends_modify fun w => List.prefix_append w.log es

theorem appends_allocatorNew (answer : Option A) (throws : Bool) :
    (BoxAllocator.new answer throws : Prog (BoxWorld B A) _).Appends BoxWorld.log := by
  refine appends_bind ?_ fun p => ?_
  · cases answer with
    | none => exact appends_pure _
    | some a => exact appends_bind (appends_emit _) fun _ => appends_pure _
  · cases p with
    | none => exact appends_throw _
    | some a =>
        refine appends_ite (appends_throw _) ?_
        exact appends_bind (appends_emit _) fun _ => appends_pure _

variable [DecidableEq B] (env : BoxEnv B A) (depth : Nat)

theorem appends_initBoxData (b : B) (p : Option A) :
    (initBoxData b p : Prog (BoxWorld B A) Unit).Appends BoxWorld.log :=
  appends_modify fun _ => List.prefix_rfl

theorem appends_setBoxData (b : B) (p : Option A) :
    (setBoxData b p : Prog (BoxWorld B A) Unit).Appends BoxWorld.log :=
  appends_bind (appends_boxData b) fun _ => appends_initBoxData b p

theorem appends_destroyBox {del : Option A → Prog (BoxWorld B A) Unit}
    (hdel : ∀ p, (del p).Appends BoxWorld.log) (b : B) :
    (destroyBox del b).Appends BoxWorld.log := by
  refine appends_bind (appends_boxData b) fun p => appends_bind ?_ fun _ => ?_
  · exact appends_modify fun _ => List.prefix_rfl
  · exact appends_ite (hdel p) (appends_pure _)

theorem appends_allocatorDelete (p : Option A) :
    (BoxAllocator.delete env depth p).Appends BoxWorld.log := by
  induction depth generalizing p with
  | zero => exact appends_throw _
  | succ depth ih =>
      have hend : ∀ b, (endBox (BoxAllocator.delete env depth) b).Appends BoxWorld.log := by
        intro b w
        exact (appends_ite (appends_destroyBox ih b) (appends_pure _) :
          Prog.Appends BoxWorld.log (if (w.boxes b).isSome then
            destroyBox (BoxAllocator.delete env depth) b else pure ())) w
      refine appends_ite (appends_pure _) (appends_bind ?_ fun _ => ?_)
      · refine appends_ite (appends_pure _) (appends_ite ?_ (appends_pure _))
        exact appends_bind (appends_emit _) fun _ => appends_forM hend _
      · refine appends_ite (appends_pure _) ?_
        exact appends_bind (appends_abortIf _) fun _ => appends_emit _

theorem appends_reset (b : B) : (Box.reset env depth b).Appends BoxWorld.log := by
  refine appends_bind (appends_boxData b) fun p => appends_ite ?_ (appends_setBoxData b none)
  refine appends_bind (appends_boxData b) fun p => appends_bind ?_ fun _ => ?_
  · exact appends_allocatorDelete env depth p
  · exact appends_setBoxData b none

/-- `operator=` after the reset. -/
theorem appends_take (b box : B) :
    (do setBoxData b (← boxData box); setBoxData box none
      : Prog (BoxWorld B A) Unit).Appends BoxWorld.log := by
  refine appends_bind (appends_boxData box) fun p => ?_
  exact appends_bind (appends_setBoxData b p) fun _ => appends_setBoxData box none

variable [DecidableEq A] {w : BoxWorld B A}

/-- Every call only adds to the log. -/
theorem appends_op (op : BoxOp B A) : (op.run env depth).Appends BoxWorld.log := by
  have setReleased : ∀ (p : Option A) (r : Bool),
      (modify fun w : BoxWorld B A => w.setReleased p r : Prog _ PUnit).Appends BoxWorld.log :=
    fun _ _ => appends_modify fun _ => List.prefix_rfl
  cases op with
  | default b => exact appends_initBoxData b none
  | new b answer throws =>
      exact appends_bind (appends_allocatorNew answer throws) (appends_initBoxData b)
  | newFromPtr b p => exact appends_bind (setReleased p false) fun _ => appends_initBoxData b p
  | moveConstruct b box =>
      refine appends_bind (appends_boxData box) fun p => ?_
      exact appends_bind (appends_initBoxData b p) fun _ => appends_setBoxData box none
  | moveAssign b box => exact appends_bind (appends_reset env depth b) fun _ => appends_take b box
  | release b =>
      refine appends_bind (appends_bind (appends_boxData b) fun p => ?_) (setReleased · true)
      exact appends_bind (appends_setBoxData b none) fun _ => appends_pure p
  | reset b => exact appends_reset env depth b
  | swap b box =>
      refine appends_bind (appends_boxData b) fun old => ?_
      refine appends_bind (appends_boxData box) fun p => ?_
      exact appends_bind (appends_setBoxData b p) fun _ => appends_setBoxData box old
  | delete p =>
      refine appends_bind (setReleased p false) fun _ => ?_
      exact appends_ite (appends_allocatorDelete env depth p) (appends_pure _)
  | allocatorDelete p =>
      exact appends_bind (setReleased p false) fun _ => appends_allocatorDelete env depth p
  | destroy b => exact appends_destroyBox (appends_allocatorDelete env depth) b

variable {env depth} (hT : env.trivialDtor = false)
include hT

omit [DecidableEq A] in
theorem spoils_delete_none :
    Ends (BoxAllocator.delete env depth none) w (fun _ => DestroyedNull) (Spoils DestroyedNull) := by
  cases depth with
  | zero => trivial
  | succ depth =>
      rw [ends_delete_none, BoxEnv.ending, hT]
      exact List.mem_append_right _ List.mem_cons_self

omit [DecidableEq A] in
/-- If `reset` comes back without having destroyed null, there was an object, and the box was not
inside it; what was inside it is gone. -/
theorem spoils_reset {b : B} {p : Option A} (hb : w.boxes b = some p) :
    Ends (Box.reset env depth b) w
      (fun _ w' => DestroyedNull w' ∨ ∃ a, p = some a ∧ ¬ w.Inside env b a ∧
        ∀ c, w.Inside env c a → w'.boxes c = none)
      (Spoils DestroyedNull) := by
  rw [ends_reset env depth hb]
  cases p with
  | none =>
      refine (spoils_delete_none hT).mono ?_ fun _ _ => id
      intro _ w' hnull
      rw [ends_setBoxData]
      split
      · exact .inl hnull
      · trivial
  | some a =>
      refine (delete_swept depth a w).mono ?_ ?_
      · rintro - w' ⟨es, hswept, hrel⟩
        rw [ends_setBoxData]
        split
        · next hb' =>
          have hself : ¬ w.Inside env b a := by
            intro hin
            rw [hswept.dead hrel hin] at hb'
            cases hb'
          refine .inr ⟨a, rfl, hself, fun c hc => ?_⟩
          have hcb : c ≠ b := by
            rintro rfl
            exact hself hc
          rw [BoxWorld.setBox_boxes, if_neg hcb]
          exact hswept.dead hrel hc
        · trivial
      · rintro _ _ rfl
        trivial

/-- A careless call destroys null, or does not come back. -/
theorem spoils_op {op : BoxOp B A} (hlegal : op.Legal env w) (hop : ¬ op.Careful env w) :
    Ends (op.run env depth) w (fun _ => DestroyedNull) (Spoils DestroyedNull) := by
  cases op with
  | reset b =>
      obtain ⟨p, hp⟩ := Option.ne_none_iff_exists'.mp hlegal
      refine (spoils_reset hT hp).mono ?_ fun _ _ => id
      rintro - w' (hnull | ⟨a, rfl, hself, -⟩)
      · exact hnull
      · exact absurd ⟨a, hp, hself⟩ hop
  | moveAssign b box =>
      obtain ⟨p, hp⟩ := Option.ne_none_iff_exists'.mp hlegal.1
      rw [BoxOp.run, Box.moveAssign, ends_bind]
      refine (spoils_reset hT hp).mono ?_ fun _ _ => id
      rintro - w' (hnull | ⟨a, rfl, hself, hdead⟩)
      · refine (appends_take b box w').mono (fun _ _ hl => hl.subset hnull) fun e _ hl => ?_
        cases e with
        | exception => exact hl.subset hnull
        | terminated | aborted | undefined => trivial
      · have hin : w.Inside env box a := by
          by_contra hout
          exact hop ⟨a, hp, hself, hout⟩
        rw [ends_bind, ends_boxData, hdead box hin]
        trivial
  | allocatorDelete p =>
      obtain rfl : p = none := not_not.mp hop
      rw [BoxOp.run, ends_bind, ends_modify]
      exact spoils_delete_none hT
  | new b answer throws =>
      obtain rfl : answer = none := not_not.mp hop
      exact True.intro
  | default | newFromPtr | moveConstruct | release | swap | delete | destroy =>
      exact absurd trivial hop

end Spoil

/-! ## Runs -/

section
variable [DecidableEq A] {env : BoxEnv B A} {depth : Nat}

theorem BoxWorld.orderly_init : Orderly env (init : BoxWorld B A) where
  sound := sound_init
  homed _ _ hc := absurd rfl hc

variable [DecidableEq B]

/-- A run is sound exactly when all its steps were careful: no reset or assignment with an empty
target, or with a box that ends on the way, nothing deleted through the allocator that is null,
and no allocation that failed. -/
theorem box_run_sound_iff (hT : env.trivialDtor = false) {ops : List (BoxOp B A)}
    {o : Option (BoxWorld B A)} (h : Run (boxStep env depth) (some BoxWorld.init) ops o) :
    (∃ w, o = some w ∧ w.Sound) ↔
      Run (guarded (fun o op => ∀ w ∈ o, op.Careful env w) (boxStep env depth))
        (some BoxWorld.init) ops o := by
  refine Run.calls_sound_iff (P := BoxWorld.Orderly env) (D := DestroyedNull)
    BoxWorld.orderly_init ?_ ?_ ?_ (fun w hw => hw.sound) ?_ h
  · intro w op hw hlegal hop
    exact keeps_op hT hw hlegal hop
  · intro w op _ hlegal hop
    exact spoils_op hT hlegal hop
  · intro w op hbad
    exact (appends_op env depth op w).mono (fun _ _ hl => hl.subset hbad) fun _ _ hl => hl.subset hbad
  · intro w hbad hs
    exact hs.null hbad

end

/-- A release build; the objects own no boxes. -/
def releaseEnv : BoxEnv Nat Nat where
  build := ⟨.cxx14CxprEval, false⟩
  isInHeapRegion := Option.isSome
  trivialDtor := false
  members _ := []
  no_members _ _ := rfl

/-- A block is moved from box to box and ends with the second. -/
theorem new_move_reset_sound :
    ∃ w : BoxWorld Nat Nat, w.Sound ∧ w.log = [.acquire (some 7), .construct (some 7) (),
      .destroy (some 7) (), .release (some 7)] := by
  have outside : ∀ (w : BoxWorld Nat Nat) b a, ¬ w.Inside releaseEnv b a := by
    rintro w b a ⟨x, -, hmem⟩
    cases hmem
  let step := guarded (fun o op => ∀ w ∈ o, BoxOp.Careful releaseEnv w op) (boxStep releaseEnv 1)
  let w₀ : Option (BoxWorld Nat Nat) := some BoxWorld.init
  have built : Run step w₀ ([] ++ [.new 0 (some 7) false]) (some _) :=
    .snoc .nil ⟨fun _ _ => nofun, ⟨⟨rfl, nofun⟩, not_allocated_nil _⟩, .inl rfl⟩
  have moved : Run step w₀ (_ ++ [.moveConstruct 1 0]) (some _) :=
    .snoc built ⟨fun _ _ => True.intro, ⟨⟨rfl, nofun⟩, nofun⟩, .inl rfl⟩
  have careful : ∀ w : BoxWorld Nat Nat, w.boxes 1 = some (some 7) →
      BoxOp.Careful releaseEnv w (.reset 1) := fun w hw => ⟨7, hw, outside w 1 7⟩
  have reset : Run step w₀ (_ ++ [.reset 1]) (some _) :=
    .snoc moved ⟨fun w hw => careful w (by cases hw; rfl), nofun, .inl rfl⟩
  obtain ⟨w, hw, hsound⟩ := (box_run_sound_iff rfl reset.of_guarded).mpr reset
  obtain rfl := Option.some.inj hw
  exact ⟨_, hsound, rfl⟩

/-- `Box<T> b; b.reset();` calls `~T` on the null pointer. -/
theorem reset_empty_destroys_null :
    ∃ w : BoxWorld Nat Nat,
      Run (boxStep releaseEnv 1) (some BoxWorld.init) ([] ++ [.default 0] ++ [.reset 0]) (some w) ∧
      w.log = [.destroy none ()] ∧ ¬ w.Sound := by
  refine ⟨_, .snoc (s := some _) (.snoc .nil ⟨⟨rfl, nofun⟩, .inl rfl⟩) ⟨nofun, .inl rfl⟩, rfl, ?_⟩
  intro h
  exact h.null List.mem_cons_self

end
end EflCore
