/-
# `EflCore.Box.Accounts` — who owns what, in the middle of a `Delete` as well

A state is sound (`BoxWorld.Sound`) if each block has one owner, a box or the client who has
released it, exactly the owned blocks are live, every other object has been destroyed and freed
once, and null never.

In the middle of a `Delete` more than one object may have been destroyed without its block
having been released, and the box that `reset` is about still holds the pointer to one of them.
`Deleting` says what holds there; from `Orderly` there is a way into it, and one back.

**Proved here.**  `Delete` of a block that has been handed to it comes back to where nothing is
pending, with all boxes that are not inside the block as they were (`Deleting.delete`).
-/
import EflCore.Box.Delete

namespace EflCore

open Lifetime

section
variable {B A : Type}

/-! ## What a run should keep -/

namespace BoxWorld

/-- Who holds the pointer `p`: a box, or the client (`none`). -/
def Holds (w : BoxWorld B A) (p : Option A) : Option B → Prop
  | some b => w.boxes b = some p
  | none => w.released p = true

/-- Who owns the block at `p`. -/
def Owns (w : BoxWorld B A) (h : Option B) (p : Option A) : Prop := p ≠ none ∧ w.Holds p h

structure Sound [DecidableEq A] (w : BoxWorld B A) : Prop where
  accounts : Accounts w.Owns [] w.log
  once : ∀ p, (∀ h, ¬ w.Owns h p) → DestroyedOnce p w.log
  null : .destroy none () ∉ w.log

/-- Moreover, the boxes of an object are there only while it is. -/
structure Orderly [DecidableEq A] (env : BoxEnv B A) (w : BoxWorld B A) : Prop where
  sound : w.Sound
  homed : ∀ c a, w.boxes c ≠ none → c ∈ env.members a → Live w.log (some a)

/-! ## Who owns what, after an update -/

theorem owns_setBox [DecidableEq B] (w : BoxWorld B A) (b : B) (p q : Option A) (i : Option B) :
    (w.setBox b (some p)).Owns i q ↔ if i = some b then q ≠ none ∧ p = q else w.Owns i q := by
  cases i with
  | none => simp [Owns, Holds, setBox]
  | some c => by_cases hc : c = b <;> simp [Owns, Holds, setBox_boxes, hc]

/-- A box that holds null owns nothing. -/
theorem owns_setBox_null [DecidableEq B] (w : BoxWorld B A) (b : B) (q : Option A) (i : Option B) :
    (w.setBox b (some none)).Owns i q ↔ w.Owns i q ∧ i ≠ some b := by
  rw [owns_setBox]
  split
  · next hi => exact ⟨fun h => absurd h.2.symm h.1, fun h => absurd hi h.2⟩
  · next hi => exact ⟨fun h => ⟨h, hi⟩, And.left⟩

theorem owns_setBox_dead [DecidableEq B] (w : BoxWorld B A) (b : B) (q : Option A)
    (i : Option B) : (w.setBox b none).Owns i q ↔ i ≠ some b ∧ w.Owns i q := by
  cases i with
  | none => simp [Owns, Holds, setBox]
  | some c => by_cases hc : c = b <;> simp [Owns, Holds, setBox_boxes, hc]

theorem owns_setReleased [DecidableEq A] (w : BoxWorld B A) (p q : Option A) (r : Bool)
    (i : Option B) :
    (w.setReleased p r).Owns i q ↔
      if i = none ∧ q = p then q ≠ none ∧ r = true else w.Owns i q := by
  cases i with
  | none => by_cases hq : q = p <;> simp [Owns, Holds, setReleased, hq]
  | some c => simp [Owns, Holds]

@[simp] theorem owns_emit (w : BoxWorld B A) (es : List (Event (Option A) Unit)) (q : Option A)
    (i : Option B) : (w.emit es).Owns i q ↔ w.Owns i q := by
  cases i <;> rfl

/-- A box owns its `data_` and nothing else. -/
theorem owns_box_iff {w : BoxWorld B A} {b : B} {p : Option A} (hb : w.boxes b = some p)
    (q : Option A) : w.Owns (some b) q ↔ q ≠ none ∧ p = q := by
  simp [Owns, Holds, hb]

theorem not_owns_dead {w : BoxWorld B A} {b : B} (hb : w.boxes b = none) (q : Option A) :
    ¬ w.Owns (some b) q := by
  simp [Owns, Holds, hb]

/-! ## Soundness and what a step does that deletes nothing -/

variable [DecidableEq A] {w w' : BoxWorld B A}

theorem Sound.of_accounts (h : Accounts w.Owns [] w.log) (hnull : .destroy none () ∉ w.log) :
    w.Sound := ⟨h, fun _ hp => h.destroyedOnce hp, hnull⟩

theorem sound_init : (BoxWorld.init : BoxWorld B A).Sound := by
  refine .of_accounts (Accounts.start.relabel (.refl _) ?_) List.not_mem_nil
  rintro (_ | b) q
  · simp [Owns, Holds, init]
  · simp [Owns, Holds, init]

theorem Sound.relabel (h : w.Sound) (hlog : w'.log = w.log) (σ : Equiv.Perm (Option B))
    (hown : ∀ i q, w'.Owns i q ↔ w.Owns (σ i) q) : w'.Sound := by
  refine .of_accounts ?_ (hlog ▸ h.null)
  rw [hlog]
  exact h.accounts.relabel σ hown

/-- The pointer `p` goes to `i₁`; null may go anywhere. -/
theorem Sound.move (h : w.Sound) (hlog : w'.log = w.log) (i₁ : Option B) {p : Option A}
    (hp : p ≠ none → ∃ i₀, w.Owns i₀ p)
    (hown : ∀ i q, w'.Owns i q ↔ w.Owns i q ∧ q ≠ p ∨ i = i₁ ∧ q = p ∧ p ≠ none) :
    w'.Sound := by
  refine .of_accounts ?_ (hlog ▸ h.null)
  rw [hlog]
  cases p with
  | none =>
      refine h.accounts.relabel (.refl _) fun i q => (hown i q).trans ?_
      constructor
      · rintro (⟨hi, -⟩ | ⟨-, -, hne⟩)
        · exact hi
        · exact absurd rfl hne
      · intro hi
        exact .inl ⟨hi, hi.1⟩
  | some a =>
      obtain ⟨i₀, hi₀⟩ := hp nofun
      refine h.accounts.move i₁ hi₀ fun i q => (hown i q).trans ?_
      simp only [ne_eq, reduceCtorEq, not_false_eq_true, and_true]

theorem Sound.adopt (h : w.Sound) (i₀ : Option B) {a : A}
    (hlog : w'.log = w.log ++ [.acquire (some a), .construct (some a) ()])
    (hfresh : ¬ Allocated w.log (some a))
    (hown : ∀ i q, w'.Owns i q ↔ w.Owns i q ∨ i = i₀ ∧ q = some a) : w'.Sound := by
  refine .of_accounts ?_ ?_
  · rw [hlog]
    exact h.accounts.adopt i₀ hfresh hown
  · rw [hlog]
    simpa using h.null

theorem Sound.leak (h : w.Sound) {a : A} (hfresh : ¬ Allocated w.log (some a)) :
    (w.emit [.acquire (some a)]).Sound := by
  refine .of_accounts ?_ ?_
  · exact (h.accounts.leak hfresh).relabel (.refl _) fun i q => w.owns_emit _ q i
  · simpa using h.null

/-! ## In the middle of a `Delete` -/

/-- Who owns the block at `p` while blocks are deleted: what the boxes of `skip` hold they no
longer own, and the call that is about to come (`none`) owns `pend`. -/
def OwnsBut (w : BoxWorld B A) (skip : B → Prop) (pend : Option A) :
    Option (Option B) → Option A → Prop
  | none, p => p ≠ none ∧ pend = p
  | some h, p => (∀ b, h = some b → ¬ skip b) ∧ w.Owns h p

structure Deleting (env : BoxEnv B A) (skip : B → Prop) (pend : Option A)
    (opened : List (Option A)) (w : BoxWorld B A) : Prop where
  accounts : Accounts (w.OwnsBut skip pend) opened w.log
  homed : ∀ c x, w.boxes c ≠ none → c ∈ env.members x → Live w.log (some x) ∨ some x ∈ opened
  null : .destroy none () ∉ w.log

variable {env : BoxEnv B A} {skip skip' : B → Prop} {opened : List (Option A)} {a : A}

/-- Nothing is pending yet. -/
theorem Orderly.deleting (h : Orderly env w) : Deleting env (fun _ => False) none [] w where
  accounts := by
    refine h.sound.accounts.transfer ?_ ?_
    · rintro (_ | i) (_ | j) p hi hj
      · rfl
      · exact absurd hi.2.symm hi.1
      · exact absurd hj.2.symm hj.1
      · exact congrArg some (h.sound.accounts.unique i j p hi.2 hj.2)
    · intro p
      constructor
      · rintro ⟨_ | i, hi⟩
        · exact absurd hi.2.symm hi.1
        · exact ⟨i, hi.2⟩
      · rintro ⟨i, hi⟩
        exact ⟨some i, fun _ _ => id, hi⟩
  homed c x hc hmem := .inl (h.homed c x hc hmem)
  null := h.sound.null

/-- The block at `p` changes hands: its owner lets go of it, or is skipped from now on. -/
theorem Deleting.pend (h : Deleting env skip none opened w) (hlog : w'.log = w.log)
    (hboxes : ∀ c, w'.boxes c ≠ none → w.boxes c ≠ none) {p : Option A}
    (hp : p ≠ none → ∃ i, w.OwnsBut skip none (some i) p)
    (hown : ∀ i q, w'.OwnsBut skip' none (some i) q ↔ w.OwnsBut skip none (some i) q ∧ q ≠ p) :
    Deleting env skip' p opened w' where
  accounts := by
    rw [hlog]
    have hnone : ∀ q, ¬ w.OwnsBut skip none none q := fun q hq => hq.1 hq.2.symm
    cases p with
    | none =>
        refine h.accounts.relabel (.refl _) fun i q => ?_
        cases i with
        | none => rfl
        | some i => exact (hown i q).trans (and_iff_left_of_imp fun hi => hi.2.1)
    | some y =>
        obtain ⟨i₀, hi₀⟩ := hp nofun
        refine h.accounts.move none hi₀ fun i q => ?_
        cases i with
        | none =>
            constructor
            · rintro ⟨-, rfl⟩
              exact .inr ⟨rfl, rfl⟩
            · rintro (⟨hq, -⟩ | ⟨-, rfl⟩)
              · exact absurd hq (hnone q)
              · exact ⟨nofun, rfl⟩
        | some i =>
            rw [eq_false_intro (Option.some_ne_none i), false_and, or_false]
            exact hown i q
  homed c x hc hmem := by
    rw [hlog]
    exact h.homed c x (hboxes c hc) hmem
  null := hlog ▸ h.null

/-- The object ends. -/
theorem Deleting.begin (h : Deleting env skip (some a) opened w) :
    Deleting env skip none (some a :: opened) (w.emit [.destroy (some a) ()]) := by
  have hcall : w.OwnsBut skip (some a) none (some a) := ⟨nofun, rfl⟩
  have hown : ∀ i q, (w.emit [.destroy (some a) ()]).OwnsBut skip none i q ↔
      w.OwnsBut skip (some a) i q ∧ q ≠ some a := by
    rintro (_ | i) q
    · refine iff_of_false (fun hq => hq.1 hq.2.symm) ?_
      rintro ⟨⟨-, rfl⟩, hne⟩
      exact hne rfl
    · have hsame : w.OwnsBut skip (some a) (some i) q → q ≠ some a := by
        rintro hi rfl
        cases h.accounts.unique _ _ _ hi hcall
      exact (and_iff_left_of_imp hsame).symm
  have haccounts := h.accounts.begin hcall hown
  refine ⟨haccounts, fun c x hc hmem => ?_, ?_⟩
  · rcases eq_or_ne x a with rfl | hxa
    · exact .inr List.mem_cons_self
    rcases h.homed c x hc hmem with hlive | hopened
    · obtain ⟨i, hi⟩ := (h.accounts.live_iff _).mp hlive
      refine .inl ((haccounts.live_iff _).mpr ⟨i, (hown i _).mpr ⟨hi, ?_⟩⟩)
      exact fun heq => hxa (Option.some.inj heq)
    · exact .inr (List.mem_cons_of_mem _ hopened)
  · simpa using h.null

/-- The block is given back; there is no box in it any more. -/
theorem Deleting.finish (h : Deleting env skip none (some a :: opened) w)
    (hdead : ∀ c ∈ env.members a, w.boxes c = none) :
    Deleting env skip none opened (w.emit [.release (some a)]) := by
  have haccounts := h.accounts.finish
  refine ⟨haccounts, fun c x hc hmem => ?_, ?_⟩
  · rcases h.homed c x hc hmem with hlive | hopened
    · exact .inl ((haccounts.live_iff _).mpr ((h.accounts.live_iff _).mp hlive))
    · rcases List.mem_cons.mp hopened with heq | hopened
      · cases heq
        exact absurd (hdead c hmem) hc
      · exact .inr hopened
  · simpa using h.null

theorem Deleting.orderly (h : Deleting env skip none [] w) (hlog : w'.log = w.log)
    (hboxes : ∀ c, w'.boxes c ≠ none → w.boxes c ≠ none)
    (hown : ∀ i q, w'.Owns i q ↔ w.OwnsBut skip none (some i) q) : Orderly env w' where
  sound := by
    refine .of_accounts ?_ (hlog ▸ h.null)
    rw [hlog]
    refine h.accounts.transfer ?_ ?_
    · intro i j p hi hj
      exact Option.some.inj (h.accounts.unique _ _ p ((hown i p).mp hi) ((hown j p).mp hj))
    · intro p
      constructor
      · rintro ⟨i, hi⟩
        exact ⟨some i, (hown i p).mp hi⟩
      · rintro ⟨_ | i, hi⟩
        · exact absurd hi.2.symm hi.1
        · exact ⟨i, (hown i p).mpr hi⟩
  homed c x hc hmem := by
    rw [hlog]
    exact (h.homed c x (hboxes c hc) hmem).resolve_right List.not_mem_nil

theorem Deleting.done (h : Deleting env (fun _ => False) none [] w) : Orderly env w :=
  h.orderly rfl (fun _ => id) fun _ _ => (and_iff_right fun _ _ => id).symm

/-- A box lets go of what it owns, or is skipped from now on. -/
theorem Deleting.pend_box (h : Deleting env skip none opened w) (hlog : w'.log = w.log)
    (hboxes : ∀ c, w'.boxes c ≠ none → w.boxes c ≠ none) {b : B} {d : Option A}
    (hb : w.boxes b = some d) (hskip : ¬ skip b)
    (hown : ∀ i q, w'.OwnsBut skip' none (some i) q ↔ i ≠ some b ∧ w.OwnsBut skip none (some i) q) :
    Deleting env skip' d opened w' := by
  have hbox : ∀ q, w.Owns (some b) q → w.OwnsBut skip none (some (some b)) q := by
    intro q hq
    refine ⟨?_, hq⟩
    rintro _ ⟨⟩
    exact hskip
  refine h.pend hlog hboxes (fun hd => ⟨some b, hbox d ((owns_box_iff hb d).mpr ⟨hd, rfl⟩)⟩) ?_
  intro i q
  rw [hown i q]
  constructor
  · rintro ⟨hib, hi⟩
    refine ⟨hi, ?_⟩
    rintro rfl
    have hq : w.Owns (some b) q := (owns_box_iff hb q).mpr ⟨hi.2.1, rfl⟩
    exact hib (Option.some.inj (h.accounts.unique _ _ q hi (hbox q hq)))
  · rintro ⟨hi, hne⟩
    refine ⟨?_, hi⟩
    rintro rfl
    exact hne ((owns_box_iff hb q).mp hi.2).2.symm

variable [DecidableEq B]

theorem Deleting.endBox (h : Deleting env skip none opened w) {b : B} {d : Option A}
    (hb : w.boxes b = some d) (hskip : ¬ skip b) : Deleting env skip d opened (w.setBox b none) := by
  have hlog : (w.setBox b none).log = w.log := rfl
  refine h.pend_box hlog (fun c => ?_) hb hskip fun i q => ?_
  · rw [setBox_boxes]
    split
    · exact absurd rfl
    · exact id
  · simp only [OwnsBut, owns_setBox_dead]
    exact and_left_comm

/-! ### `Delete` keeps the accounts -/

/-- What a call of `Delete` is to keep, of a block it has been handed. -/
def Accounted (env : BoxEnv B A) (R : A → Prop) (skip : B → Prop)
    (del : Option A → Prog (BoxWorld B A) Unit) : Prop :=
  ∀ y opened w, R y → Closed env R R w → Deleting env skip (some y) opened w →
    Ends (del (some y)) w (fun _ => Deleting env skip none opened) fun e _ => e = .aborted

variable {R : A → Prop} {del : Option A → Prog (BoxWorld B A) Unit}

theorem endBox_accounted (hdel : Accounted env R skip del) (hR : Closed env R R w)
    (h : Deleting env skip none opened w) {b : B} {x : A} (hx : R x) (hmem : b ∈ env.members x)
    (hskip : ¬ skip b) :
    Ends (EflCore.endBox del b) w (fun _ => Deleting env skip none opened) fun e _ => e = .aborted := by
  rw [ends_endBox]
  cases hb : w.boxes b with
  | none => exact h
  | some d =>
      cases d with
      | none => exact h.endBox hb hskip
      | some y =>
          exact hdel y opened _ (hR x y hx ⟨b, hmem, hb⟩) (hR.setBox_none b) (h.endBox hb hskip)

theorem forM_accounted (hsweeps : Sweeps env R R del) (hdel : Accounted env R skip del)
    (bs : List B) (hR : Closed env R R w) (h : Deleting env skip none opened w)
    (hbs : ∀ b ∈ bs, (∃ x, R x ∧ b ∈ env.members x) ∧ ¬ skip b) :
    Ends (forM bs (EflCore.endBox del)) w (fun _ => Deleting env skip none opened)
      fun e _ => e = .aborted := by
  induction bs generalizing w with
  | nil => exact h
  | cons b bs ih =>
      obtain ⟨⟨x, hx, hmem⟩, hskip⟩ := hbs b List.mem_cons_self
      rw [List.forM_cons, ends_bind]
      refine ((endBox_sweeps hsweeps hR hx hmem).and
        (endBox_accounted hdel hR h hx hmem hskip)).mono ?_ fun _ _ => And.left
      rintro - w₁ ⟨⟨es, hswept, -⟩, h₁⟩
      exact ih (hswept.closed hR) h₁ fun c hc => hbs c (List.mem_cons_of_mem b hc)

theorem delete_accounted (hT : env.trivialDtor = false)
    (hskip : ∀ x, R x → ∀ c ∈ env.members x, ¬ skip c) (depth : Nat) :
    Accounted env R skip (BoxAllocator.delete env depth) := by
  induction depth with
  | zero => exact fun _ _ _ _ _ _ => rfl
  | succ depth ih =>
      intro a opened w ha hR h
      have hending : env.ending (some a) = [.destroy (some a) ()] := by
        rw [BoxEnv.ending, hT]
        rfl
      have hsweeps := delete_sweeps (R := R) env (fun _ => id) depth
      have hmembers : ∀ b ∈ env.members a, (∃ x, R x ∧ b ∈ env.members x) ∧ ¬ skip b :=
        fun b hb => ⟨⟨a, ha, hb⟩, hskip a ha b hb⟩
      rw [ends_delete_some, hending]
      refine ((forM_sweeps (w := w.emit _) hsweeps _ hR fun b hb => (hmembers b hb).1).and
        (forM_accounted (w := w.emit _) hsweeps ih _ hR h.begin hmembers)).mono ?_ fun _ _ => And.left
      rintro - w' ⟨⟨es, hswept, hdead⟩, h'⟩
      split
      · rfl
      · exact h'.finish hdead

/-- The block that is pending is deleted, and nothing is left to do; boxes that are not inside it
are as they were. -/
theorem Deleting.delete (hT : env.trivialDtor = false) (depth : Nat)
    (h : Deleting env skip (some a) [] w) (hskip : ∀ b, skip b → ¬ w.Inside env b a) :
    Ends (BoxAllocator.delete env depth (some a)) w
      (fun _ w' => Deleting env skip none [] w' ∧ ∀ c, ¬ w.Inside env c a → w'.boxes c = w.boxes c)
      fun e _ => e = .aborted := by
  have hkeep := delete_accounted hT (R := w.Under env a)
    (fun x hx c hc hc' => hskip c hc' ⟨x, hx, hc⟩) depth a [] w .refl
    (fun _ _ hx hnext => hx.tail hnext) h
  refine ((delete_swept depth a w).and hkeep).mono ?_ fun _ _ => And.left
  rintro - w' ⟨⟨es, hswept, -⟩, h'⟩
  exact ⟨h', fun c hc => hswept.kept hc⟩

end BoxWorld
end
end EflCore
