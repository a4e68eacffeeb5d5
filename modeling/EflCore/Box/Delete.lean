/-
# `EflCore.Box.Delete` — what goes with a block

`Delete` of a block ends the object in it, and with the object the boxes in it, and with
these boxes what they own.  None of this depends on the state being a good one: boxes may
own one another in a circle, or two of them one block.

**Proved here**, of each call that comes back:

    everything under the block is released, and no assertion is in the way   (`Swept.gone`)
    the boxes inside the block have ended, the others are as they were       (`Swept.inside`)

And it does come back, if no assertion is in the way and the stack is deep enough for the
boxes there are (`delete_returns`).
-/
import EflCore.Box
import Mathlib.Data.Finset.Card

namespace EflCore

open Lifetime Relation

section
variable {B A : Type} (env : BoxEnv B A)

/-- The assertion about the block at `x` lets it go. -/
def BoxEnv.Lets (x : A) : Prop := dbgAssert env.build (env.isInHeapRegion (some x)) = false

/-- What the boxes in objects of `R` own is of `D`. -/
def Closed (D R : A → Prop) (w : BoxWorld B A) : Prop := ∀ x y, R x → w.Next env x y → D y

/-- What may come between `w` and `w'`, with the events `es`, when objects of `D` are deleted and
boxes in objects of `R` end. -/
structure Swept (D R : A → Prop) (w : BoxWorld B A) (es : List (Event (Option A) Unit))
    (w' : BoxWorld B A) : Prop where
  log : w'.log = w.log ++ es
  released : w'.released = w.released
  boxes : ∀ c, w'.boxes c = none ∨ w'.boxes c = w.boxes c
  inside : ∀ c, w'.boxes c ≠ w.boxes c → ∃ y, R y ∧ c ∈ env.members y
  about : ∀ e ∈ es, ∃ y, D y ∧ (e = .destroy (some y) () ∨ e = .release (some y))
  ended : ∀ x, .release (some x) ∈ es → env.Lets x ∧ ∀ c ∈ env.members x, w'.boxes c = none
  died : ∀ c y, w.boxes c = some (some y) → w'.boxes c = none → .release (some y) ∈ es

namespace Swept
variable {env} {D R : A → Prop} {w w₁ w' : BoxWorld B A} {es es' : List (Event (Option A) Unit)}
  {a : A}

theorem refl (w : BoxWorld B A) : Swept env D R w [] w where
  log := (List.append_nil _).symm
  released := rfl
  boxes _ := .inr rfl
  inside _ h := absurd rfl h
  about := nofun
  ended := nofun
  died c y hc hnone := by
    rw [hc] at hnone
    cases hnone

theorem next (h : Swept env D R w es w') {x y : A} (hnext : w'.Next env x y) : w.Next env x y := by
  obtain ⟨c, hc, hown⟩ := hnext
  refine ⟨c, hc, ?_⟩
  rcases h.boxes c with hnone | hsame
  · rw [hnone] at hown
    cases hown
  · rw [← hsame, hown]

theorem closed (h : Swept env D R w es w') (hR : Closed env D R w) : Closed env D R w' :=
  fun x y hx hnext => hR x y hx (h.next hnext)

theorem trans (h : Swept env D R w es w₁) (h' : Swept env D R w₁ es' w') :
    Swept env D R w (es ++ es') w' where
  log := by rw [h'.log, h.log, List.append_assoc]
  released := h'.released.trans h.released
  boxes c := by
    rcases h'.boxes c with hnone | hsame
    · exact .inl hnone
    · rw [hsame]
      exact h.boxes c
  inside c hne := by
    by_cases hc : w₁.boxes c = w.boxes c
    · exact h'.inside c (hc ▸ hne)
    · exact h.inside c hc
  about e he := by
    rcases List.mem_append.mp he with he | he
    · exact h.about e he
    · exact h'.about e he
  ended x hx := by
    rcases List.mem_append.mp hx with hx | hx
    · obtain ⟨hlets, hdead⟩ := h.ended x hx
      refine ⟨hlets, fun c hc => ?_⟩
      rcases h'.boxes c with hnone | hsame
      · exact hnone
      · rw [hsame, hdead c hc]
    · exact h'.ended x hx
  died c y hc hnone := by
    rw [List.mem_append]
    rcases h.boxes c with hdead | hsame
    · exact .inl (h.died c y hc hdead)
    · exact .inr (h'.died c y (hsame.trans hc) hnone)

/-- The events of `Delete` itself, around those of the boxes in the object. -/
theorem around (h : Swept env D R (w.emit (env.ending (some a))) es w') (ha : D a)
    (hdead : ∀ c ∈ env.members a, w'.boxes c = none) (hlets : env.Lets a) :
    Swept env D R w (env.ending (some a) ++ es ++ [.release (some a)])
      (w'.emit [.release (some a)]) where
  log := by simp only [BoxWorld.emit_log, h.log, List.append_assoc]
  released := h.released
  boxes := h.boxes
  inside := h.inside
  about e he := by
    rcases List.mem_append.mp he with he | he
    · rcases List.mem_append.mp he with he | he
      · refine ⟨a, ha, .inl ?_⟩
        unfold BoxEnv.ending at he
        split at he
        · cases he
        · exact List.mem_singleton.mp he
      · exact h.about e he
    · exact ⟨a, ha, .inr (List.mem_singleton.mp he)⟩
  ended x hx := by
    rcases List.mem_append.mp hx with hx | hx
    · rcases List.mem_append.mp hx with hx | hx
      · unfold BoxEnv.ending at hx
        split at hx
        · cases hx
        · cases List.mem_singleton.mp hx
      · exact h.ended x hx
    · cases List.mem_singleton.mp hx
      exact ⟨hlets, hdead⟩
  died c y hc hnone := List.mem_append_left _ (List.mem_append_right _ (h.died c y hc hnone))

/-- With a block everything under it is released. -/
theorem gone (h : Swept env D R w es w') (ha : .release (some a) ∈ es) {x : A}
    (hx : w.Under env a x) : .release (some x) ∈ es := by
  induction hx with
  | refl => exact ha
  | tail _ hnext ih =>
      obtain ⟨c, hc, hown⟩ := hnext
      exact h.died c _ hown ((h.ended _ ih).2 c hc)

theorem dead (h : Swept env D R w es w') (ha : .release (some a) ∈ es) {c : B}
    (hc : w.Inside env c a) : w'.boxes c = none := by
  obtain ⟨x, hx, hmem⟩ := hc
  exact (h.ended x (h.gone ha hx)).2 c hmem

/-- A box that is not inside anything that ends is as it was. -/
theorem kept (h : Swept env D (w.Under env a) w es w') {c : B} (hc : ¬ w.Inside env c a) :
    w'.boxes c = w.boxes c := by
  by_contra hne
  obtain ⟨y, hy, hmem⟩ := h.inside c hne
  exact hc ⟨y, hy, hmem⟩

end Swept

theorem closed_under (w : BoxWorld B A) (a : A) :
    Closed env (TransGen (w.Next env) a) (w.Under env a) w :=
  fun _ _ hx hnext => .tail' hx hnext

variable [DecidableEq B] {env} {D R : A → Prop} {w : BoxWorld B A}

/-! ## The boxes in an object -/

theorem Closed.setBox_none (hR : Closed env D R w) (b : B) : Closed env D R (w.setBox b none) := by
  intro x y hx hnext
  obtain ⟨c, hc, hown⟩ := hnext
  rw [BoxWorld.setBox_boxes] at hown
  split at hown
  · cases hown
  · exact hR x y hx ⟨c, hc, hown⟩

/-- A box ends, and then what it owned. -/
theorem Swept.setBox {w' : BoxWorld B A} {es : List (Event (Option A) Unit)} {b : B}
    {d : Option A} {x : A} (h : Swept env D R (w.setBox b none) es w') (hb : w.boxes b = some d)
    (hx : R x) (hmem : b ∈ env.members x) (hd : ∀ y, d = some y → .release (some y) ∈ es) :
    Swept env D R w es w' ∧ w'.boxes b = none := by
  have hself : (w.setBox b none).boxes b = none := by
    rw [BoxWorld.setBox_boxes, if_pos rfl]
  have hother : ∀ c, c ≠ b → (w.setBox b none).boxes c = w.boxes c := by
    intro c hc
    rw [BoxWorld.setBox_boxes, if_neg hc]
  have hdead : w'.boxes b = none := by
    rcases h.boxes b with hnone | hsame
    · exact hnone
    · exact hsame.trans hself
  refine ⟨⟨h.log, h.released, fun c => ?_, fun c hne => ?_, h.about, h.ended,
    fun c y hc hnone => ?_⟩, hdead⟩
  · rcases eq_or_ne c b with rfl | hcb
    · exact .inl hdead
    · rw [← hother c hcb]
      exact h.boxes c
  · rcases eq_or_ne c b with rfl | hcb
    · exact ⟨x, hx, hmem⟩
    · exact h.inside c (by rwa [hother c hcb])
  · rcases eq_or_ne c b with rfl | hcb
    · exact hd y (Option.some.inj (hb.symm.trans hc))
    · exact h.died c y ((hother c hcb).trans hc) hnone

/-- What a call of `Delete` is to leave. -/
def Sweeps (env : BoxEnv B A) (D R : A → Prop) (del : Option A → Prog (BoxWorld B A) Unit) :
    Prop :=
  ∀ y w, D y → Closed env D R w → Ends (del (some y)) w
    (fun _ w' => ∃ es, Swept env D R w es w' ∧ .release (some y) ∈ es) fun e _ => e = .aborted

theorem endBox_sweeps {del : Option A → Prog (BoxWorld B A) Unit} (hdel : Sweeps env D R del)
    (hR : Closed env D R w) {b : B} {x : A} (hx : R x) (hmem : b ∈ env.members x) :
    Ends (endBox del b) w (fun _ w' => ∃ es, Swept env D R w es w' ∧ w'.boxes b = none)
      fun e _ => e = .aborted := by
  rw [ends_endBox]
  cases hb : w.boxes b with
  | none => exact ⟨[], .refl w, rfl⟩
  | some d =>
      cases d with
      | none => exact ⟨[], (Swept.refl _).setBox hb hx hmem nofun⟩
      | some y =>
          refine (hdel y _ (hR x y hx ⟨b, hmem, hb⟩) (hR.setBox_none b)).mono ?_ fun _ _ => id
          rintro - w' ⟨es, hswept, hrel⟩
          refine ⟨es, hswept.setBox hb hx hmem ?_⟩
          rintro _ ⟨⟩
          exact hrel

theorem forM_sweeps {del : Option A → Prog (BoxWorld B A) Unit} (hdel : Sweeps env D R del)
    (bs : List B) (hR : Closed env D R w) (hbs : ∀ b ∈ bs, ∃ x, R x ∧ b ∈ env.members x) :
    Ends (forM bs (endBox del)) w
      (fun _ w' => ∃ es, Swept env D R w es w' ∧ ∀ b ∈ bs, w'.boxes b = none)
      fun e _ => e = .aborted := by
  induction bs generalizing w with
  | nil => exact ⟨[], .refl w, nofun⟩
  | cons b bs ih =>
      obtain ⟨x, hx, hmem⟩ := hbs b List.mem_cons_self
      rw [List.forM_cons, ends_bind]
      refine (endBox_sweeps hdel hR hx hmem).mono ?_ fun _ _ => id
      rintro - w₁ ⟨es, hswept, hdead⟩
      refine (ih (hswept.closed hR) fun c hc => hbs c (List.mem_cons_of_mem b hc)).mono ?_ fun _ _ => id
      rintro - w₂ ⟨es', hswept', hdead'⟩
      refine ⟨es ++ es', hswept.trans hswept', fun c hc => ?_⟩
      rcases List.mem_cons.mp hc with rfl | hc
      · rcases hswept'.boxes c with hnone | hsame
        · exact hnone
        · exact hsame.trans hdead
      · exact hdead' c hc

/-! ## `Delete` -/

/-- The events of a call are those of the boxes in the object, and two around them. -/
theorem delete_around (depth : Nat) {a : A} (hdel : Sweeps env D R (BoxAllocator.delete env depth))
    (ha : ∀ c ∈ env.members a, ∃ x, R x ∧ c ∈ env.members x) (hR : Closed env D R w) :
    Ends (BoxAllocator.delete env (depth + 1) (some a)) w
      (fun _ w' => ∃ es w₁, Swept env D R (w.emit (env.ending (some a))) es w₁ ∧
        (∀ c ∈ env.members a, w₁.boxes c = none) ∧ env.Lets a ∧
        w' = w₁.emit [.release (some a)])
      fun e _ => e = .aborted := by
  rw [ends_delete_some]
  refine (forM_sweeps (w := w.emit _) hdel (env.members a) hR ha).mono ?_ fun _ _ => id
  rintro - w₁ ⟨es, hswept, hdead⟩
  split
  · rfl
  · next hlets => exact ⟨es, w₁, hswept, hdead, Bool.eq_false_iff.mpr hlets, rfl⟩

theorem delete_sweeps (env : BoxEnv B A) (hDR : ∀ x, D x → R x) (depth : Nat) :
    Sweeps env D R (BoxAllocator.delete env depth) := by
  induction depth with
  | zero => exact fun _ _ _ _ => rfl
  | succ depth ih =>
      intro a w ha hR
      refine (delete_around depth ih (fun c hc => ⟨a, hDR a ha, hc⟩) hR).mono ?_ fun _ _ => id
      rintro - w' ⟨es, w₁, hswept, hdead, hlets, rfl⟩
      exact ⟨_, hswept.around ha hdead hlets, List.mem_append_right _ List.mem_cons_self⟩

/-- What a call takes along is under the block. -/
theorem delete_swept (depth : Nat) (a : A) (w : BoxWorld B A) :
    Ends (BoxAllocator.delete env depth (some a)) w
      (fun _ w' => ∃ es, Swept env (w.Under env a) (w.Under env a) w es w' ∧ .release (some a) ∈ es)
      fun e _ => e = .aborted :=
  delete_sweeps env (fun _ => id) depth a w .refl fun _ _ hx hnext => hx.tail hnext

/-! ## Coming back

Each call of `Delete` by a destructor has a box that has ended: so the stack need not be deeper
than the number of boxes. -/

/-- All the boxes there are. -/
def Among (F : Finset B) (w : BoxWorld B A) : Prop := ∀ c, w.boxes c ≠ none → c ∈ F

omit [DecidableEq B] in
theorem Swept.among {w' : BoxWorld B A} {es : List (Event (Option A) Unit)} {F : Finset B}
    (h : Swept env D R w es w') (hF : Among F w) : Among F w' := by
  intro c hc
  rcases h.boxes c with hnone | hsame
  · exact absurd hnone hc
  · exact hF c (hsame ▸ hc)

theorem Among.setBox_none {F : Finset B} (hF : Among F w) (b : B) :
    Among (F.erase b) (w.setBox b none) := by
  intro c hc
  rw [BoxWorld.setBox_boxes] at hc
  split at hc
  · exact absurd rfl hc
  · next hcb => exact Finset.mem_erase.mpr ⟨hcb, hF c hc⟩

theorem delete_returns (depth : Nat) (F : Finset B) (hdepth : F.card < depth) {a : A} (ha : R a)
    (hR : Closed env R R w) (hF : Among F w) (hlets : ∀ x, R x → env.Lets x) :
    Ends (BoxAllocator.delete env depth (some a)) w (fun _ _ => True) fun _ _ => False := by
  induction depth generalizing F w a with
  | zero => cases hdepth
  | succ depth ih =>
      have hboxes : ∀ (bs : List B) (w : BoxWorld B A), Closed env R R w → Among F w →
          (∀ b ∈ bs, ∃ x, R x ∧ b ∈ env.members x) →
          Ends (forM bs (endBox (BoxAllocator.delete env depth))) w (fun _ _ => True)
            fun _ _ => False := by
        intro bs
        induction bs with
        | nil => exact fun _ _ _ _ => True.intro
        | cons b bs ihbs =>
            intro w hR hF hbs
            obtain ⟨x, hx, hmem⟩ := hbs b List.mem_cons_self
            have hfirst : Ends (endBox (BoxAllocator.delete env depth) b) w (fun _ _ => True)
                fun _ _ => False := by
              rw [ends_endBox]
              cases hb : w.boxes b with
              | none => exact True.intro
              | some d =>
                  cases d with
                  | none => exact True.intro
                  | some y =>
                      have hb' : b ∈ F := hF b (by rw [hb]; exact nofun)
                      have hcard := Finset.card_erase_lt_of_mem hb'
                      refine ih (F.erase b) (by omega) (hR x y hx ⟨b, hmem, hb⟩)
                        (hR.setBox_none b) (hF.setBox_none b)
            rw [List.forM_cons, ends_bind]
            refine (hfirst.and (endBox_sweeps (delete_sweeps env (fun _ => id) depth) hR hx hmem)).mono ?_
              fun _ _ h => h.1
            rintro - w₁ ⟨-, es, hswept, -⟩
            exact ihbs w₁ (hswept.closed hR) (hswept.among hF) fun c hc =>
              hbs c (List.mem_cons_of_mem b hc)
      rw [ends_delete_some]
      refine (hboxes _ (w.emit _) hR hF fun c hc => ⟨a, ha, hc⟩).mono ?_ fun _ _ => id
      intro _ w' _
      have hok := hlets a ha
      unfold BoxEnv.Lets at hok
      rw [hok, if_neg Bool.false_ne_true]
      trivial

end
end EflCore
