/-
# `EflCore.Lib.HeldRanges` — ranges that threads hold

Several spaces of places, and ranges in them that are held: by a thread, or by none any more.  What
a thread `t` may do:

    take       a range that no held one overlaps
    release    a range that it holds
    leave      such a range, which is then held by none
    adopt      go over a space where no thread holds a range: some ranges are no more, some are its own

**Proved here.**  Held ranges never overlap (`Separate`), and what a thread holds stays as it is
while another takes a step (`Step.foreign`).
-/
import Mathlib.Logic.Function.Basic
import Mathlib.Logic.Relation

namespace HeldRanges

variable {ρ T : Type}

structure Range (T : Type) where
  start : Nat
  count : Nat
  owner : Option T

/-- The ranges that are held, in each space. -/
abbrev Held (ρ T : Type) : Type := ρ → Range T → Prop

def Apart (r r' : Range T) : Prop := r.start + r.count ≤ r'.start ∨ r'.start + r'.count ≤ r.start

theorem Apart.symm {r r' : Range T} (h : Apart r r') : Apart r' r := Or.symm h

structure Separate (R : Held ρ T) : Prop where
  pos : ∀ {s r}, R s r → 0 < r.count
  apart : ∀ {s r r'}, R s r → R s r' → r = r' ∨ Apart r r'

/-- Ranges that start at one place are the same. -/
theorem Separate.eq {R : Held ρ T} (h : Separate R) {s : ρ} {r r' : Range T} (hr : R s r)
    (hr' : R s r') (he : r.start = r'.start) : r = r' := by
  rcases h.apart hr hr' with heq | hapart
  · exact heq
  · have hpos := h.pos hr
    have hpos' := h.pos hr'
    rcases hapart with hle | hle
    · omega
    · omega

variable [DecidableEq ρ]

inductive Step (t : T) (R : Held ρ T) : Held ρ T → Prop
  | stay : Step t R R
  | take (s : ρ) (start count : Nat) {Q : Range T → Prop} : 0 < count →
      (∀ r, R s r → Apart ⟨start, count, some t⟩ r) →
      (∀ r, Q r ↔ R s r ∨ r = ⟨start, count, some t⟩) → Step t R (Function.update R s Q)
  | release (s : ρ) (start count : Nat) {Q : Range T → Prop} : R s ⟨start, count, some t⟩ →
      (∀ r, Q r ↔ R s r ∧ r ≠ ⟨start, count, some t⟩) → Step t R (Function.update R s Q)
  | leave (s : ρ) (start count : Nat) {Q : Range T → Prop} : R s ⟨start, count, some t⟩ →
      (∀ r, Q r ↔ R s r ∧ r ≠ ⟨start, count, some t⟩ ∨ r = ⟨start, count, none⟩) →
      Step t R (Function.update R s Q)
  | adopt (s : ρ) {Q : Range T → Prop} : (∀ r, R s r → r.owner = none) →
      (∀ r, Q r → R s ⟨r.start, r.count, none⟩ ∧ (r.owner = none ∨ r.owner = some t)) →
      (∀ r r', Q r → Q r' → r.start = r'.start → r = r') → Step t R (Function.update R s Q)

theorem Step.separate {t : T} {R R' : Held ρ T} (h : Step t R R') (hR : Separate R) :
    Separate R' := by
  have hsplit : ∀ {s : ρ} {Q : Range T → Prop}, (∀ r, Q r → 0 < r.count) →
      (∀ r r', Q r → Q r' → r = r' ∨ Apart r r') → Separate (Function.update R s Q) := by
    intro s Q hpos hapart
    refine ⟨fun {s' r} hr => ?_, fun {s' r r'} hr hr' => ?_⟩
    · by_cases hs : s' = s
      · subst hs
        rw [Function.update_self] at hr
        exact hpos r hr
      · rw [Function.update_of_ne hs] at hr
        exact hR.pos hr
    · by_cases hs : s' = s
      · subst hs
        rw [Function.update_self] at hr hr'
        exact hapart r r' hr hr'
      · rw [Function.update_of_ne hs] at hr hr'
        exact hR.apart hr hr'
  cases h with
  | stay => exact hR
  | take s start count hcount hfresh hQ =>
      refine hsplit (fun r hr => ?_) fun r r' hr hr' => ?_
      · rcases (hQ r).mp hr with hr | rfl
        · exact hR.pos hr
        · exact hcount
      · rcases (hQ r).mp hr with hr | rfl
        · rcases (hQ r').mp hr' with hr' | rfl
          · exact hR.apart hr hr'
          · exact .inr (hfresh r hr).symm
        · rcases (hQ r').mp hr' with hr' | rfl
          · exact .inr (hfresh r' hr')
          · exact .inl rfl
  | release s start count hheld hQ =>
      refine hsplit (fun r hr => hR.pos ((hQ r).mp hr).1) fun r r' hr hr' => ?_
      exact hR.apart ((hQ r).mp hr).1 ((hQ r').mp hr').1
  | leave s start count hheld hQ =>
      -- the range is where it was
      have hleft : ∀ r, R s r ∧ r ≠ ⟨start, count, some t⟩ → Apart r ⟨start, count, none⟩ := by
        rintro r ⟨hr, hne⟩
        rcases hR.apart hr hheld with heq | hapart
        · exact absurd heq hne
        · exact hapart
      refine hsplit (fun r hr => ?_) fun r r' hr hr' => ?_
      · rcases (hQ r).mp hr with hr | rfl
        · exact hR.pos hr.1
        · have hpos := hR.pos hheld
          exact hpos
      · rcases (hQ r).mp hr with hr | rfl
        · rcases (hQ r').mp hr' with hr' | rfl
          · exact hR.apart hr.1 hr'.1
          · exact .inr (hleft r hr)
        · rcases (hQ r').mp hr' with hr' | rfl
          · exact .inr (hleft r' hr').symm
          · exact .inl rfl
  | adopt s hnone hfrom huniq =>
      refine hsplit (fun r hr => ?_) fun r r' hr hr' => ?_
      · have hpos := hR.pos (hfrom r hr).1
        exact hpos
      · rcases hR.apart (hfrom r hr).1 (hfrom r' hr').1 with heq | hapart
        · exact .inl (huniq r r' hr hr' (Range.mk.inj heq).1)
        · exact .inr hapart

/-- What another thread holds is no matter of this one. -/
theorem Step.foreign {t t' : T} {R R' : Held ρ T} (h : Step t R R') (hne : t' ≠ t) {s : ρ}
    {r : Range T} (hr : r.owner = some t') : R' s r ↔ R s r := by
  have hother : ∀ {start count}, r ≠ ⟨start, count, some t⟩ := by
    rintro start count rfl
    exact hne (Option.some.inj hr).symm
  have hloose : ∀ {start count}, r ≠ ⟨start, count, none⟩ := by
    rintro start count rfl
    cases hr
  have hsplit : ∀ {s₀ : ρ} {Q : Range T → Prop}, (Q r ↔ R s₀ r) →
      (Function.update R s₀ Q s r ↔ R s r) := by
    intro s₀ Q hQ
    by_cases hs : s = s₀
    · subst hs
      rw [Function.update_self]
      exact hQ
    · rw [Function.update_of_ne hs]
  cases h with
  | stay => exact Iff.rfl
  | take s₀ start count hcount hfresh hQ =>
      exact hsplit ((hQ r).trans ⟨fun h => h.resolve_right hother, .inl⟩)
  | release s₀ start count hheld hQ => exact hsplit ((hQ r).trans ⟨And.left, fun h => ⟨h, hother⟩⟩)
  | leave s₀ start count hheld hQ =>
      exact hsplit ((hQ r).trans ⟨fun h => (h.resolve_right hloose).1, fun h => .inl ⟨h, hother⟩⟩)
  | adopt s₀ hnone hfrom huniq =>
      refine hsplit (iff_of_false (fun h => ?_) fun h => ?_)
      · rcases (hfrom r h).2 with ho | ho
        · rw [hr] at ho
          cases ho
        · rw [hr] at ho
          exact hne (Option.some.inj ho)
      · have ho := hnone r h
        rw [hr] at ho
        cases ho

/-- A run of steps of threads that `P` allows. -/
abbrev Run (P : T → Prop) : Held ρ T → Held ρ T → Prop :=
  Relation.ReflTransGen fun R R' => ∃ t, P t ∧ Step t R R'

theorem Run.separate {P : T → Prop} {R R' : Held ρ T} (h : Run P R R') (hR : Separate R) :
    Separate R' := by
  induction h with
  | refl => exact hR
  | tail _ hstep ih =>
      obtain ⟨t, -, hstep⟩ := hstep
      exact hstep.separate ih

end HeldRanges
