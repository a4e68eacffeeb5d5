/-
# `EflCore.Lifetime.Ownership` — handles, and the blocks they own

A program that hands blocks of storage around keeps handles to them: a handle
owns a block or nothing, and moving a block from one handle to another leaves no
trace in the log.  Between the destruction of an object and the release of its
block other blocks may come and go, which the object owned: meanwhile its block is
`opened`.  `Accounts owns opened log` says that handles and log agree:

    no two handles own one block
    the log is accepted, and the live blocks are the owned ones
    a block is given back as often as the object in it is destroyed, but for the opened ones

There are six things a step can do, and a lemma for each:

    relabel     handles change places                              log unchanged
    move        a block goes from one handle to another            log unchanged
    adopt       a fresh block is acquired, built in and owned      acquire, construct
    leak        a fresh block is acquired and nothing is built     acquire
    begin       the object in an owned block ends                  destroy
    finish      an opened block is given back                      release

A block that nobody owns has then seen every object in it destroyed exactly once
(`Accounts.destroyedOnce`).
-/
import EflCore.Lifetime.Monitor
import Mathlib.Data.List.Count
import Mathlib.Logic.Equiv.Basic

namespace Lifetime

variable {H L : Type} [DecidableEq L]

/-- The log says that `p` is acquired and not given back. -/
def Allocated (log : List (Event L Unit)) (p : L) : Prop :=
  ∃ φ, monitor start log = some φ ∧ φ p ≠ .absent

/-- The log says that there is an object in `p`. -/
def Live (log : List (Event L Unit)) (p : L) : Prop :=
  ∃ φ, monitor start log = some φ ∧ φ p = .live ()

theorem not_allocated_nil (p : L) : ¬ Allocated [] p := by
  rintro ⟨φ, hφ, hne⟩
  cases hφ
  exact hne rfl

theorem Live.allocated {log : List (Event L Unit)} {p : L} (h : Live log p) : Allocated log p := by
  obtain ⟨φ, hφ, hlive⟩ := h
  refine ⟨φ, hφ, ?_⟩
  rw [hlive]
  exact nofun

structure Accounts (owns : H → L → Prop) (opened : List L) (log : List (Event L Unit)) : Prop where
  unique : ∀ h h' p, owns h p → owns h' p → h = h'
  accepted : ∃ φ, monitor start log = some φ ∧ (∀ p, φ p = .live () ↔ ∃ h, owns h p) ∧
    ∀ p ∈ opened, φ p = .raw
  freed : ∀ p, log.count (.destroy p ()) = log.count (.release p) + opened.count p
  nodup : opened.Nodup

namespace Accounts
variable {owns owns' : H → L → Prop} {opened opened' : List L} {log : List (Event L Unit)} {p : L}

theorem start : Accounts (fun (_ : H) (_ : L) => False) [] [] where
  unique := nofun
  accepted := ⟨_, rfl, fun _ => ⟨nofun, nofun⟩, nofun⟩
  freed _ := rfl
  nodup := List.nodup_nil

theorem live_iff (h : Accounts owns opened log) (p : L) : Live log p ↔ ∃ i, owns i p := by
  obtain ⟨φ, hφ, hlive, -⟩ := h.accepted
  rw [← hlive p]
  constructor
  · rintro ⟨ψ, hψ, hp⟩
    obtain rfl : φ = ψ := Option.some.inj (hφ.symm.trans hψ)
    exact hp
  · exact fun hp => ⟨φ, hφ, hp⟩

theorem not_opened (h : Accounts owns opened log) {i : H} (hp : owns i p) : p ∉ opened := by
  intro hmem
  obtain ⟨φ, -, hlive, hraw⟩ := h.accepted
  have hphase := (hlive p).mpr ⟨i, hp⟩
  rw [hraw p hmem] at hphase
  cases hphase

theorem destroyedOnce (h : Accounts owns opened log) (hp : ∀ i, ¬ owns i p) :
    DestroyedOnce p log := by
  obtain ⟨φ, hφ, hlive, -⟩ := h.accepted
  refine DestroyedOnce.of_monitor hφ ?_
  rintro ⟨⟩ hl
  obtain ⟨i, hi⟩ := (hlive p).mp hl
  exact hp i hi

theorem transfer {H' : Type} {owns' : H' → L → Prop} (h : Accounts owns opened log)
    (hu : ∀ i j p, owns' i p → owns' j p → i = j)
    (hsame : ∀ p, (∃ i, owns' i p) ↔ ∃ i, owns i p) : Accounts owns' opened log where
  unique := hu
  accepted := by
    obtain ⟨φ, hφ, hlive, hraw⟩ := h.accepted
    exact ⟨φ, hφ, fun p => (hlive p).trans (hsame p).symm, hraw⟩
  freed := h.freed
  nodup := h.nodup

/-- A run of events about `p` ends in the phase the events say. -/
theorem accepted_append (h : Accounts owns opened log) {es : List (Event L Unit)}
    {q q' : Phase Unit} (hloc : ∀ e ∈ es, e.loc = p)
    (hq : ∀ φ, monitor Lifetime.start log = some φ → φ p = q)
    (hes : es.foldlM Phase.next q = some q')
    (hlive : ∀ r, (if r = p then q' = .live () else ∃ i, owns i r) ↔ ∃ i, owns' i r)
    (hraw : ∀ r ∈ opened', if r = p then q' = .raw else r ∈ opened) :
    ∃ φ, monitor Lifetime.start (log ++ es) = some φ ∧ (∀ r, φ r = .live () ↔ ∃ i, owns' i r) ∧
      ∀ r ∈ opened', φ r = .raw := by
  obtain ⟨φ, hφ, hold, hopened⟩ := h.accepted
  refine ⟨Function.update φ p q', ?_, fun r => ?_, fun r hr => ?_⟩
  · rw [monitor_append, hφ, Option.bind_some]
    exact monitor_local es φ q' hloc (by rw [hq φ hφ]; exact hes)
  · rw [← hlive r, Function.update_apply]
    split
    · rfl
    · exact hold r
  · have hphase := hraw r hr
    rw [Function.update_apply]
    split
    · next hp => rwa [if_pos hp] at hphase
    · next hp =>
      rw [if_neg hp] at hphase
      exact hopened r hphase

theorem absent_of_fresh (hfresh : ¬ Allocated log p) :
    ∀ φ, monitor Lifetime.start log = some φ → φ p = .absent := by
  intro φ hφ
  by_contra hne
  exact hfresh ⟨φ, hφ, hne⟩

theorem not_owned_of_fresh (h : Accounts owns opened log) (hfresh : ¬ Allocated log p) (i : H) :
    ¬ owns i p :=
  fun hi => hfresh ((h.live_iff p).mpr ⟨i, hi⟩).allocated

theorem not_opened_of_fresh (h : Accounts owns opened log) (hfresh : ¬ Allocated log p) :
    p ∉ opened := by
  intro hmem
  obtain ⟨φ, hφ, -, hraw⟩ := h.accepted
  have habs := absent_of_fresh hfresh φ hφ
  rw [hraw p hmem] at habs
  cases habs

theorem relabel (h : Accounts owns opened log) (σ : Equiv.Perm H)
    (hown : ∀ i q, owns' i q ↔ owns (σ i) q) : Accounts owns' opened log := by
  refine h.transfer ?_ ?_
  · intro i j q hi hj
    exact σ.injective (h.unique _ _ q ((hown i q).mp hi) ((hown j q).mp hj))
  · intro q
    simp only [hown]
    exact (σ.surjective.exists (p := fun i => owns i q)).symm

theorem move (h : Accounts owns opened log) {i₀ : H} (i₁ : H) (hp : owns i₀ p)
    (hown : ∀ i q, owns' i q ↔ owns i q ∧ q ≠ p ∨ i = i₁ ∧ q = p) : Accounts owns' opened log := by
  refine h.transfer ?_ ?_
  · intro i j q hi hj
    rcases (hown i q).mp hi with ⟨hi, hne⟩ | ⟨hi, hq⟩ <;>
      rcases (hown j q).mp hj with ⟨hj, hne'⟩ | ⟨hj, hq'⟩
    · exact h.unique i j q hi hj
    · exact absurd hq' hne
    · exact absurd hq hne'
    · exact hi.trans hj.symm
  · intro q
    simp only [hown]
    rcases eq_or_ne q p with rfl | hne
    · exact ⟨fun _ => ⟨i₀, hp⟩, fun _ => ⟨i₁, .inr ⟨rfl, rfl⟩⟩⟩
    · constructor
      · rintro ⟨i, hi⟩
        exact ⟨i, (hi.resolve_right fun h => hne h.2).1⟩
      · rintro ⟨i, hi⟩
        exact ⟨i, .inl ⟨hi, hne⟩⟩

theorem adopt (h : Accounts owns opened log) (i₀ : H) (hfresh : ¬ Allocated log p)
    (hown : ∀ i q, owns' i q ↔ owns i q ∨ i = i₀ ∧ q = p) :
    Accounts owns' opened (log ++ [.acquire p, .construct p ()]) where
  unique := by
    intro i j q hi hj
    have hno := h.not_owned_of_fresh hfresh
    rcases (hown i q).mp hi with hi | ⟨hi, hq⟩ <;>
      rcases (hown j q).mp hj with hj | ⟨hj, hq'⟩
    · exact h.unique i j q hi hj
    · exact absurd (hq' ▸ hi) (hno i)
    · exact absurd (hq ▸ hj) (hno j)
    · exact hi.trans hj.symm
  accepted := by
    refine h.accepted_append (by simp [Event.loc]) (absent_of_fresh hfresh) rfl (fun r => ?_)
      fun r hr => ?_
    · simp only [hown]
      split
      · next hr => exact ⟨fun _ => ⟨i₀, .inr ⟨rfl, hr⟩⟩, fun _ => trivial⟩
      · next hr =>
        constructor
        · rintro ⟨i, hi⟩
          exact ⟨i, .inl hi⟩
        · rintro ⟨i, hi⟩
          exact ⟨i, hi.resolve_right fun h => hr h.2⟩
    · rw [if_neg fun he : r = p => h.not_opened_of_fresh hfresh (he ▸ hr)]
      exact hr
  freed q := by
    simp only [List.count_append, h.freed q, Nat.add_right_comm]
    rfl
  nodup := h.nodup

theorem leak (h : Accounts owns opened log) (hfresh : ¬ Allocated log p) :
    Accounts owns opened (log ++ [.acquire p]) where
  unique := h.unique
  accepted := by
    refine h.accepted_append (by simp [Event.loc]) (absent_of_fresh hfresh) rfl (fun r => ?_)
      fun r hr => ?_
    · split
      · next hr =>
        subst hr
        refine iff_of_false (by simp) ?_
        rintro ⟨i, hi⟩
        exact h.not_owned_of_fresh hfresh i hi
      · rfl
    · rw [if_neg fun he : r = p => h.not_opened_of_fresh hfresh (he ▸ hr)]
      exact hr
  freed q := by
    simp only [List.count_append, h.freed q, Nat.add_right_comm]
    rfl
  nodup := h.nodup

theorem begin (h : Accounts owns opened log) {i₀ : H} (hp : owns i₀ p)
    (hown : ∀ i q, owns' i q ↔ owns i q ∧ q ≠ p) :
    Accounts owns' (p :: opened) (log ++ [.destroy p ()]) where
  unique := by
    intro i j q hi hj
    exact h.unique i j q ((hown i q).mp hi).1 ((hown j q).mp hj).1
  accepted := by
    have hlive : ∀ φ, monitor Lifetime.start log = some φ → φ p = .live () := by
      obtain ⟨ψ, hψ, hp⟩ := (h.live_iff p).mpr ⟨i₀, hp⟩
      intro φ hφ
      obtain rfl : ψ = φ := Option.some.inj (hψ.symm.trans hφ)
      exact hp
    refine h.accepted_append (by simp [Event.loc]) hlive rfl (fun r => ?_) fun r hr => ?_
    · simp only [hown]
      split
      · next hr =>
        refine iff_of_false (by simp) ?_
        rintro ⟨_, _, hne⟩
        exact hne hr
      · next hr =>
        constructor
        · rintro ⟨i, hi⟩
          exact ⟨i, hi, hr⟩
        · rintro ⟨i, hi, -⟩
          exact ⟨i, hi⟩
    · split
      · rfl
      · next hne => exact List.mem_of_ne_of_mem hne hr
  freed q := by
    simp only [List.count_append, List.count_cons, h.freed q]
    by_cases hq : p = q <;> simp [hq, Nat.add_assoc]
  nodup := List.nodup_cons.mpr ⟨h.not_opened hp, h.nodup⟩

theorem finish (h : Accounts owns (p :: opened) log) :
    Accounts owns opened (log ++ [.release p]) where
  unique := h.unique
  accepted := by
    have hnot : ∀ i, ¬ owns i p := fun i hi => h.not_opened hi List.mem_cons_self
    have hraw : ∀ φ, monitor Lifetime.start log = some φ → φ p = .raw := by
      obtain ⟨ψ, hψ, -, hopened⟩ := h.accepted
      intro φ hφ
      obtain rfl : ψ = φ := Option.some.inj (hψ.symm.trans hφ)
      exact hopened p List.mem_cons_self
    refine h.accepted_append (by simp [Event.loc]) hraw rfl (fun r => ?_) fun r hr => ?_
    · split
      · next hr =>
        subst hr
        refine iff_of_false (by simp) ?_
        rintro ⟨i, hi⟩
        exact hnot i hi
      · rfl
    · rw [if_neg fun he : r = p => (List.nodup_cons.mp h.nodup).1 (he ▸ hr)]
      exact List.mem_cons_of_mem p hr
  freed q := by
    have hq := h.freed q
    simp only [List.count_append, List.count_cons, List.count_nil] at hq ⊢
    by_cases hpq : p = q <;> simp [hpq] at hq ⊢ <;> omega
  nodup := (List.nodup_cons.mp h.nodup).2

end Accounts
end Lifetime
