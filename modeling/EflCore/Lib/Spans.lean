/-
# `EflCore.Lib.Spans` — a range cut into spans

A list of spans covers the range from `i` on without a gap: the first span starts at `i`, and each
starts where the one before it ends.  `w` is the width of a span, which is positive.

    total w L            the width of the list
    at? w i L k          the span that starts at `k`, if one does
    All w P i L          `P k s` for each span `s` and its start `k`

**Proved here.**  What starts where in a concatenation (`at?_append`), that spans cover the range
(`exists_at?`), and that `All` is about all `at?` (`all_iff`).
-/
import Mathlib.Algebra.BigOperators.Group.List.Basic
import Mathlib.Algebra.GroupWithZero.Nat

namespace Spans

variable {σ : Type} (w : σ → Nat)

def total (L : List σ) : Nat := (L.map w).sum

def at? : Nat → List σ → Nat → Option σ
  | _, [], _ => none
  | i, s :: L, k => if k = i then some s else at? (i + w s) L k

def All (P : Nat → σ → Prop) : Nat → List σ → Prop
  | _, [] => True
  | i, s :: L => P i s ∧ All P (i + w s) L

@[simp] theorem total_nil : total w [] = 0 := rfl

@[simp] theorem total_cons (s : σ) (L : List σ) : total w (s :: L) = w s + total w L :=
  List.sum_cons

@[simp] theorem total_append (A B : List σ) : total w (A ++ B) = total w A + total w B := by
  unfold total
  rw [List.map_append, List.sum_append]

variable {w}

theorem all_append {P : Nat → σ → Prop} {i : Nat} {A B : List σ} :
    All w P i (A ++ B) ↔ All w P i A ∧ All w P (i + total w A) B := by
  induction A generalizing i with
  | nil => simp [All]
  | cons s A ih => simp only [List.cons_append, All, ih, total_cons, and_assoc, Nat.add_assoc]

theorem All.imp {P Q : Nat → σ → Prop} {i : Nat} {L : List σ} (h : All w P i L)
    (himp : ∀ k s, s ∈ L → i ≤ k → k + w s ≤ i + total w L → P k s → Q k s) : All w Q i L := by
  induction L generalizing i with
  | nil => trivial
  | cons s L ih =>
      have htotal := total_cons w s L
      refine ⟨himp i s List.mem_cons_self (Nat.le_refl i) (by omega) h.1, ih h.2 ?_⟩
      intro k s' hs' hk hend
      exact himp k s' (List.mem_cons_of_mem s hs') (by omega) (by omega)

section Positive

variable (hw : ∀ s, 0 < w s)
include hw

theorem at?_eq_none_of_lt {i k : Nat} (L : List σ) (h : k < i) : at? w i L k = none := by
  induction L generalizing i with
  | nil => rfl
  | cons s L ih =>
      have := hw s
      unfold at?
      rw [if_neg (by omega)]
      exact ih (by omega)

theorem at?_append (i : Nat) (A B : List σ) (k : Nat) :
    at? w i (A ++ B) k =
      if k < i + total w A then at? w i A k else at? w (i + total w A) B k := by
  induction A generalizing i with
  | nil =>
      by_cases hk : k < i + total w []
      · rw [if_pos hk]
        exact at?_eq_none_of_lt hw B hk
      · rw [if_neg hk]
        rfl
  | cons s A ih =>
      have := hw s
      simp only [List.cons_append, at?, total_cons, ih, ← Nat.add_assoc]
      by_cases hk : k = i
      · subst hk
        rw [if_pos rfl, if_pos rfl, if_pos (by omega)]
      · rw [if_neg hk, if_neg hk]

theorem at?_self (i : Nat) (A : List σ) (s : σ) (B : List σ) :
    at? w i (A ++ s :: B) (i + total w A) = some s := by
  rw [at?_append hw, if_neg (Nat.lt_irrefl _)]
  exact if_pos rfl

theorem at?_eq_some_iff {i k : Nat} {L : List σ} {s : σ} :
    at? w i L k = some s ↔ ∃ A B, L = A ++ s :: B ∧ k = i + total w A := by
  constructor
  · induction L generalizing i with
    | nil => rintro ⟨⟩
    | cons s' L ih =>
        intro h
        unfold at? at h
        by_cases hk : k = i
        · rw [if_pos hk] at h
          obtain rfl := Option.some.inj h
          exact ⟨[], L, rfl, hk⟩
        · rw [if_neg hk] at h
          obtain ⟨A, B, rfl, rfl⟩ := ih h
          exact ⟨s' :: A, B, rfl, by rw [total_cons, Nat.add_assoc]⟩
  · rintro ⟨A, B, rfl, rfl⟩
    exact at?_self hw i A s B

theorem at?_range {i k : Nat} {L : List σ} {s : σ} (h : at? w i L k = some s) :
    i ≤ k ∧ k + w s ≤ i + total w L := by
  obtain ⟨A, B, rfl, rfl⟩ := (at?_eq_some_iff hw).mp h
  simp only [total_append, total_cons]
  omega

/-- Spans leave no gap. -/
theorem exists_at? {i k : Nat} {L : List σ} (hlo : i ≤ k) (hhi : k < i + total w L) :
    ∃ j s, at? w i L j = some s ∧ j ≤ k ∧ k < j + w s := by
  induction L generalizing i with
  | nil =>
      rw [total_nil] at hhi
      omega
  | cons s L ih =>
      have := hw s
      by_cases hk : k < i + w s
      · exact ⟨i, s, if_pos rfl, hlo, hk⟩
      · rw [total_cons, ← Nat.add_assoc] at hhi
        obtain ⟨j, s', hj, hjk, hkj⟩ := ih (Nat.le_of_not_lt hk) hhi
        refine ⟨j, s', ?_, hjk, hkj⟩
        have hle := (at?_range hw hj).1
        unfold at?
        rwa [if_neg (by omega)]

theorem all_iff {P : Nat → σ → Prop} {i : Nat} {L : List σ} :
    All w P i L ↔ ∀ k s, at? w i L k = some s → P k s := by
  constructor
  · intro h k s hk
    obtain ⟨A, B, rfl, rfl⟩ := (at?_eq_some_iff hw).mp hk
    exact (all_append.mp h).2.1
  · intro h
    induction L generalizing i with
    | nil => trivial
    | cons s L ih =>
        have := hw s
        refine ⟨h i s (if_pos rfl), ih fun k s' hk => h k s' ?_⟩
        have hle := (at?_range hw hk).1
        unfold at?
        rwa [if_neg (by omega)]

end Positive

end Spans
