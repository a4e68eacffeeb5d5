/-
# `EflCore.Lib.QuarterLog` — size classes four to an octave

    quarter m = 4 · log₂ m + the two bits behind the highest bit of m

It grows by one wherever `m` has grown by a quarter of the power of two below it.  `octave k` is the
least `m` of class `k`,

    octave k = (4 + k mod 4) · 2 ^ (k / 4 - 2)

**Proved here.**  For `4 ≤ m` and `8 ≤ k`, `octave k ≤ m ↔ k ≤ quarter m` (`octave_le_iff`): so
`quarter` is monotone, class `k` is from `octave k` up to `octave (k + 1)`, and the upper end is at
most a quarter above the lower one (`octave_succ_le`).
-/
import Mathlib.Data.Nat.Log
import Mathlib.Tactic.Ring

namespace QuarterLog

def quarter (m : Nat) : Nat := 4 * Nat.log2 m + (m >>> (Nat.log2 m - 2)) % 4

def octave (k : Nat) : Nat := (4 + k % 4) * 2 ^ (k / 4 - 2)

/-- The highest bit and the two behind it. -/
theorem top_bits {m : Nat} (hm : 4 ≤ m) :
    2 ≤ Nat.log2 m ∧ 4 ≤ m / 2 ^ (Nat.log2 m - 2) ∧ m / 2 ^ (Nat.log2 m - 2) < 8 := by
  have hne : m ≠ 0 := by omega
  have hs : 2 ≤ Nat.log2 m := (Nat.le_log2 hne).mpr (by omega)
  have hlo : 2 ^ Nat.log2 m ≤ m := Nat.log2_self_le hne
  have hhi : m < 2 ^ (Nat.log2 m + 1) := Nat.lt_log2_self
  generalize Nat.log2 m = s at hs hlo hhi
  obtain ⟨r, rfl⟩ : ∃ r, s = r + 2 := ⟨s - 2, by omega⟩
  have hpos : 0 < 2 ^ r := Nat.two_pow_pos r
  have e₁ : 2 ^ (r + 2) = 4 * 2 ^ r := by ring
  have e₂ : 2 ^ (r + 2 + 1) = 8 * 2 ^ r := by ring
  rw [e₁] at hlo
  rw [e₂] at hhi
  refine ⟨hs, ?_, ?_⟩
  · exact (Nat.le_div_iff_mul_le hpos).mpr hlo
  · exact (Nat.div_lt_iff_lt_mul hpos).mpr hhi

theorem quarter_eq {m : Nat} (hm : 4 ≤ m) :
    quarter m + 4 = 4 * Nat.log2 m + m / 2 ^ (Nat.log2 m - 2) := by
  obtain ⟨-, hlo, hhi⟩ := top_bits hm
  unfold quarter
  rw [Nat.shiftRight_eq_div_pow]
  omega

/-- A number is in its class, and not yet in the next. -/
theorem octave_quarter {m : Nat} (hm : 4 ≤ m) :
    8 ≤ quarter m ∧ octave (quarter m) ≤ m ∧ m < octave (quarter m + 1) := by
  obtain ⟨hs, hlo, hhi⟩ := top_bits hm
  have hq := quarter_eq hm
  have hm₁ := Nat.div_mul_le_self m (2 ^ (Nat.log2 m - 2))
  have hm₂ := Nat.lt_div_mul_add (a := m) (Nat.two_pow_pos (Nat.log2 m - 2))
  generalize Nat.log2 m = s at *
  generalize m / 2 ^ (s - 2) = d at *
  have hd : (quarter m) % 4 = d - 4 ∧ quarter m / 4 = s := by omega
  refine ⟨by omega, ?_, ?_⟩
  · unfold octave
    rw [hd.1, hd.2, show 4 + (d - 4) = d by omega]
    exact hm₁
  · unfold octave
    by_cases hd7 : d = 7
    · have hn : (quarter m + 1) % 4 = 0 ∧ (quarter m + 1) / 4 = s + 1 := by omega
      rw [hn.1, hn.2, show s + 1 - 2 = (s - 2) + 1 by omega, Nat.pow_succ]
      rw [hd7] at hm₂
      omega
    · have hn : (quarter m + 1) % 4 = d - 3 ∧ (quarter m + 1) / 4 = s := by omega
      rw [hn.1, hn.2, show 4 + (d - 3) = d + 1 by omega, Nat.succ_mul]
      exact hm₂

theorem octave_lt_succ {k : Nat} (hk : 8 ≤ k) : octave k < octave (k + 1) := by
  unfold octave
  have hpos : 0 < 2 ^ (k / 4 - 2) := Nat.two_pow_pos _
  by_cases h3 : k % 4 = 3
  · have hn : (k + 1) % 4 = 0 ∧ (k + 1) / 4 - 2 = (k / 4 - 2) + 1 := by omega
    rw [hn.1, hn.2, h3, Nat.pow_succ]
    omega
  · have hn : (k + 1) % 4 = k % 4 + 1 ∧ (k + 1) / 4 - 2 = k / 4 - 2 := by omega
    rw [hn.1, hn.2]
    exact Nat.mul_lt_mul_of_pos_right (by omega) hpos

theorem octave_mono {j k : Nat} (hj : 8 ≤ j) (hjk : j ≤ k) : octave j ≤ octave k := by
  induction k, hjk using Nat.le_induction with
  | base => exact le_refl _
  | succ k hk ih => exact le_trans ih (Nat.le_of_lt (octave_lt_succ (by omega)))

/-- Which numbers are in class `k` or a later one. -/
theorem octave_le_iff {m k : Nat} (hm : 4 ≤ m) (hk : 8 ≤ k) : octave k ≤ m ↔ k ≤ quarter m := by
  obtain ⟨hq, hlo, hhi⟩ := octave_quarter hm
  constructor
  · intro h
    by_contra hlt
    have hle := octave_mono (j := quarter m + 1) (k := k) (by omega) (by omega)
    omega
  · intro h
    exact le_trans (octave_mono hk h) hlo

theorem quarter_mono {m n : Nat} (hm : 4 ≤ m) (h : m ≤ n) : quarter m ≤ quarter n := by
  obtain ⟨hk, hlo, -⟩ := octave_quarter hm
  exact (octave_le_iff (by omega) hk).mp (le_trans hlo h)

/-- A class is no wider than a quarter of its least number. -/
theorem octave_succ_le {k : Nat} (hk : 8 ≤ k) : 4 * octave (k + 1) ≤ 5 * octave k := by
  unfold octave
  by_cases h3 : k % 4 = 3
  · have hn : (k + 1) % 4 = 0 ∧ (k + 1) / 4 - 2 = (k / 4 - 2) + 1 := by omega
    rw [hn.1, hn.2, h3, Nat.pow_succ]
    omega
  · have hn : (k + 1) % 4 = k % 4 + 1 ∧ (k + 1) / 4 - 2 = k / 4 - 2 := by omega
    rw [hn.1, hn.2, ← Nat.mul_assoc, ← Nat.mul_assoc]
    exact Nat.mul_le_mul_right _ (by omega)

end QuarterLog
