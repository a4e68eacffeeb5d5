/-
# `EflCore.Lib.WordBits` — a row of bits in an array of words

`bit f j` is bit `j` of the words `f 0`, `f 1`, ...: bit `j % w` of word `j / w`.  `ones w n i` is the
word with the `n` bits from `i` on, in the way code writes it.

**Proved here.**  Operations word by word are operations bit by bit (`bit_and`, `bit_or`,
`bit_not`), what holds of the `n * w` bits holds of the bits of `n` words (`forall_word_iff`), and
`ones w n i` has the bits it is named after (`getLsbD_ones`).
-/
import Mathlib.Data.Nat.Basic
import Mathlib.Tactic.Common

namespace WordBits

variable {w : Nat}

def bit (f : Nat → BitVec w) (j : Nat) : Bool := (f (j / w)).getLsbD (j % w)

def ones (w n i : Nat) : BitVec w := ((1#w <<< n) - 1#w) <<< i

theorem bit_mul_add (f : Nat → BitVec w) {i k : Nat} (hk : k < w) :
    bit f (i * w + k) = (f i).getLsbD k := by
  have hw : 0 < w := by omega
  unfold bit
  rw [Nat.mul_comm, Nat.mul_add_div hw, Nat.div_eq_of_lt hk, Nat.mul_add_mod, Nat.mod_eq_of_lt hk,
    Nat.add_zero]

theorem bit_and (f g : Nat → BitVec w) (j : Nat) :
    bit (fun i => f i &&& g i) j = (bit f j && bit g j) := BitVec.getLsbD_and

theorem bit_or (f g : Nat → BitVec w) (j : Nat) :
    bit (fun i => f i ||| g i) j = (bit f j || bit g j) := BitVec.getLsbD_or

theorem bit_not (f : Nat → BitVec w) {j : Nat} (hw : 0 < w) : bit (fun i => ~~~f i) j = !bit f j := by
  unfold bit
  rw [BitVec.getLsbD_not, decide_eq_true (Nat.mod_lt j hw), Bool.true_and]

/-- A word is met at all of its bits, and a bit in one of the words. -/
theorem forall_word_iff {P : Nat → Nat → Prop} (n : Nat) :
    (∀ i < n, ∀ k < w, P i k) ↔ ∀ j < n * w, P (j / w) (j % w) := by
  constructor
  · intro h j hj
    have hw : 0 < w := by
      rcases Nat.eq_zero_or_pos w with rfl | hw
      · simp at hj
      · exact hw
    exact h _ ((Nat.div_lt_iff_lt_mul hw).mpr hj) _ (Nat.mod_lt j hw)
  · intro h i hi k hk
    have hw : 0 < w := by omega
    have hj : i * w + k < n * w := calc
      i * w + k < i * w + w := by omega
      _ = (i + 1) * w := by rw [Nat.succ_mul]
      _ ≤ n * w := Nat.mul_le_mul_right w hi
    have hP := h _ hj
    rwa [Nat.mul_comm, Nat.mul_add_div hw, Nat.div_eq_of_lt hk, Nat.mul_add_mod,
      Nat.mod_eq_of_lt hk, Nat.add_zero] at hP

theorem getLsbD_ones {n i : Nat} (hn : n < w) (j : Nat) :
    (ones w n i).getLsbD j = decide (i ≤ j ∧ j < i + n ∧ j < w) := by
  have hlow : ∀ k, ((1#w <<< n) - 1#w).getLsbD k = decide (k < n) := by
    intro k
    have hn2 : 2 ^ n < 2 ^ w := Nat.pow_lt_pow_right (by decide) hn
    have h1 : 1 < 2 ^ w := Nat.one_lt_two_pow (by omega)
    have hpos : 0 < 2 ^ n := Nat.two_pow_pos n
    have hval : ((1#w <<< n) - 1#w).toNat = 2 ^ n - 1 := by
      rw [BitVec.toNat_sub, BitVec.toNat_shiftLeft, BitVec.toNat_ofNat, Nat.mod_eq_of_lt h1,
        Nat.shiftLeft_eq, Nat.one_mul, Nat.mod_eq_of_lt hn2]
      rw [show 2 ^ w - 1 + 2 ^ n = 2 ^ n - 1 + 2 ^ w by omega, Nat.add_mod_right]
      exact Nat.mod_eq_of_lt (by omega)
    rw [← BitVec.testBit_toNat, hval, Nat.testBit_two_pow_sub_one]
  unfold ones
  rw [BitVec.getLsbD_shiftLeft, hlow]
  by_cases hij : i ≤ j
  · simp [hij, Nat.not_lt.mpr hij, Nat.sub_lt_iff_lt_add' hij, and_comm]
  · simp [hij, Nat.lt_of_not_le hij]

end WordBits
