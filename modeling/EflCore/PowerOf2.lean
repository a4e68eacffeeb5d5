/-
# `EflCore.PowerOf2` — a bit trick and its one exception

`H::is_power_of_2(sz)` is `!(sz & (sz - 1))`, once for `size_t` and once for `u128`.  Taking one
from a number clears its lowest bit and sets those below it; so what the two have in common are
the other bits, and there are none of them in a power of two.  There are none of them in zero
either: `0 - 1` is all ones, and nothing is left of it.

Three places ask.  Both specialisations of `AlignedMimAllocatorBase` assert it of `Align` when
they are compiled, with the words that it must be a power of two, and `AllocateAligned` asserts
it when it is called, together with a limit that is mimalloc's own: there a power of two may be
too large.

**Proved here**, for every width.  The test says what its name says of every number but zero,
and the three places accept what is legal, but for zero and for the powers of two beyond
mimalloc's limit (`powerOf2_right_iff`).
-/
import EflCore.MimAllocator

namespace EflCore

open Layout Lifetime

/-! ## The test -/

/-- `H::is_power_of_2`, of `size_t` or of `u128`. -/
def Fundamental.isPowerOf2 {w : Nat} (n : BitVec w) : Bool := n &&& (n - 1) == 0

/-- A power of two. -/
def IsPower {w : Nat} (n : BitVec w) : Prop := ∃ k, k < w ∧ n.toNat = 2 ^ k

theorem isPowerOf2_eq {t : Target} (sz : t.SzType) :
    isPowerOf2 sz = Fundamental.isPowerOf2 sz := rfl

section
variable {w : Nat} {n : BitVec w}

/-- `0 & (0 - 1)` is zero. -/
theorem isPowerOf2_zero : Fundamental.isPowerOf2 (0 : BitVec w) = true :=
  beq_iff_eq.mpr BitVec.zero_and

theorem not_isPower_zero : ¬ IsPower (0 : BitVec w) := by
  rintro ⟨k, -, hk⟩
  have hpos := Nat.two_pow_pos k
  rw [← hk] at hpos
  exact absurd hpos (by simp)

/-- Below `2 ^ w` there is no other power of two. -/
theorem isPower_iff : IsPower n ↔ n.toNat.isPowerOfTwo := by
  constructor
  · rintro ⟨k, -, hk⟩
    exact ⟨k, hk⟩
  · rintro ⟨k, hk⟩
    have hlt : 2 ^ k < 2 ^ w := hk ▸ n.isLt
    exact ⟨k, (Nat.pow_lt_pow_iff_right Nat.one_lt_two).mp hlt, hk⟩

/-- One less than what is not zero does not wrap around. -/
theorem toNat_pred (hn : n ≠ 0) : (n - 1).toNat = n.toNat - 1 := by
  have hw : 0 < w := by
    rcases Nat.eq_zero_or_pos w with rfl | hw
    · exact absurd (Subsingleton.elim n 0) hn
    · exact hw
  have hone : (1 : BitVec w).toNat = 1 := BitVec.toNat_one hw
  have hpos : 1 ≤ n.toNat := Nat.one_le_iff_ne_zero.mpr fun h => hn (BitVec.eq_of_toNat_eq h)
  rw [BitVec.toNat_sub_of_le (BitVec.le_def.mpr (hone.trans_le hpos)), hone]

theorem isPowerOf2_iff (hn : n ≠ 0) : Fundamental.isPowerOf2 n = true ↔ IsPower n := by
  have hne : n.toNat ≠ 0 := fun h => hn (BitVec.eq_of_toNat_eq h)
  rw [Fundamental.isPowerOf2, beq_iff_eq, ← BitVec.toNat_inj, BitVec.toNat_and, toNat_pred hn,
    isPower_iff, ← Nat.and_sub_one_eq_zero_iff_isPowerOfTwo hne]
  rfl

/-- Zero is the one number of which the test is wrong. -/
theorem test_right_iff : (Fundamental.isPowerOf2 n = true ↔ IsPower n) ↔ n ≠ 0 := by
  constructor
  · rintro h rfl
    exact not_isPower_zero (h.mp isPowerOf2_zero)
  · exact isPowerOf2_iff

end

/-! ## The places that ask -/

section
variable {t : Target}

/-- The static assertion of `AlignedMimAllocatorBase<T, Align>`, in either specialisation. -/
def AlignedMimAllocatorBase.compiles (Align : t.SzType) : Bool := isPowerOf2 Align

/-- In a debug build, the call gets past the assertion of `AllocateAligned`. -/
def AllocateAlignedAccepts (mi : MimallocApi t) (align : t.SzType) : Prop :=
  ∀ d size, MimAllocatorBase.allocateAligned ⟨d, true⟩ mi align size ≠ .error .aborted

/-- What is accepted is what is legal, which is a power of two. -/
structure AcceptsLegal (mi : MimallocApi t) (align : t.SzType) : Prop where
  compiled : AlignedMimAllocatorBase.compiles align = true ↔ IsPower align
  called : AllocateAlignedAccepts mi align ↔ IsPower align

variable {mi : MimallocApi t} {align : t.SzType}

theorem allocateAlignedAccepts_iff :
    AllocateAlignedAccepts mi align ↔ isPowerOf2 align = true ∧ align ≤ mi.alignmentMax := by
  have hassert : ∀ (d : Dialect) (size : t.SzType),
      MimAllocatorBase.allocateAligned ⟨d, true⟩ mi align size ≠ .error .aborted ↔
        (decide (align ≤ mi.alignmentMax) && isPowerOf2 align) = true := by
    intro d size
    rw [MimAllocatorBase.allocateAligned]
    cases decide (align ≤ mi.alignmentMax) && isPowerOf2 align with
    | true =>
        refine iff_of_true ?_ rfl
        intro h
        cases h
    | false => exact iff_of_false (fun h => h rfl) Bool.false_ne_true
  rw [AllocateAlignedAccepts, and_comm, ← decide_eq_true_iff (p := align ≤ mi.alignmentMax),
    ← Bool.and_eq_true]
  constructor
  · intro h
    exact (hassert .cxx14 0).mp (h .cxx14 0)
  · intro h d size
    exact (hassert d size).mpr h

/-- The static assertion lets zero through, and the other one stops what is too large for
mimalloc. -/
theorem accepts_legal_iff :
    AcceptsLegal mi align ↔ align ≠ 0 ∧ (IsPower align → align ≤ mi.alignmentMax) := by
  constructor
  · intro h
    have hne : align ≠ 0 := by
      rintro rfl
      exact not_isPower_zero (h.compiled.mp isPowerOf2_zero)
    exact ⟨hne, fun hpower => (allocateAlignedAccepts_iff.mp (h.called.mpr hpower)).2⟩
  · rintro ⟨hne, hlimit⟩
    refine ⟨isPowerOf2_iff hne, ?_⟩
    rw [allocateAlignedAccepts_iff, isPowerOf2_eq, isPowerOf2_iff hne]
    exact and_iff_left_of_imp hlimit

end

/-- The test is right about every number but zero, at every width, and what the allocator
accepts is what is legal, but for zero and for what is beyond mimalloc's limit. -/
theorem powerOf2_right_iff {w : Nat} (n : BitVec w) {t : Target} (mi : MimallocApi t)
    (align : t.SzType) :
    ((Fundamental.isPowerOf2 n = true ↔ IsPower n) ↔ n ≠ 0) ∧
      (AcceptsLegal mi align ↔ align ≠ 0 ∧ (IsPower align → align ≤ mi.alignmentMax)) :=
  ⟨test_right_iff, accepts_legal_iff⟩

/-- Zero is taken for a power of two, when compiling and when running. -/
theorem zero_accepted :
    Fundamental.isPowerOf2 (0 : BitVec 64) = true ∧ ¬ IsPower (0 : BitVec 64) ∧
    AlignedMimAllocatorBase.compiles (0 : x64.SzType) = true ∧
    MimAllocatorBase.allocateAligned ⟨.cxx14CxprEval, true⟩ (.exact x64) 0 16
      = .ok (.alignedAlloc 0 16) ∧
    ¬ AcceptsLegal (.exact x64) 0 :=
  ⟨rfl, not_isPower_zero, rfl, rfl, fun h => not_isPower_zero (h.compiled.mp rfl)⟩

end EflCore
