/-
# `EflCore.Mimalloc.Bins` — size classes of blocks and of spans

`mi_bin` gives the page queue for a size, `mi_slice_bin8` the span queue for a number of slices.
The queues are set up from two tables, which say how large the blocks, or spans, of a queue are.
So the code has the classes twice: as bit operations, and as tables written out by hand.

| | words of a block | slices of a span |
| :-- | :-- | :-- |
| the function | `mi_bin` | `mi_slice_bin8` |
| the table | `MI_PAGE_QUEUES_EMPTY` | `MI_SEGMENT_SPAN_QUEUES_EMPTY` |
| classes of one number | up to 8, by twos | up to 7 |
| behind them | `quarter (n - 1) - 3` | `quarter (n - 1) - 4` |

**Proved here.**  The two agree: a size goes to the first class that is large enough, for any size
that has one (`mi_bin_fits`, `mi_slice_bin_fits`).  `MI_ALIGN2W` is defined, as `MI_MAX_ALIGN_SIZE`
is two words.
-/
import EflCore.Lib.QuarterLog

namespace EflCore.Mimalloc

open QuarterLog

/-- `mi_bsr`: the highest bit. -/
def miBsr (x : Nat) : Nat := Nat.log2 x

/-! ## Blocks -/

/-- `sizeof(uintptr_t)` -/
def wordSize : Nat := 8

def miWsizeFromSize (size : Nat) : Nat := (size + wordSize - 1) / wordSize

def miMediumObjSizeMax : Nat := 128 * 1024

def miMediumObjWsizeMax : Nat := miMediumObjSizeMax / wordSize

def miBinHuge : Nat := 73

def miBin (size : Nat) : Nat :=
  let wsize := miWsizeFromSize size
  if wsize ≤ 1 then 1
  -- round to double word sizes
  else if wsize ≤ 8 then (wsize + 1) / 2 * 2
  else if miMediumObjWsizeMax < wsize then miBinHuge
  else
    let wsize := wsize - 1
    let b := miBsr wsize
    (b <<< 2) + ((wsize >>> (b - 2)) &&& 3) - 3

/-- `MI_PAGE_QUEUES_EMPTY`: the words of a block of each queue. -/
def miPageQueuesEmpty : List Nat :=
  [1,
    1, 2, 3, 4, 5, 6, 7, 8,
    10, 12, 14, 16, 20, 24, 28, 32,
    40, 48, 56, 64, 80, 96, 112, 128,
    160, 192, 224, 256, 320, 384, 448, 512,
    640, 768, 896, 1024, 1280, 1536, 1792, 2048,
    2560, 3072, 3584, 4096, 5120, 6144, 7168, 8192,
    10240, 12288, 14336, 16384, 20480, 24576, 28672, 32768,
    40960, 49152, 57344, 65536, 81920, 98304, 114688, 131072,
    163840, 196608, 229376, 262144, 327680, 393216, 458752, 524288,
    miMediumObjWsizeMax + 1,
    miMediumObjWsizeMax + 2]

/-- `_mi_bin_size` -/
def miBinSize (bin : Nat) : Nat := miPageQueuesEmpty.getD bin 0 * wordSize

/-! ## Spans -/

def miSegmentSliceSize : Nat := 64 * 1024

def miSlicesPerSegment : Nat := 512

def miSegmentBinMax : Nat := 35

def miSliceBin8 (sliceCount : Nat) : Nat :=
  if sliceCount ≤ 1 then sliceCount
  else
    let sliceCount := sliceCount - 1
    let s := miBsr sliceCount
    if s ≤ 2 then sliceCount + 1
    else (s <<< 2 ||| ((sliceCount >>> (s - 2)) &&& 3)) - 4

def miSliceBin (sliceCount : Nat) : Nat := miSliceBin8 sliceCount

/-- `MI_SEGMENT_SPAN_QUEUES_EMPTY`: the most slices that a span of each queue has. -/
def miSegmentSpanQueuesEmpty : List Nat :=
  [1,
    1, 2, 3, 4, 5, 6, 7, 10,
    12, 14, 16, 20, 24, 28, 32, 40,
    48, 56, 64, 80, 96, 112, 128, 160,
    192, 224, 256, 320, 384, 448, 512, 640,
    768, 896, 1024]

/-! ## The bit operations -/

theorem and_three (n : Nat) : n &&& 3 = n % 4 := Nat.and_two_pow_sub_one_eq_mod n 2

theorem shiftLeft_two_or {s r : Nat} (hr : r < 4) : s <<< 2 ||| r = 4 * s + r := by
  have h := Nat.shiftLeft_add_eq_or_of_lt (i := 2) (b := r) (by simpa using hr) s
  rw [← h, Nat.shiftLeft_eq]
  omega

theorem miBin_eq (size : Nat) (h : 8 < miWsizeFromSize size)
    (hm : miWsizeFromSize size ≤ miMediumObjWsizeMax) :
    miBin size = quarter (miWsizeFromSize size - 1) - 3 := by
  unfold miBin
  simp only
  rw [if_neg (by omega), if_neg (by omega), if_neg (by omega), and_three, Nat.shiftLeft_eq]
  unfold quarter miBsr
  rw [Nat.mul_comm 4]

theorem miSliceBin_small : ∀ n ≤ 8, miSliceBin n = n := by decide

theorem miSliceBin_eq {n : Nat} (h : 8 < n) : miSliceBin n = quarter (n - 1) - 4 := by
  have hs : 3 ≤ Nat.log2 (n - 1) := (Nat.le_log2 (by omega)).mpr (by omega)
  unfold miSliceBin miSliceBin8 miBsr
  simp only
  rw [if_neg (by omega), if_neg (by omega), and_three, shiftLeft_two_or (Nat.mod_lt _ (by omega))]
  rfl

/-! ## The tables -/

/-- Behind the first classes both tables are the ends of quarters of an octave. -/
theorem miPageQueuesEmpty_eq : ∀ bin < miBinHuge, 9 ≤ bin →
    miPageQueuesEmpty.getD bin 0 = octave (bin + 4) := by
  decide

theorem miSegmentSpanQueuesEmpty_eq : ∀ bin ≤ miSegmentBinMax, 8 ≤ bin →
    miSegmentSpanQueuesEmpty.getD bin 0 = octave (bin + 5) := by
  decide

/-! ## Spans go where they fit -/

theorem miSliceBin_mono {m n : Nat} (h : m ≤ n) : miSliceBin m ≤ miSliceBin n := by
  by_cases hn : n ≤ 8
  · rw [miSliceBin_small n hn, miSliceBin_small m (by omega)]
    exact h
  · rw [miSliceBin_eq (n := n) (by omega)]
    by_cases hm : m ≤ 8
    · have h12 : 12 ≤ quarter (n - 1) := (octave_le_iff (by omega) (by omega)).mp (by
        show 8 ≤ n - 1
        omega)
      rw [miSliceBin_small m hm]
      omega
    · rw [miSliceBin_eq (n := m) (by omega)]
      exact Nat.sub_le_sub_right (quarter_mono (by omega) (by omega)) 4

/-- A span goes to the first queue whose spans may be as large: what a larger number of slices
would also do is in no queue before it. -/
theorem mi_slice_bin_fits {n : Nat} (hn : 1 ≤ n) (hmax : n ≤ 1024) :
    miSliceBin n ≤ miSegmentBinMax ∧
      n ≤ miSegmentSpanQueuesEmpty.getD (miSliceBin n) 0 ∧
      (∀ bin, 1 ≤ bin → bin < miSliceBin n → miSegmentSpanQueuesEmpty.getD bin 0 < n) ∧
      ∀ m, n ≤ m → miSliceBin n ≤ miSliceBin m := by
  have hmono : ∀ m, n ≤ m → miSliceBin n ≤ miSliceBin m := fun m => miSliceBin_mono
  have hsmall : ∀ bin, 1 ≤ bin → bin ≤ 7 → miSegmentSpanQueuesEmpty.getD bin 0 = bin := by
    intro bin h₁ h₇
    have hall : ∀ bin ≤ 7, 1 ≤ bin → miSegmentSpanQueuesEmpty.getD bin 0 = bin := by decide
    exact hall bin h₇ h₁
  by_cases h8 : n ≤ 8
  · rw [miSliceBin_small n h8]
    refine ⟨by unfold miSegmentBinMax; omega, ?_, fun bin h₁ hb => ?_, ?_⟩
    · have hall : ∀ n ≤ 8, n ≤ miSegmentSpanQueuesEmpty.getD n 0 := by decide
      exact hall n h8
    · rw [hsmall bin h₁ (by omega)]
      exact hb
    · rwa [miSliceBin_small n h8] at hmono
  · have hk : miSliceBin n ≤ miSegmentBinMax := hmono 1024 hmax
    have heq := miSliceBin_eq (n := n) (by omega)
    obtain ⟨-, hlo, hhi⟩ := octave_quarter (m := n - 1) (by omega)
    have h12 : 12 ≤ quarter (n - 1) := (octave_le_iff (by omega) (by omega)).mp (by
      show 8 ≤ n - 1
      omega)
    refine ⟨hk, ?_, fun bin h₁ hb => ?_, hmono⟩
    · rw [miSegmentSpanQueuesEmpty_eq _ hk (by omega), heq,
        show quarter (n - 1) - 4 + 5 = quarter (n - 1) + 1 by omega]
      omega
    · by_cases hb7 : bin ≤ 7
      · rw [hsmall bin h₁ hb7]
        omega
      · rw [miSegmentSpanQueuesEmpty_eq bin (by omega) (by omega)]
        have hle := octave_mono (j := bin + 5) (k := quarter (n - 1)) (by omega) (by omega)
        omega

theorem mi_slice_bin_fits_nine : miSliceBin 9 ≤ miSegmentBinMax ∧
    9 ≤ miSegmentSpanQueuesEmpty.getD (miSliceBin 9) 0 ∧
    (∀ bin, 1 ≤ bin → bin < miSliceBin 9 → miSegmentSpanQueuesEmpty.getD bin 0 < 9) ∧
    ∀ m, 9 ≤ m → miSliceBin 9 ≤ miSliceBin m :=
  mi_slice_bin_fits (by decide) (by decide)

/-! ## Blocks go where they fit -/

theorem miWsizeFromSize_le {size n : Nat} : miWsizeFromSize size ≤ n ↔ size ≤ wordSize * n := by
  unfold miWsizeFromSize wordSize
  omega

theorem miWsizeFromSize_mul (n : Nat) : miWsizeFromSize (n * wordSize) = n := by
  unfold miWsizeFromSize wordSize
  omega

/-- The first classes. -/
theorem miBin_small {size : Nat} (h : miWsizeFromSize size ≤ 8) :
    miBin size = if miWsizeFromSize size ≤ 1 then 1 else (miWsizeFromSize size + 1) / 2 * 2 := by
  unfold miBin
  simp only
  split
  · rfl
  · rfl

theorem miBin_huge {size : Nat} (h : miMediumObjWsizeMax < miWsizeFromSize size) :
    miBin size = miBinHuge := by
  have h8 : 8 < miWsizeFromSize size := lt_trans (by decide) h
  unfold miBin
  simp only
  rw [if_neg (by omega), if_neg (by omega), if_pos h]

theorem miBin_bounds (size : Nat) (h : 8 < miWsizeFromSize size)
    (hm : miWsizeFromSize size ≤ miMediumObjWsizeMax) : 9 ≤ miBin size ∧ miBin size ≤ 52 := by
  rw [miBin_eq size h hm]
  have h12 : 12 ≤ quarter (miWsizeFromSize size - 1) := (octave_le_iff (by omega) (by omega)).mp (by
    show 8 ≤ miWsizeFromSize size - 1
    omega)
  have h55 : ¬56 ≤ quarter (miWsizeFromSize size - 1) := by
    rw [← octave_le_iff (by omega) (by omega)]
    show ¬16384 ≤ miWsizeFromSize size - 1
    have : miMediumObjWsizeMax = 16384 := rfl
    omega
  omega

theorem miBin_mono {m n : Nat} (h : m ≤ n) : miBin m ≤ miBin n := by
  have hw : miWsizeFromSize m ≤ miWsizeFromSize n :=
    miWsizeFromSize_le.mpr (le_trans h (miWsizeFromSize_le.mp (le_refl _)))
  by_cases hn : miWsizeFromSize n ≤ 8
  · rw [miBin_small hn, miBin_small (le_trans hw hn)]
    split <;> split <;> omega
  · by_cases hh : miMediumObjWsizeMax < miWsizeFromSize n
    · rw [miBin_huge hh]
      by_cases hm : miWsizeFromSize m ≤ 8
      · rw [miBin_small hm]
        unfold miBinHuge
        split <;> omega
      · by_cases hmh : miMediumObjWsizeMax < miWsizeFromSize m
        · rw [miBin_huge hmh]
        · have hb := miBin_bounds m (by omega) (by omega)
          unfold miBinHuge
          omega
    · have hb := miBin_bounds n (by omega) (by omega)
      by_cases hm : miWsizeFromSize m ≤ 8
      · rw [miBin_small hm]
        split <;> omega
      · rw [miBin_eq m (by omega) (by omega), miBin_eq n (by omega) (by omega)]
        exact Nat.sub_le_sub_right (quarter_mono (by omega) (by omega)) 3

/-- The table is made of ends of classes: a block of a queue that is in use belongs there. -/
theorem miBin_miBinSize {size : Nat} (h : size ≤ miMediumObjSizeMax) :
    miBin (miBinSize (miBin size)) = miBin size := by
  have hmed : miWsizeFromSize size ≤ miMediumObjWsizeMax := miWsizeFromSize_le.mpr h
  by_cases hs : miWsizeFromSize size ≤ 8
  · have hall : ∀ w ≤ 8, miBin (miBinSize (if w ≤ 1 then 1 else (w + 1) / 2 * 2)) =
        if w ≤ 1 then 1 else (w + 1) / 2 * 2 := by decide
    rw [miBin_small hs]
    exact hall _ hs
  · obtain ⟨h9, h52⟩ := miBin_bounds size (by omega) hmed
    generalize miBin size = b at h9 h52
    have hT : miPageQueuesEmpty.getD b 0 = octave (b + 4) :=
      miPageQueuesEmpty_eq b (by unfold miBinHuge; omega) h9
    have hlo := octave_mono (j := 13) (k := b + 4) (by omega) (by omega)
    have hhi := octave_mono (j := b + 4) (k := 56) (by omega) (by omega)
    have h10 : octave 13 = 10 := rfl
    have h16 : octave 56 = miMediumObjWsizeMax := rfl
    have hw : miWsizeFromSize (miBinSize b) = octave (b + 4) := by
      unfold miBinSize
      rw [miWsizeFromSize_mul, hT]
    rw [miBin_eq _ (by rw [hw]; omega) (by rw [hw]; omega), hw]
    -- just below the end of a class
    have hlt : octave (b + 3) < octave (b + 4) := octave_lt_succ (by omega)
    have h₁ : b + 3 ≤ quarter (octave (b + 4) - 1) :=
      (octave_le_iff (by omega) (by omega)).mp (by omega)
    have h₂ : ¬b + 4 ≤ quarter (octave (b + 4) - 1) := by
      rw [← octave_le_iff (by omega) (by omega)]
      omega
    omega

/-- A size that is not huge goes to the first queue whose blocks are as large.  Its queue has
blocks of no more than a quarter above it, if they are more than eight words. -/
theorem mi_bin_fits {size : Nat} (h : size ≤ miMediumObjSizeMax) :
    1 ≤ miBin size ∧ miBin size < miBinHuge ∧ size ≤ miBinSize (miBin size) ∧
      miBin (miBinSize (miBin size)) = miBin size ∧
      (∀ bin < miBin size, miBin (miBinSize bin) = bin → miBinSize bin < size) ∧
      (8 * wordSize < size → 4 * miBinSize (miBin size) < 5 * size) := by
  have hmed : miWsizeFromSize size ≤ miMediumObjWsizeMax := miWsizeFromSize_le.mpr h
  have hfirst : ∀ bin < miBin size, miBin (miBinSize bin) = bin → miBinSize bin < size := by
    intro bin hb he
    by_contra hle
    have hm := miBin_mono (m := size) (n := miBinSize bin) (by omega)
    omega
  by_cases hs : miWsizeFromSize size ≤ 8
  · have hall : ∀ w ≤ 8, 1 ≤ (if w ≤ 1 then 1 else (w + 1) / 2 * 2) ∧
        (if w ≤ 1 then 1 else (w + 1) / 2 * 2) < miBinHuge ∧
        w ≤ miPageQueuesEmpty.getD (if w ≤ 1 then 1 else (w + 1) / 2 * 2) 0 := by decide
    obtain ⟨h₁, h₂, h₃⟩ := hall _ hs
    refine ⟨?_, ?_, ?_, miBin_miBinSize h, hfirst, fun hlt => ?_⟩
    · rw [miBin_small hs]
      exact h₁
    · rw [miBin_small hs]
      exact h₂
    · rw [miBin_small hs]
      have hle := miWsizeFromSize_le.mp h₃
      unfold miBinSize
      rwa [Nat.mul_comm]
    · have hle := miWsizeFromSize_le.mp hs
      unfold wordSize at hle hlt
      omega
  · obtain ⟨h9, h52⟩ := miBin_bounds size (by omega) hmed
    obtain ⟨hk, hlo, hhi⟩ := octave_quarter (m := miWsizeFromSize size - 1) (by omega)
    have hb := miBin_eq size (by omega) hmed
    have hT : miPageQueuesEmpty.getD (miBin size) 0 =
        octave (quarter (miWsizeFromSize size - 1) + 1) := by
      rw [miPageQueuesEmpty_eq _ (by unfold miBinHuge; omega) h9]
      congr 1
      omega
    have hw : size ≤ wordSize * miWsizeFromSize size := miWsizeFromSize_le.mp (le_refl _)
    refine ⟨by omega, by unfold miBinHuge; omega, ?_, miBin_miBinSize h, hfirst, fun hlt => ?_⟩
    · unfold miBinSize
      rw [hT]
      unfold wordSize at *
      omega
    · have hwaste := octave_succ_le hk
      have hsize : wordSize * (miWsizeFromSize size - 1) < size := by
        unfold miWsizeFromSize wordSize
        omega
      unfold miBinSize
      rw [hT]
      unfold wordSize at *
      omega

theorem mi_bin_fits_129 : 1 ≤ miBin 129 ∧ miBin 129 < miBinHuge ∧ 129 ≤ miBinSize (miBin 129) ∧
    miBin (miBinSize (miBin 129)) = miBin 129 ∧
    (∀ bin < miBin 129, miBin (miBinSize bin) = bin → miBinSize bin < 129) ∧
    (8 * wordSize < 129 → 4 * miBinSize (miBin 129) < 5 * 129) :=
  mi_bin_fits (by decide)

end EflCore.Mimalloc
