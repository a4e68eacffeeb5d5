/-
# `EflCore.MimAllocator` — how many bytes are asked for, and how they are aligned

`MimAllocator.hpp`, `MimAllocator.cpp` and `StatelessAllocator.hpp`.  Every way
through `allocate` ends in exactly one call of the allocator underneath, so an
allocation *is* that call (`Request`), or an assertion that aborts before it:

    allocate n          constant evaluation   operator new (n)
                        run time              SmartAllocate n
    SmartAllocate n     not overaligned       is_small_alloc n ? AllocateSmall : Allocate
                        overaligned           AllocateAligned Align
    AllocateSmall s     asserts s ≤ smallAllocMax,   then mi_malloc_small (s)
    Allocate s                                            mi_malloc (s)
    AllocateAligned a s asserts a is an alignment,   then mi_aligned_alloc (a, s)

What is underneath (`MimallocApi`) is a parameter: it answers a request with an
address or with null.  That it aligns (`MimallocApi.Aligns`) is what mimalloc
documents; the modules under `EflCore.Mimalloc` are about what it does inside.

Two numbers are compared that are not of one kind.  `is_small_alloc<T>` is handed
a *count* and compares it with a limit in *bytes*; the overload for `NotOveraligned`
looks at `alignof(T)` and not at `Align`.  And the product `sizeof(T) * n` is taken
in `size_t`, which `max_size` would bound if `allocate` asked it.

**Proved here**, each for every element type:

    the small path stays within smallAllocMax   (`smartAllocate_small_iff`)
    the block is aligned to Align, also after rebind (`allocate_aligned_iff`)
    the bytes requested cover the objects, or the call fails (`allocate_covers_iff`)
-/
import EflCore.Builtins
import EflCore.Layout

namespace EflCore

open Lifetime (Stop)
open Layout

section
variable (t : Target)

/-- `H::mi_small_count`. -/
def miSmallCount : t.SzType := BitVec.ofNat _ 128

/-- `H::mi_align_minimum`. -/
def miAlignMinimum : t.SzType := BitVec.ofNat _ (if t.ptrSize = 8 then 8 else 4)

/-- `MimAllocatorBase::smallAllocMax`. -/
def smallAllocMax : t.SzType := BitVec.ofNat _ t.ptrSize * miSmallCount t

end

variable {t : Target}

/-- `H::is_power_of_2`. -/
def isPowerOf2 (sz : t.SzType) : Bool := sz &&& (sz - 1) == 0

/-! ## The allocator underneath -/

/-- A call of the allocator underneath. -/
inductive Request (t : Target) where
  | malloc (size : t.SzType)
  | mallocSmall (size : t.SzType)
  | alignedAlloc (align size : t.SzType)
  | operatorNew (size : t.SzType)
  deriving DecidableEq

/-- The bytes asked for. -/
def Request.bytes : Request t → t.SzType
  | .malloc size | .mallocSmall size | .alignedAlloc _ size | .operatorNew size => size

/-- mimalloc and `::operator new`: its two limits, and the address that answers a
request, unless it fails.  `small_le` is the `static_assert` of `MimAllocator.cpp`. -/
structure MimallocApi (t : Target) where
  smallSizeMax : t.SzType
  alignmentMax : t.SzType
  small_le : smallAllocMax t ≤ smallSizeMax
  answer : Request t → Option Nat

/-- What mimalloc promises about the addresses it returns. -/
structure MimallocApi.Aligns (mi : MimallocApi t) : Prop where
  malloc : ∀ size p, mi.answer (.malloc size) = some p → (miAlignMinimum t).toNat ∣ p
  mallocSmall : ∀ size p, mi.answer (.mallocSmall size) = some p → (miAlignMinimum t).toNat ∣ p
  alignedAlloc : ∀ align size p, mi.answer (.alignedAlloc align size) = some p → align.toNat ∣ p

namespace MimAllocatorBase

/-- `MimAllocatorBase::Allocate`. -/
def allocate (size : t.SzType) : Except Stop (Request t) := pure (.malloc size)

/-- `MimAllocatorBase::AllocateSmall`. -/
def allocateSmall (b : Build) (size : t.SzType) : Except Stop (Request t) := do
  if rawAssert b (decide (size ≤ smallAllocMax t)) then throw .aborted
  pure (.mallocSmall size)

/-- `MimAllocatorBase::AllocateAligned`. -/
def allocateAligned (b : Build) (mi : MimallocApi t) (align size : t.SzType) :
    Except Stop (Request t) := do
  if rawAssert b (decide (align ≤ mi.alignmentMax) && isPowerOf2 align) then throw .aborted
  pure (.alignedAlloc align size)

end MimAllocatorBase

/-- An address aligned to `align` and to no larger power of two. -/
def addressAlignedTo (align : t.SzType) : Nat := align.toNat * 1048577

/-- The allocator that aligns no better than it promises, and never fails. -/
def MimallocApi.exact (t : Target) : MimallocApi t where
  smallSizeMax := smallAllocMax t
  alignmentMax := BitVec.allOnes _
  small_le := BitVec.le_refl _
  answer
    | .malloc _ | .mallocSmall _ | .operatorNew _ => some (addressAlignedTo (miAlignMinimum t))
    | .alignedAlloc align _ => some (addressAlignedTo align)

/-- The block a call ends with: none when it aborts, or when the request fails. -/
def MimallocApi.block (mi : MimallocApi t) : Except Stop (Request t) → Option Nat
  | .ok r => mi.answer r
  | .error _ => none

/-! ## `SmartAllocate`

The three overloads of `is_small_alloc` are told apart by `sizeof(T)`, the two
`AlignedMimAllocatorBase` by their third template argument. -/

/-- `H::is_small_alloc<T>`. -/
def isSmallAlloc (T : CType t) (size : t.SzType) : Bool :=
  if T.sizeof ≤ miSmallCount t then
    expectTrue (decide (size < smallAllocMax t))
  else if T.sizeof ≤ smallAllocMax t then
    expectFalse (decide (size < smallAllocMax t))
  else
    false

/-- The default of `AlignedMimAllocatorBase`'s `NotOveraligned`. -/
def notOveraligned (T : CType t) : Bool := decide (T.alignof ≤ miAlignMinimum t)

/-- `AlignedMimAllocatorBase<T, Align, NotOveraligned>::SmartAllocate`. -/
def smartAllocate (b : Build) (mi : MimallocApi t) (T : CType t) (Align : t.SzType) :
    Bool → t.SzType → Except Stop (Request t)
  | true, n =>
      let size := T.sizeof * n
      if isSmallAlloc T n then MimAllocatorBase.allocateSmall b size
      else MimAllocatorBase.allocate size
  | false, n =>
      let size := T.sizeof * n
      MimAllocatorBase.allocateAligned b mi Align size

/-! ## `MimAllocator` -/

/-- `MimAllocator<T, Align>`, with its two static assertions. -/
structure MimAllocator (t : Target) where
  type : CType t
  align : t.SzType
  align_pow : ∃ k, align.toNat = 2 ^ k
  align_ge : type.alignof ≤ align

namespace MimAllocator

/-- `MimAllocator<T>`: the alignment defaults to that of the type. -/
def of (T : CType t) : MimAllocator t where
  type := T
  align := T.alignof
  align_pow := by rw [CType.toNat_alignof]; exact T.align_pow
  align_ge := BitVec.le_refl _

/-- `rebind<U>::other`: `UAlign` is left to its default. -/
def rebind (_A : MimAllocator t) (U : CType t) : MimAllocator t := of U

/-- `MimAllocator::allocate`; `cx` when the call is constant-evaluated. -/
def allocate (A : MimAllocator t) (b : Build) (mi : MimallocApi t) (cx : Bool) (n : t.SzType) :
    Except Stop (Request t) :=
  if b.dialect = .cxx14CxprEval ∧ unlikely cx then pure (.operatorNew n)
  else smartAllocate b mi A.type A.align (notOveraligned A.type) n

/-- `MimAllocator::max_size`. -/
def maxSize (A : MimAllocator t) : t.SzType := BitVec.allOnes _ / A.type.sizeof

/-- `StatelessAllocator<MimAllocator<T, Align>>::Allocate`. -/
def statelessAllocate (A : MimAllocator t) (b : Build) (mi : MimallocApi t) (cx : Bool)
    (n : t.SzType) : Except Stop (Request t) := do
  if rawAssert b (n != 0) then throw .aborted
  A.allocate b mi cx n

end MimAllocator

/-! ## The constants -/

@[simp] theorem toNat_miSmallCount : (miSmallCount t).toNat = 128 := t.toNat_ofNat (by decide)

@[simp] theorem toNat_smallAllocMax : (smallAllocMax t).toNat = 128 * t.ptrSize := by
  have hlt := t.lt_two_pow
  rw [smallAllocMax, BitVec.toNat_mul, toNat_miSmallCount, BitVec.toNat_ofNat,
    Nat.mod_eq_of_lt (by omega : t.ptrSize < _), Nat.mul_comm, Nat.mod_eq_of_lt hlt]

theorem miAlignMinimum_pow : ∃ k, (miAlignMinimum t).toNat = 2 ^ k := by
  unfold miAlignMinimum
  split
  · exact ⟨3, t.toNat_ofNat (by decide)⟩
  · exact ⟨2, t.toNat_ofNat (by decide)⟩

/-! ## The small path -/

/-- The three overloads together: two comparisons with one limit, the first of a
size, the second of a count. -/
theorem isSmallAlloc_iff (T : CType t) (n : t.SzType) :
    isSmallAlloc T n = true ↔
      T.size ≤ (smallAllocMax t).toNat ∧ n.toNat < (smallAllocMax t).toNat := by
  have := t.two_le
  simp only [isSmallAlloc, BitVec.le_def, BitVec.lt_def, CType.toNat_sizeof, toNat_miSmallCount,
    toNat_smallAllocMax, expectTrue_eq, expectFalse_eq]
  split
  · rw [decide_eq_true_eq]; omega
  · split
    · rw [decide_eq_true_eq]; omega
    · simp only [Bool.false_eq_true, false_iff]; omega

/-- On the small path the product does not wrap. -/
theorem toNat_size_of_small {T : CType t} {n : t.SzType} (h : isSmallAlloc T n = true) :
    (T.sizeof * n).toNat = T.size * n.toNat := by
  obtain ⟨hT, hn⟩ := (isSmallAlloc_iff T n).mp h
  rw [toNat_smallAllocMax] at hT hn
  rw [BitVec.toNat_mul, CType.toNat_sizeof]
  refine Nat.mod_eq_of_lt ?_
  calc T.size * n.toNat
      < (128 * t.ptrSize) * (128 * t.ptrSize) :=
        Nat.mul_lt_mul_of_le_of_lt hT hn (by have := T.size_pos; omega)
    _ ≤ 2 ^ t.szBits := t.sq_le

/-- On the small path `SmartAllocate` asserts the size in a debug build and asks
for it in a release build. -/
theorem smartAllocate_of_small {T : CType t} {n : t.SzType} (h : isSmallAlloc T n = true)
    (b : Build) (mi : MimallocApi t) (Align : t.SzType) :
    smartAllocate b mi T Align true n
      = if b.debug ∧ (smallAllocMax t).toNat < T.size * n.toNat then .error .aborted
        else .ok (.mallocSmall (T.sizeof * n)) := by
  simp only [smartAllocate, if_pos h, MimAllocatorBase.allocateSmall, rawAssert, expectTrue_eq,
    BitVec.le_def, toNat_size_of_small h]
  rcases Nat.lt_or_ge (smallAllocMax t).toNat (T.size * n.toNat) with hlt | hle
  · rw [decide_eq_false (by omega)]
    cases b.debug with
    | true => rw [if_pos (⟨rfl, hlt⟩ : true = true ∧ _)]; rfl
    | false => rfl
  · rw [decide_eq_true hle]
    have hgt : ∀ p : Prop, ¬ (p ∧ (smallAllocMax t).toNat < T.size * n.toNat) :=
      fun _ h' => Nat.not_lt.mpr hle h'.2
    rw [if_neg (hgt _)]
    cases b.debug <;> rfl

theorem smartAllocate_of_not_small {T : CType t} {n : t.SzType} (h : ¬ isSmallAlloc T n = true)
    (b : Build) (mi : MimallocApi t) (Align : t.SzType) :
    smartAllocate b mi T Align true n = .ok (.malloc (T.sizeof * n)) := by
  simp only [smartAllocate, if_neg h]
  rfl

/-- `AllocateSmall` is called within its bounds, in every build, exactly when the
element type is too large for the small path, or the count is, or the objects fit. -/
theorem smartAllocate_small_iff (mi : MimallocApi t) (T : CType t) (Align n : t.SzType) :
    (∀ b, smartAllocate b mi T Align true n ≠ .error .aborted ∧
      ∀ size, smartAllocate b mi T Align true n = .ok (.mallocSmall size) →
        size ≤ smallAllocMax t ∧ size ≤ mi.smallSizeMax) ↔
    (smallAllocMax t).toNat < T.size ∨ (smallAllocMax t).toNat ≤ n.toNat ∨
      T.size * n.toNat ≤ (smallAllocMax t).toNat := by
  by_cases h : isSmallAlloc T n = true
  · have hsmall := (isSmallAlloc_iff T n).mp h
    simp only [smartAllocate_of_small h]
    constructor
    · intro hb
      refine .inr (.inr ?_)
      by_contra hlt
      exact (hb ⟨.cxx14, true⟩).1 (if_pos ⟨rfl, by omega⟩)
    · intro hfit b
      have hle : T.size * n.toNat ≤ (smallAllocMax t).toNat := by omega
      rw [if_neg (by omega)]
      refine ⟨nofun, ?_⟩
      rintro _ ⟨⟩
      have hsize : T.sizeof * n ≤ smallAllocMax t := by
        rw [BitVec.le_def, toNat_size_of_small h]; exact hle
      exact ⟨hsize, BitVec.le_trans hsize mi.small_le⟩
  · have hsmall := mt (isSmallAlloc_iff T n).mpr h
    simp only [smartAllocate_of_not_small h]
    constructor
    · intro _
      omega
    · intro _ b
      exact ⟨nofun, nofun⟩

/-- Sixty-five pairs of pointers are 1040 bytes, and the limit is 1024. -/
theorem smallPath_exceeds_limit :
    smartAllocate ⟨.cxx14, false⟩ (.exact x64) twoPointers 8 true 65
      = .ok (.mallocSmall 1040) ∧
    smartAllocate ⟨.cxx14, true⟩ (.exact x64) twoPointers 8 true 65 = .error .aborted ∧
    ¬ (1040 : x64.SzType) ≤ smallAllocMax x64 :=
  ⟨rfl, rfl, by decide⟩

/-! ## The bytes requested and the alignment of the block

`allocate` at run time is `SmartAllocate`; whichever function that calls, the
size it hands over is the product in `size_t`. -/

theorem allocate_runTime (A : MimAllocator t) (b : Build) (mi : MimallocApi t) (n : t.SzType) :
    A.allocate b mi false n = smartAllocate b mi A.type A.align (notOveraligned A.type) n := by
  simp [MimAllocator.allocate]

theorem allocate_constantEvaluated (A : MimAllocator t) {b : Build} (mi : MimallocApi t)
    (n : t.SzType) (hb : b.dialect = .cxx14CxprEval) :
    A.allocate b mi true n = .ok (.operatorNew n) := by
  simp only [MimAllocator.allocate, hb, unlikely_eq, and_self, if_true]
  rfl

/-- Past its assertion, `AllocateAligned` is one request. -/
theorem allocateAligned_eq_ok {b : Build} {mi : MimallocApi t} {align size : t.SzType}
    {r : Request t} (h : MimAllocatorBase.allocateAligned b mi align size = .ok r) :
    r = .alignedAlloc align size := by
  simp only [MimAllocatorBase.allocateAligned] at h
  split at h
  · cases h
  · cases h; rfl

theorem smartAllocate_overaligned_eq_ok {b : Build} {mi : MimallocApi t} {T : CType t}
    {Align n : t.SzType} {r : Request t} (h : smartAllocate b mi T Align false n = .ok r) :
    r = .alignedAlloc Align (T.sizeof * n) := allocateAligned_eq_ok h

theorem smartAllocate_eq_ok {b : Build} {mi : MimallocApi t} {T : CType t} {Align n : t.SzType}
    {r : Request t} (h : smartAllocate b mi T Align true n = .ok r) :
    r = .mallocSmall (T.sizeof * n) ∨ r = .malloc (T.sizeof * n) := by
  by_cases hs : isSmallAlloc T n = true
  · rw [smartAllocate_of_small hs] at h
    split at h
    · cases h
    · cases h; exact .inl rfl
  · rw [smartAllocate_of_not_small hs] at h
    cases h; exact .inr rfl

theorem smartAllocate_bytes {b : Build} {mi : MimallocApi t} {T : CType t} {Align n : t.SzType}
    {v : Bool} {r : Request t} (h : smartAllocate b mi T Align v n = .ok r) :
    r.bytes = T.sizeof * n := by
  cases v with
  | true => rcases smartAllocate_eq_ok h with rfl | rfl <;> rfl
  | false => rw [smartAllocate_overaligned_eq_ok h]; rfl

/-- In a release build no assertion stops `SmartAllocate`. -/
theorem smartAllocate_release (d : Dialect) (mi : MimallocApi t) (T : CType t) (Align n : t.SzType)
    (v : Bool) : ∃ r, smartAllocate ⟨d, false⟩ mi T Align v n = .ok r := by
  cases v with
  | true =>
      by_cases hs : isSmallAlloc T n = true
      · exact ⟨_, (smartAllocate_of_small hs ..).trans (if_neg (by simp))⟩
      · exact ⟨_, smartAllocate_of_not_small hs ..⟩
  | false => exact ⟨_, rfl⟩

/-- The third template argument decides: mimalloc's own minimum, or `Align`. -/
theorem block_aligned {b : Build} {mi : MimallocApi t} (hmi : mi.Aligns) {T : CType t}
    {Align n : t.SzType} {v : Bool} {p : Nat}
    (h : mi.block (smartAllocate b mi T Align v n) = some p) :
    (if v then miAlignMinimum t else Align).toNat ∣ p := by
  cases hr : smartAllocate b mi T Align v n with
  | error e => rw [hr] at h; cases h
  | ok r =>
      rw [hr] at h
      cases v with
      | true =>
          rcases smartAllocate_eq_ok hr with rfl | rfl
          · exact hmi.mallocSmall _ p h
          · exact hmi.malloc _ p h
      | false =>
          obtain rfl := smartAllocate_overaligned_eq_ok hr
          exact hmi.alignedAlloc _ _ p h

theorem MimallocApi.exact_aligns : (MimallocApi.exact t).Aligns where
  malloc := by rintro _ _ ⟨⟩; exact Nat.dvd_mul_right ..
  mallocSmall := by rintro _ _ ⟨⟩; exact Nat.dvd_mul_right ..
  alignedAlloc := by rintro _ _ _ ⟨⟩; exact Nat.dvd_mul_right ..

theorem block_exact (d : Dialect) (T : CType t) (Align n : t.SzType) (v : Bool) :
    (MimallocApi.exact t).block (smartAllocate ⟨d, false⟩ (MimallocApi.exact t) T Align v n)
      = some (addressAlignedTo (if v then miAlignMinimum t else Align)) := by
  obtain ⟨r, hr⟩ := smartAllocate_release d (MimallocApi.exact t) T Align n v
  rw [hr]
  cases v with
  | true => rcases smartAllocate_eq_ok hr with rfl | rfl <;> rfl
  | false => rw [smartAllocate_overaligned_eq_ok hr]; rfl

theorem notOveraligned_iff (T : CType t) :
    notOveraligned T = true ↔ T.align ≤ (miAlignMinimum t).toNat := by
  simp only [notOveraligned, decide_eq_true_eq, BitVec.le_def, CType.toNat_alignof]

/-- Every block of the allocator and of what it rebinds to is aligned to `Align`
exactly when `Align` is within mimalloc's minimum, or is the type's own. -/
theorem allocate_aligned_iff (A : MimAllocator t) :
    (∀ (b : Build) (mi : MimallocApi t), mi.Aligns → ∀ (n : t.SzType) (p : Nat), 0 < n →
      mi.block (A.allocate b mi false n) = some p ∨
        mi.block ((A.rebind A.type).allocate b mi false n) = some p →
      A.align.toNat ∣ p) ↔
    A.align ≤ miAlignMinimum t ∨ A.align = A.type.alignof := by
  have hge : A.type.align ≤ A.align.toNat := by
    simpa only [BitVec.le_def, CType.toNat_alignof] using A.align_ge
  simp only [allocate_runTime, BitVec.le_def]
  constructor
  · intro h
    have own := h ⟨.cxx14, false⟩ _ MimallocApi.exact_aligns 1 _ t.zero_lt_one (.inl (block_exact ..))
    have rebound := h ⟨.cxx14, false⟩ _ MimallocApi.exact_aligns 1 _ t.zero_lt_one (.inr (block_exact ..))
    rw [addressAlignedTo, dvd_mul_odd_iff A.align_pow rfl] at own rebound
    cases hv : notOveraligned A.type with
    | true =>
        rw [hv, if_pos rfl] at own
        exact .inl ((dvd_iff_le A.align_pow miAlignMinimum_pow).mp own)
    | false =>
        -- the rebound allocator asks for the alignment of the type
        have rebound : A.align.toNat ∣ A.type.alignof.toNat := by
          simpa only [MimAllocator.rebind, MimAllocator.of, hv, Bool.false_eq_true, if_false]
            using rebound
        rw [CType.toNat_alignof, dvd_iff_le A.align_pow A.type.align_pow] at rebound
        refine .inr (BitVec.eq_of_toNat_eq ?_)
        rw [CType.toNat_alignof]
        exact Nat.le_antisymm rebound hge
  · rintro h b mi hmi n p - hp
    have hp : (if notOveraligned A.type then miAlignMinimum t else A.align).toNat ∣ p ∨
        (if notOveraligned A.type then miAlignMinimum t else A.type.alignof).toNat ∣ p :=
      hp.imp (block_aligned hmi) (block_aligned hmi)
    cases hv : notOveraligned A.type with
    | true =>
        have hmin := (notOveraligned_iff _).mp hv
        have hle : A.align.toNat ≤ (miAlignMinimum t).toNat := by
          rcases h with h | h
          · exact h
          · rw [h, CType.toNat_alignof]; exact hmin
        simp only [hv, if_true, or_self] at hp
        exact ((dvd_iff_le A.align_pow miAlignMinimum_pow).mpr hle).trans hp
    | false =>
        have hmin := mt (notOveraligned_iff _).mpr (by rw [hv]; exact Bool.false_ne_true)
        have heq : A.align = A.type.alignof := h.resolve_left (by omega)
        simpa only [hv, Bool.false_eq_true, if_false, ← heq, or_self] using hp

/-- One `char` asked to be aligned to a cache line. -/
def overalignedChar : MimAllocator x64 where
  type := { size := 1, align := 1, size_pos := by decide, size_lt := by decide
            align_pow := ⟨0, rfl⟩, align_dvd := by decide }
  align := 64
  align_pow := ⟨6, rfl⟩
  align_ge := by decide

/-- The block asked of mimalloc for it need not be aligned to more than eight. -/
theorem overalignedChar_misaligned :
    (MimallocApi.exact x64).Aligns ∧
    (MimallocApi.exact x64).block
      (overalignedChar.allocate ⟨.cxx14, false⟩ (.exact x64) false 1) = some 8388616 ∧
    ¬ overalignedChar.align.toNat ∣ 8388616 :=
  ⟨MimallocApi.exact_aligns, rfl, by decide⟩

theorem statelessAllocate_eq_ok {A : MimAllocator t} {b : Build} {mi : MimallocApi t} {cx : Bool}
    {n : t.SzType} {r : Request t} (h : A.statelessAllocate b mi cx n = .ok r) :
    A.allocate b mi cx n = .ok r := by
  simp only [MimAllocator.statelessAllocate] at h
  split at h
  · cases h
  · exact h

theorem MimallocApi.exact_succeeds (r : Request t) : (MimallocApi.exact t).answer r ≠ none := by
  cases r <;> exact nofun

/-- The bytes requested cover the objects, or the call fails, exactly when the
product does not wrap; the constant-evaluated branch asks for as many bytes as
there are objects. -/
theorem allocate_covers_iff (A : MimAllocator t) (cx : Bool) (n : t.SzType) (hn : n ≠ 0) :
    (∀ (b : Build) (mi : MimallocApi t) (r : Request t), (cx = true → b.dialect = .cxx14CxprEval) →
      A.allocate b mi cx n = .ok r ∨ A.statelessAllocate b mi cx n = .ok r →
      mi.answer r ≠ none → A.type.size * n.toNat ≤ r.bytes.toNat) ↔
    if cx then A.type.size = 1 else A.type.size * n.toNat < 2 ^ t.szBits := by
  have hpos : 0 < n.toNat := Nat.pos_of_ne_zero fun h => hn (BitVec.eq_of_toNat_eq h)
  have product : (A.type.sizeof * n).toNat = A.type.size * n.toNat % 2 ^ t.szBits := by
    rw [BitVec.toNat_mul, CType.toNat_sizeof]
  constructor
  · intro h
    have h := fun r hr => h ⟨.cxx14CxprEval, false⟩ (.exact t) r (fun _ => rfl) (.inl hr)
      (MimallocApi.exact_succeeds r)
    cases cx with
    | true =>
        have hle := h _ (allocate_constantEvaluated A _ n rfl)
        have hle : A.type.size * n.toNat ≤ 1 * n.toNat := by rw [Nat.one_mul]; exact hle
        exact Nat.le_antisymm (Nat.le_of_mul_le_mul_right hle hpos) A.type.size_pos
    | false =>
        obtain ⟨r, hr⟩ := smartAllocate_release .cxx14CxprEval (.exact t) A.type A.align n
          (notOveraligned A.type)
        have hle := h r ((allocate_runTime ..).trans hr)
        rw [smartAllocate_bytes hr, product] at hle
        exact hle.trans_lt (Nat.mod_lt _ (Nat.two_pow_pos _))
  · rintro h b mi r hcx hr -
    have hr : A.allocate b mi cx n = .ok r := hr.elim id statelessAllocate_eq_ok
    cases cx with
    | true =>
        have hone : A.type.size = 1 := h
        rw [allocate_constantEvaluated A mi n (hcx rfl)] at hr
        cases hr
        rw [hone, Nat.one_mul]
        exact Nat.le_refl _
    | false =>
        rw [allocate_runTime] at hr
        rw [smartAllocate_bytes hr, product, Nat.mod_eq_of_lt h]

/-- Up to `max_size` the product does not wrap. -/
theorem product_lt_of_le_maxSize {A : MimAllocator t} {n : t.SzType} (h : n ≤ A.maxSize) :
    A.type.size * n.toNat < 2 ^ t.szBits := by
  have hmax : n.toNat ≤ (2 ^ t.szBits - 1) / A.type.size := by
    simpa only [MimAllocator.maxSize, BitVec.le_def, BitVec.toNat_udiv, BitVec.toNat_allOnes,
      CType.toNat_sizeof] using h
  have hpow := Nat.two_pow_pos t.szBits
  calc A.type.size * n.toNat
      ≤ A.type.size * ((2 ^ t.szBits - 1) / A.type.size) := Nat.mul_le_mul_left _ hmax
    _ ≤ 2 ^ t.szBits - 1 := Nat.mul_div_le ..
    _ < 2 ^ t.szBits := by omega

/-- Three objects of `twoPointers`, at run time. -/
theorem allocate_covers_three :
    (3 : x64.SzType) ≠ 0 ∧ ∀ (b : Build) (mi : MimallocApi x64) (r : Request x64),
      (MimAllocator.of twoPointers).allocate b mi false 3 = .ok r →
      mi.answer r ≠ none → 48 ≤ r.bytes.toNat :=
  ⟨by decide, fun b mi r hr hsome =>
    (allocate_covers_iff (.of twoPointers) false 3 (by decide)).mpr (by decide)
      b mi r (by rintro ⟨⟩) (.inl hr) hsome⟩

/-- `2 ^ 60 + 1` pairs of pointers are one pair too many: sixteen bytes are asked
for.  In constant evaluation four pairs already are: four bytes are asked for. -/
theorem allocate_requests_too_little :
    (MimAllocator.of twoPointers).allocate ⟨.cxx14, false⟩ (.exact x64) false
      1152921504606846977 = .ok (.malloc 16) ∧
    (MimAllocator.of twoPointers).allocate ⟨.cxx14CxprEval, false⟩ (.exact x64) true 4
      = .ok (.operatorNew 4) ∧
    (MimallocApi.exact x64).answer (.malloc 16) ≠ none ∧
    (MimallocApi.exact x64).answer (.operatorNew 4) ≠ none ∧
    ¬ 16 * 1152921504606846977 ≤ 16 ∧ ¬ 16 * 4 ≤ 4 :=
  ⟨rfl, rfl, nofun, nofun, by decide, by decide⟩

end EflCore
