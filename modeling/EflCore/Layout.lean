/-
# `EflCore.Layout` — sizes and alignments of object types on a target

A target is its pointer size and the alignment of `size_t`, which has as many
bits as a pointer; all arithmetic in `size_t` is modulo `2 ^ szBits`.  An object type is a size and an
alignment, with what every ABI promises about the two:

    the alignment is a power of two
    the alignment divides the size          (arrays have no gaps)
    the size is at least one                (distinct objects, distinct addresses)
    the size is itself a `size_t`           (`sizeof` is exact)

Between powers of two, dividing and being at most are the same thing
(`dvd_iff_le`); it is all that is ever needed of an alignment.  In a class each
member starts at the next offset its alignment divides (`roundUp`).
-/
import Mathlib.Algebra.Order.Floor.Div
import Mathlib.Algebra.Order.Ring.Nat
import Mathlib.Algebra.Ring.Parity
import Mathlib.Data.Nat.Prime.Basic

namespace Layout

/-- A machine, by the size of its pointers in bytes and how it aligns a `size_t`. -/
structure Target where
  ptrSize : Nat
  two_le : 2 ≤ ptrSize
  szAlign : Nat
  szAlign_pow : ∃ k, szAlign = 2 ^ k
  szAlign_dvd : szAlign ∣ ptrSize

namespace Target

def szBits (t : Target) : Nat := 8 * t.ptrSize

/-- `size_t`. -/
abbrev SzType (t : Target) : Type := BitVec t.szBits

/-- The square of a small multiple of the pointer size is still a `size_t`. -/
theorem sq_le (t : Target) : (128 * t.ptrSize) * (128 * t.ptrSize) ≤ 2 ^ t.szBits := by
  have half : ∀ p, 2 ≤ p → 128 * p ≤ 2 ^ (4 * p) := by
    intro p hp
    induction p, hp using Nat.le_induction with
    | base => decide
    | succ p _ ih =>
        show 128 * (p + 1) ≤ 2 ^ (4 * p + 4)
        rw [pow_add]
        omega
  have half := half t.ptrSize t.two_le
  calc (128 * t.ptrSize) * (128 * t.ptrSize)
      ≤ 2 ^ (4 * t.ptrSize) * 2 ^ (4 * t.ptrSize) := Nat.mul_le_mul half half
    _ = 2 ^ t.szBits := by rw [← pow_add, szBits]; congr 1; omega

theorem lt_two_pow (t : Target) : 128 * t.ptrSize < 2 ^ t.szBits := by
  have := t.two_le
  exact (Nat.lt_mul_self_iff.mpr (by omega)).trans_le t.sq_le

/-- Small constants are what they look like. -/
theorem toNat_ofNat (t : Target) {k : Nat} (hk : k < 256) :
    (BitVec.ofNat t.szBits k).toNat = k := by
  have := t.two_le
  have := t.lt_two_pow
  rw [BitVec.toNat_ofNat, Nat.mod_eq_of_lt (by omega)]

theorem zero_lt_one (t : Target) : (0 : t.SzType) < 1 := by
  rw [BitVec.lt_def, BitVec.ofNat_eq_ofNat, BitVec.ofNat_eq_ofNat, t.toNat_ofNat (by decide),
    t.toNat_ofNat (by decide)]
  exact Nat.zero_lt_one

end Target

/-- A 64-bit machine. -/
def x64 : Target where
  ptrSize := 8
  two_le := by decide
  szAlign := 8
  szAlign_pow := ⟨3, rfl⟩
  szAlign_dvd := dvd_rfl

/-- The size and alignment of an object type. -/
structure CType (t : Target) where
  size : Nat
  align : Nat
  size_pos : 0 < size
  size_lt : size < 2 ^ t.szBits
  align_pow : ∃ k, align = 2 ^ k
  align_dvd : align ∣ size

/-- Powers of two divide each other exactly when they are in order. -/
theorem dvd_iff_le {a b : Nat} (ha : ∃ k, a = 2 ^ k) (hb : ∃ k, b = 2 ^ k) : a ∣ b ↔ a ≤ b := by
  obtain ⟨i, rfl⟩ := ha
  obtain ⟨j, rfl⟩ := hb
  rw [Nat.pow_dvd_pow_iff_le_right (by decide), Nat.pow_le_pow_iff_right (by decide)]

/-- An odd factor adds nothing to an alignment. -/
theorem dvd_mul_odd_iff {a b m : Nat} (ha : ∃ k, a = 2 ^ k) (hm : m % 2 = 1) :
    a ∣ b * m ↔ a ∣ b := by
  obtain ⟨k, rfl⟩ := ha
  have hcop : Nat.Coprime (2 ^ k) m :=
    Nat.Coprime.pow_left k (Nat.coprime_two_left.mpr (Nat.odd_iff.mpr hm))
  exact ⟨fun h => hcop.dvd_of_dvd_mul_right h, fun h => h.mul_right m⟩

namespace CType
variable {t : Target}

theorem align_pos (T : CType t) : 0 < T.align := by
  obtain ⟨k, hk⟩ := T.align_pow
  rw [hk]
  exact Nat.two_pow_pos k

theorem align_le_size (T : CType t) : T.align ≤ T.size := Nat.le_of_dvd T.size_pos T.align_dvd

/-- `size_t` as an object type. -/
def size_t (t : Target) : CType t where
  size := t.ptrSize
  align := t.szAlign
  size_pos := by have := t.two_le; omega
  size_lt := by have := t.lt_two_pow; omega
  align_pow := t.szAlign_pow
  align_dvd := t.szAlign_dvd

/-- `sizeof(T)`. -/
def sizeof (T : CType t) : t.SzType := BitVec.ofNat _ T.size

/-- `alignof(T)`. -/
def alignof (T : CType t) : t.SzType := BitVec.ofNat _ T.align

@[simp] theorem toNat_sizeof (T : CType t) : T.sizeof.toNat = T.size := by
  rw [sizeof, BitVec.toNat_ofNat, Nat.mod_eq_of_lt T.size_lt]

@[simp] theorem toNat_alignof (T : CType t) : T.alignof.toNat = T.align := by
  rw [alignof, BitVec.toNat_ofNat, Nat.mod_eq_of_lt (T.align_le_size.trans_lt T.size_lt)]

end CType

/-- Two pointers, or one and the pointer to a virtual table, on a 64-bit machine. -/
def twoPointers : CType x64 where
  size := 16
  align := 8
  size_pos := by decide
  size_lt := by decide
  align_pow := ⟨3, rfl⟩
  align_dvd := ⟨2, rfl⟩

/-! ## Members of a class -/

/-- The first offset from `n` on that `a` divides. -/
def roundUp (n a : Nat) : Nat := a * (n ⌈/⌉ a)

theorem le_roundUp {n a : Nat} (ha : 0 < a) : n ≤ roundUp n a :=
  (ceilDiv_le_iff_le_mul ha).mp le_rfl

/-- The largest `f` of a list. -/
def largest {α : Type} (f : α → Nat) (xs : List α) : Nat := xs.foldr (fun x m => max (f x) m) 0

theorem le_largest {α : Type} (f : α → Nat) {x : α} :
    ∀ {xs : List α}, x ∈ xs → f x ≤ largest f xs
  | y :: ys, h => by
      show f x ≤ max (f y) (largest f ys)
      rcases List.mem_cons.mp h with rfl | h
      · exact Nat.le_max_left ..
      · exact (le_largest f h).trans (Nat.le_max_right ..)

end Layout
