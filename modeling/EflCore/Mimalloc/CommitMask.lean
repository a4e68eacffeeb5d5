/-
# `EflCore.Mimalloc.CommitMask` — which slices of a segment are committed

A `mi_commit_mask_t` is `MI_COMMIT_MASK_BITS` bits, one for each `MI_COMMIT_SIZE` of a segment, in
fields of a machine word.  `bit cm j` is bit `j`.

| | bit `j` of the result |
| :-- | :-- |
| `miCommitMaskCreate i n` | `i ≤ j < i + n` |
| `miCommitMaskCreateIntersect a b` | `a` and `b` |
| `miCommitMaskSet a b` | `a` or `b` |
| `miCommitMaskClear a b` | `a` and not `b` |

**Proved here.**  The table, whatever field the bits are in, and that `mi_commit_mask_foreach` is at
every run of ones once, and at all of it (`mi_commit_mask_foreach_runs`).
-/
import EflCore.Lib.WordBits

namespace EflCore.Mimalloc

open WordBits

/-- `MI_COMMIT_MASK_BITS`: `MI_SEGMENT_SIZE / MI_COMMIT_SIZE` -/
def miCommitMaskBits : Nat := 512

def miCommitMaskFieldBits : Nat := 64

def miCommitMaskFieldCount : Nat := miCommitMaskBits / miCommitMaskFieldBits

structure MiCommitMask where
  mask : Fin 8 → BitVec 64

namespace MiCommitMask

/-- `mask[i]` -/
def field (cm : MiCommitMask) (i : Nat) : BitVec 64 := if h : i < 8 then cm.mask ⟨i, h⟩ else 0

def setField (cm : MiCommitMask) (i : Nat) (v : BitVec 64) : MiCommitMask where
  mask k := if k.val = i then v else cm.mask k

def bit (cm : MiCommitMask) (j : Nat) : Bool := WordBits.bit cm.field j

end MiCommitMask

/-! ## The functions on masks -/

def miCommitMaskCreateEmpty : MiCommitMask := ⟨fun _ => 0⟩

def miCommitMaskCreateFull : MiCommitMask := ⟨fun _ => ~~~0⟩

def miCommitMaskIsEmpty (cm : MiCommitMask) : Bool := decide (∀ i, cm.mask i = 0)

def miCommitMaskIsFull (cm : MiCommitMask) : Bool := decide (∀ i, cm.mask i = ~~~0)

def miCommitMaskAllSet (commit cm : MiCommitMask) : Bool :=
  decide (∀ i, commit.mask i &&& cm.mask i = cm.mask i)

def miCommitMaskAnySet (commit cm : MiCommitMask) : Bool :=
  decide (∃ i, commit.mask i &&& cm.mask i ≠ 0)

def miCommitMaskCreateIntersect (commit cm : MiCommitMask) : MiCommitMask :=
  ⟨fun i => commit.mask i &&& cm.mask i⟩

def miCommitMaskClear (res cm : MiCommitMask) : MiCommitMask := ⟨fun i => res.mask i &&& ~~~cm.mask i⟩

def miCommitMaskSet (res cm : MiCommitMask) : MiCommitMask := ⟨fun i => res.mask i ||| cm.mask i⟩

/-- The loop of `mi_commit_mask_create`, `n` fields at most. -/
def createLoop : Nat → MiCommitMask → Nat → Nat → Nat → MiCommitMask
  | 0, cm, _, _, _ => cm
  | n + 1, cm, i, ofs, bitcount =>
      if bitcount > 0 then
        let avail := 64 - ofs
        let count := if bitcount > avail then avail else bitcount
        let mask := if count ≥ 64 then ~~~0 else ((1#64 <<< count) - 1#64) <<< ofs
        createLoop n (cm.setField i mask) (i + 1) 0 (bitcount - count)
      else cm

def miCommitMaskCreate (bitidx bitcount : Nat) : MiCommitMask :=
  if bitcount = miCommitMaskBits then miCommitMaskCreateFull
  else if bitcount = 0 then miCommitMaskCreateEmpty
  else
    createLoop miCommitMaskFieldCount miCommitMaskCreateEmpty (bitidx / miCommitMaskFieldBits)
      (bitidx % miCommitMaskFieldBits) bitcount

/-- `while ((mask&1) == 0) { mask >>= 1; ofs++; }` -/
def skipZeros : Nat → BitVec 64 → Nat → BitVec 64 × Nat
  | 0, mask, ofs => (mask, ofs)
  | n + 1, mask, ofs => if mask &&& 1 = 0 then skipZeros n (mask >>> 1) (ofs + 1) else (mask, ofs)

/-- find first ones -/
def findOnes (cm : MiCommitMask) : Nat → Nat → Nat → Nat × Nat × BitVec 64
  | 0, i, ofs => (i, ofs, 0)
  | n + 1, i, ofs =>
      if i < miCommitMaskFieldCount then
        let mask := cm.field i >>> ofs
        if mask ≠ 0 then
          let r := skipZeros miCommitMaskFieldBits mask ofs
          (i, r.2, r.1)
        else findOnes cm n (i + 1) 0
      else (i, ofs, 0)

/-- `do { count++; mask >>= 1; } while ((mask&1) == 1)` -/
def countOnes : Nat → Nat → BitVec 64 → Nat × BitVec 64
  | 0, count, mask => (count, mask)
  | n + 1, count, mask =>
      if mask >>> 1 &&& 1 = 1 then countOnes n (count + 1) (mask >>> 1) else (count + 1, mask >>> 1)

/-- found, count ones -/
def countRun (cm : MiCommitMask) (idx : Nat) : Nat → Nat → Nat → BitVec 64 → Nat
  | 0, _, count, _ => count
  | n + 1, i, count, mask =>
      let r := countOnes miCommitMaskFieldBits count mask
      if (idx + r.1) % miCommitMaskFieldBits = 0 then
        if i + 1 ≥ miCommitMaskFieldCount then r.1
        else if cm.field (i + 1) &&& 1 = 1 then countRun cm idx n (i + 1) r.1 (cm.field (i + 1))
        else r.1
      else if r.2 &&& 1 = 1 then countRun cm idx n i r.1 r.2
      else r.1

/-- `_mi_commit_mask_next_run`: what `*idx` becomes, and the count. -/
def miCommitMaskNextRun (cm : MiCommitMask) (idx : Nat) : Nat × Nat :=
  let r := findOnes cm (miCommitMaskFieldCount + 1) (idx / miCommitMaskFieldBits)
    (idx % miCommitMaskFieldBits)
  if r.1 ≥ miCommitMaskFieldCount then (miCommitMaskBits, 0)
  else
    let idx := r.1 * miCommitMaskFieldBits + r.2.1
    (idx, countRun cm idx miCommitMaskFieldCount r.1 0 r.2.2)

/-- `mi_commit_mask_foreach`: the `idx` and `count` its body is run with. -/
def miCommitMaskForeachFrom (cm : MiCommitMask) : Nat → Nat → List (Nat × Nat)
  | 0, _ => []
  | n + 1, idx =>
      let r := miCommitMaskNextRun cm idx
      if r.2 > 0 then r :: miCommitMaskForeachFrom cm n (r.1 + r.2) else []

def miCommitMaskForeach (cm : MiCommitMask) : List (Nat × Nat) :=
  miCommitMaskForeachFrom cm (miCommitMaskBits + 1) 0

/-! ## Bits -/

namespace MiCommitMask

theorem field_of_lt (cm : MiCommitMask) {i : Nat} (h : i < 8) : cm.field i = cm.mask ⟨i, h⟩ :=
  dif_pos h

theorem field_setField (cm : MiCommitMask) {i : Nat} (h : i < 8) (v : BitVec 64) (k : Nat) :
    (cm.setField i v).field k = if k = i then v else cm.field k := by
  by_cases hk : k < 8
  · rw [field_of_lt _ hk, field_of_lt _ hk]
    rfl
  · have hki : k ≠ i := by omega
    unfold field
    rw [dif_neg hk, dif_neg hk, if_neg hki]

theorem bit_of_ge (cm : MiCommitMask) {j : Nat} (h : miCommitMaskBits ≤ j) : cm.bit j = false := by
  have hj : ¬ j / 64 < 8 := by
    unfold miCommitMaskBits at h
    omega
  unfold bit WordBits.bit field
  rw [dif_neg hj]
  exact BitVec.getLsbD_zero

theorem lt_of_bit {cm : MiCommitMask} {j : Nat} (h : cm.bit j = true) : j < miCommitMaskBits := by
  by_contra hj
  rw [bit_of_ge cm (Nat.le_of_not_lt hj)] at h
  cases h

theorem bit_setField (cm : MiCommitMask) {i : Nat} (h : i < 8) (v : BitVec 64) (j : Nat) :
    (cm.setField i v).bit j = if j / 64 = i then v.getLsbD (j % 64) else cm.bit j := by
  unfold bit WordBits.bit
  rw [field_setField cm h]
  split <;> rfl

/-- Bit `k` of field `i`. -/
theorem bit_field (cm : MiCommitMask) {i k : Nat} (hk : k < 64) :
    cm.bit (i * 64 + k) = (cm.field i).getLsbD k := bit_mul_add cm.field hk

/-- What is said of every field is said of every bit. -/
theorem forall_mask_iff {P : BitVec 64 → BitVec 64 → Prop} {Q : Bool → Bool → Prop}
    (h : ∀ u v, P u v ↔ ∀ k < 64, Q (u.getLsbD k) (v.getLsbD k)) (hQ : Q false false)
    (a b : MiCommitMask) : (∀ i, P (a.mask i) (b.mask i)) ↔ ∀ j, Q (a.bit j) (b.bit j) := by
  have hall : (∀ i < 8, ∀ k < 64, Q ((a.field i).getLsbD k) ((b.field i).getLsbD k)) ↔
      ∀ j < 8 * 64, Q (a.bit j) (b.bit j) :=
    forall_word_iff (P := fun i k => Q ((a.field i).getLsbD k) ((b.field i).getLsbD k)) 8
  constructor
  · intro hP j
    by_cases hj : j < miCommitMaskBits
    · refine hall.mp (fun i hi => (h _ _).mp ?_) j hj
      rw [field_of_lt a hi, field_of_lt b hi]
      exact hP ⟨i, hi⟩
    · rw [bit_of_ge a (Nat.le_of_not_lt hj), bit_of_ge b (Nat.le_of_not_lt hj)]
      exact hQ
  · intro hb i
    have hi := hall.mpr (fun j _ => hb j) i.val i.isLt
    rw [field_of_lt a i.isLt, field_of_lt b i.isLt] at hi
    exact (h _ _).mpr hi

theorem word_eq_iff (u v : BitVec 64) : u = v ↔ ∀ k < 64, u.getLsbD k = v.getLsbD k :=
  ⟨fun e _ _ => by rw [e], fun h => BitVec.eq_of_getLsbD_eq h⟩

end MiCommitMask

open MiCommitMask

theorem bit_createEmpty (j : Nat) : miCommitMaskCreateEmpty.bit j = false := by
  unfold MiCommitMask.bit WordBits.bit field miCommitMaskCreateEmpty
  split <;> exact BitVec.getLsbD_zero

theorem getLsbD_full {k : Nat} (h : k < 64) : (~~~(0 : BitVec 64)).getLsbD k = true := by
  rw [BitVec.getLsbD_not, decide_eq_true h, BitVec.ofNat_eq_ofNat, BitVec.getLsbD_zero]
  rfl

theorem bit_createFull {j : Nat} (h : j < miCommitMaskBits) : miCommitMaskCreateFull.bit j = true := by
  have hj : j / 64 < 8 := (Nat.div_lt_iff_lt_mul (by decide)).mpr h
  have hm : j % 64 < 64 := Nat.mod_lt j (by decide)
  unfold MiCommitMask.bit WordBits.bit
  rw [field_of_lt _ hj]
  exact getLsbD_full hm

theorem bit_intersect (a b : MiCommitMask) (j : Nat) :
    (miCommitMaskCreateIntersect a b).bit j = (a.bit j && b.bit j) := by
  have hf : (miCommitMaskCreateIntersect a b).field = fun i => a.field i &&& b.field i := by
    funext i
    unfold field
    split
    · rfl
    · simp
  unfold MiCommitMask.bit
  rw [hf, bit_and]

theorem bit_set (a b : MiCommitMask) (j : Nat) :
    (miCommitMaskSet a b).bit j = (a.bit j || b.bit j) := by
  have hf : (miCommitMaskSet a b).field = fun i => a.field i ||| b.field i := by
    funext i
    unfold field
    split
    · rfl
    · simp
  unfold MiCommitMask.bit
  rw [hf, bit_or]

theorem bit_clear (a b : MiCommitMask) (j : Nat) :
    (miCommitMaskClear a b).bit j = (a.bit j && !b.bit j) := by
  have hf : (miCommitMaskClear a b).field = fun i => a.field i &&& ~~~b.field i := by
    funext i
    unfold field
    split
    · rfl
    · simp
  unfold MiCommitMask.bit
  rw [hf, bit_and a.field, bit_not b.field (by decide)]

theorem miCommitMaskIsEmpty_iff {cm : MiCommitMask} :
    miCommitMaskIsEmpty cm = true ↔ ∀ j, cm.bit j = false := by
  unfold miCommitMaskIsEmpty
  rw [decide_eq_true_iff]
  refine forall_mask_iff (P := fun u _ => u = 0) (Q := fun x _ => x = false) (fun u _ => ?_) rfl cm cm
  rw [word_eq_iff]
  simp

theorem miCommitMaskIsFull_iff {cm : MiCommitMask} :
    miCommitMaskIsFull cm = true ↔ ∀ j < miCommitMaskBits, cm.bit j = true := by
  unfold miCommitMaskIsFull
  rw [decide_eq_true_iff]
  have h := forall_mask_iff (P := fun u v => u = v) (Q := fun x y => x = y)
    word_eq_iff rfl cm miCommitMaskCreateFull
  refine h.trans ⟨fun hb j hj => ?_, fun hb j => ?_⟩
  · rw [hb j, bit_createFull hj]
  · by_cases hj : j < miCommitMaskBits
    · rw [hb j hj, bit_createFull hj]
    · rw [bit_of_ge _ (Nat.le_of_not_lt hj), bit_of_ge _ (Nat.le_of_not_lt hj)]

theorem miCommitMaskAllSet_iff {commit cm : MiCommitMask} :
    miCommitMaskAllSet commit cm = true ↔ ∀ j, cm.bit j = true → commit.bit j = true := by
  unfold miCommitMaskAllSet
  rw [decide_eq_true_iff]
  refine forall_mask_iff (P := fun u v => u &&& v = v) (Q := fun x y => y = true → x = true)
    (fun u v => ?_) (fun h => h) commit cm
  rw [word_eq_iff]
  refine forall_congr' fun k => forall_congr' fun _ => ?_
  rw [BitVec.getLsbD_and]
  cases u.getLsbD k <;> cases v.getLsbD k <;> decide

theorem miCommitMaskAnySet_eq_false_iff {commit cm : MiCommitMask} :
    miCommitMaskAnySet commit cm = false ↔ ∀ j, cm.bit j = true → commit.bit j = false := by
  unfold miCommitMaskAnySet
  rw [decide_eq_false_iff_not, not_exists]
  simp only [not_not]
  refine forall_mask_iff (P := fun u v => u &&& v = 0) (Q := fun x y => y = true → x = false)
    (fun u v => ?_) (fun _ => rfl) commit cm
  rw [word_eq_iff]
  refine forall_congr' fun k => forall_congr' fun _ => ?_
  rw [BitVec.getLsbD_and, BitVec.ofNat_eq_ofNat, BitVec.getLsbD_zero]
  cases u.getLsbD k <;> cases v.getLsbD k <;> decide

/-! ## A range of ones -/

theorem bit_createLoop (n : Nat) : ∀ {cm : MiCommitMask} {i ofs bitcount : Nat}, ofs < 64 →
    i * 64 + ofs + bitcount ≤ 512 → ofs + bitcount ≤ n * 64 →
    (∀ j, i * 64 ≤ j → cm.bit j = false) → ∀ j,
    (createLoop n cm i ofs bitcount).bit j =
      (cm.bit j || decide (i * 64 + ofs ≤ j ∧ j < i * 64 + ofs + bitcount)) := by
  induction n with
  | zero =>
      intro cm i ofs bitcount _ _ hn _ j
      have hempty : ¬ (i * 64 + ofs ≤ j ∧ j < i * 64 + ofs + bitcount) := by omega
      simp [createLoop, hempty]
  | succ n ih =>
      intro cm i ofs bitcount hofs hend hn hzero j
      unfold createLoop
      by_cases hpos : bitcount > 0
      · rw [if_pos hpos]
        have hi : i < 8 := by omega
        simp only
        generalize hcount : (if bitcount > 64 - ofs then 64 - ofs else bitcount) = count
        have hle : count ≤ bitcount ∧ ofs + count ≤ 64 := by
          rw [← hcount]
          split <;> omega
        have hrest : count = bitcount ∨ ofs + count = 64 := by
          rw [← hcount]
          split <;> omega
        generalize hmask : (if count ≥ 64 then ~~~0 else ((1#64 <<< count) - 1#64) <<< ofs) = mask
        have hbits : ∀ k < 64, mask.getLsbD k = decide (ofs ≤ k ∧ k < ofs + count) := by
          intro k hk
          rw [← hmask]
          split
          · rw [getLsbD_full hk, eq_comm, decide_eq_true_iff]
            omega
          · refine (getLsbD_ones (by omega) k).trans ?_
            simp [hk]
        -- the fields behind this one are still zero
        have hnext : ∀ j, (i + 1) * 64 ≤ j → (cm.setField i mask).bit j = false := by
          intro j hj
          rw [bit_setField cm hi, if_neg (by omega)]
          exact hzero j (by omega)
        rw [ih (by decide) (by omega) (by omega) hnext j, bit_setField cm hi]
        by_cases hj : j / 64 = i
        · rw [if_pos hj, hbits _ (Nat.mod_lt j (by decide)), hzero j (by omega), Bool.false_or]
          rw [← Bool.decide_or]
          refine decide_eq_decide.mpr ?_
          omega
        · rw [if_neg hj]
          congr 1
          refine decide_eq_decide.mpr ?_
          omega
      · rw [if_neg hpos]
        have hempty : ¬ (i * 64 + ofs ≤ j ∧ j < i * 64 + ofs + bitcount) := by omega
        simp [hempty]

theorem bit_create {bitidx bitcount : Nat} (h : bitidx + bitcount ≤ miCommitMaskBits) (j : Nat) :
    (miCommitMaskCreate bitidx bitcount).bit j = decide (bitidx ≤ j ∧ j < bitidx + bitcount) := by
  unfold miCommitMaskBits at h
  unfold miCommitMaskCreate miCommitMaskFieldBits miCommitMaskFieldCount miCommitMaskBits
    miCommitMaskFieldBits
  split
  · rename_i hfull
    by_cases hj : j < 512
    · rw [bit_createFull hj, eq_comm, decide_eq_true_iff]
      omega
    · rw [bit_of_ge _ (Nat.le_of_not_lt hj), eq_comm, decide_eq_false_iff_not]
      omega
  · split
    · rw [bit_createEmpty, eq_comm, decide_eq_false_iff_not]
      omega
    · rw [bit_createLoop 8 (Nat.mod_lt _ (by decide)) (by omega) (by omega)
        (fun j _ => bit_createEmpty j), bit_createEmpty, Bool.false_or]
      refine decide_eq_decide.mpr ?_
      omega

/-! ## Runs of ones -/

theorem and_one_eq_one (m : BitVec 64) : m &&& 1 = 1 ↔ m.getLsbD 0 = true := by
  rw [word_eq_iff]
  constructor
  · intro h
    simpa using h 0 (by decide)
  · intro h k _
    cases k with
    | zero => simpa using h
    | succ k => simp

theorem and_one_eq_zero (m : BitVec 64) : m &&& 1 = 0 ↔ m.getLsbD 0 = false := by
  rw [word_eq_iff]
  constructor
  · intro h
    simpa using h 0 (by decide)
  · intro h k _
    cases k with
    | zero => simpa using h
    | succ k => simp

theorem getLsbD_shift (m : BitVec 64) (n k : Nat) : (m >>> n).getLsbD k = m.getLsbD (n + k) :=
  BitVec.getLsbD_ushiftRight m n k

/-- `skipZeros` is at the lowest one. -/
theorem skipZeros_eq (n : Nat) : ∀ (m : BitVec 64) (ofs : Nat), (∃ k < n, m.getLsbD k = true) →
    ∃ d < n, skipZeros n m ofs = (m >>> d, ofs + d) ∧ m.getLsbD d = true ∧
      ∀ k < d, m.getLsbD k = false := by
  induction n with
  | zero =>
      rintro m ofs ⟨k, hk, -⟩
      omega
  | succ n ih =>
      rintro m ofs ⟨k, hk, hbit⟩
      unfold skipZeros
      by_cases h0 : m &&& 1 = 0
      · rw [if_pos h0]
        have h0' := (and_one_eq_zero m).mp h0
        obtain ⟨k, rfl⟩ : ∃ k', k = k' + 1 := by
          cases k with
          | zero => rw [h0'] at hbit; cases hbit
          | succ k => exact ⟨k, rfl⟩
        obtain ⟨d, hd, he, hdbit, hbelow⟩ := ih (m >>> 1) (ofs + 1)
          ⟨k, by omega, by rw [getLsbD_shift, Nat.add_comm]; exact hbit⟩
        refine ⟨d + 1, by omega, ?_, ?_, ?_⟩
        · rw [he, ← BitVec.shiftRight_add, Nat.add_assoc, Nat.add_comm 1 d]
        · rwa [getLsbD_shift, Nat.add_comm] at hdbit
        · intro j hj
          cases j with
          | zero => exact h0'
          | succ j =>
              have hb := hbelow j (by omega)
              rwa [getLsbD_shift, Nat.add_comm] at hb
      · rw [if_neg h0]
        refine ⟨0, by omega, by simp, ?_, fun k hk => absurd hk (Nat.not_lt_zero k)⟩
        have hne := mt (and_one_eq_zero m).mpr h0
        simpa using hne

/-- `countOnes` is behind the ones it starts in. -/
theorem countOnes_eq (n : Nat) : ∀ (count : Nat) (m : BitVec 64), m.getLsbD 0 = true →
    (∃ k < n + 1, m.getLsbD k = false) →
    ∃ d, 0 < d ∧ d < n + 1 ∧ countOnes n count m = (count + d, m >>> d) ∧ m.getLsbD d = false ∧
      ∀ k < d, m.getLsbD k = true := by
  induction n with
  | zero =>
      rintro count m h0 ⟨k, hk, hbit⟩
      obtain rfl : k = 0 := by omega
      rw [h0] at hbit
      cases hbit
  | succ n ih =>
      rintro count m h0 ⟨k, hk, hbit⟩
      unfold countOnes
      by_cases h1 : m >>> 1 &&& 1 = 1
      · rw [if_pos h1]
        have h1' := (and_one_eq_one _).mp h1
        obtain ⟨k, rfl⟩ : ∃ k', k = k' + 1 := by
          cases k with
          | zero => rw [h0] at hbit; cases hbit
          | succ k => exact ⟨k, rfl⟩
        obtain ⟨d, hpos, hd, he, hdbit, hbelow⟩ := ih (count + 1) (m >>> 1) h1'
          ⟨k, by omega, by rw [getLsbD_shift, Nat.add_comm]; exact hbit⟩
        refine ⟨d + 1, by omega, by omega, ?_, ?_, ?_⟩
        · rw [he, ← BitVec.shiftRight_add, Nat.add_assoc, Nat.add_comm 1 d]
        · rwa [getLsbD_shift, Nat.add_comm] at hdbit
        · intro j hj
          cases j with
          | zero => exact h0
          | succ j =>
              have hb := hbelow j (by omega)
              rwa [getLsbD_shift, Nat.add_comm] at hb
      · rw [if_neg h1]
        have h1' := mt (and_one_eq_one _).mpr h1
        rw [getLsbD_shift] at h1'
        refine ⟨1, by decide, by omega, rfl, by simpa using h1', ?_⟩
        intro k hk
        obtain rfl : k = 0 := by omega
        exact h0

/-- Where `findOnes` stops: at the first one from `i * 64 + ofs` on, or behind all the fields. -/
theorem findOnes_spec (cm : MiCommitMask) (n : Nat) : ∀ (i ofs : Nat), ofs < 64 → i ≤ 8 →
    8 < i + n → ∃ i' ofs' m, findOnes cm n i ofs = (i', ofs', m) ∧
      (∀ j, i * 64 + ofs ≤ j → j < i' * 64 + ofs' → cm.bit j = false) ∧
      (i' = 8 ∧ ofs' < 64 ∨ i' < 8 ∧ ofs' < 64 ∧ i * 64 + ofs ≤ i' * 64 + ofs' ∧
        m = cm.field i' >>> ofs' ∧ cm.bit (i' * 64 + ofs') = true) := by
  induction n with
  | zero =>
      intro i ofs _ hi hn
      omega
  | succ n ih =>
      intro i ofs hofs hi hn
      unfold findOnes
      rw [show miCommitMaskFieldCount = 8 from rfl, show miCommitMaskFieldBits = 64 from rfl]
      by_cases hi8 : i < 8
      · rw [if_pos hi8]
        simp only
        by_cases hm : cm.field i >>> ofs ≠ 0
        · rw [if_pos hm]
          have hex : ∃ k < 64, (cm.field i >>> ofs).getLsbD k = true := by
            by_contra hno
            refine hm ((word_eq_iff _ _).mpr fun k hk => ?_)
            rw [BitVec.ofNat_eq_ofNat, BitVec.getLsbD_zero]
            by_contra hk'
            exact hno ⟨k, hk, by simpa using hk'⟩
          obtain ⟨d, hd, he, hdbit, hbelow⟩ := skipZeros_eq 64 _ ofs hex
          rw [getLsbD_shift] at hdbit
          have hlt : ofs + d < 64 := BitVec.lt_of_getLsbD hdbit
          refine ⟨i, ofs + d, cm.field i >>> ofs >>> d, ?_, ?_, .inr ⟨hi8, hlt, by omega, ?_, ?_⟩⟩
          · rw [he]
          · intro j hj hj'
            obtain ⟨k, rfl⟩ : ∃ k, j = i * 64 + k := ⟨j - i * 64, by omega⟩
            have hb := hbelow (k - ofs) (by omega)
            rw [getLsbD_shift, show ofs + (k - ofs) = k by omega] at hb
            rw [bit_field cm (by omega), hb]
          · rw [← BitVec.shiftRight_add]
          · rw [bit_field cm hlt, hdbit]
        · rw [if_neg hm]
          have hm := not_not.mp hm
          obtain ⟨i', ofs', m, he, hclear, hend⟩ := ih (i + 1) 0 (by decide) (by omega)
            (by omega)
          refine ⟨i', ofs', m, he, ?_, ?_⟩
          · intro j hj hj'
            by_cases hji : j < (i + 1) * 64
            · obtain ⟨k, rfl⟩ : ∃ k, j = i * 64 + k := ⟨j - i * 64, by omega⟩
              have hb : (cm.field i >>> ofs).getLsbD (k - ofs) = false := by
                rw [hm]
                exact BitVec.getLsbD_zero
              rw [getLsbD_shift, show ofs + (k - ofs) = k by omega] at hb
              rw [bit_field cm (by omega), hb]
            · exact hclear j (by omega) hj'
          · rcases hend with hend | ⟨h8, hlt, hle, hrest⟩
            · exact .inl hend
            · exact .inr ⟨h8, hlt, by omega, hrest⟩
      · rw [if_neg hi8]
        exact ⟨i, ofs, 0, rfl, fun j hj hj' => by omega, .inl ⟨by omega, hofs⟩⟩

/-- From inside a run on, `countRun` counts to its end. -/
theorem countRun_spec (cm : MiCommitMask) (idx : Nat) (n : Nat) : ∀ (i k count : Nat), k < 64 →
    i < 8 → 8 ≤ i + n → idx + count = i * 64 + k → cm.bit (idx + count) = true →
    ∃ c, countRun cm idx n i count (cm.field i >>> k) = c ∧ count < c ∧ idx + c ≤ 512 ∧
      (∀ j, idx + count ≤ j → j < idx + c → cm.bit j = true) ∧ cm.bit (idx + c) = false := by
  induction n with
  | zero =>
      intro i k count _ hi hn
      omega
  | succ n ih =>
      intro i k count hk hi hn hidx hbit
      rw [hidx, bit_field cm hk] at hbit
      have h0 : (cm.field i >>> k).getLsbD 0 = true := by
        rw [getLsbD_shift]
        exact hbit
      have hout : ∃ l < 64 + 1, (cm.field i >>> k).getLsbD l = false :=
        ⟨64, by decide, by rw [getLsbD_shift, BitVec.getLsbD_of_ge _ _ (by omega)]⟩
      obtain ⟨d, hpos, -, he, hdbit, hbelow⟩ := countOnes_eq 64 count _ h0 hout
      rw [getLsbD_shift] at hdbit
      have hkd : k + d ≤ 64 := by
        by_contra hlt
        have hb := hbelow (64 - k) (by omega)
        rw [getLsbD_shift, BitVec.getLsbD_of_ge _ _ (by omega)] at hb
        cases hb
      have hones : ∀ j, idx + count ≤ j → j < idx + (count + d) → cm.bit j = true := by
        intro j hj hj'
        obtain ⟨l, rfl⟩ : ∃ l, j = i * 64 + (k + l) := ⟨j - (i * 64 + k), by omega⟩
        have hb := hbelow l (by omega)
        rw [getLsbD_shift] at hb
        rw [bit_field cm (by omega), hb]
      unfold countRun
      rw [show miCommitMaskFieldBits = 64 from rfl, show miCommitMaskFieldCount = 8 from rfl]
      simp only [he]
      by_cases hfull : (idx + (count + d)) % 64 = 0
      · rw [if_pos hfull]
        by_cases hlast : i + 1 ≥ 8
        · rw [if_pos hlast]
          refine ⟨_, rfl, by omega, by omega, hones, bit_of_ge cm ?_⟩
          show 512 ≤ _
          omega
        · rw [if_neg hlast]
          have hbit' : cm.bit (idx + (count + d)) = (cm.field (i + 1)).getLsbD 0 := by
            rw [show idx + (count + d) = (i + 1) * 64 + 0 by omega, bit_field cm (by decide)]
          by_cases hone : cm.field (i + 1) &&& 1 = 1
          · rw [if_pos hone]
            have hrun := ih (i + 1) 0 (count + d) (by decide) (by omega)
              (by omega) (by omega) (by rw [hbit']; exact (and_one_eq_one _).mp hone)
            rw [BitVec.ushiftRight_zero] at hrun
            obtain ⟨c, hc, hlt, hle, hset, hclear⟩ := hrun
            refine ⟨c, hc, by omega, hle, ?_, hclear⟩
            intro j hj hj'
            by_cases hjd : j < idx + (count + d)
            · exact hones j hj hjd
            · exact hset j (by omega) hj'
          · rw [if_neg hone]
            refine ⟨_, rfl, by omega, by omega, hones, ?_⟩
            rw [hbit']
            simpa using mt (and_one_eq_one _).mpr hone
      · rw [if_neg hfull]
        have hkd' : k + d < 64 := by omega
        have hone : ¬ cm.field i >>> k >>> d &&& 1 = 1 := by
          rw [and_one_eq_one, getLsbD_shift, getLsbD_shift, Nat.add_zero, hdbit]
          decide
        rw [if_neg hone]
        refine ⟨_, rfl, by omega, by omega, hones, ?_⟩
        rw [show idx + (count + d) = i * 64 + (k + d) by omega, bit_field cm hkd', hdbit]

/-- The next run from `idx` on is all of it that is there, or there is no one left. -/
theorem miCommitMaskNextRun_spec (cm : MiCommitMask) {idx : Nat} (h : idx ≤ 512) :
    (miCommitMaskNextRun cm idx).2 = 0 ∧ (∀ j, idx ≤ j → cm.bit j = false) ∨
    ∃ i c, miCommitMaskNextRun cm idx = (i, c) ∧ 0 < c ∧ idx ≤ i ∧ i + c ≤ 512 ∧
      (∀ j, idx ≤ j → j < i → cm.bit j = false) ∧
      (∀ j, i ≤ j → j < i + c → cm.bit j = true) ∧ cm.bit (i + c) = false := by
  unfold miCommitMaskNextRun
  obtain ⟨i, ofs, m, he, hclear, hend⟩ := findOnes_spec cm 9 (idx / 64) (idx % 64)
    (Nat.mod_lt _ (by decide)) (by omega) (by omega)
  rw [show miCommitMaskFieldBits = 64 from rfl, show miCommitMaskFieldCount = 8 from rfl]
  simp only [he]
  have hidx : idx / 64 * 64 + idx % 64 = idx := by omega
  rw [hidx] at hclear hend
  rcases hend with ⟨rfl, -⟩ | ⟨hi, hofs, hle, rfl, hbit⟩
  · left
    rw [if_pos (Nat.le_refl 8)]
    refine ⟨rfl, fun j hj => ?_⟩
    by_cases hj' : j < miCommitMaskBits
    · exact hclear j hj (by unfold miCommitMaskBits at hj'; omega)
    · exact bit_of_ge cm (Nat.le_of_not_lt hj')
  · right
    rw [if_neg (by omega)]
    obtain ⟨c, hc, hpos, hend, hset, hstop⟩ := countRun_spec cm (i * 64 + ofs) 8 i ofs 0
      hofs hi (by omega) rfl hbit
    exact ⟨i * 64 + ofs, c, by rw [hc], hpos, hle, hend, hclear, hset, hstop⟩

/-- `r` is a run of ones that neither end can be made longer. -/
def IsRun (cm : MiCommitMask) (r : Nat × Nat) : Prop :=
  0 < r.2 ∧ (∀ j, r.1 ≤ j → j < r.1 + r.2 → cm.bit j = true) ∧ cm.bit (r.1 + r.2) = false ∧
    ∀ j, j + 1 = r.1 → cm.bit j = false

theorem miCommitMaskForeachFrom_spec (cm : MiCommitMask) (n : Nat) : ∀ (idx : Nat), idx ≤ 512 →
    512 < idx + n → (∀ j, j + 1 = idx → cm.bit idx = false) →
    (∀ r ∈ miCommitMaskForeachFrom cm n idx, IsRun cm r ∧ idx ≤ r.1) ∧
    (miCommitMaskForeachFrom cm n idx).Pairwise (fun r r' => r.1 + r.2 < r'.1) ∧
    ∀ j, idx ≤ j → cm.bit j = true →
      ∃ r ∈ miCommitMaskForeachFrom cm n idx, r.1 ≤ j ∧ j < r.1 + r.2 := by
  induction n with
  | zero =>
      intro idx h hn
      omega
  | succ n ih =>
      intro idx h hn hidx
      unfold miCommitMaskForeachFrom
      simp only
      rcases miCommitMaskNextRun_spec cm h with ⟨h0, hclear⟩ |
        ⟨i, c, he, hpos, hle, hend, hclear, hset, hstop⟩
      · rw [if_neg (by omega)]
        refine ⟨fun r hr => absurd hr List.not_mem_nil, List.Pairwise.nil, fun j hj hbit => ?_⟩
        rw [hclear j hj] at hbit
        cases hbit
      · rw [he, if_pos hpos]
        obtain ⟨hruns, hpair, hcover⟩ := ih (i + c) hend (by omega) fun _ _ => hstop
        -- a one at `i + c` would be part of this run
        have hbehind : ∀ r ∈ miCommitMaskForeachFrom cm n (i + c), i + c < r.1 := by
          intro r hr
          obtain ⟨⟨hrpos, hrset, -, -⟩, hrle⟩ := hruns r hr
          refine Nat.lt_of_le_of_ne hrle fun e => ?_
          have hone := hrset r.1 (Nat.le_refl _) (by omega)
          rw [← e, hstop] at hone
          cases hone
        refine ⟨?_, ?_, ?_⟩
        · intro r hr
          rcases List.mem_cons.mp hr with rfl | hr
          · refine ⟨⟨hpos, hset, hstop, fun j hj => ?_⟩, hle⟩
            by_cases hji : idx ≤ j
            · exact hclear j hji (by omega)
            · -- the run is at `idx` itself
              obtain rfl : i = idx := by simp only at hj; omega
              have hone := hset i (Nat.le_refl i) (by omega)
              rw [hidx j hj] at hone
              cases hone
          · exact ⟨(hruns r hr).1, by have := (hruns r hr).2; omega⟩
        · exact List.pairwise_cons.mpr ⟨hbehind, hpair⟩
        · intro j hj hbit
          by_cases hji : j < i
          · rw [hclear j hj hji] at hbit
            cases hbit
          · by_cases hjc : j < i + c
            · exact ⟨(i, c), List.mem_cons_self, by simp only; omega, hjc⟩
            · obtain ⟨r, hr, hrj⟩ := hcover j (by omega) hbit
              exact ⟨r, List.mem_cons_of_mem _ hr, hrj⟩

/-- `mi_commit_mask_foreach` is at the runs of ones of a mask, from the lowest on, each whole and
once. -/
theorem mi_commit_mask_foreach_runs (cm : MiCommitMask) :
    (∀ r ∈ miCommitMaskForeach cm, IsRun cm r) ∧
    (miCommitMaskForeach cm).Pairwise (fun r r' => r.1 + r.2 < r'.1) ∧
    ∀ j, cm.bit j = true ↔ ∃ r ∈ miCommitMaskForeach cm, r.1 ≤ j ∧ j < r.1 + r.2 := by
  obtain ⟨hruns, hpair, hcover⟩ := miCommitMaskForeachFrom_spec cm 513 0 (by decide)
    (by decide) fun j hj => absurd hj (Nat.succ_ne_zero j)
  refine ⟨fun r hr => (hruns r hr).1, hpair, fun j => ⟨hcover j (Nat.zero_le j), ?_⟩⟩
  rintro ⟨r, hr, hlo, hhi⟩
  exact (hruns r hr).1.2.1 j hlo hhi

end EflCore.Mimalloc
