/-
# `EflCore.Mimalloc.Purge` — memory that is committed, and memory that is given back

Slices that are not in use may be given back to the operating system, at once or later: then they are
in `purge_mask` until they are used again or purged.  Slices in use have to be committed, and may not
be in `purge_mask`.  `Safe seg U` says so for the slices `U`.

| | on the slices `[i, i + n)` |
| :-- | :-- |
| `miSegmentEnsureCommitted` | adds them to `U`, if the system lets it |
| `miSegmentPurge`, `miSegmentSchedulePurge` | keep `Safe` if none of them is in `U` |
| `miSegmentTryPurge` | keeps it, being about `purge_mask` only |

**Proved here.**  The table, and that no row changes anything else of a segment (`Purged`) or gives
back a slice of `U`.  When the time has come `miSegmentTryPurge` gives back all slices that wait for
it, each once (`miSegmentTryPurge_exact`).
-/
import EflCore.Mimalloc.Segments

namespace EflCore.Mimalloc

variable {T : Type} {seg seg' : MiSegment T} {U : Nat → Prop}

/-- The slices `U` are in use. -/
structure Safe (seg : MiSegment T) (U : Nat → Prop) : Prop where
  purge_sub : ∀ j, seg.purgeMask.bit j = true → seg.commitMask.bit j = true
  backed : ∀ j, seg.commitMask.bit j = true → seg.os.committed j = true
  commit : ∀ j, U j → seg.commitMask.bit j = true
  purge : ∀ j, U j → seg.purgeMask.bit j = false

theorem Safe.mono {V : Nat → Prop} (h : Safe seg U) (hV : ∀ j, V j → U j) : Safe seg V :=
  ⟨h.purge_sub, h.backed, fun j hj => h.commit j (hV j hj), fun j hj => h.purge j (hV j hj)⟩

/-- What is neither about its memory nor about its slices. -/
structure SameFields (seg seg' : MiSegment T) : Prop where
  allowDecommit : seg'.allowDecommit = seg.allowDecommit
  abandoned : seg'.abandoned = seg.abandoned
  abandonedVisits : seg'.abandonedVisits = seg.abandonedVisits
  used : seg'.used = seg.used
  segmentSlices : seg'.segmentSlices = seg.segmentSlices
  segmentInfoSlices : seg'.segmentInfoSlices = seg.segmentInfoSlices
  sliceEntries : seg'.sliceEntries = seg.sliceEntries
  threadId : seg'.threadId = seg.threadId

theorem SameFields.refl (seg : MiSegment T) : SameFields seg seg :=
  ⟨rfl, rfl, rfl, rfl, rfl, rfl, rfl, rfl⟩

theorem SameFields.trans {seg'' : MiSegment T} (h : SameFields seg seg')
    (h' : SameFields seg' seg'') : SameFields seg seg'' where
  allowDecommit := h'.allowDecommit.trans h.allowDecommit
  abandoned := h'.abandoned.trans h.abandoned
  abandonedVisits := h'.abandonedVisits.trans h.abandonedVisits
  used := h'.used.trans h.used
  segmentSlices := h'.segmentSlices.trans h.segmentSlices
  segmentInfoSlices := h'.segmentInfoSlices.trans h.segmentInfoSlices
  sliceEntries := h'.sliceEntries.trans h.sliceEntries
  threadId := h'.threadId.trans h.threadId

/-- The part of a segment that has nothing to do with its memory. -/
structure SameSpans (seg seg' : MiSegment T) : Prop extends SameFields seg seg' where
  slices : seg'.slices = seg.slices

theorem SameSpans.refl (seg : MiSegment T) : SameSpans seg seg := ⟨SameFields.refl seg, rfl⟩

theorem SameSpans.trans {seg'' : MiSegment T} (h : SameSpans seg seg') (h' : SameSpans seg' seg'') :
    SameSpans seg seg'' :=
  ⟨h.toSameFields.trans h'.toSameFields, h'.slices.trans h.slices⟩

/-- Memory may have been given back, but none that is in use. -/
structure Purged (U : Nat → Prop) (seg seg' : MiSegment T) : Prop where
  same : SameSpans seg seg'
  safe : Safe seg U → Safe seg' U
  kept : ∀ j, U j → seg'.os.purges j = seg.os.purges j

theorem Purged.refl (U : Nat → Prop) (seg : MiSegment T) : Purged U seg seg :=
  ⟨SameSpans.refl seg, fun h => h, fun _ _ => rfl⟩

theorem Purged.trans {seg'' : MiSegment T} (h : Purged U seg seg') (h' : Purged U seg' seg'') :
    Purged U seg seg'' :=
  ⟨h.same.trans h'.same, fun hs => h'.safe (h.safe hs),
    fun j hj => (h'.kept j hj).trans (h.kept j hj)⟩

/-! ## Whole slices -/

theorem miAlignUp_mul (i : Nat) {a : Nat} (ha : 0 < a) : miAlignUp (i * a) a = i * a := by
  unfold miAlignUp
  rw [Nat.add_sub_assoc ha, Nat.add_comm, Nat.add_mul_div_right _ _ ha,
    Nat.div_eq_of_lt (by omega), Nat.zero_add]

theorem miAlignDown_mul (i : Nat) {a : Nat} (ha : 0 < a) : miAlignDown (i * a) a = i * a := by
  unfold miAlignDown
  rw [Nat.mul_div_cancel i ha]

theorem miSegmentSliceSize_pos : 0 < miSegmentSliceSize := by decide

theorem inRange_iff (i n j : Nat) :
    inRange (i * miSegmentSliceSize) (n * miSegmentSliceSize) j = true ↔ i ≤ j ∧ j < i + n := by
  unfold inRange
  rw [decide_eq_true_iff, ← Nat.add_mul, Nat.mul_lt_mul_right miSegmentSliceSize_pos,
    Nat.mul_lt_mul_right miSegmentSliceSize_pos]
  omega

/-- The mask of whole slices is the same, conservative or not. -/
theorem miSegmentCommitMask_eq (hsize : seg.segmentSlices = miSlicesPerSegment) {i n : Nat}
    (hn : 0 < n) (hend : i + n ≤ miSlicesPerSegment) (conservative : Bool) :
    miSegmentCommitMask seg conservative (i * miSegmentSliceSize) (n * miSegmentSliceSize) =
      (i * miSegmentSliceSize, n * miSegmentSliceSize, miCommitMaskCreate i n) := by
  have hpos := miSegmentSliceSize_pos
  have hmul : ∀ {a b : Nat}, a ≤ b → a * miSegmentSliceSize ≤ b * miSegmentSliceSize :=
    fun h => Nat.mul_le_mul_right _ h
  have hmul' : ∀ {a b : Nat}, a < b → a * miSegmentSliceSize < b * miSegmentSliceSize :=
    fun h => (Nat.mul_lt_mul_right hpos).mpr h
  have hn0 : n * miSegmentSliceSize ≠ 0 := Nat.mul_ne_zero (by omega) (by omega)
  have hnle : n * miSegmentSliceSize ≤ miSegmentSize := hmul (by omega)
  have hilt : i * miSegmentSliceSize < miSegmentSize := hmul' (by omega)
  have hadd : i * miSegmentSliceSize + n * miSegmentSliceSize = (i + n) * miSegmentSliceSize :=
    (Nat.add_mul ..).symm
  have hle : (i + n) * miSegmentSliceSize ≤ miSegmentSize := hmul hend
  have hsz : seg.size = miSegmentSize := by
    unfold MiSegment.size
    rw [hsize]
    rfl
  have hstart : (if conservative then miAlignUp (i * miSegmentSliceSize) miCommitSize
      else miAlignDown (i * miSegmentSliceSize) miMinimalCommitSize) = i * miSegmentSliceSize := by
    rw [show miCommitSize = miSegmentSliceSize from rfl,
      show miMinimalCommitSize = miSegmentSliceSize from rfl, miAlignUp_mul i hpos,
      miAlignDown_mul i hpos, ite_self]
  have hstop : (if conservative then miAlignDown ((i + n) * miSegmentSliceSize) miCommitSize
      else miAlignUp ((i + n) * miSegmentSliceSize) miMinimalCommitSize) =
      (i + n) * miSegmentSliceSize := by
    rw [show miCommitSize = miSegmentSliceSize from rfl,
      show miMinimalCommitSize = miSegmentSliceSize from rfl, miAlignUp_mul _ hpos,
      miAlignDown_mul _ hpos, ite_self]
  have hlow : (if i * miSegmentSliceSize ≥ miSegmentInfoSize seg ∧
      i * miSegmentSliceSize < miSegmentInfoSize seg then miSegmentInfoSize seg
      else i * miSegmentSliceSize) = i * miSegmentSliceSize := if_neg (by omega)
  have hclip : (if (i + n) * miSegmentSliceSize > miSegmentSize then miSegmentSize
      else (i + n) * miSegmentSliceSize) = (i + n) * miSegmentSliceSize := if_neg (by omega)
  have hfull : (if (i + n) * miSegmentSliceSize > i * miSegmentSliceSize then
      (i + n) * miSegmentSliceSize - i * miSegmentSliceSize else 0) = n * miSegmentSliceSize := by
    rw [if_pos (by omega)]
    omega
  unfold miSegmentCommitMask
  rw [if_neg (by omega)]
  simp only [hsz, hadd, hstart, hstop, hlow, hclip, hfull]
  rw [if_neg (by omega), if_neg hn0, show miCommitSize = miSegmentSliceSize from rfl,
    Nat.mul_div_cancel i hpos, Nat.mul_div_cancel n hpos]

theorem miCommitMaskCreate_not_empty {i n : Nat} (hn : 0 < n) (hend : i + n ≤ miSlicesPerSegment) :
    miCommitMaskIsEmpty (miCommitMaskCreate i n) = false := by
  rw [Bool.eq_false_iff, ne_eq, miCommitMaskIsEmpty_iff]
  intro h
  have hi := h i
  rw [bit_create hend, decide_eq_false_iff_not] at hi
  omega

/-! ## Purging -/

section

variable (hsize : seg.segmentSlices = miSlicesPerSegment)
include hsize

theorem miSegmentPurge_spec (env : Env) {i n : Nat} (hn : 0 < n)
    (hend : i + n ≤ miSlicesPerSegment) (hU : ∀ j, U j → ¬ (i ≤ j ∧ j < i + n)) :
    Purged U seg (miSegmentPurge env seg (i * miSegmentSliceSize) (n * miSegmentSliceSize)) := by
  unfold miSegmentPurge
  split
  · exact Purged.refl U seg
  · rw [miSegmentCommitMask_eq hsize hn hend]
    simp only [miCommitMaskCreate_not_empty hn hend]
    split
    · exact Purged.refl U seg
    · have hbit : ∀ j, U j → (miCommitMaskCreate i n).bit j = false := by
        intro j hj
        rw [bit_create hend, decide_eq_false_iff_not]
        exact hU j hj
      have hrange : ∀ j, U j →
          inRange (i * miSegmentSliceSize) (n * miSegmentSliceSize) j = false := by
        intro j hj
        rw [Bool.eq_false_iff, ne_eq, inRange_iff]
        exact hU j hj
      split
      · refine ⟨⟨⟨rfl, rfl, rfl, rfl, rfl, rfl, rfl, rfl⟩, rfl⟩, fun hs => ?_, ?_⟩
        · cases hd : env.osPurge (i * miSegmentSliceSize) (n * miSegmentSliceSize) with
          | false =>
              refine ⟨?_, ?_, hs.commit, ?_⟩
              · intro j hj
                simp only [bit_clear, Bool.and_eq_true] at hj
                exact hs.purge_sub j hj.1
              · intro j hj
                simpa [OsMem.purge] using hs.backed j hj
              · intro j hj
                simp only [bit_clear, hs.purge j hj, Bool.false_and]
          | true =>
              refine ⟨?_, ?_, ?_, ?_⟩
              · intro j hj
                simp only [bit_clear, Bool.and_eq_true] at hj
                simp only [if_true, bit_clear, hs.purge_sub j hj.1, hj.2, Bool.and_self]
              · intro j hj
                simp only [if_true, bit_clear, Bool.and_eq_true, Bool.not_eq_true'] at hj
                have hout : inRange (i * miSegmentSliceSize) (n * miSegmentSliceSize) j = false := by
                  rw [Bool.eq_false_iff, ne_eq, inRange_iff]
                  rw [bit_create hend, decide_eq_false_iff_not] at hj
                  exact hj.2
                simp [OsMem.purge, hs.backed j hj.1, hout]
              · intro j hj
                simp only [if_true, bit_clear, hs.commit j hj, hbit j hj, Bool.not_false,
                  Bool.and_self]
              · intro j hj
                simp only [bit_clear, hs.purge j hj, Bool.false_and]
        · intro j hj
          simp [OsMem.purge, hrange j hj]
      · refine ⟨⟨⟨rfl, rfl, rfl, rfl, rfl, rfl, rfl, rfl⟩, rfl⟩, fun hs => ?_, fun _ _ => rfl⟩
        refine ⟨?_, hs.backed, hs.commit, ?_⟩
        · intro j hj
          simp only [bit_clear, Bool.and_eq_true] at hj
          exact hs.purge_sub j hj.1
        · intro j hj
          simp only [bit_clear, hs.purge j hj, Bool.false_and]

theorem miSegmentPurge_runs (env : Env) (L : List (Nat × Nat))
    (hL : ∀ r ∈ L, 0 < r.2 ∧ r.1 + r.2 ≤ miSlicesPerSegment ∧
      ∀ j, U j → ¬ (r.1 ≤ j ∧ j < r.1 + r.2)) :
    Purged U seg
      (L.foldl (fun seg r => miSegmentPurge env seg (r.1 * miCommitSize) (r.2 * miCommitSize))
        seg) := by
  induction L generalizing seg with
  | nil => exact Purged.refl U seg
  | cons r L ih =>
      obtain ⟨hpos, hend, hU⟩ := hL r List.mem_cons_self
      have hstep := miSegmentPurge_spec hsize env hpos hend hU
      refine hstep.trans (ih ?_ fun r' hr' => hL r' (List.mem_cons_of_mem r hr'))
      exact hstep.same.segmentSlices.trans hsize

theorem miSegmentTryPurge_spec (env : Env) (force : Bool) (hs : Safe seg U) :
    Purged U seg (miSegmentTryPurge env seg force) := by
  unfold miSegmentTryPurge
  split
  · exact Purged.refl U seg
  · split
    · exact Purged.refl U seg
    · have hstart : Purged U seg
          { seg with purgeExpire := 0, purgeMask := miCommitMaskCreateEmpty } := by
        refine ⟨⟨⟨rfl, rfl, rfl, rfl, rfl, rfl, rfl, rfl⟩, rfl⟩, fun hs => ?_, fun _ _ => rfl⟩
        refine ⟨?_, hs.backed, hs.commit, fun j _ => bit_createEmpty j⟩
        intro j hj
        rw [bit_createEmpty] at hj
        cases hj
      refine hstart.trans (miSegmentPurge_runs (hstart.same.segmentSlices.trans hsize) env _ ?_)
      -- a run is of slices that wait to be purged, and those are not in use
      intro r hr
      obtain ⟨hpos, hset, -, -⟩ := (mi_commit_mask_foreach_runs seg.purgeMask).1 r hr
      refine ⟨hpos, ?_, fun j hj hjr => ?_⟩
      · have hlast := MiCommitMask.lt_of_bit (hset (r.1 + r.2 - 1) (by omega) (by omega))
        unfold miCommitMaskBits at hlast
        unfold miSlicesPerSegment
        omega
      · have hbit := hset j hjr.1 hjr.2
        rw [hs.purge j hj] at hbit
        cases hbit

theorem miSegmentSchedulePurge_spec (env : Env) {i n : Nat} (hn : 0 < n)
    (hend : i + n ≤ miSlicesPerSegment) (hU : ∀ j, U j → ¬ (i ≤ j ∧ j < i + n)) (hs : Safe seg U) :
    Purged U seg
      (miSegmentSchedulePurge env seg (i * miSegmentSliceSize) (n * miSegmentSliceSize)) := by
  unfold miSegmentSchedulePurge
  split
  · exact Purged.refl U seg
  · split
    · exact miSegmentPurge_spec hsize env hn hend hU
    · rw [miSegmentCommitMask_eq hsize hn hend]
      simp only [miCommitMaskCreate_not_empty hn hend]
      split
      · exact Purged.refl U seg
      · -- the mask grows by slices that are committed and not in use, whatever the clock says
        have hmask : ∀ e : Int, Purged U seg
            { seg with
              purgeMask := miCommitMaskSet seg.purgeMask
                (miCommitMaskCreateIntersect seg.commitMask (miCommitMaskCreate i n))
              purgeExpire := e } := by
          intro e
          refine ⟨⟨⟨rfl, rfl, rfl, rfl, rfl, rfl, rfl, rfl⟩, rfl⟩, fun hs => ?_, fun _ _ => rfl⟩
          refine ⟨?_, hs.backed, hs.commit, ?_⟩
          · intro j hj
            simp only [bit_set, bit_intersect, Bool.or_eq_true, Bool.and_eq_true] at hj
            rcases hj with hj | ⟨hj, -⟩
            · exact hs.purge_sub j hj
            · exact hj
          · intro j hj
            have hout : (miCommitMaskCreate i n).bit j = false := by
              rw [bit_create hend, decide_eq_false_iff_not]
              exact hU j hj
            simp only [bit_set, bit_intersect, hs.purge j hj, hout, Bool.and_false, Bool.or_self]
        split
        · exact hmask _
        · split
          · split
            · have hnow := hmask seg.purgeExpire
              refine hnow.trans (miSegmentTryPurge_spec ?_ env true (hnow.safe hs))
              exact hnow.same.segmentSlices.trans hsize
            · exact hmask _
          · exact hmask _

/-! ## What is given back -/

/-- The slices for which `P` holds have been given back once, and no others. -/
structure GivenBack (P : Nat → Prop) [DecidablePred P] (seg seg' : MiSegment T) : Prop where
  slices : seg'.segmentSlices = seg.segmentSlices
  allow : seg'.allowPurge = seg.allowPurge
  purges : ∀ j, seg'.os.purges j = seg.os.purges j + if P j then 1 else 0
  commit : ∀ j, ¬ P j → seg'.commitMask.bit j = seg.commitMask.bit j
  committed : ∀ j, ¬ P j → seg'.os.committed j = seg.os.committed j
  waiting : ∀ j, seg'.purgeMask.bit j = true → seg.purgeMask.bit j = true

omit hsize in
theorem GivenBack.congr {P Q : Nat → Prop} [DecidablePred P] [DecidablePred Q]
    (h : GivenBack P seg seg') (hPQ : ∀ j, P j ↔ Q j) : GivenBack Q seg seg' := by
  refine ⟨h.slices, h.allow, fun j => ?_, fun j hj => h.commit j (mt (hPQ j).mp hj),
    fun j hj => h.committed j (mt (hPQ j).mp hj), h.waiting⟩
  rw [h.purges j]
  simp only [hPQ j]

theorem miSegmentPurge_exact (env : Env) (hallow : seg.allowPurge = true) {i n : Nat} (hn : 0 < n)
    (hend : i + n ≤ miSlicesPerSegment)
    (hcommit : ∀ j, i ≤ j → j < i + n → seg.commitMask.bit j = true) :
    GivenBack (fun j => i ≤ j ∧ j < i + n) seg
      (miSegmentPurge env seg (i * miSegmentSliceSize) (n * miSegmentSliceSize)) := by
  have hbit : ∀ j, (miCommitMaskCreate i n).bit j = true ↔ i ≤ j ∧ j < i + n := by
    intro j
    rw [bit_create hend, decide_eq_true_iff]
  have hany : miCommitMaskAnySet seg.commitMask (miCommitMaskCreate i n) = true := by
    rw [← Bool.not_eq_false, miCommitMaskAnySet_eq_false_iff]
    intro hall
    have hi := hall i ((hbit i).mpr ⟨Nat.le_refl i, by omega⟩)
    rw [hcommit i (Nat.le_refl i) (by omega)] at hi
    cases hi
  have hn0 : n * miSegmentSliceSize ≠ 0 := Nat.mul_ne_zero (by omega) (by decide)
  unfold miSegmentPurge
  rw [miSegmentCommitMask_eq hsize hn hend]
  simp only [hallow, miCommitMaskCreate_not_empty hn hend, hany, hn0, Bool.not_true, Bool.false_eq_true,
    or_self, if_false, if_true]
  generalize env.osPurge (i * miSegmentSliceSize) (n * miSegmentSliceSize) = decommitted
  refine ⟨rfl, hallow.symm, fun j => ?_, fun j hj => ?_, fun j hj => ?_, fun j hj => ?_⟩
  · simp only [OsMem.purge]
    by_cases hj : i ≤ j ∧ j < i + n
    · rw [if_pos ((inRange_iff i n j).mpr hj), if_pos hj]
    · rw [if_neg (mt (inRange_iff i n j).mp hj), if_neg hj, Nat.add_zero]
  · cases decommitted with
    | false => rfl
    | true =>
        have hout := Bool.eq_false_iff.mpr (mt (hbit j).mp hj)
        simp only [if_true, bit_clear, hout, Bool.not_false, Bool.and_true]
  · have hout := Bool.eq_false_iff.mpr (mt (inRange_iff i n j).mp hj)
    simp only [OsMem.purge, hout, Bool.and_false, Bool.not_false, Bool.and_true]
  · simp only [bit_clear, Bool.and_eq_true] at hj
    exact hj.1

theorem miSegmentPurge_runs_exact (env : Env) (hallow : seg.allowPurge = true) (L : List (Nat × Nat))
    (hpair : L.Pairwise fun r r' => r.1 + r.2 < r'.1)
    (hL : ∀ r ∈ L, 0 < r.2 ∧ r.1 + r.2 ≤ miSlicesPerSegment ∧
      ∀ j, r.1 ≤ j → j < r.1 + r.2 → seg.commitMask.bit j = true) :
    GivenBack (fun j => ∃ r ∈ L, r.1 ≤ j ∧ j < r.1 + r.2) seg
      (L.foldl (fun seg r => miSegmentPurge env seg (r.1 * miCommitSize) (r.2 * miCommitSize))
        seg) := by
  induction L generalizing seg with
  | nil =>
      refine ⟨rfl, rfl, fun j => ?_, fun _ _ => rfl, fun _ _ => rfl, fun _ h => h⟩
      simp
  | cons r L ih =>
      obtain ⟨hbehind, hpair⟩ := List.pairwise_cons.mp hpair
      obtain ⟨hpos, hend, hcommit⟩ := hL r List.mem_cons_self
      have hstep := miSegmentPurge_exact hsize env hallow hpos hend hcommit
      -- the other runs are behind it
      have hrest := ih (hstep.slices.trans hsize) (hstep.allow.trans hallow) hpair fun r' hr' => by
        obtain ⟨hpos', hend', hcommit'⟩ := hL r' (List.mem_cons_of_mem r hr')
        have hlt := hbehind r' hr'
        refine ⟨hpos', hend', fun j hlo hhi => ?_⟩
        have hsame := hstep.commit j (by omega)
        exact hsame.trans (hcommit' j hlo hhi)
      have hiff : ∀ j, (∃ r' ∈ r :: L, r'.1 ≤ j ∧ j < r'.1 + r'.2) ↔
          (r.1 ≤ j ∧ j < r.1 + r.2) ∨ ∃ r' ∈ L, r'.1 ≤ j ∧ j < r'.1 + r'.2 := by
        intro j
        simp only [List.mem_cons, or_and_right, exists_or, exists_eq_left]
      refine ⟨hrest.slices.trans hstep.slices, hrest.allow.trans hstep.allow, fun j => ?_,
        fun j hj => ?_, fun j hj => ?_, fun j hj => hstep.waiting j (hrest.waiting j hj)⟩
      · have hboth : ¬ ((r.1 ≤ j ∧ j < r.1 + r.2) ∧ ∃ r' ∈ L, r'.1 ≤ j ∧ j < r'.1 + r'.2) := by
          rintro ⟨hin, r', hr', hin'⟩
          have hlt := hbehind r' hr'
          omega
        refine (hrest.purges j).trans ?_
        rw [hstep.purges j]
        simp only [hiff j]
        by_cases hin : r.1 ≤ j ∧ j < r.1 + r.2
        · have hout : ¬ ∃ r' ∈ L, r'.1 ≤ j ∧ j < r'.1 + r'.2 := fun h => hboth ⟨hin, h⟩
          rw [if_pos hin, if_neg hout, if_pos (.inl hin)]
        · by_cases hin' : ∃ r' ∈ L, r'.1 ≤ j ∧ j < r'.1 + r'.2
          · rw [if_neg hin, if_pos hin', if_pos (.inr hin')]
          · rw [if_neg hin, if_neg hin', if_neg (not_or.mpr ⟨hin, hin'⟩)]
      · rw [hiff j, not_or] at hj
        exact (hrest.commit j hj.2).trans (hstep.commit j hj.1)
      · rw [hiff j, not_or] at hj
        exact (hrest.committed j hj.2).trans (hstep.committed j hj.1)

/-- All that waits to be purged is purged, each slice once. -/
theorem miSegmentTryPurge_exact (env : Env) {force : Bool} (hallow : seg.allowPurge = true)
    (hdue : force = true ∨ seg.purgeExpire ≤ env.now)
    (hsub : ∀ j, seg.purgeMask.bit j = true → seg.commitMask.bit j = true) :
    GivenBack (fun j => seg.purgeMask.bit j = true) seg (miSegmentTryPurge env seg force) ∧
      ∀ j, (miSegmentTryPurge env seg force).purgeMask.bit j = false := by
  unfold miSegmentTryPurge
  by_cases hempty : miCommitMaskIsEmpty seg.purgeMask = true
  · rw [if_pos (by rw [hempty, Bool.or_true])]
    have hnone := (miCommitMaskIsEmpty_iff).mp hempty
    refine ⟨⟨rfl, rfl, fun j => ?_, fun _ _ => rfl, fun _ _ => rfl, fun _ h => h⟩, hnone⟩
    rw [hnone j]
    simp
  · rw [if_neg (by simp [hallow, hempty]), if_neg (by
      rcases hdue with rfl | hdue
      · simp
      · simp only [Bool.and_eq_true, decide_eq_true_eq, not_and]
        intro _
        omega)]
    obtain ⟨hruns, hpair, hcover⟩ := mi_commit_mask_foreach_runs seg.purgeMask
    have hsize₁ : ({ seg with purgeExpire := 0, purgeMask := miCommitMaskCreateEmpty } :
        MiSegment T).segmentSlices = miSlicesPerSegment := hsize
    have hexact := miSegmentPurge_runs_exact hsize₁ env hallow
      (miCommitMaskForeach seg.purgeMask) hpair fun r hr => by
        obtain ⟨hpos, hset, -, -⟩ := hruns r hr
        refine ⟨hpos, ?_, fun j hlo hhi => hsub j (hset j hlo hhi)⟩
        have hlast := MiCommitMask.lt_of_bit (hset (r.1 + r.2 - 1) (by omega) (by omega))
        unfold miCommitMaskBits at hlast
        unfold miSlicesPerSegment
        omega
    have hgiven := hexact.congr fun j => (hcover j).symm
    refine ⟨⟨hgiven.slices, hgiven.allow, hgiven.purges, hgiven.commit, hgiven.committed,
      fun j hj => ?_⟩, fun j => ?_⟩
    · have hwait := hgiven.waiting j hj
      simp only [bit_createEmpty] at hwait
      cases hwait
    · rw [Bool.eq_false_iff]
      intro hj
      have hwait := hgiven.waiting j hj
      simp only [bit_createEmpty] at hwait
      cases hwait

/-! ## Committing -/

/-- Slices that are committed come into use. -/
theorem miSegmentCommit_spec (env : Env) {i n : Nat} (hn : 0 < n)
    (hend : i + n ≤ miSlicesPerSegment) (hs : Safe seg U) {ok : Bool}
    (hcommit : miSegmentCommit env seg (i * miSegmentSliceSize) (n * miSegmentSliceSize) =
      (ok, seg')) :
    SameSpans seg seg' ∧ seg'.os.purges = seg.os.purges ∧ Safe seg' U ∧
      (ok = true → Safe seg' fun j => U j ∨ i ≤ j ∧ j < i + n) := by
  unfold miSegmentCommit at hcommit
  rw [miSegmentCommitMask_eq hsize hn hend] at hcommit
  have hn0 : n * miSegmentSliceSize ≠ 0 := Nat.mul_ne_zero (by omega) (by decide)
  simp only [miCommitMaskCreate_not_empty hn hend, Bool.false_eq_true, hn0, or_self, if_false]
    at hcommit
  split at hcommit
  · obtain ⟨rfl, rfl⟩ := Prod.mk.inj hcommit
    exact ⟨SameSpans.refl seg, rfl, hs, fun h => by cases h⟩
  · rename_i hok
    obtain ⟨rfl, rfl⟩ := Prod.mk.inj hcommit
    generalize hmask : miCommitMaskCreate i n = mask at *
    have hbit : ∀ j, mask.bit j = true ↔ i ≤ j ∧ j < i + n := by
      intro j
      rw [← hmask, bit_create hend, decide_eq_true_iff]
    -- the memory is committed, now or before
    obtain ⟨seg₁, hseg₁, hsame, hpurges, hpurge, hsub, hgrown, hbacked⟩ : ∃ seg₁,
        (if miCommitMaskAllSet seg.commitMask mask = true then seg
          else { seg with
            os := seg.os.commit (i * miSegmentSliceSize) (n * miSegmentSliceSize)
            commitMask := miCommitMaskSet seg.commitMask mask }) = seg₁ ∧
        SameSpans seg seg₁ ∧ seg₁.os.purges = seg.os.purges ∧ seg₁.purgeMask = seg.purgeMask ∧
        (∀ j, seg.commitMask.bit j = true → seg₁.commitMask.bit j = true) ∧
        (∀ j, mask.bit j = true → seg₁.commitMask.bit j = true) ∧
        (∀ j, seg₁.commitMask.bit j = true → seg₁.os.committed j = true) := by
      refine ⟨_, rfl, ?_⟩
      split
      · rename_i hall
        exact ⟨SameSpans.refl seg, rfl, rfl, fun _ hj => hj, miCommitMaskAllSet_iff.mp hall,
          hs.backed⟩
      · refine ⟨⟨⟨rfl, rfl, rfl, rfl, rfl, rfl, rfl, rfl⟩, rfl⟩, rfl, rfl, ?_, ?_, ?_⟩
        · intro j hj
          simp only [bit_set, hj, Bool.true_or]
        · intro j hj
          simp only [bit_set, hj, Bool.or_true]
        · intro j hj
          simp only [bit_set, Bool.or_eq_true] at hj
          simp only [OsMem.commit, Bool.or_eq_true]
          rcases hj with hj | hj
          · exact .inl (hs.backed j hj)
          · exact .inr ((inRange_iff i n j).mpr ((hbit j).mp hj))
    simp only [hseg₁]
    have hend' : ∀ e : Int, SameSpans seg
        { seg₁ with purgeMask := miCommitMaskClear seg₁.purgeMask mask, purgeExpire := e } ∧
        Safe { seg₁ with purgeMask := miCommitMaskClear seg₁.purgeMask mask, purgeExpire := e }
          (fun j => U j ∨ i ≤ j ∧ j < i + n) := by
      intro e
      refine ⟨hsame.trans ⟨⟨rfl, rfl, rfl, rfl, rfl, rfl, rfl, rfl⟩, rfl⟩, ?_, hbacked, ?_, ?_⟩
      · intro j hj
        simp only [bit_clear, Bool.and_eq_true, hpurge] at hj
        exact hsub j (hs.purge_sub j hj.1)
      · rintro j (hj | hj)
        · exact hsub j (hs.commit j hj)
        · exact hgrown j ((hbit j).mpr hj)
      · rintro j (hj | hj)
        · simp only [bit_clear, hpurge, hs.purge j hj, Bool.false_and]
        · simp only [bit_clear, (hbit j).mpr hj, Bool.not_true, Bool.and_false]
    split
    · exact ⟨(hend' _).1, hpurges, (hend' _).2.mono fun _ => .inl, fun _ => (hend' _).2⟩
    · exact ⟨(hend' seg₁.purgeExpire).1, hpurges, (hend' seg₁.purgeExpire).2.mono fun _ => .inl,
        fun _ => (hend' seg₁.purgeExpire).2⟩

theorem miSegmentEnsureCommitted_spec (env : Env) {i n : Nat} (hn : 0 < n)
    (hend : i + n ≤ miSlicesPerSegment) (hs : Safe seg U) {ok : Bool}
    (hcommit : miSegmentEnsureCommitted env seg (i * miSegmentSliceSize) (n * miSegmentSliceSize) =
      (ok, seg')) :
    SameSpans seg seg' ∧ seg'.os.purges = seg.os.purges ∧ Safe seg' U ∧
      (ok = true → Safe seg' fun j => U j ∨ i ≤ j ∧ j < i + n) := by
  unfold miSegmentEnsureCommitted at hcommit
  split at hcommit
  · rename_i hfull
    obtain ⟨rfl, rfl⟩ := Prod.mk.inj hcommit
    rw [Bool.and_eq_true, miCommitMaskIsFull_iff, miCommitMaskIsEmpty_iff] at hfull
    refine ⟨SameSpans.refl seg, rfl, hs, fun _ => ⟨hs.purge_sub, hs.backed, ?_, ?_⟩⟩
    · rintro j (hj | hj)
      · exact hs.commit j hj
      · refine hfull.1 j ?_
        unfold miSlicesPerSegment at hend
        unfold miCommitMaskBits
        omega
    · intro j _
      exact hfull.2 j
  · exact miSegmentCommit_spec hsize env hn hend hs hcommit

/-- Memory that is committed in advance can be used without the system. -/
theorem miSegmentEnsureCommitted_ok (env : Env) {i n : Nat} (hn : 0 < n)
    (hend : i + n ≤ miSlicesPerSegment)
    (hset : ∀ j, i ≤ j → j < i + n → seg.commitMask.bit j = true) :
    (miSegmentEnsureCommitted env seg (i * miSegmentSliceSize) (n * miSegmentSliceSize)).1 =
      true := by
  have hall : miCommitMaskAllSet seg.commitMask (miCommitMaskCreate i n) = true := by
    rw [miCommitMaskAllSet_iff]
    intro j hj
    rw [bit_create hend, decide_eq_true_iff] at hj
    exact hset j hj.1 hj.2
  have hn0 : n * miSegmentSliceSize ≠ 0 := Nat.mul_ne_zero (by omega) (by decide)
  unfold miSegmentEnsureCommitted miSegmentCommit
  rw [miSegmentCommitMask_eq hsize hn hend]
  simp only [miCommitMaskCreate_not_empty hn hend, hn0, hall]
  split <;> rfl

end

end EflCore.Mimalloc
