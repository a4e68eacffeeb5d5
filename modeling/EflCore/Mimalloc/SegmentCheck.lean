/-
# `EflCore.Mimalloc.SegmentCheck` — the check of segments in debug builds

With `MI_DEBUG` at 3 the code checks a whole segment, header by header, in between operations.  An
assertion that fails is `false` here.

**Proved here.**  A segment as it should be passes, if the walks through the queues are long enough
(`Sound.isValid`).
-/
import EflCore.Mimalloc.SpanSearch

namespace EflCore.Mimalloc

open Spans DoublyLinked

variable {T S : Type}

/-! ## The code of the check -/

section

variable [DecidableEq S]

/-- `mi_span_queue_contains`, in `fuel` steps at most -/
def miSpanQueueContains (spans : SpanStore S T) (slice : S × Nat) :
    Nat → Option (S × Nat) → Bool
  | _, none => false
  | 0, some _ => false
  | fuel + 1, some c =>
      if c = slice then true else miSpanQueueContains spans slice fuel (spans.next c)

/-- The check of a page in use: valid back offsets, as many as `MI_MAX_SLICE_OFFSET` at least, and
the last entry. -/
def usedIsValid (seg : MiSegment T) (slice maxindex : Nat) : Bool :=
  let last := slice + (seg.slices slice).sliceCount - 1
  (List.range (miMaxSliceOffset + 1)).all (fun i => decide (maxindex < slice + i) ||
    decide ((seg.slices (slice + i)).sliceOffset = i) &&
    (decide (i = 0) || decide ((seg.slices (slice + i)).sliceCount = 0)) &&
    (decide (i = 0) || decide ((seg.slices (slice + i)).xblockSize = 1))) &&
  (!(decide (last > slice) && decide (last < seg.sliceEntries)) ||
    decide ((seg.slices last).sliceOffset = (seg.slices slice).sliceCount - 1) &&
    decide ((seg.slices last).sliceCount = 0) && decide ((seg.slices last).xblockSize = 1))

/-- The check of a free range of slices. -/
def freeIsValid (h : Segments S T) (s : S) (fuel slice last : Nat) : Bool :=
  decide (slice = last - ((h.segment s).slices last).sliceOffset) &&
  (decide (slice = last) || decide (((h.segment s).slices last).sliceCount = 0)) &&
  decide (((h.segment s).slices last).xblockSize = 0) &&
  match (h.segment s).threadId with
  | none => true
  | some t => miSpanQueueContains h.spans (s, slice) fuel
      (h.spans.first (miSpanQueueFor t ((h.segment s).slices slice).sliceCount))

/-- The loop of `mi_segment_is_valid`. -/
def isValidLoop (h : Segments S T) (s : S) (fuel : Nat) : Nat → Nat → Nat → Bool
  | 0, _, _ => false
  | k + 1, slice, usedCount =>
      let seg := h.segment s
      if slice < seg.sliceEntries then
        let sliceCount := (seg.slices slice).sliceCount
        let maxindex := (if slice + sliceCount ≥ seg.sliceEntries then seg.sliceEntries
          else slice + sliceCount) - 1
        decide (sliceCount > 0) && decide ((seg.slices slice).sliceOffset = 0) &&
        if (seg.slices slice).xblockSize > 0 then
          usedIsValid seg slice maxindex && isValidLoop h s fuel k (maxindex + 1) (usedCount + 1)
        else freeIsValid h s fuel slice maxindex && isValidLoop h s fuel k (maxindex + 1) usedCount
      else decide (slice = seg.sliceEntries) && decide (usedCount = seg.used + 1)

variable [DecidableEq T]

/-- `mi_segment_is_valid`: false if one of its assertions fails. -/
def miSegmentIsValid (h : Segments S T) (t : T) (s : S) (fuel : Nat) : Bool :=
  let seg := h.segment s
  decide (seg.abandoned ≤ seg.used) && decide (seg.threadId = none ∨ seg.threadId = some t) &&
  miCommitMaskAllSet seg.commitMask seg.purgeMask &&
  isValidLoop h s fuel (seg.sliceEntries + 1) 0 0

/-! ## It holds of spans -/

variable {info : Nat} {h : Segments S T} {L : S → List (Span T)} {t : T} {s : S}

omit [DecidableEq T] in
theorem contains_of_chain {spans : SpanStore S T} {c : S × Nat} : ∀ (fuel : Nat)
    {o : Option (S × Nat)} {M : List (S × Nat)}, LinkedCells.Chain spans.next o M → c ∈ M →
    M.length ≤ fuel → miSpanQueueContains spans c fuel o = true := by
  intro fuel
  induction fuel with
  | zero =>
      intro o M hM hc hlen
      rw [List.eq_nil_of_length_eq_zero (Nat.le_zero.mp hlen)] at hc
      cases hc
  | succ fuel ih =>
      intro o M hM hc hlen
      cases M with
      | nil => cases hc
      | cons d M =>
          obtain ⟨rfl, hM⟩ := hM
          unfold miSpanQueueContains
          split
          · rfl
          · rename_i hne
            rcases List.mem_cons.mp hc with rfl | hc
            · exact absurd rfl hne
            · exact ih hM hc (by simpa using hlen)

omit [DecidableEq T] in
theorem usedIsValid_of_page {seg : MiSegment T} {i n : Nat} {heap : Option T} (hn : 0 < n)
    (hok : PageOk seg.slices i n heap) : usedIsValid seg i (i + n - 1) = true := by
  have hback : ∀ k < n, 0 < k → (seg.slices (i + k)).sliceOffset = k ∧
      (seg.slices (i + k)).sliceCount = 0 ∧ (seg.slices (i + k)).xblockSize = 1 := by
    intro k hk hk0
    rw [hok.back k hk hk0]
    exact ⟨rfl, rfl, rfl⟩
  unfold usedIsValid
  rw [Bool.and_eq_true, List.all_eq_true]
  refine ⟨fun k _ => ?_, ?_⟩
  · by_cases hk : k < n
    · by_cases hk0 : k = 0
      · subst hk0
        simp [hok.offset]
      · obtain ⟨h₁, h₂, h₃⟩ := hback k hk (Nat.pos_of_ne_zero hk0)
        simp [h₁, h₂, h₃]
    · have hout : i + n - 1 < i + k := by omega
      simp [hout]
  · simp only [hok.count]
    by_cases hlast : i + n - 1 > i
    · obtain ⟨h₁, h₂, h₃⟩ := hback (n - 1) (by omega) (by omega)
      rw [← Nat.add_sub_assoc hn] at h₁ h₂ h₃
      simp [h₁, h₂, h₃]
    · simp [hlast]

omit [DecidableEq T] in
theorem freeIsValid_of_free {i n : Nat} (fuel : Nat) (hok : FreeOk (h.segment s).slices i n) (hn : 0 < n)
    (hqueue : ∀ t, (h.segment s).threadId = some t →
      miSpanQueueContains h.spans (s, i) fuel (h.spans.first (miSpanQueueFor t n)) = true) :
    freeIsValid h s fuel i (i + n - 1) = true := by
  have hstart : i = i + n - 1 - ((h.segment s).slices (i + n - 1)).sliceOffset := by
    rw [hok.back]
    omega
  have hlast : i = i + n - 1 ∨ ((h.segment s).slices (i + n - 1)).sliceCount = 0 := by
    by_cases hn1 : n = 1
    · exact .inl (by omega)
    · exact .inr (hok.last (by omega)).1
  have hxblock : ((h.segment s).slices (i + n - 1)).xblockSize = 0 := by
    by_cases hn1 : n = 1
    · subst hn1
      exact hok.xblock
    · exact (hok.last (by omega)).2
  unfold freeIsValid
  rw [hok.count]
  cases howner : (h.segment s).threadId with
  | none => simp [← hstart, hlast, hxblock]
  | some t => simp [← hstart, hlast, hxblock, hqueue t howner]

omit [DecidableEq T] in
/-- The loop from the spans `B` on. -/
theorem isValidLoop_spec (hgood : Good info (h.segment s) (L s)) {fuel : Nat}
    (hqueue : ∀ t i n hn, (h.segment s).threadId = some t →
      at? Span.count 0 (L s) i = some ⟨n, hn, .free true⟩ →
      miSpanQueueContains h.spans (s, i) fuel (h.spans.first (miSpanQueueFor t n)) = true) :
    ∀ (k : Nat) {A B : List (Span T)}, L s = A ++ B → B.length < k →
      isValidLoop h s fuel k (total Span.count A) (pages 0 A).length = true := by
  have htotal := hgood.layout.total
  have hentries := hgood.layout.entries
  intro k
  induction k with
  | zero => exact fun _ hlen => absurd hlen (Nat.not_lt_zero _)
  | succ k ih =>
      intro A B hAB hlen
      rw [hAB, total_append] at htotal
      unfold isValidLoop
      simp only [hentries]
      cases B with
      | nil =>
          rw [total_nil, Nat.add_zero] at htotal
          have hcount := hgood.counted.used
          rw [hAB, List.append_nil] at hcount
          rw [if_neg (by omega), htotal, hcount]
          simp
      | cons x B =>
          obtain ⟨n, hn, u⟩ := x
          rw [total_cons] at htotal
          simp only at htotal
          have hx : at? Span.count 0 (L s) (total Span.count A) = some ⟨n, hn, u⟩ :=
            (at?_eq_some_iff Span.pos).mpr ⟨A, B, hAB, (Nat.zero_add _).symm⟩
          have hspan := hgood.layout.spanOk hx
          have hcount : ((h.segment s).slices (total Span.count A)).sliceCount = n :=
            spanOk_count hspan
          have hmax : (if total Span.count A + n ≥ miSlicesPerSegment then miSlicesPerSegment
              else total Span.count A + n) - 1 = total Span.count A + n - 1 := by
            split <;> omega
          have hnext : total Span.count A + n - 1 + 1 = total Span.count (A ++ [⟨n, hn, u⟩]) := by
            simp only [total_append, total_cons, total_nil]
            omega
          have hih := ih (A := A ++ [⟨n, hn, u⟩]) (B := B) (by rw [hAB]; simp)
            (by simpa using hlen)
          rw [if_pos (by omega), hcount, hmax, spanOk_offset hspan, hnext]
          rw [pages_append, Nat.zero_add, List.length_append] at hih
          cases u with
          | free q =>
              have hok : FreeOk (h.segment s).slices (total Span.count A) n := hspan
              have hvalid := freeIsValid_of_free fuel hok hn fun t ht => by
                have howned := hgood.owned ⟨n, hn, .free q⟩ (by rw [hAB]; simp)
                rw [ht] at howned
                obtain rfl : q = true := howned
                exact hqueue t _ n hn ht hx
              rw [if_neg (by rw [hok.xblock]; exact Nat.lt_irrefl 0), hvalid]
              simpa [pages, hn] using hih
          | page heap =>
              have hok : PageOk (h.segment s).slices (total Span.count A) n heap := hspan
              rw [if_pos hok.xblock, usedIsValid_of_page hn hok]
              simpa [pages, hn] using hih

theorem Sound.isValid (hL : Sound info h L) (hs : h.mapped s = true)
    (howner : (h.segment s).threadId = none ∨ (h.segment s).threadId = some t) :
    ∃ enough, ∀ fuel, enough ≤ fuel → miSegmentIsValid h t s fuel = true := by
  obtain ⟨q, hrep, hq⟩ := hL.placed
  have hgood := hL.good s hs
  refine ⟨(Finset.range (miSegmentBinMax + 1)).sup fun b => (q (t, b)).length, fun fuel hfuel => ?_⟩
  -- a free span is found in its queue
  have hqueue : ∀ t' i n hn, (h.segment s).threadId = some t' →
      at? Span.count 0 (L s) i = some ⟨n, hn, .free true⟩ →
      miSpanQueueContains h.spans (s, i) fuel (h.spans.first (miSpanQueueFor t' n)) = true := by
    intro t' i n hn ht' hx
    obtain rfl : t' = t := by
      rcases howner with ho | ho
      · rw [ho] at ht'
        cases ht'
      · exact Option.some.inj (ht'.symm.trans ho)
    obtain ⟨hmem, hbin⟩ := hL.mem_queue hq hs ht' hx
    refine contains_of_chain fuel (hrep.chain _) hmem (Nat.le_trans ?_ hfuel)
    exact Finset.le_sup (f := fun b => (q (t', b)).length) (Finset.mem_range.mpr (by omega))
  have hloop := isValidLoop_spec hgood hqueue ((h.segment s).sliceEntries + 1) (A := [])
    (List.nil_append _).symm (Nat.lt_succ_of_le (layout_length hgood.layout))
  have habandoned : (h.segment s).abandoned ≤ (h.segment s).used := by
    have hle : (pages 0 (L s)).countP (fun p => p.heap.isNone) ≤ (pages 0 (L s)).length :=
      List.countP_le_length
    rw [← hgood.counted.used, ← hgood.counted.abandoned] at hle
    omega
  have hmask : miCommitMaskAllSet (h.segment s).commitMask (h.segment s).purgeMask = true :=
    miCommitMaskAllSet_iff.mpr hgood.layout.safe.purge_sub
  unfold miSegmentIsValid
  simp only
  rw [decide_eq_true habandoned, decide_eq_true howner, hmask]
  exact hloop

end

end EflCore.Mimalloc
