/-
# `EflCore.Mimalloc.PageFree` — pages freed and abandoned

What a thread does with a page once it is done with it.  The loops over the spans of a segment go
from header to header.

| | spans | the segment |
| :-- | :-- | :-- |
| `miSegmentPageFree` | a page becomes free | goes when it has no page left |
| `miSegmentPageAbandon` | a page loses its heap | is abandoned when all have |

**Proved here.**  Both rows, for any segment that is as it should be (`Good`): it is so afterwards,
the loops end, and the other pages are left alone.
-/
import EflCore.Mimalloc.SpanAlloc

namespace EflCore.Mimalloc

open Spans DoublyLinked

variable {T S : Type}

/-! ## Segments as they should be -/

structure Counted (seg : MiSegment T) (L : List (Span T)) : Prop where
  used : seg.used + 1 = (pages 0 L).length
  abandoned : seg.abandoned + 1 = (pages 0 L).countP fun p => p.heap.isNone

/-- Free spans are in the queues of the owner, and pages in its heap unless they are abandoned. -/
def Owned (o : Option T) (x : Span T) : Prop :=
  match x.use with
  | .free q => q = o.isSome
  | .page h => h = none ∨ h = o

structure Good (info : Nat) (seg : MiSegment T) (L : List (Span T)) : Prop where
  layout : Layout info seg L
  counted : Counted seg L
  owned : ∀ x ∈ L, Owned seg.threadId x
  idle : seg.threadId = none → 0 < seg.used
  busy : seg.threadId ≠ none → seg.used = 0 ∨ seg.abandoned < seg.used

/-- Of some slices, only the heaps of pages may have changed. -/
structure Untouched (U : Nat → Prop) (seg seg' : MiSegment T) : Prop where
  slices : ∀ j, U j → ∃ h, seg'.slices j = { seg.slices j with xheap := h }
  purges : ∀ j, U j → seg'.os.purges j = seg.os.purges j

theorem Untouched.refl (U : Nat → Prop) (seg : MiSegment T) : Untouched U seg seg :=
  ⟨fun j _ => ⟨(seg.slices j).xheap, rfl⟩, fun _ _ => rfl⟩

theorem Untouched.trans {U : Nat → Prop} {seg seg' seg'' : MiSegment T} (h : Untouched U seg seg')
    (h' : Untouched U seg' seg'') : Untouched U seg seg'' := by
  refine ⟨fun j hj => ?_, fun j hj => (h'.purges j hj).trans (h.purges j hj)⟩
  obtain ⟨heap, he⟩ := h.slices j hj
  obtain ⟨heap', he'⟩ := h'.slices j hj
  exact ⟨heap', by rw [he', he]⟩

theorem Untouched.mono {U V : Nat → Prop} {seg seg' : MiSegment T} (h : Untouched U seg seg')
    (hV : ∀ j, V j → U j) : Untouched V seg seg' :=
  ⟨fun j hj => h.slices j (hV j hj), fun j hj => h.purges j (hV j hj)⟩

theorem Changed.untouched {U : Nat → Prop} {seg seg' : MiSegment T} (h : Changed U seg seg') :
    Untouched U seg seg' :=
  ⟨fun j hj => ⟨(seg.slices j).xheap, by rw [h.slices j hj]⟩, h.kept⟩

/-! ## A page becomes free -/

section

variable [DecidableEq S] [DecidableEq T] {w : Work S T} {A B : List (Span T)}
  {rest : S × Nat → Option (T × Nat)}

omit [DecidableEq S] [DecidableEq T] in
/-- The blocks of a page are in its slices. -/
theorem pageStart_inRange {seg : MiSegment T} {i n j : Nat} (hn : 0 < n)
    (hcount : (seg.slices i).sliceCount = n)
    (h : inRange (miSegmentPageStart seg i).1 (miSegmentPageStart seg i).2 j = true) :
    i ≤ j ∧ j < i + n := by
  have hpos := miSegmentSliceSize_pos
  have hle : 1 * miSegmentSliceSize ≤ n * miSegmentSliceSize := Nat.mul_le_mul_right _ hn
  have hbig : 512 ≤ miSegmentSliceSize := by decide
  unfold miSegmentPageStart at h
  rw [hcount] at h
  simp only at h
  have hofs : (if (seg.slices i).xblockSize ≥ wordSize then
      if (seg.slices i).xblockSize ≤ 64 then 3 * (seg.slices i).xblockSize
      else if (seg.slices i).xblockSize ≤ 512 then (seg.slices i).xblockSize else 0
      else 0) ≤ 512 := by
    split
    · split
      · omega
      · split <;> omega
    · omega
  generalize (if (seg.slices i).xblockSize ≥ wordSize then
      if (seg.slices i).xblockSize ≤ 64 then 3 * (seg.slices i).xblockSize
      else if (seg.slices i).xblockSize ≤ 512 then (seg.slices i).xblockSize else 0
      else 0) = ofs at h hofs
  unfold inRange at h
  rw [decide_eq_true_iff] at h
  obtain ⟨hlo, hhi⟩ := h
  have hadd : i * miSegmentSliceSize + n * miSegmentSliceSize = (i + n) * miSegmentSliceSize :=
    (Nat.add_mul ..).symm
  refine ⟨?_, ?_⟩
  · have h₁ : i * miSegmentSliceSize < (j + 1) * miSegmentSliceSize := by omega
    have := (Nat.mul_lt_mul_right hpos).mp h₁
    omega
  · have h₁ : j * miSegmentSliceSize < (i + n) * miSegmentSliceSize := by omega
    exact (Nat.mul_lt_mul_right hpos).mp h₁

/-- `mi_segment_page_clear` -/
theorem pageClear_spec (env : Env) (t : T) (s : S) {info n : Nat} {hn : 0 < n} {heap : Option T}
    (hne : A ≠ []) (hlay : Layout info w.segment (A ++ ⟨n, hn, .page heap⟩ :: B))
    (howner : ∀ t', w.segment.threadId = some t' → t' = t)
    (hflags : w.segment.threadId = none → ∀ x ∈ A ++ B, x.use ≠ .free true)
    (hplace : Placed w.spans (place t s (A ++ ⟨n, hn, .page heap⟩ :: B) rest)) :
    ∀ w' slice, miSegmentPageClear env t s (total Span.count A) w = (w', slice) →
      ∃ (A' B' : List (Span T)) (a b : Nat) (hm : 0 < a + n + b), Before A A' a ∧ After B B' b ∧
        slice = total Span.count A' ∧
        Layout info w'.segment
          (A' ++ ⟨a + n + b, hm, .free w.segment.threadId.isSome⟩ :: B') ∧
        Placed w'.spans
          (place t s (A' ++ ⟨a + n + b, hm, .free w.segment.threadId.isSome⟩ :: B') rest) ∧
        SameFields { w.segment with used := w.segment.used - 1 } w'.segment ∧
        Untouched (UsedIn 0 (A ++ ⟨n, hn, .free false⟩ :: B)) w.segment w'.segment := by
  intro w' slice hr
  obtain ⟨h, R, hR⟩ := hlay.head
  have hhead : ∃ h R, A = ⟨info, h, .page none⟩ :: R := by
    cases A with
    | nil => exact absurd rfl hne
    | cons y A =>
        obtain ⟨rfl, -⟩ := List.cons.inj hR
        exact ⟨h, A, rfl⟩
  obtain ⟨hapartA, hapartB, -⟩ := List.isChain_append.mp hlay.apart
  obtain ⟨hA, hpage, hB⟩ := all_append.mp hlay.spans
  rw [Nat.zero_add] at hpage hB
  have hcount := hpage.count
  have htotal := hlay.total
  simp only [total_append, total_cons] at htotal
  have hout : ∀ j, UsedIn 0 (A ++ (⟨n, hn, .free false⟩ : Span T) :: B) j →
      ¬ (total Span.count A ≤ j ∧ j < total Span.count A + n) := by
    intro j hj hj'
    rw [usedIn_append, Nat.zero_add] at hj
    rcases hj with hj | ⟨hj, -⟩ | hj
    · have := hj.range
      omega
    · cases hj
    · have := hj.range
      simp only at this
      omega
  -- the memory of the page may be reset
  unfold miSegmentPageClear at hr
  obtain ⟨w₁, hw₁, hspans₁, hsame₁, hsafe₁, huntouched₁⟩ : ∃ w₁ : Work S T,
      (if (w.segment.allowDecommit && env.pageReset) = true then
        { w with
          segment := { w.segment with
            os := w.segment.os.purge (miSegmentPageStart w.segment (total Span.count A)).1
              (miSegmentPageStart w.segment (total Span.count A)).2 false } }
        else w) = w₁ ∧ w₁.spans = w.spans ∧ SameSpans w.segment w₁.segment ∧
      Safe w₁.segment (UsedIn 0 (A ++ ⟨n, hn, .free false⟩ :: B)) ∧
      Untouched (UsedIn 0 (A ++ ⟨n, hn, .free false⟩ :: B)) w.segment w₁.segment := by
    have hsafe : Safe w.segment (UsedIn 0 (A ++ ⟨n, hn, .free false⟩ :: B)) := by
      refine hlay.safe.mono fun j hj => ?_
      rw [usedIn_append] at hj ⊢
      rcases hj with hj | ⟨hj, -⟩ | hj
      · exact .inl hj
      · cases hj
      · exact .inr (.inr hj)
    refine ⟨_, rfl, ?_⟩
    split
    · refine ⟨rfl, ⟨⟨rfl, rfl, rfl, rfl, rfl, rfl, rfl, rfl⟩, rfl⟩, ?_, fun j _ => ⟨(w.segment.slices j).xheap, rfl⟩, ?_⟩
      · refine ⟨hsafe.1, fun j hj => ?_, hsafe.3, hsafe.4⟩
        have hback := hsafe.backed j hj
        simpa [OsMem.purge] using hback
      · intro j hj
        have hrange : inRange (miSegmentPageStart w.segment (total Span.count A)).1
            (miSegmentPageStart w.segment (total Span.count A)).2 j = false := by
          rw [Bool.eq_false_iff]
          exact fun hin => hout j hj (pageStart_inRange hn hcount hin)
        simp [OsMem.purge, hrange]
    · exact ⟨rfl, SameSpans.refl _, hsafe, Untouched.refl _ _⟩
  simp only [hw₁] at hr
  -- then its header becomes that of a span
  generalize hw₂ : (w₁.setSlice (total Span.count A) fun sl =>
    { sl with xblockSize := 1, xheap := none }) = w₂ at hr
  have hsl₂ : ∀ j, w₂.segment.slices j =
      if j = total Span.count A then { w.segment.slices j with xblockSize := 1, xheap := none }
      else w.segment.slices j := by
    intro j
    rw [← hw₂]
    simp only [Work.setSlice, setSlice_slices, hsame₁.slices]
    split
    · rename_i hj
      rw [hj]
    · rfl
  have hchanged₂ : Changed (UsedIn 0 (A ++ ⟨n, hn, .free false⟩ :: B)) w₁.segment w₂.segment := by
    rw [← hw₂]
    exact hsafe₁.setSlice (fun hj => hout _ hj ⟨Nat.le_refl _, by omega⟩) fun sl =>
      { sl with xblockSize := 1, xheap := none }
  have hthread₂ : w₂.segment.threadId = w.segment.threadId :=
    hchanged₂.same.threadId.trans hsame₁.threadId
  generalize hco : miSegmentSpanFreeCoalesce env t s (total Span.count A) w₂ = r at hr
  obtain ⟨w₃, slice₃⟩ := r
  simp only at hr
  obtain ⟨rfl, rfl⟩ := Prod.mk.inj hr
  obtain ⟨A', B', a, b, hm, hbefore, hafter, hslice, hlay', hplace', hchanged'⟩ :=
    spanFreeCoalesce_layout env t s hn
      (SpansOk.congr hA fun j _ hj => by rw [hsl₂, if_neg (by omega)])
      (SpansOk.congr hB fun j hj _ => by rw [hsl₂, if_neg (by omega)]) (by omega)
      (hchanged₂.same.sliceEntries.trans (hsame₁.sliceEntries.trans hlay.entries))
      (hchanged₂.same.segmentSlices.trans (hsame₁.segmentSlices.trans hlay.size)) hhead hapartA
      (List.isChain_cons.mp hapartB).2 (by rw [hsl₂, if_pos rfl]; exact hcount)
      (fun k hk => by
        rw [hsl₂]
        split
        · rfl
        · rw [hpage.back k hk (by omega)])
      (fun t' ht' => howner t' (hthread₂.symm.trans ht'))
      (fun hnone => hflags (hthread₂.symm.trans hnone))
      (by
        rw [← hw₂]
        show Placed w₁.spans _
        rw [hspans₁, place_use t s A B (x := ⟨n, hn, .page heap⟩) (y := ⟨n, hn, .free false⟩) rfl rfl
          rfl]
        exact hplace)
      hchanged₂.safe w₃ slice₃ hco
  rw [hthread₂] at hlay' hplace'
  refine ⟨A', B', a, b, hm, hbefore, hafter, hslice,
    ⟨hlay'.1, hlay'.2, hlay'.3, hlay'.4, hlay'.5, hlay'.6, ?_⟩, hplace', ?_, ?_⟩
  · exact ⟨hlay'.safe.1, hlay'.safe.2, hlay'.safe.3, hlay'.safe.4⟩
  · have hsame := hsame₁.toSameFields.trans (hchanged₂.same.trans hchanged'.same)
    exact ⟨hsame.1, hsame.2, hsame.3, congrArg (· - 1) hsame.4, hsame.5, hsame.6, hsame.7, hsame.8⟩
  · have huntouched := huntouched₁.trans (hchanged₂.untouched.trans hchanged'.untouched)
    exact ⟨huntouched.1, huntouched.2⟩

/-! ## Free spans leave the queues -/

/-- The span outside the queues. -/
def Span.unqueue (x : Span T) : Span T :=
  match x with
  | ⟨n, hn, .free _⟩ => ⟨n, hn, .free false⟩
  | x => x

omit [DecidableEq S] [DecidableEq T] in
theorem unqueue_count (x : Span T) : x.unqueue.count = x.count := by
  obtain ⟨n, hn, u⟩ := x
  cases u <;> rfl

omit [DecidableEq S] [DecidableEq T] in
theorem unqueue_isPage (x : Span T) : x.unqueue.isPage = x.isPage := by
  obtain ⟨n, hn, u⟩ := x
  cases u <;> rfl

omit [DecidableEq S] [DecidableEq T] in
theorem unqueue_queue (t : T) (x : Span T) : x.unqueue.queue t = none := by
  obtain ⟨n, hn, u⟩ := x
  cases u <;> rfl

omit [DecidableEq S] [DecidableEq T] in
theorem length_le_total (L : List (Span T)) : L.length ≤ total Span.count L := by
  induction L with
  | nil => exact Nat.le_refl 0
  | cons x L ih =>
      have := x.pos
      rw [List.length_cons, total_cons]
      omega

/-- The loop of `mi_segment_free`, from the spans `B` on. -/
theorem freeSpans_spec (t : T) (s : S) : ∀ (n : Nat) {w : Work S T} {A B : List (Span T)},
    B.length ≤ n → SpansOk w.segment.slices (total Span.count A) B →
    total Span.count A + total Span.count B = w.segment.sliceEntries →
    Safe w.segment (fun _ => False) → Placed w.spans (place t s (A ++ B) rest) →
    ∃ w', freeSpans t s n (total Span.count A) w = some w' ∧
      Placed w'.spans (place t s (A ++ B.map Span.unqueue) rest) := by
  intro n
  induction n with
  | zero =>
      intro w A B hlen _ htotal _ hplace
      obtain rfl := List.eq_nil_of_length_eq_zero (Nat.le_zero.mp hlen)
      simp only [total_nil, Nat.add_zero] at htotal
      refine ⟨w, ?_, by simpa using hplace⟩
      unfold freeSpans
      rw [if_neg (by omega)]
  | succ n ih =>
      intro w A B hlen hspans htotal hsafe hplace
      cases B with
      | nil =>
          simp only [total_nil, Nat.add_zero] at htotal
          refine ⟨w, ?_, by simpa using hplace⟩
          unfold freeSpans
          rw [if_neg (by omega)]
      | cons x B =>
          obtain ⟨k, hk, u⟩ := x
          simp only [total_cons] at htotal
          have hcount := spanOk_count hspans.1
          have hrest := hspans.2
          have hlen' : B.length ≤ n := by simpa using hlen
          unfold freeSpans
          rw [if_pos (by omega)]
          cases u with
          | page heap =>
              have hnext : total Span.count A + k =
                  total Span.count (A ++ [⟨k, hk, .page heap⟩]) := by simp
              rw [if_neg (mt (spanOk_xblock hspans.1).mp (by simp [Span.isPage]))]
              simp only [hcount, hnext] at hrest ⊢
              obtain ⟨w', hw', hplace'⟩ := ih hlen' hrest (by rw [← hnext]; omega) hsafe
                (by simpa using hplace)
              exact ⟨w', hw', by simpa [Span.unqueue] using hplace'⟩
          | free q =>
              have hnext : total Span.count A + k =
                  total Span.count (A ++ [⟨k, hk, .free false⟩]) := by simp
              rw [if_pos ((spanOk_xblock hspans.1).mpr rfl)]
              obtain ⟨hsl, hplace₁, hchanged⟩ := removeFromQueue_spec (U := fun _ => False) t s hcount
                hplace hsafe (fun h => h) _ rfl
              generalize miSegmentSpanRemoveFromQueue t s (total Span.count A) w = w₁ at *
              have hcount₁ : (w₁.segment.slices (total Span.count A)).sliceCount = k := by
                rw [hsl, if_pos rfl]
                exact hcount
              simp only [hcount₁, hnext]
              obtain ⟨w', hw', hplace'⟩ := ih (w := w₁) (A := A ++ [⟨k, hk, .free false⟩]) hlen'
                (by
                  rw [← hnext]
                  exact SpansOk.congr hrest fun j hj _ => by rw [hsl, if_neg (by omega)])
                (by rw [← hnext, hchanged.same.sliceEntries]; omega) hchanged.safe
                (by simpa using hplace₁)
              exact ⟨w', hw', by simpa [Span.unqueue] using hplace'⟩

/-- A free span is still one after it has left its queue. -/
theorem abandonSpan_segment (t : T) (s : S) {w : Work S T} {i : Nat}
    (h : (w.segment.slices i).xblockSize = 0) :
    ((miSegmentSpanRemoveFromQueue t s i w).setSlice i fun sl => { sl with xblockSize := 0 }).segment =
      w.segment := by
  have hslices : Function.update
      (Function.update w.segment.slices i { w.segment.slices i with xblockSize := 1 }) i
      { w.segment.slices i with xblockSize := 0 } = w.segment.slices := by
    rw [Function.update_idem, Function.update_eq_self_iff, ← h]
  unfold miSegmentSpanRemoveFromQueue miSpanQueueDelete Work.setSlice MiSegment.setSlice
  simp only [Function.update_self]
  rw [hslices]

/-- The loop of `mi_segment_abandon`, from the spans `B` on. -/
theorem abandonSpans_spec (t : T) (s : S) : ∀ (n : Nat) {w : Work S T} {A B : List (Span T)},
    B.length ≤ n → SpansOk w.segment.slices (total Span.count A) B →
    total Span.count A + total Span.count B = w.segment.sliceEntries →
    Safe w.segment (fun _ => False) → Placed w.spans (place t s (A ++ B) rest) →
    ∃ w', abandonSpans t s n (total Span.count A) w = some w' ∧ w'.segment = w.segment ∧
      Placed w'.spans (place t s (A ++ B.map Span.unqueue) rest) := by
  intro n
  induction n with
  | zero =>
      intro w A B hlen _ htotal _ hplace
      obtain rfl := List.eq_nil_of_length_eq_zero (Nat.le_zero.mp hlen)
      simp only [total_nil, Nat.add_zero] at htotal
      refine ⟨w, ?_, rfl, by simpa using hplace⟩
      unfold abandonSpans
      rw [if_neg (by omega)]
  | succ n ih =>
      intro w A B hlen hspans htotal hsafe hplace
      cases B with
      | nil =>
          simp only [total_nil, Nat.add_zero] at htotal
          refine ⟨w, ?_, rfl, by simpa using hplace⟩
          unfold abandonSpans
          rw [if_neg (by omega)]
      | cons x B =>
          obtain ⟨k, hk, u⟩ := x
          simp only [total_cons] at htotal
          have hcount := spanOk_count hspans.1
          have hrest := hspans.2
          have hlen' : B.length ≤ n := by simpa using hlen
          unfold abandonSpans
          rw [if_pos (by omega)]
          cases u with
          | page heap =>
              have hnext : total Span.count A + k =
                  total Span.count (A ++ [⟨k, hk, .page heap⟩]) := by simp
              rw [if_neg (mt (spanOk_xblock hspans.1).mp (by simp [Span.isPage]))]
              simp only [hcount, hnext] at hrest ⊢
              obtain ⟨w', hw', hsame, hplace'⟩ := ih hlen' hrest (by rw [← hnext]; omega) hsafe
                (by simpa using hplace)
              exact ⟨w', hw', hsame, by simpa [Span.unqueue] using hplace'⟩
          | free q =>
              have hnext : total Span.count A + k =
                  total Span.count (A ++ [⟨k, hk, .free false⟩]) := by simp
              have hxblock := (spanOk_xblock hspans.1).mpr rfl
              rw [if_pos hxblock]
              obtain ⟨-, hplace₁, -⟩ := removeFromQueue_spec (U := fun _ => False) t s hcount
                hplace hsafe (fun h => h) _ rfl
              have hsame₁ := abandonSpan_segment t s hxblock
              generalize hw₁ : ((miSegmentSpanRemoveFromQueue t s (total Span.count A) w).setSlice
                (total Span.count A) fun sl => { sl with xblockSize := 0 }) = w₁ at hsame₁ ⊢
              have hspans₁ : w₁.spans =
                  (miSegmentSpanRemoveFromQueue t s (total Span.count A) w).spans := by rw [← hw₁]; rfl
              rw [← hspans₁] at hplace₁
              simp only [hsame₁, hcount, hnext]
              obtain ⟨w', hw', hsame, hplace'⟩ := ih (w := w₁) (A := A ++ [⟨k, hk, .free false⟩]) hlen'
                (by rw [← hnext, hsame₁]; exact hrest)
                (by rw [← hnext, hsame₁]; omega) (by rw [hsame₁]; exact hsafe)
                (by simpa using hplace₁)
              exact ⟨w', hw', hsame.trans hsame₁, by simpa [Span.unqueue] using hplace'⟩

end

/-! ## What else leaves a segment laid out -/

theorem total_unqueue (L : List (Span T)) :
    total Span.count (L.map Span.unqueue) = total Span.count L := by
  induction L with
  | nil => rfl
  | cons x L ih => rw [List.map_cons, total_cons, total_cons, ih, unqueue_count]

theorem spanOk_unqueue {sl : Nat → MiSlice T} {i : Nat} {x : Span T} (h : SpanOk sl i x) :
    SpanOk sl i x.unqueue := by
  obtain ⟨n, hn, u⟩ := x
  cases u with
  | free q => exact h
  | page heap => exact h

theorem spansOk_unqueue {sl : Nat → MiSlice T} {i : Nat} {L : List (Span T)}
    (h : SpansOk sl i L) : SpansOk sl i (L.map Span.unqueue) := by
  induction L generalizing i with
  | nil => trivial
  | cons x L ih => exact ⟨spanOk_unqueue h.1, by rw [unqueue_count]; exact ih h.2⟩

theorem pages_unqueue (i : Nat) (L : List (Span T)) :
    pages i (L.map Span.unqueue) = pages i L := by
  induction L generalizing i with
  | nil => rfl
  | cons x L ih =>
      obtain ⟨n, hn, u⟩ := x
      cases u with
      | free q => exact ih (i + n)
      | page heap => exact congrArg (List.cons _) (ih (i + n))

theorem usedIn_unqueue {i j : Nat} {L : List (Span T)} :
    UsedIn i (L.map Span.unqueue) j ↔ UsedIn i L j := by
  rw [usedIn_iff_pages, usedIn_iff_pages, pages_unqueue]

section

variable {info : Nat} {seg seg' : MiSegment T} {A B L : List (Span T)}

theorem Layout.unqueue (h : Layout info seg L) : Layout info seg (L.map Span.unqueue) := by
  obtain ⟨h₁, R, rfl⟩ := h.head
  refine ⟨spansOk_unqueue h.spans, (total_unqueue _).trans h.total, h.entries, h.size,
    ⟨h₁, R.map Span.unqueue, rfl⟩, ?_, h.safe.mono fun j hj => usedIn_unqueue.mp hj⟩
  rw [List.isChain_map]
  refine h.apart.imp fun x y hxy => ?_
  unfold Apart
  rwa [unqueue_isPage, unqueue_isPage]

theorem Layout.purged (h : Layout info seg L) (hp : Purged (UsedIn 0 L) seg seg') :
    Layout info seg' L := by
  refine ⟨?_, h.total, hp.same.sliceEntries.trans h.entries, hp.same.segmentSlices.trans h.size,
    h.head, h.apart, hp.safe h.safe⟩
  rw [hp.same.slices]
  exact h.spans

/-- Fields that say nothing about spans may change. -/
theorem Layout.fields (h : Layout info seg L) (hslices : seg'.slices = seg.slices)
    (hentries : seg'.sliceEntries = seg.sliceEntries) (hsize : seg'.segmentSlices = seg.segmentSlices)
    (hcommit : seg'.commitMask = seg.commitMask) (hpurge : seg'.purgeMask = seg.purgeMask)
    (hos : seg'.os = seg.os) : Layout info seg' L := by
  refine ⟨?_, h.total, hentries.trans h.entries, hsize.trans h.size, h.head, h.apart, ?_⟩
  · rw [hslices]
    exact h.spans
  · refine ⟨?_, ?_, ?_, ?_⟩
    · rw [hcommit, hpurge]
      exact h.safe.purge_sub
    · rw [hcommit, hos]
      exact h.safe.backed
    · rw [hcommit]
      exact h.safe.commit
    · rw [hpurge]
      exact h.safe.purge

theorem usedIn_heap {i j n : Nat} {hn : 0 < n} (heap heap' : Option T) :
    UsedIn i (A ++ (⟨n, hn, .page heap⟩ : Span T) :: B) j ↔
      UsedIn i (A ++ (⟨n, hn, .page heap'⟩ : Span T) :: B) j := by
  simp only [usedIn_append, UsedIn, Span.isPage]

/-- The header of a page may get another heap and another size of blocks. -/
theorem Layout.setPage {n : Nat} {hn : 0 < n} {heap : Option T} (f : MiSlice T → MiSlice T)
    (heap' : Option T)
    (h : Layout info seg (A ++ ⟨n, hn, .page heap⟩ :: B)) (hne : A ≠ [])
    (hcount : ∀ sl, (f sl).sliceCount = sl.sliceCount)
    (hoffset : ∀ sl, (f sl).sliceOffset = sl.sliceOffset)
    (hxblock : ∀ sl : MiSlice T, 0 < sl.xblockSize → 0 < (f sl).xblockSize)
    (hheap : ∀ sl, (f sl).xheap = heap') :
    Layout info (seg.setSlice (Spans.total Span.count A) f) (A ++ ⟨n, hn, .page heap'⟩ :: B) := by
  obtain ⟨hA, hpage, hB⟩ := all_append.mp h.spans
  rw [Nat.zero_add] at hpage hB
  obtain ⟨h₁, R, hR⟩ := h.head
  have htotal := h.total
  refine ⟨all_append.mpr ⟨?_, ?_, ?_⟩, ?_, h.entries, h.size, ?_, ?_, ?_⟩
  · exact SpansOk.congr hA fun j _ hj => by rw [setSlice_slices, if_neg (by omega)]
  · rw [Nat.zero_add]
    have hhead : (seg.setSlice (Spans.total Span.count A) f).slices (Spans.total Span.count A) =
        f (seg.slices (Spans.total Span.count A)) := by rw [setSlice_slices, if_pos rfl]
    refine ⟨?_, ?_, ?_, ?_, hpage.small, ?_⟩
    · rw [hhead, hcount]
      exact hpage.count
    · rw [hhead, hoffset]
      exact hpage.offset
    · rw [hhead]
      exact hxblock _ hpage.xblock
    · rw [hhead, hheap]
    · intro k hk hk0
      rw [setSlice_slices, if_neg (by omega)]
      exact hpage.back k hk hk0
  · rw [Nat.zero_add]
    exact SpansOk.congr hB fun j hj _ => by rw [setSlice_slices, if_neg (by simp only at hj; omega)]
  · simpa only [total_append, total_cons] using htotal
  · cases A with
    | nil => exact absurd rfl hne
    | cons y A =>
        obtain ⟨rfl, -⟩ := List.cons.inj hR
        exact ⟨h₁, _, rfl⟩
  · obtain ⟨hapartA, hapartB, hpair⟩ := List.isChain_append.mp h.apart
    refine List.isChain_append.mpr ⟨hapartA, ?_, ?_⟩
    · cases B with
      | nil => exact List.isChain_singleton _
      | cons z B =>
          exact List.isChain_cons_cons.mpr ⟨.inl rfl, (List.isChain_cons_cons.mp hapartB).2⟩
    · rintro y hy z hz
      obtain rfl := Option.some.inj hz
      exact .inr rfl
  · have hsafe := h.safe.mono fun j => (usedIn_heap heap' heap).mp
    exact ⟨hsafe.1, hsafe.2, hsafe.3, hsafe.4⟩

end

/-! ## Counting pages -/

section

variable {info : Nat} {seg seg' : MiSegment T} {A B L : List (Span T)}

theorem pages_page (i : Nat) (A B : List (Span T)) (n : Nat) (hn : 0 < n) (heap : Option T) :
    pages i (A ++ ⟨n, hn, .page heap⟩ :: B) =
      pages i A ++ ⟨i + total Span.count A, n, heap⟩ :: pages (i + total Span.count A + n) B := by
  rw [pages_append]
  rfl

/-- A page that no heap has comes first. -/
def Headed (info : Nat) (L : List (Span T)) : Prop := ∃ h R, L = ⟨info, h, .page none⟩ :: R

theorem Headed.ne_nil (h : Headed info L) : L ≠ [] := by
  obtain ⟨h₁, R, rfl⟩ := h
  exact List.cons_ne_nil _ _

theorem Headed.left (h : Headed info (A ++ B)) (hne : A ≠ []) : Headed info A := by
  obtain ⟨h₁, R, hR⟩ := h
  cases A with
  | nil => exact absurd rfl hne
  | cons y A =>
      obtain ⟨rfl, -⟩ := List.cons.inj hR
      exact ⟨h₁, A, rfl⟩

/-- The span of the segment itself is none that is free, or of a heap. -/
theorem Headed.started {x : Span T} (h : Headed info (A ++ x :: B)) (hx : x.use ≠ .page none) :
    A ≠ [] := by
  rintro rfl
  obtain ⟨h₁, R, hR⟩ := h
  obtain ⟨rfl, -⟩ := List.cons.inj hR
  exact hx rfl

theorem Headed.started_page {n : Nat} {hn : 0 < n} {t : T}
    (h : Headed info (A ++ ⟨n, hn, .page (some t)⟩ :: B)) : A ≠ [] := h.started nofun

theorem Headed.loose (h : Headed info L) : 0 < (pages 0 L).countP fun p => p.heap.isNone := by
  obtain ⟨h₁, R, rfl⟩ := h
  simp [pages]

theorem Counted.unpage {n : Nat} {hn : 0 < n} {heap : Option T}
    (h : Counted seg (A ++ ⟨n, hn, .page heap⟩ :: B)) (seg' : MiSegment T) (hA : Headed info A)
    (hpages : pages 0 L = pages 0 A ++ pages (0 + total Span.count A + n) B)
    (hused : seg'.used = seg.used - 1)
    (habandoned : seg'.abandoned = if heap.isNone then seg.abandoned - 1 else seg.abandoned) :
    Counted seg' L := by
  obtain ⟨h₁, h₂⟩ := h
  have hloose := hA.loose
  have hlen : (pages 0 A).countP (fun p => p.heap.isNone) ≤ (pages 0 A).length :=
    List.countP_le_length
  rw [pages_page] at h₁ h₂
  rw [List.length_append, List.length_cons] at h₁
  rw [List.countP_append, List.countP_cons] at h₂
  refine ⟨?_, ?_⟩
  · rw [hpages, List.length_append]
    omega
  · rw [hpages, List.countP_append, habandoned]
    simp only at h₂
    split
    · rename_i hnone
      rw [if_pos hnone] at h₂
      omega
    · rename_i hsome
      rw [if_neg hsome] at h₂
      omega

theorem Counted.setHeap {n : Nat} {hn : 0 < n} {heap heap' : Option T}
    (h : Counted seg (A ++ ⟨n, hn, .page heap⟩ :: B)) (hused : seg'.used = seg.used)
    (habandoned : seg'.abandoned + (if heap.isNone then 1 else 0) =
      seg.abandoned + (if heap'.isNone then 1 else 0)) :
    Counted seg' (A ++ ⟨n, hn, .page heap'⟩ :: B) := by
  obtain ⟨h₁, h₂⟩ := h
  rw [pages_page] at h₁ h₂
  refine ⟨?_, ?_⟩
  · rw [pages_page, hused, h₁]
    simp
  · rw [pages_page, List.countP_append, List.countP_cons]
    rw [List.countP_append, List.countP_cons] at h₂
    simp only at h₂ ⊢
    omega

theorem Counted.congr {L' : List (Span T)} (h : Counted seg L) (hpages : pages 0 L' = pages 0 L)
    (hused : seg'.used = seg.used) (habandoned : seg'.abandoned = seg.abandoned) :
    Counted seg' L' :=
  ⟨by rw [hpages, hused, h.used], by rw [hpages, habandoned, h.abandoned]⟩

theorem exists_page {i n : Nat} {hn : 0 < n} {heap : Option T}
    (h : (⟨n, hn, .page heap⟩ : Span T) ∈ L) : ∃ p ∈ pages i L, p.heap = heap := by
  obtain ⟨A, B, rfl⟩ := List.append_of_mem h
  rw [pages_page]
  exact ⟨_, List.mem_append_right _ List.mem_cons_self, rfl⟩

/-- With as many pages abandoned as there are, all are. -/
theorem Counted.owned_none (h : Counted seg L) (he : seg.used = seg.abandoned) :
    ∀ x ∈ L.map Span.unqueue, Owned none x := by
  have hall : (pages 0 L).countP (fun p => p.heap.isNone) = (pages 0 L).length := by
    rw [← h.used, ← h.abandoned, he]
  intro x hx
  obtain ⟨n, hn, u⟩ := x
  cases u with
  | free q =>
      obtain ⟨y, -, hy⟩ := List.mem_map.mp hx
      obtain ⟨m, hm, v⟩ := y
      cases v with
      | free q' =>
          cases hy
          rfl
      | page heap => cases hy
  | page heap =>
      obtain ⟨p, hp, rfl⟩ := exists_page (i := 0) hx
      rw [pages_unqueue] at hp
      exact .inl (Option.isNone_iff_eq_none.mp (List.countP_eq_length.mp hall p hp))

theorem Before.owned {A' : List (Span T)} {a : Nat} {o : Option T} (h : Before A A' a)
    (hA : ∀ x ∈ A, Owned o x) : ∀ x ∈ A', Owned o x := fun x hx => hA x (h.subset hx)

theorem After.owned {B' : List (Span T)} {b : Nat} {o : Option T} (h : After B B' b)
    (hB : ∀ x ∈ B, Owned o x) : ∀ x ∈ B', Owned o x := fun x hx => hB x (h.subset hx)

theorem not_queued {o : Option T} (ho : o = none) (hL : ∀ x ∈ L, Owned o x) :
    ∀ x ∈ L, x.use ≠ .free true := by
  intro x hx hfree
  have howned := hL x hx
  unfold Owned at howned
  rw [hfree, ho] at howned
  cases howned

end

/-! ## The segment goes, or is abandoned -/

theorem layout_length {info : Nat} {seg : MiSegment T} {L : List (Span T)}
    (h : Layout info seg L) : L.length ≤ seg.sliceEntries := by
  have := length_le_total L
  rw [h.entries, ← h.total]
  exact this

section

variable [DecidableEq S] [DecidableEq T] {w : Work S T} {L A B : List (Span T)}
  {rest : S × Nat → Option (T × Nat)}

theorem segmentFree_spec (t : T) (s : S) {info : Nat} (hlay : Layout info w.segment L)
    (hplace : Placed w.spans (place t s L rest)) :
    ∃ w', miSegmentFree t s w = some w' ∧ Placed w'.spans (place t s [] rest) := by
  obtain ⟨w', hw', hplace'⟩ := freeSpans_spec (A := []) (B := L) t s w.segment.sliceEntries
    (layout_length hlay) hlay.spans (by rw [hlay.entries, hlay.total]; simp)
    (hlay.safe.mono fun _ h => h.elim) hplace
  unfold miSegmentFree
  simp only [total_nil] at hw'
  rw [hw']
  refine ⟨_, rfl, ?_⟩
  have hnone : place t s ([] ++ L.map Span.unqueue) rest = place t s [] rest := by
    funext c
    unfold place
    rw [List.nil_append, queueAt_none fun x hx => ?_]
    · rfl
    · obtain ⟨y, -, rfl⟩ := List.mem_map.mp hx
      exact unqueue_queue t y
  rw [← hnone]
  exact hplace'

theorem segmentAbandon_spec (env : Env) (t : T) (s : S) {info : Nat}
    (hlay : Layout info w.segment L) (hplace : Placed w.spans (place t s L rest)) :
    ∃ w', miSegmentAbandon env t s w = some w' ∧ Layout info w'.segment (L.map Span.unqueue) ∧
      Placed w'.spans (place t s (L.map Span.unqueue) rest) ∧
      w'.segment.used = w.segment.used ∧ w'.segment.abandoned = w.segment.abandoned ∧
      w'.segment.threadId = none ∧ Untouched (UsedIn 0 L) w.segment w'.segment := by
  obtain ⟨w₁, hw₁, hsame₁, hplace₁⟩ := abandonSpans_spec (A := []) (B := L) t s
    w.segment.sliceEntries (layout_length hlay) hlay.spans
    (by rw [hlay.entries, hlay.total]; simp) (hlay.safe.mono fun _ h => h.elim) hplace
  unfold miSegmentAbandon
  simp only [total_nil] at hw₁
  rw [hw₁]
  simp only [Option.map_some, hsame₁]
  have hpurged := miSegmentTryPurge_spec hlay.size env env.abandonedPagePurge hlay.safe
  generalize miSegmentTryPurge env w.segment env.abandonedPagePurge = seg at *
  refine ⟨_, rfl, ?_, hplace₁, hpurged.same.used, hpurged.same.abandoned, rfl, ?_⟩
  · exact (hlay.purged hpurged).unqueue.fields rfl rfl rfl rfl rfl rfl
  · refine ⟨fun j _ => ⟨(w.segment.slices j).xheap, ?_⟩, hpurged.kept⟩
    show seg.slices j = _
    rw [hpurged.same.slices]

/-- What has become of the segment, the one whose spans may change: none is left when it is gone. -/
structure Outcome (info : Nat) (t : T) (s : S) (rest : S × Nat → Option (T × Nat)) (w' : Work S T)
    (mapped : Bool) (L' : List (Span T)) : Prop where
  placed : Placed w'.spans (place t s L' rest)
  gone : mapped = false → L' = []
  good : mapped = true → Good info w'.segment L'
  owner : mapped = true → w'.segment.threadId = none ∨ w'.segment.threadId = some t

/-- A segment with all pages abandoned is abandoned. -/
theorem abandon_outcome (env : Env) (t : T) (s : S) {info : Nat} (hlay : Layout info w.segment L)
    (hplace : Placed w.spans (place t s L rest)) (hcounted : Counted w.segment L)
    (hused : 0 < w.segment.used) (he : w.segment.used = w.segment.abandoned) :
    ∃ w', miSegmentAbandon env t s w = some w' ∧
      Outcome info t s rest w' true (L.map Span.unqueue) ∧
      Untouched (UsedIn 0 L) w.segment w'.segment := by
  obtain ⟨w', hw', hlay', hplace', hused', habandoned', hthread', huntouched⟩ :=
    segmentAbandon_spec env t s hlay hplace
  refine ⟨w', hw', ⟨hplace', (fun h => by cases h), fun _ => ?_, fun _ => .inl hthread'⟩, huntouched⟩
  refine ⟨hlay', hcounted.congr (pages_unqueue 0 L) hused' habandoned', ?_, fun _ => ?_,
    fun h => absurd hthread' h⟩
  · rw [hthread']
    exact hcounted.owned_none he
  · rw [hused']
    exact hused

/-! ## A page is freed -/

/-- `_mi_segment_page_free` -/
theorem pageFree_spec (env : Env) (t : T) (s : S) {info n : Nat} {hn : 0 < n}
    (hgood : Good info w.segment (A ++ ⟨n, hn, .page (some t)⟩ :: B))
    (hplace : Placed w.spans (place t s (A ++ ⟨n, hn, .page (some t)⟩ :: B) rest)) :
    ∃ w' m L', miSegmentPageFree env t s (total Span.count A) w = some (w', m) ∧
      Outcome info t s rest w' m L' ∧
      (m = true → pages 0 L' = pages 0 A ++ pages (total Span.count A + n) B ∧
        Untouched (UsedIn 0 (A ++ ⟨n, hn, .free false⟩ :: B)) w.segment w'.segment) ∧
      (m = false → (pages 0 A ++ pages (total Span.count A + n) B).length = 1) := by
  have hthread : w.segment.threadId = some t := by
    have howned := hgood.owned ⟨n, hn, .page (some t)⟩ (by simp)
    rcases howned with h | h
    · cases h
    · exact h.symm
  have hne : A ≠ [] := Headed.started_page hgood.layout.head
  have hheaded : Headed info A := Headed.left hgood.layout.head hne
  -- the page leaves its heap
  unfold miSegmentPageFree
  generalize hw₁ : (w.setSlice (total Span.count A) fun sl => { sl with xheap := none }) = w₁
  have hlay₁ : Layout info w₁.segment (A ++ ⟨n, hn, .page none⟩ :: B) := by
    rw [← hw₁]
    exact Layout.setPage (fun sl => { sl with xheap := none }) none hgood.layout hne (fun _ => rfl)
      (fun _ => rfl) (fun _ h => h) fun _ => rfl
  have hplace₁ : Placed w₁.spans (place t s (A ++ ⟨n, hn, .page none⟩ :: B) rest) := by
    rw [← hw₁, place_use t s A B (x := ⟨n, hn, .page (some t)⟩) (y := ⟨n, hn, .page none⟩) rfl rfl rfl]
    exact hplace
  have hthread₁ : w₁.segment.threadId = some t := by
    rw [← hw₁]
    exact hthread
  have huntouched₁ : Untouched (UsedIn 0 (A ++ ⟨n, hn, .free false⟩ :: B)) w.segment w₁.segment := by
    rw [← hw₁]
    refine ⟨fun j _ => ?_, fun _ _ => rfl⟩
    simp only [Work.setSlice, setSlice_slices]
    split
    · rename_i hj
      exact ⟨none, by rw [hj]⟩
    · exact ⟨(w.segment.slices j).xheap, rfl⟩
  -- and becomes free
  simp only
  generalize hclear : miSegmentPageClear env t s (total Span.count A) w₁ = r
  obtain ⟨w₂, slice⟩ := r
  obtain ⟨A', B', a, b, hm, hbefore, hafter, -, hlay₂, hplace₂, hsame₂, huntouched₂⟩ :=
    pageClear_spec env t s hne hlay₁
      (fun t' ht' => (Option.some.inj (ht'.symm.trans hthread₁)))
      (fun hnone => by rw [hthread₁] at hnone; cases hnone) hplace₁ w₂ slice hclear
  rw [hthread₁] at hlay₂ hplace₂
  have hpages := pages_merged (i := 0) hbefore hafter hm (some t).isSome
  have hused₁ : w₁.segment.used = w.segment.used := by rw [← hw₁]; rfl
  have habandoned₁ : w₁.segment.abandoned = w.segment.abandoned := by rw [← hw₁]; rfl
  have hused₂ : w₂.segment.used = w.segment.used - 1 := hsame₂.used.trans (by rw [← hused₁])
  have habandoned₂ : w₂.segment.abandoned = w.segment.abandoned := hsame₂.abandoned.trans habandoned₁
  have hcounted₂ := hgood.counted.unpage w₂.segment hheaded hpages hused₂ habandoned₂
  have hthread₂ : w₂.segment.threadId = some t := hsame₂.threadId.trans hthread₁
  have huntouched := huntouched₁.trans huntouched₂
  have hsub : ∀ j, UsedIn 0 (A ++ (⟨n, hn, .free false⟩ : Span T) :: B) j →
      UsedIn 0 (A' ++ (⟨a + n + b, hm, .free (some t).isSome⟩ : Span T) :: B') j := by
    intro j hj
    rw [usedIn_iff_pages, hpages]
    rw [usedIn_iff_pages, pages_append] at hj
    exact hj
  rw [Nat.zero_add] at hpages
  simp only
  split
  · -- the page of the segment itself is the last
    rename_i hzero
    obtain ⟨w₃, hw₃, hplace₃⟩ := segmentFree_spec t s hlay₂ hplace₂
    rw [hw₃]
    refine ⟨w₃, false, [], rfl, ⟨hplace₃, fun _ => rfl, (fun h => by cases h), fun h => by cases h⟩,
      (fun h => by cases h), fun _ => ?_⟩
    rw [← hpages, ← hcounted₂.used, hzero]
  · rename_i hused
    split
    · rename_i he
      obtain ⟨w₃, hw₃, houtcome, huntouched₃⟩ := abandon_outcome env t s hlay₂ hplace₂ hcounted₂
        (Nat.pos_of_ne_zero hused) he
      rw [hw₃]
      refine ⟨w₃, true, _, rfl, houtcome, fun _ => ⟨(pages_unqueue 0 _).trans hpages, ?_⟩,
        fun h => by cases h⟩
      exact huntouched.trans (huntouched₃.mono hsub)
    · rename_i hne'
      refine ⟨w₂, true, _, rfl, ⟨hplace₂, (fun h => by cases h), fun _ => ?_, fun _ => .inr hthread₂⟩,
        fun _ => ⟨hpages, huntouched⟩, fun h => by cases h⟩
      refine ⟨hlay₂, hcounted₂, ?_, fun hnone => ?_, fun _ => .inr ?_⟩
      · rw [hthread₂]
        intro x hx
        have howned := hgood.owned
        rw [hthread] at howned
        rcases List.mem_append.mp hx with hx | hx
        · exact howned x (List.mem_append_left _ (hbefore.subset hx))
        · rcases List.mem_cons.mp hx with rfl | hx
          · rfl
          · exact howned x (List.mem_append_right _ (List.mem_cons_of_mem _ (hafter.subset hx)))
      · rw [hthread₂] at hnone
        cases hnone
      · have hbusy := hgood.busy (by rw [hthread]; exact Option.some_ne_none t)
        omega

/-! ## A page is abandoned -/

/-- `_mi_segment_page_abandon` -/
theorem pageAbandon_spec (env : Env) (t : T) (s : S) {info n : Nat} {hn : 0 < n}
    (hgood : Good info w.segment (A ++ ⟨n, hn, .page (some t)⟩ :: B))
    (hplace : Placed w.spans (place t s (A ++ ⟨n, hn, .page (some t)⟩ :: B) rest)) :
    ∃ w' L', miSegmentPageAbandon env t s (total Span.count A) w = some w' ∧
      Outcome info t s rest w' true L' ∧ pages 0 L' = pages 0 (A ++ ⟨n, hn, .page none⟩ :: B) ∧
      Untouched (UsedIn 0 L') w.segment w'.segment := by
  have hthread : w.segment.threadId = some t := by
    have howned := hgood.owned ⟨n, hn, .page (some t)⟩ (by simp)
    rcases howned with h | h
    · cases h
    · exact h.symm
  have hne : A ≠ [] := Headed.started_page hgood.layout.head
  unfold miSegmentPageAbandon
  generalize hw₁ : (w.setSlice (total Span.count A) fun sl => { sl with xheap := none }) = w₁
  have hlay₁ : Layout info w₁.segment (A ++ ⟨n, hn, .page none⟩ :: B) := by
    rw [← hw₁]
    exact Layout.setPage (fun sl => { sl with xheap := none }) none hgood.layout hne (fun _ => rfl)
      (fun _ => rfl) (fun _ h => h) fun _ => rfl
  have hplace₁ : Placed w₁.spans (place t s (A ++ ⟨n, hn, .page none⟩ :: B) rest) := by
    rw [← hw₁, place_use t s A B (x := ⟨n, hn, .page (some t)⟩) (y := ⟨n, hn, .page none⟩) rfl rfl rfl]
    exact hplace
  have huntouched₁ : ∀ U, Untouched U w.segment w₁.segment := by
    intro U
    rw [← hw₁]
    refine ⟨fun j _ => ?_, fun _ _ => rfl⟩
    simp only [Work.setSlice, setSlice_slices]
    split
    · rename_i hj
      exact ⟨none, by rw [hj]⟩
    · exact ⟨(w.segment.slices j).xheap, rfl⟩
  simp only
  generalize hw₂ : ({ w₁ with
    segment := { w₁.segment with abandoned := w₁.segment.abandoned + 1 } } : Work S T) = w₂
  have hlay₂ : Layout info w₂.segment (A ++ ⟨n, hn, .page none⟩ :: B) := by
    rw [← hw₂]
    exact hlay₁.fields rfl rfl rfl rfl rfl rfl
  have hplace₂ : Placed w₂.spans (place t s (A ++ ⟨n, hn, .page none⟩ :: B) rest) := by
    rw [← hw₂]
    exact hplace₁
  have huntouched₂ : ∀ U, Untouched U w.segment w₂.segment := by
    intro U
    rw [← hw₂]
    exact ⟨(huntouched₁ U).1, (huntouched₁ U).2⟩
  have hused₁ : w₁.segment.used = w.segment.used := by
    rw [← hw₁]
    rfl
  have habandoned₁ : w₁.segment.abandoned = w.segment.abandoned := by
    rw [← hw₁]
    rfl
  have hused₂ : w₂.segment.used = w.segment.used := by
    rw [← hw₂]
    exact hused₁
  have habandoned₂ : w₂.segment.abandoned = w.segment.abandoned + 1 := by
    rw [← hw₂, ← habandoned₁]
  have hthread₂ : w₂.segment.threadId = some t := by
    rw [← hw₂, ← hw₁]
    exact hthread
  have hcounted₂ : Counted w₂.segment (A ++ ⟨n, hn, .page none⟩ :: B) :=
    hgood.counted.setHeap hused₂ habandoned₂
  -- the page is one of those the segment counts
  have hpos : 0 < w.segment.used := by
    have hloose := (Headed.left hgood.layout.head hne).loose
    have hlen : (pages 0 A).countP (fun p => p.heap.isNone) ≤ (pages 0 A).length :=
      List.countP_le_length
    have hcount := hgood.counted.used
    rw [pages_page, List.length_append, List.length_cons] at hcount
    omega
  split
  · rename_i he
    obtain ⟨w₃, hw₃, houtcome, huntouched₃⟩ := abandon_outcome env t s hlay₂ hplace₂ hcounted₂
      (by rw [hused₂]; exact hpos) (by omega)
    refine ⟨w₃, _, hw₃, houtcome, pages_unqueue 0 _, (huntouched₂ _).trans ?_⟩
    exact huntouched₃.mono fun j hj => usedIn_unqueue.mp hj
  · rename_i hne'
    refine ⟨w₂, _, rfl, ⟨hplace₂, (fun h => by cases h), fun _ => ?_, fun _ => .inr hthread₂⟩, rfl,
      huntouched₂ _⟩
    refine ⟨hlay₂, hcounted₂, ?_, fun hnone => ?_, fun _ => .inr ?_⟩
    · rw [hthread₂]
      intro x hx
      have howned := hgood.owned
      rw [hthread] at howned
      rcases List.mem_append.mp hx with hx | hx
      · exact howned x (List.mem_append_left _ hx)
      · rcases List.mem_cons.mp hx with rfl | hx
        · exact .inl rfl
        · exact howned x (List.mem_append_right _ (List.mem_cons_of_mem _ hx))
    · rw [hthread₂] at hnone
      cases hnone
    · have hbusy := hgood.busy (by rw [hthread]; exact Option.some_ne_none t)
      omega

end

end EflCore.Mimalloc
