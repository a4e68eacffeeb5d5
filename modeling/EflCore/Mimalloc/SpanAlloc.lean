/-
# `EflCore.Mimalloc.SpanAlloc` — pages out of free spans

`mi_segments_page_find_and_allocate` takes a free span that is large enough, splits it, and makes a
page of the first part.  The memory of the page has to be committed; when the system refuses, the two
parts are coalesced again.

**Proved here.**

| | spans before | spans after |
| :-- | :-- | :-- |
| `miSegmentsPageTake`, committed | `A ++ free N :: B` | `A ++ page n :: free (N - n) :: B` |
| `miSegmentsPageTake`, refused | `A ++ free N :: B` | the same |
| `miSegmentAlloc` | none | `[page info, free (512 - info)]` |
-/
import EflCore.Mimalloc.SpanMap

namespace EflCore.Mimalloc

open Spans DoublyLinked

variable {T S : Type}

/-! ## The slices of a page -/

/-- The slices that `mi_segment_span_allocate` sets. -/
def pageSlices (sl : Nat → MiSlice T) (i n j : Nat) : MiSlice T :=
  if j = i then
    { sl i with
      sliceOffset := 0
      sliceCount := n
      xblockSize :=
        if n * miSegmentSliceSize ≥ miHugeBlockSize then miHugeBlockSize
        else n * miSegmentSliceSize }
  else if i < j ∧ j < i + n then ⟨0, j - i, 1, (sl j).xheap⟩
  else sl j

theorem pageSlices_ok {sl : Nat → MiSlice T} {i n : Nat} (hn : 0 < n)
    (hsmall : n ≤ miMaxSliceOffset + 1) (hheap : ∀ k < n, (sl (i + k)).xheap = none) :
    PageOk (pageSlices sl i n) i n none := by
  have hhead : pageSlices sl i n i = { sl i with
      sliceOffset := 0
      sliceCount := n
      xblockSize :=
        if n * miSegmentSliceSize ≥ miHugeBlockSize then miHugeBlockSize
        else n * miSegmentSliceSize } := if_pos rfl
  refine ⟨by rw [hhead], by rw [hhead], ?_, ?_, hsmall, ?_⟩
  · rw [hhead]
    simp only
    split
    · decide
    · exact Nat.mul_pos hn miSegmentSliceSize_pos
  · rw [hhead]
    exact hheap 0 hn
  · intro k hk hk0
    unfold pageSlices
    rw [if_neg (by omega), if_pos (by omega), hheap k hk, Nat.add_sub_cancel_left]

theorem pageSlices_outside {sl : Nat → MiSlice T} {i n j : Nat} (hn : 0 < n)
    (hj : ¬ (i ≤ j ∧ j < i + n)) : pageSlices sl i n j = sl j := by
  unfold pageSlices
  rw [if_neg (by omega), if_neg (by omega)]

theorem setBackOffsets_slices (seg : MiSegment T) (i extra j : Nat) :
    (setBackOffsets i extra seg).slices j =
      if i < j ∧ j ≤ i + extra then ⟨0, j - i, 1, (seg.slices j).xheap⟩ else seg.slices j := by
  induction extra with
  | zero =>
      rw [if_neg (by omega)]
      rfl
  | succ extra ih =>
      unfold setBackOffsets
      rw [setSlice_slices]
      by_cases hj : j = i + (extra + 1)
      · rw [if_neg (by omega)] at ih
        rw [if_pos hj, if_pos (by omega), ← hj, ih, hj, Nat.add_sub_cancel_left]
      · rw [if_neg hj, ih]
        by_cases hjl : i < j ∧ j ≤ i + extra
        · rw [if_pos hjl, if_pos (by omega)]
        · rw [if_neg hjl, if_neg (by omega)]

theorem setBackOffsets_fields (seg : MiSegment T) (i extra : Nat) :
    SameFields seg (setBackOffsets i extra seg) ∧ (setBackOffsets i extra seg).os = seg.os ∧
      (setBackOffsets i extra seg).commitMask = seg.commitMask ∧
      (setBackOffsets i extra seg).purgeMask = seg.purgeMask := by
  induction extra with
  | zero => exact ⟨SameFields.refl seg, rfl, rfl, rfl⟩
  | succ extra ih =>
      obtain ⟨hsame, hos, hcommit, hpurge⟩ := ih
      exact ⟨hsame.trans ⟨rfl, rfl, rfl, rfl, rfl, rfl, rfl, rfl⟩, hos, hcommit, hpurge⟩

theorem SameFields.used_succ {seg seg' : MiSegment T} (h : SameFields seg seg') :
    SameFields { seg with used := seg.used + 1 } { seg' with used := seg'.used + 1 } :=
  ⟨h.1, h.2, h.3, congrArg (· + 1) h.4, h.5, h.6, h.7, h.8⟩

section

variable {w w' : Work S T} {U : Nat → Prop}

/-- `mi_segment_span_allocate` makes a page of slices, or leaves all as it was. -/
theorem spanAllocate_spec (env : Env) {i n : Nat} (hn : 0 < n) (hsmall : n ≤ miMaxSliceOffset + 1)
    (hend : i + n ≤ miSlicesPerSegment) (hentries : w.segment.sliceEntries = miSlicesPerSegment)
    (hsize : w.segment.segmentSlices = miSlicesPerSegment) (hsafe : Safe w.segment U) {ok : Bool}
    (hr : miSegmentSpanAllocate env i n w = (w', ok)) :
    w'.spans = w.spans ∧ w'.segment.os.purges = w.segment.os.purges ∧
      (ok = false → SameSpans w.segment w'.segment ∧ Safe w'.segment U) ∧
      (ok = true →
        SameFields { w.segment with used := w.segment.used + 1 } w'.segment ∧
        Safe w'.segment (fun j => U j ∨ i ≤ j ∧ j < i + n) ∧
        ∀ j, w'.segment.slices j = pageSlices w.segment.slices i n j) := by
  unfold miSegmentSpanAllocate at hr
  generalize hcommit : miSegmentEnsureCommitted env w.segment (i * miSegmentSliceSize)
    (n * miSegmentSliceSize) = r at hr
  obtain ⟨ok', seg₁⟩ := r
  obtain ⟨hsame₁, hpurges₁, hsafe₁, hgrown⟩ :=
    miSegmentEnsureCommitted_spec hsize env hn hend hsafe hcommit
  simp only at hr
  cases ok' with
  | false =>
      simp only [Bool.not_false, if_true] at hr
      obtain ⟨rfl, rfl⟩ := Prod.mk.inj hr
      exact ⟨rfl, hpurges₁, fun _ => ⟨hsame₁, hsafe₁⟩, fun h => by cases h⟩
  | true =>
      simp only [Bool.not_true, Bool.false_eq_true, if_false] at hr
      have hextra : (if n - 1 > miMaxSliceOffset then miMaxSliceOffset else n - 1) = n - 1 :=
        if_neg (by omega)
      have hend₁ : (if i + (n - 1) ≥ miSlicesPerSegment then miSlicesPerSegment - i - 1
          else n - 1) = n - 1 := if_neg (by omega)
      have hend₂ : (if i + n - 1 > miSlicesPerSegment then miSlicesPerSegment else i + n - 1) =
          i + n - 1 := if_neg (by omega)
      -- the header, then the slices behind it
      generalize hseg₂ : seg₁.setSlice i _ = seg₂ at hr
      have hsl₂ : ∀ j, seg₂.slices j = if j = i then _ else w.segment.slices j := fun j => by
        rw [← hseg₂, setSlice_slices, hsame₁.slices]
      have hentries₂ : seg₂.sliceEntries = miSlicesPerSegment := by
        rw [← hseg₂]
        exact hsame₁.sliceEntries.trans hentries
      have hsame₂ : SameFields w.segment seg₂ := by
        rw [← hseg₂]
        exact hsame₁.toSameFields.trans ⟨rfl, rfl, rfl, rfl, rfl, rfl, rfl, rfl⟩
      obtain ⟨hsame₃, hos₃, hcommit₃, hpurge₃⟩ := setBackOffsets_fields seg₂ i (n - 1)
      have hsl₃ := setBackOffsets_slices seg₂ i (n - 1)
      have hentries₃ := hsame₃.sliceEntries.trans hentries₂
      simp only [hextra, hentries₂, hend₁] at hr
      generalize setBackOffsets i (n - 1) seg₂ = seg₃ at hr hsame₃ hos₃ hcommit₃ hpurge₃ hsl₃ hentries₃
      simp only [hentries₃, hend₂] at hr
      have hsafe₃ : Safe seg₃ fun j => U j ∨ i ≤ j ∧ j < i + n := by
        have hg := hgrown rfl
        refine ⟨?_, ?_, ?_, ?_⟩
        · rw [hpurge₃, hcommit₃, ← hseg₂]
          exact hg.purge_sub
        · rw [hcommit₃, hos₃, ← hseg₂]
          exact hg.backed
        · rw [hcommit₃, ← hseg₂]
          exact hg.commit
        · rw [hpurge₃, ← hseg₂]
          exact hg.purge
      have hpurges₃ : seg₃.os.purges = w.segment.os.purges := by
        rw [hos₃, ← hseg₂]
        exact hpurges₁
      obtain ⟨rfl, rfl⟩ := Prod.mk.inj hr
      refine ⟨rfl, ?_, fun h => (by cases h), fun _ => ⟨?_, ?_, ?_⟩⟩
      · split
        · exact hpurges₃
        · exact hpurges₃
      · have hsame := (hsame₂.trans hsame₃).used_succ
        split
        · exact hsame.trans ⟨rfl, rfl, rfl, rfl, rfl, rfl, rfl, rfl⟩
        · exact hsame
      · split
        · exact ⟨hsafe₃.purge_sub, hsafe₃.backed, hsafe₃.commit, hsafe₃.purge⟩
        · exact ⟨hsafe₃.purge_sub, hsafe₃.backed, hsafe₃.commit, hsafe₃.purge⟩
      · -- the last slice is written twice, the same both times
        intro j
        have hj₃ : seg₃.slices j = pageSlices w.segment.slices i n j := by
          rw [hsl₃, hsl₂]
          unfold pageSlices
          by_cases hji : j = i
          · subst hji
            rw [if_neg (by omega), if_pos rfl, if_pos rfl]
          · rw [if_neg hji, if_neg hji]
            by_cases hjn : i < j ∧ j < i + n
            · rw [if_pos (by omega), if_pos hjn]
            · rw [if_neg (by omega), if_neg hjn]
        split
        · simp only [setSlice_slices]
          split
          · rename_i hlast hj
            subst hj
            rw [hj₃]
            unfold pageSlices
            rw [if_neg (by omega), if_pos (by omega)]
          · exact hj₃
        · exact hj₃

end

/-! ## Taking a free span -/

/-- What is behind a page of `n` slices, out of a free span of `N`. -/
def behind (n N : Nat) (B : List (Span T)) : List (Span T) :=
  if h : n < N then ⟨N - n, Nat.sub_pos_of_lt h, .free true⟩ :: B else B

theorem total_behind {n N : Nat} (h : n ≤ N) (B : List (Span T)) :
    n + total Span.count (behind n N B) = N + total Span.count B := by
  unfold behind
  split
  · rw [total_cons]
    simp only
    omega
  · omega

theorem usedIn_behind {n N i j : Nat} (h : n ≤ N) (B : List (Span T)) :
    UsedIn (i + n) (behind n N B) j ↔ UsedIn (i + N) B j := by
  unfold behind
  split
  · simp only [UsedIn, Span.isPage, Bool.false_eq_true, false_and, false_or]
    rw [show i + n + (N - n) = i + N by omega]
  · rw [show n = N by omega]

theorem Before.eq_of_page {A A' : List (Span T)} {a : Nat} (h : Before A A' a)
    (hlast : ∀ y, A.getLast? = some y → y.isPage = true) : A' = A ∧ a = 0 := by
  rcases h with ⟨rfl, rfl, -⟩ | ⟨ha, q, rfl⟩
  · exact ⟨rfl, rfl⟩
  · exact absurd (hlast _ List.getLast?_concat) (by simp [Span.isPage])

theorem after_behind {B B' : List (Span T)} {n N b : Nat} (h : n ≤ N)
    (hfirst : ∀ y, B.head? = some y → y.isPage = true) (hafter : After (behind n N B) B' b) :
    B' = B ∧ n + b = N := by
  unfold behind at hafter
  split at hafter
  · rcases hafter with ⟨-, -, hpage⟩ | ⟨hb, q, he⟩
    · cases hpage _ rfl
    · obtain ⟨hspan, rfl⟩ := List.cons.inj he
      obtain rfl := congrArg Span.count hspan
      exact ⟨rfl, by simp only; omega⟩
  · rcases hafter with ⟨rfl, rfl, -⟩ | ⟨hb, q, rfl⟩
    · exact ⟨rfl, by omega⟩
    · cases hfirst _ rfl

section

variable [DecidableEq S] [DecidableEq T] {w : Work S T} {A B : List (Span T)}
  {rest : S × Nat → Option (T × Nat)}

/-- A free span comes out of its queue and is split, before it becomes a page. -/
theorem split_spec (env : Env) (t : T) (s : S) {N n : Nat} {hN : 0 < N} {q : Bool} (hn : 0 < n)
    (hnN : n ≤ N) (hspans : SpansOk w.segment.slices 0 (A ++ ⟨N, hN, .free q⟩ :: B))
    (htotal : total Span.count (A ++ (⟨N, hN, .free q⟩ : Span T) :: B) = miSlicesPerSegment)
    (hsize : w.segment.segmentSlices = miSlicesPerSegment) (howner : w.segment.threadId = some t)
    (hplace : Placed w.spans (place t s (A ++ ⟨N, hN, .free q⟩ :: B) rest))
    (hsafe : Safe w.segment (UsedIn 0 (A ++ ⟨N, hN, .free q⟩ :: B))) :
    ∃ w₁, miSpanQueueDelete (miSpanQueueFor t N) s (total Span.count A) w = w₁ ∧
      (w₁.segment.slices (total Span.count A)).sliceCount = N ∧
      ∃ w₂, (if N > n then miSegmentSliceSplit env t s (total Span.count A) n w₁ else w₁) = w₂ ∧
        (w₂.segment.slices (total Span.count A)).sliceCount = n ∧
        (∀ k < n, (w₂.segment.slices (total Span.count A + k)).xheap = none) ∧
        SpansOk w₂.segment.slices 0 A ∧
        SpansOk w₂.segment.slices (total Span.count A + n) (behind n N B) ∧
        Placed w₂.spans (place t s (A ++ ⟨n, hn, .free false⟩ :: behind n N B) rest) ∧
        Changed (UsedIn 0 (A ++ ⟨N, hN, .free q⟩ :: B)) w.segment w₂.segment := by
  obtain ⟨hA, hfree, hB⟩ := all_append.mp hspans
  rw [Nat.zero_add] at hfree hB
  simp only [total_append, total_cons] at htotal
  have hout : ∀ {j}, total Span.count A ≤ j → j < total Span.count A + N →
      ¬ UsedIn 0 (A ++ (⟨N, hN, .free q⟩ : Span T) :: B) j := by
    intro j hlo hhi hj
    rw [usedIn_append, Nat.zero_add] at hj
    rcases hj with hj | ⟨hj, -⟩ | hj
    · have := hj.range
      omega
    · cases hj
    · have := hj.range
      simp only at this
      omega
  -- out of the queue
  have hcount := hfree.count
  simp only at hcount
  obtain ⟨hsl₁, hplace₁, hchanged₁⟩ := removeFromQueue_spec t s hcount hplace hsafe
    (hout (Nat.le_refl _) (by omega)) _ rfl
  have hdelete : miSegmentSpanRemoveFromQueue t s (total Span.count A) w =
      miSpanQueueDelete (miSpanQueueFor t N) s (total Span.count A) w := by
    unfold miSegmentSpanRemoveFromQueue
    rw [hcount]
  rw [hdelete] at hsl₁ hplace₁ hchanged₁
  generalize miSpanQueueDelete (miSpanQueueFor t N) s (total Span.count A) w = w₁ at *
  refine ⟨w₁, rfl, ?_, ?_⟩
  · rw [hsl₁, if_pos rfl]
    exact hcount
  have hheap : ∀ k < N, (w₁.segment.slices (total Span.count A + k)).xheap = none := by
    intro k hk
    rw [hsl₁]
    split
    · exact hfree.heap k hk
    · exact hfree.heap k hk
  have hsame₁ : ∀ j, ¬ (total Span.count A ≤ j ∧ j < total Span.count A + N) →
      w₁.segment.slices j = w.segment.slices j := by
    intro j hj
    rw [hsl₁, if_neg (by omega)]
  have hcount₁ : (w₁.segment.slices (total Span.count A)).sliceCount = N := by
    rw [hsl₁, if_pos rfl]
    exact hcount
  refine ⟨_, rfl, ?_⟩
  by_cases hlt : N > n
  · -- the rest of the span is free
    have hrest : 0 < N - n := Nat.sub_pos_of_lt hlt
    have hassoc : ∀ u : Use T, (A ++ [⟨n, hn, .free false⟩]) ++ ⟨N - n, hrest, u⟩ :: B =
        A ++ ⟨n, hn, .free false⟩ :: ⟨N - n, hrest, u⟩ :: B := fun u => by simp
    have htot : total Span.count (A ++ [⟨n, hn, .free false⟩]) = total Span.count A + n := by simp
    have hsplit := hplace₁
    rw [← place_merge t s A B (x := ⟨n, hn, .free false⟩) (y := ⟨N - n, hrest, .free false⟩)
      (by simp only; omega) rfl rfl rfl, ← hassoc] at hsplit
    rw [if_pos hlt]
    unfold miSegmentSliceSplit
    rw [hcount₁, if_neg (by omega)]
    obtain ⟨hsl₂, hplace₂, hchanged₂⟩ := spanFree_spec env t s hrest false
      (hchanged₁.same.segmentSlices.trans hsize) (by rw [htot]; omega)
      (fun t' ht' => by
        rw [hchanged₁.same.threadId, howner] at ht'
        exact (Option.some.inj ht').symm)
      hsplit hchanged₁.safe (fun j hj hj' => hout (by omega) (by omega) hj) _ rfl
    rw [hassoc, hchanged₁.same.threadId, howner] at hplace₂
    rw [htot] at hsl₂ hplace₂ hchanged₂
    simp only at hsl₂ hplace₂ hchanged₂ ⊢
    generalize miSegmentSpanFree env t s (total Span.count A + n) (N - n) false w₁ = w₂ at *
    have hsl : ∀ j, ((w₂.setSlice (total Span.count A) fun sl => { sl with sliceCount := n }).segment.slices j) =
        if j = total Span.count A then { w₁.segment.slices j with sliceCount := n }
        else freeSlices w₁.segment.slices (total Span.count A + n) (N - n) j := by
      intro j
      simp only [Work.setSlice, setSlice_slices, hsl₂]
      split
      · rename_i hj
        rw [hj, freeSlices_outside hrest (by omega)]
      · rfl
    have hbehind : behind n N B = ⟨N - n, hrest, .free true⟩ :: B := dif_pos hlt
    refine ⟨?_, ?_, ?_, ?_, ?_, ?_⟩
    · rw [hsl, if_pos rfl]
    · intro k hk
      rw [hsl]
      split
      · exact hheap k (by omega)
      · rw [freeSlices_outside hrest (by omega)]
        exact hheap k (by omega)
    · refine SpansOk.congr hA fun j _ hj => ?_
      rw [Nat.zero_add] at hj
      rw [hsl, if_neg (by omega), freeSlices_outside hrest (by omega), hsame₁ j (by omega)]
    · rw [hbehind]
      refine ⟨?_, ?_⟩
      · have hok : SpanOk (freeSlices w₁.segment.slices (total Span.count A + n) (N - n))
            (total Span.count A + n) ⟨N - n, hrest, .free true⟩ :=
          freeSlices_ok hrest fun k hk => by
            rw [Nat.add_assoc]
            exact hheap (n + k) (by omega)
        exact hok.congr fun j hj hj' => by rw [hsl, if_neg (by omega)]
      · simp only
        rw [show total Span.count A + n + (N - n) = total Span.count A + N by omega]
        refine SpansOk.congr hB fun j hj _ => ?_
        rw [hsl, if_neg (by omega), freeSlices_outside hrest (by omega), hsame₁ j (by omega)]
    · rw [hbehind]
      exact hplace₂
    · exact (hchanged₁.trans hchanged₂).trans (hchanged₂.safe.setSlice (i := total Span.count A)
        (hout (Nat.le_refl _) (by omega)) fun sl => { sl with sliceCount := n })
  · obtain rfl : n = N := by omega
    have hbehind : behind n n B = B := dif_neg hlt
    rw [if_neg hlt, hbehind]
    refine ⟨hcount₁, hheap, SpansOk.congr hA fun j _ hj => hsame₁ j (by omega), ?_, hplace₁, hchanged₁⟩
    exact SpansOk.congr hB fun j hj _ => hsame₁ j (by omega)

/-- `mi_segments_page_find_and_allocate`, with the span it has found. -/
theorem take_spec (env : Env) (t : T) (s : S) {info N n : Nat} {hN : 0 < N} {q : Bool} (hn : 0 < n)
    (hnN : n ≤ N) (hsmall : n ≤ miMaxSliceOffset + 1)
    (hlay : Layout info w.segment (A ++ ⟨N, hN, .free q⟩ :: B))
    (howner : w.segment.threadId = some t)
    (hplace : Placed w.spans (place t s (A ++ ⟨N, hN, .free q⟩ :: B) rest)) :
    ∀ w' o, miSegmentsPageTake env t (miSpanQueueFor t N) s (total Span.count A) n w = (w', o) →
      (∀ j, UsedIn 0 (A ++ (⟨N, hN, .free q⟩ : Span T) :: B) j →
        w'.segment.slices j = w.segment.slices j ∧ w'.segment.os.purges j = w.segment.os.purges j) ∧
      (o = none → Layout info w'.segment (A ++ ⟨N, hN, .free true⟩ :: B) ∧
        Placed w'.spans (place t s (A ++ ⟨N, hN, .free true⟩ :: B) rest) ∧
        SameFields w.segment w'.segment) ∧
      (∀ i, o = some i → i = total Span.count A ∧
        Layout info w'.segment (A ++ ⟨n, hn, .page none⟩ :: behind n N B) ∧
        Placed w'.spans (place t s (A ++ ⟨n, hn, .page none⟩ :: behind n N B) rest) ∧
        SameFields { w.segment with used := w.segment.used + 1 } w'.segment) := by
  intro w' o hr
  obtain ⟨h, R, hR⟩ := hlay.head
  have hne : A ≠ [] := by
    rintro rfl
    cases hR
  have hheadA : ∃ h R, A = ⟨info, h, .page none⟩ :: R := by
    cases A with
    | nil => exact absurd rfl hne
    | cons y A =>
        obtain ⟨rfl, -⟩ := List.cons.inj hR
        exact ⟨h, A, rfl⟩
  obtain ⟨hapartA, hapartB, hpair⟩ := List.isChain_append.mp hlay.apart
  have hlastA : ∀ y, A.getLast? = some y → y.isPage = true := by
    intro y hy
    rcases hpair y hy _ rfl with hpage | hpage
    · exact hpage
    · cases hpage
  have hfirstB : ∀ y, B.head? = some y → y.isPage = true := by
    intro y hy
    cases B with
    | nil => cases hy
    | cons z B =>
        obtain rfl := Option.some.inj hy
        rcases (List.isChain_cons_cons.mp hapartB).1 with hpage | hpage
        · cases hpage
        · exact hpage
  have htotal := hlay.total
  have hbehind := total_behind hnN B
  obtain ⟨w₁, hw₁, hcount₁, w₂, hw₂, hcount₂, hheap₂, hA₂, hB₂, hplace₂, hchanged₂⟩ :=
    split_spec env t s hn hnN hlay.spans htotal hlay.size howner hplace hlay.safe
  simp only [total_append, total_cons] at htotal
  unfold miSegmentsPageTake at hr
  rw [if_neg (Nat.pos_iff_ne_zero.mp hn)] at hr
  simp only [hw₁, hcount₁, hw₂, hcount₂] at hr
  generalize halloc : miSegmentSpanAllocate env (total Span.count A) n w₂ = r at hr
  obtain ⟨w₃, ok⟩ := r
  have hentries₂ := hchanged₂.same.sliceEntries.trans hlay.entries
  have hsize₂ := hchanged₂.same.segmentSlices.trans hlay.size
  obtain ⟨hspans₃, hpurges₃, hrefused, hallowed⟩ := spanAllocate_spec env hn hsmall (by omega)
    hentries₂ hsize₂ hchanged₂.safe halloc
  have hused : ∀ j, UsedIn 0 (A ++ (⟨N, hN, .free q⟩ : Span T) :: B) j ↔
      UsedIn 0 A j ∨ UsedIn (total Span.count A + N) B j := by
    intro j
    rw [usedIn_append, Nat.zero_add]
    simp [UsedIn, Span.isPage]
  cases ok with
  | true =>
      obtain ⟨hsame₃, hsafe₃, hsl₃⟩ := hallowed rfl
      simp only [Bool.not_true, Bool.false_eq_true, if_false] at hr
      obtain ⟨rfl, rfl⟩ := Prod.mk.inj hr
      refine ⟨?_, (fun e => by cases e), ?_⟩
      · intro j hj
        refine ⟨?_, ?_⟩
        · rw [hsl₃, pageSlices_outside hn, hchanged₂.slices j hj]
          intro hj'
          rcases (hused j).mp hj with hj | hj
          · have := hj.range
            omega
          · have := hj.range
            omega
        · rw [hpurges₃, hchanged₂.kept j hj]
      · rintro i hi
        obtain rfl := Option.some.inj hi
        refine ⟨rfl, ⟨?_, ?_, ?_, ?_, ?_, ?_, ?_⟩, ?_, ?_⟩
        · refine all_append.mpr ⟨?_, ?_, ?_⟩
          · refine SpansOk.congr hA₂ fun j _ hj => ?_
            rw [hsl₃, pageSlices_outside hn (by omega)]
          · have hok : SpanOk (pageSlices w₂.segment.slices (total Span.count A) n)
                (total Span.count A) ⟨n, hn, .page none⟩ := pageSlices_ok hn hsmall hheap₂
            rw [Nat.zero_add]
            exact hok.congr fun j _ _ => hsl₃ j
          · rw [Nat.zero_add]
            refine SpansOk.congr hB₂ fun j hj _ => ?_
            simp only at hj
            rw [hsl₃, pageSlices_outside hn (by omega)]
        · simp only [total_append, total_cons]
          omega
        · exact hsame₃.sliceEntries.trans hentries₂
        · exact hsame₃.segmentSlices.trans hsize₂
        · obtain ⟨h, R, rfl⟩ := hheadA
          exact ⟨h, _, rfl⟩
        · refine List.isChain_append.mpr ⟨hapartA, ?_, fun y hy z _ => .inl (hlastA y hy)⟩
          unfold behind
          split
          · refine List.isChain_cons_cons.mpr ⟨.inl rfl, ?_⟩
            cases B with
            | nil => exact List.isChain_singleton _
            | cons z B =>
                exact List.isChain_cons_cons.mpr
                  ⟨.inr (hfirstB z rfl), (List.isChain_cons_cons.mp hapartB).2⟩
          · cases B with
            | nil => exact List.isChain_singleton _
            | cons z B =>
                exact List.isChain_cons_cons.mpr
                  ⟨.inl rfl, (List.isChain_cons_cons.mp hapartB).2⟩
        · refine hsafe₃.mono fun j hj => ?_
          rw [hused]
          rw [usedIn_append, Nat.zero_add] at hj
          rcases hj with hj | ⟨-, hj⟩ | hj
          · exact .inl (.inl hj)
          · exact .inr hj
          · exact .inl (.inr ((usedIn_behind hnN B).mp hj))
        · rw [hspans₃]
          rw [place_use t s A (behind n N B) (x := ⟨n, hn, .free false⟩) (y := ⟨n, hn, .page none⟩) rfl
            rfl rfl]
          exact hplace₂
        · exact hchanged₂.same.used_succ.trans hsame₃
  | false =>
      -- the two parts become what they were
      obtain ⟨hsame₃, hsafe₃⟩ := hrefused rfl
      simp only [Bool.not_false, if_true] at hr
      generalize hcoalesce : miSegmentSpanFreeCoalesce env t s (total Span.count A) w₃ = r at hr
      obtain ⟨w₄, slice⟩ := r
      obtain ⟨rfl, rfl⟩ := Prod.mk.inj hr
      rw [← hspans₃] at hplace₂
      rw [← hsame₃.slices] at hcount₂ hheap₂ hA₂ hB₂
      have hthread₃ : w₃.segment.threadId = some t := by
        rw [hsame₃.threadId, hchanged₂.same.threadId, howner]
      have hbehindApart : (behind n N B).IsChain Apart := by
        unfold behind
        split
        · cases B with
          | nil => exact List.isChain_singleton _
          | cons z B =>
              exact List.isChain_cons_cons.mpr
                ⟨.inr (hfirstB z rfl), (List.isChain_cons_cons.mp hapartB).2⟩
        · exact (List.isChain_cons.mp hapartB).2
      have hsafe₃' : Safe w₃.segment (UsedIn 0 (A ++ ⟨n, hn, .free false⟩ :: behind n N B)) := by
        refine hsafe₃.mono fun j hj => ?_
        rw [hused]
        rw [usedIn_append, Nat.zero_add] at hj
        rcases hj with hj | ⟨hj, -⟩ | hj
        · exact .inl hj
        · cases hj
        · exact .inr ((usedIn_behind hnN B).mp hj)
      obtain ⟨A', B', a, b, hm, hbefore, hafter, -, hlay', hplace', hchanged'⟩ :=
        spanFreeCoalesce_layout env t s hn hA₂ hB₂ (by omega)
          (hsame₃.sliceEntries.trans hentries₂) (hsame₃.segmentSlices.trans hsize₂) hheadA hapartA
          hbehindApart hcount₂ hheap₂
          (fun t' ht' => by rw [hthread₃] at ht'; exact (Option.some.inj ht').symm)
          (fun hnone => by rw [hthread₃] at hnone; cases hnone) hplace₂ hsafe₃' w₄ slice hcoalesce
      obtain ⟨rfl, rfl⟩ := hbefore.eq_of_page hlastA
      obtain ⟨rfl, hb⟩ := after_behind hnN hfirstB hafter
      have hspan : (⟨0 + n + b, hm, .free w₃.segment.threadId.isSome⟩ : Span T) =
          ⟨N, hN, .free true⟩ := by
        simp only [hthread₃, Option.isSome_some, Span.mk.injEq, and_true]
        omega
      rw [hspan] at hlay' hplace'
      refine ⟨?_, fun _ => ⟨hlay', hplace',
        hchanged₂.same.trans (hsame₃.toSameFields.trans hchanged'.same)⟩, fun i hi => by cases hi⟩
      intro j hj
      have hj' : UsedIn 0 (A' ++ ⟨n, hn, .free false⟩ :: behind n N B') j := by
        rw [usedIn_append, Nat.zero_add]
        rcases (hused j).mp hj with hj | hj
        · exact .inl hj
        · exact .inr (.inr ((usedIn_behind hnN B').mpr hj))
      refine ⟨?_, ?_⟩
      · rw [hchanged'.slices j hj', hsame₃.slices, hchanged₂.slices j hj]
      · rw [hchanged'.kept j hj', hpurges₃, hchanged₂.kept j hj]

end

/-! ## Segment allocation -/

section

variable [DecidableEq S] [DecidableEq T]

omit [DecidableEq T] in
theorem zeroLinks_eq {spans : SpanStore S T} {m : S × Nat → Option (T × Nat)} {s : S}
    (h : Placed spans m) (hs : ∀ i, m (s, i) = none) : zeroLinks s spans = spans := by
  have hnext : (fun c : S × Nat => if c.1 = s then none else spans.next c) = spans.next := by
    funext ⟨s', i⟩
    split
    · rename_i hs'
      obtain rfl : s' = s := hs'
      exact (h.loose (hs i)).1.symm
    · rfl
  have hprev : (fun c : S × Nat => if c.1 = s then none else spans.prev c) = spans.prev := by
    funext ⟨s', i⟩
    split
    · rename_i hs'
      obtain rfl : s' = s := hs'
      exact (h.loose (hs i)).2.symm
    · rfl
  unfold zeroLinks
  rw [hnext, hprev]

omit [DecidableEq T] in
theorem osAlloc_spec {env : Env} {memid : MemId} {info : Nat} (hinfo : 0 < info)
    (hend : info ≤ miSlicesPerSegment) {seg : MiSegment T}
    (hr : miSegmentOsAlloc env memid info = some seg) :
    Safe seg (fun _ => False) ∧ (∀ j, j < info → seg.commitMask.bit j = true) ∧
      seg.segmentSlices = miSlicesPerSegment ∧ seg.used = 0 ∧ seg.abandoned = 0 ∧
      ∀ j, seg.slices j = ⟨0, 0, 0, none⟩ := by
  have hneeded : (info * miSegmentSliceSize + miCommitSize - 1) / miCommitSize = info := by
    have hpos := miSegmentSliceSize_pos
    rw [show miCommitSize = miSegmentSliceSize from rfl, Nat.add_sub_assoc hpos, Nat.add_comm,
      Nat.add_mul_div_right _ _ hpos, Nat.div_eq_of_lt (by omega), Nat.zero_add]
  have hbits : ∀ j, (miCommitMaskCreate 0 info).bit j = true ↔ j < info := by
    intro j
    have hle : 0 + info ≤ miCommitMaskBits := by
      unfold miSlicesPerSegment at hend
      unfold miCommitMaskBits
      omega
    rw [bit_create hle, decide_eq_true_iff]
    omega
  unfold miSegmentOsAlloc at hr
  simp only [hneeded] at hr
  split at hr
  · cases hr
  · obtain rfl := Option.some.inj hr
    have hempty : ∀ j, miCommitMaskCreateEmpty.bit j = true → False := by
      intro j hj
      rw [bit_createEmpty] at hj
      cases hj
    refine ⟨⟨fun j hj => (hempty j hj).elim, ?_, fun _ h => h.elim, fun _ h => h.elim⟩, ?_, rfl, rfl,
      rfl, fun _ => rfl⟩
    · intro j hj
      cases hmem : memid.initiallyCommitted with
      | true => simp
      | false =>
          simp only [hmem, Bool.false_eq_true, if_false, hbits] at hj
          have hrange : inRange 0 (info * miCommitSize) j = true := by
            have h := (inRange_iff 0 info j).mpr ⟨Nat.zero_le j, by omega⟩
            rwa [Nat.zero_mul] at h
          simpa [OsMem.commit] using hrange
    · intro j hj
      cases hmem : memid.initiallyCommitted with
      | true =>
          simp only [if_true]
          exact bit_createFull (Nat.lt_of_lt_of_le hj hend)
      | false =>
          simp only [Bool.false_eq_true, if_false]
          exact (hbits j).mpr hj

/-- A segment starts as the page for itself and one free span. -/
theorem segmentAlloc_spec {env : Env} {memid : MemId} {info : Nat} (t : T) (s : S)
    (hinfo : 0 < info) (hsmall : info ≤ miMaxSliceOffset + 1) {spans : SpanStore S T}
    {rest : S × Nat → Option (T × Nat)}
    (hplace : Placed spans fun c => if c.1 = s then none else rest c) {seg : MiSegment T}
    (hos : miSegmentOsAlloc env memid info = some seg) :
    ∃ w, miSegmentAlloc env memid info t s spans = some w ∧
      ∃ hfree : 0 < miSlicesPerSegment - info,
        Layout info w.segment
          [⟨info, hinfo, .page none⟩, ⟨miSlicesPerSegment - info, hfree, .free true⟩] ∧
        Placed w.spans (place t s
          [⟨info, hinfo, .page none⟩, ⟨miSlicesPerSegment - info, hfree, .free true⟩] rest) ∧
        w.segment.threadId = some t ∧ w.segment.used = 0 ∧ w.segment.abandoned = 0 := by
  have hlt : info < miSlicesPerSegment := Nat.lt_of_le_of_lt hsmall (by decide)
  have hfree : 0 < miSlicesPerSegment - info := Nat.sub_pos_of_lt hlt
  obtain ⟨hsafe, hbits, hsize, hused, habandoned, hzero⟩ := osAlloc_spec hinfo (Nat.le_of_lt hlt) hos
  unfold miSegmentAlloc
  rw [hos, zeroLinks_eq hplace fun i => if_pos rfl]
  simp only
  generalize hseg : ({ seg with
    segmentInfoSlices := info
    threadId := some t
    sliceEntries := miSlicesPerSegment } : MiSegment T) = seg₁
  have hsafe₁ : Safe seg₁ fun _ => False := by
    rw [← hseg]
    exact ⟨hsafe.1, hsafe.2, hsafe.3, hsafe.4⟩
  have hsize₁ : seg₁.segmentSlices = miSlicesPerSegment := by
    rw [← hseg]
    exact hsize
  have hentries₁ : seg₁.sliceEntries = miSlicesPerSegment := by rw [← hseg]
  have hzero₁ : ∀ j, seg₁.slices j = ⟨0, 0, 0, none⟩ := by
    rw [← hseg]
    exact hzero
  -- the memory of the header is committed in advance
  have hok : (miSegmentEnsureCommitted env seg₁ (0 * miSegmentSliceSize)
      (info * miSegmentSliceSize)).1 = true := by
    refine miSegmentEnsureCommitted_ok hsize₁ env hinfo (by omega) fun j _ hj => ?_
    rw [← hseg]
    exact hbits j (by omega)
  generalize halloc : miSegmentSpanAllocate env 0 info (⟨seg₁, spans⟩ : Work S T) = r
  obtain ⟨w₂, ok⟩ := r
  obtain ⟨hspans₂, -, -, hallowed⟩ := spanAllocate_spec env hinfo hsmall (by omega) hentries₁ hsize₁
    hsafe₁ halloc
  have hok₂ : ok = true := by
    unfold miSegmentSpanAllocate at halloc
    generalize miSegmentEnsureCommitted env seg₁ (0 * miSegmentSliceSize)
      (info * miSegmentSliceSize) = e at halloc hok
    obtain ⟨ok', seg'⟩ := e
    obtain rfl : ok' = true := hok
    exact (Prod.mk.inj halloc).2.symm
  subst hok₂
  obtain ⟨hsame₂, hsafe₂, hsl₂⟩ := hallowed rfl
  simp only [Bool.not_true, Bool.false_eq_true, if_false]
  have hentries₂ : w₂.segment.sliceEntries = miSlicesPerSegment :=
    hsame₂.sliceEntries.trans hentries₁
  have hthread₂ : w₂.segment.threadId = some t := by
    rw [hsame₂.threadId, ← hseg]
  generalize hw₃ : ({ w₂ with segment := { w₂.segment with used := 0 } } : Work S T) = w₃
  rw [hentries₂]
  refine ⟨_, rfl, hfree, ?_⟩
  have htot : total Span.count [(⟨info, hinfo, .page none⟩ : Span T)] = info := by simp
  have hplace₃ : Placed w₃.spans (place t s
      ([⟨info, hinfo, .page none⟩] ++ ⟨miSlicesPerSegment - info, hfree, .free false⟩ :: []) rest) := by
    rw [← hw₃]
    show Placed w₂.spans _
    rw [hspans₂]
    refine cast (congrArg (Placed spans) (funext fun c => ?_)) hplace
    unfold place
    rw [queueAt_none (by simp [Span.queue])]
  have hsafe₃ : Safe w₃.segment (UsedIn 0 [(⟨info, hinfo, .page none⟩ : Span T)]) := by
    rw [← hw₃]
    refine Safe.mono (U := fun j => False ∨ 0 ≤ j ∧ j < 0 + info)
      ⟨hsafe₂.1, hsafe₂.2, hsafe₂.3, hsafe₂.4⟩ ?_
    rintro j (⟨-, hj⟩ | hj)
    · exact .inr hj
    · exact hj.elim
  obtain ⟨hsl₄, hplace₄, hchanged₄⟩ := spanFree_spec (w := w₃) (B := []) env t s hfree false
    (by rw [← hw₃]; exact hsame₂.segmentSlices.trans hsize₁) (by rw [htot]; omega)
    (fun t' ht' => by
      rw [← hw₃] at ht'
      exact (Option.some.inj (ht'.symm.trans hthread₂)))
    hplace₃ hsafe₃ (fun j hj hj' => by have := hj.range; omega) _ rfl
  rw [htot] at hsl₄ hplace₄ hchanged₄
  rw [show w₃.segment.threadId = some t by rw [← hw₃]; exact hthread₂] at hplace₄
  generalize miSegmentSpanFree env t s info (miSlicesPerSegment - info) false w₃ = w₄ at *
  have hsl₃ : ∀ j, w₃.segment.slices j = pageSlices seg₁.slices 0 info j := by
    rw [← hw₃]
    exact hsl₂
  have hheap : ∀ j, (w₃.segment.slices j).xheap = none := by
    intro j
    rw [hsl₃]
    unfold pageSlices
    split
    · simp only [hzero₁]
    · split
      · simp only [hzero₁]
      · simp only [hzero₁]
  refine ⟨⟨⟨?_, ?_, trivial⟩, ?_, ?_, ?_, ⟨hinfo, _, rfl⟩, ?_, ?_⟩, hplace₄, ?_, ?_, ?_⟩
  · have hok : SpanOk (pageSlices seg₁.slices 0 info) 0 ⟨info, hinfo, .page none⟩ :=
      pageSlices_ok hinfo hsmall fun k _ => by rw [hzero₁]
    refine hok.congr fun j _ hj => ?_
    simp only at hj
    rw [hsl₄, freeSlices_outside hfree (by omega), hsl₃]
  · have hok : SpanOk (freeSlices w₃.segment.slices info (miSlicesPerSegment - info)) info
        ⟨miSlicesPerSegment - info, hfree, .free true⟩ := freeSlices_ok hfree fun k _ => hheap _
    simp only [Nat.zero_add]
    exact hok.congr fun j _ _ => hsl₄ j
  · simp only [total_cons, total_nil]
    omega
  · rw [hchanged₄.same.sliceEntries, ← hw₃]
    exact hentries₂
  · rw [hchanged₄.same.segmentSlices, ← hw₃]
    exact hsame₂.segmentSlices.trans hsize₁
  · exact List.isChain_cons_cons.mpr ⟨.inl rfl, List.isChain_singleton _⟩
  · refine hchanged₄.safe.mono fun j hj => ?_
    rcases hj with hj | ⟨hj, -⟩ | hj
    · exact .inl hj
    · cases hj
    · exact hj.elim
  · rw [hchanged₄.same.threadId, ← hw₃]
    exact hthread₂
  · rw [hchanged₄.same.used, ← hw₃]
  · rw [hchanged₄.same.abandoned, ← hw₃]
    refine hsame₂.abandoned.trans ?_
    show seg₁.abandoned = 0
    rw [← hseg]
    exact habandoned

end

end EflCore.Mimalloc
