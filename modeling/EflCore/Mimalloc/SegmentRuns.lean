/-
# `EflCore.Mimalloc.SegmentRuns` — what threads do with segments, step by step

Threads allocate pages, free and abandon them, and visit the segments that others have abandoned.
For the threads a page is a range of slices that is held: by the thread of its heap, or by none.

| step | ranges |
| :-- | :-- |
| `pageAlloc` | take |
| `pageAllocFail`, `segmentAlloc` | stay |
| `pageFree` | release |
| `pageAbandon` | leave |
| `tryReclaim`, `collect`, `reclaimAll` | adopt |

**Proved here.**  Each step leaves all segments as they should be and is one of the steps of threads
that hold ranges; the slices and the memory of a range that is held before and after it stay as they
are (`Step.spec`).
-/
import EflCore.Lib.HeldRanges
import EflCore.Mimalloc.SpanSearch

namespace EflCore.Mimalloc

open Spans DoublyLinked

variable {T S : Type}

/-! ## Pages are allocated -/

theorem pages_behind {n N i : Nat} (h : n ≤ N) (B : List (Span T)) :
    pages (i + n) (behind n N B) = pages (i + N) B := by
  unfold behind
  split
  · simp only [pages]
    congr 1
    omega
  · congr 1
    omega

theorem slicesNeeded_pos {blockSize : Nat} (h : 0 < blockSize) : 0 < slicesNeeded blockSize := by
  unfold slicesNeeded miAlignUp miMediumPageSize miSmallObjSizeMax miMediumObjSizeMax
    miSegmentSliceSize
  simp only
  split
  · split <;> omega
  · split
    · split <;> omega
    · split <;> omega

theorem slicesNeeded_le {blockSize : Nat} (h : blockSize ≤ miLargeObjSizeMax) :
    slicesNeeded blockSize ≤ miMaxSliceOffset + 1 := by
  have hmax : miLargeObjSizeMax = 16777216 := by decide
  have hofs : miMaxSliceOffset = 255 := by decide
  unfold slicesNeeded miAlignUp miMediumPageSize miSmallObjSizeMax miMediumObjSizeMax
    miSegmentSliceSize
  simp only
  split
  · split <;> omega
  · split
    · split <;> omega
    · split <;> omega

theorem fullBlockSize_pos {seg : MiSegment T} {blockSize i : Nat} (hblock : 0 < blockSize)
    (hx : 0 < (seg.slices i).xblockSize) (hcount : 0 < (seg.slices i).sliceCount) :
    0 < fullBlockSize seg blockSize i := by
  have hsize : 0 < (seg.slices i).sliceCount * miSegmentSliceSize :=
    Nat.mul_pos hcount miSegmentSliceSize_pos
  unfold fullBlockSize
  split
  · unfold miPageBlockSize
    split
    · exact hx
    · rename_i hhuge
      have hmax : miHugeBlockSize = 2147483648 := rfl
      have hword : wordSize = 8 := rfl
      -- such a page starts at its first slice
      unfold miSegmentPageStart
      simp only
      rw [if_pos (by omega), if_neg (by omega), if_neg (by omega)]
      exact hsize
  · exact hblock

section

variable [DecidableEq S] [DecidableEq T] {w : Work S T} {A B : List (Span T)}
  {rest : S × Nat → Option (T × Nat)} {info : Nat} {t : T} {s : S}

/-- `_mi_segment_page_alloc` with the span that is found. -/
theorem pageAlloc_spec (env : Env) {N n : Nat} {hN : 0 < N} (hn : 0 < n) (hnN : n ≤ N)
    (hsmall : n ≤ miMaxSliceOffset + 1) {blockSize : Nat} (hblock : 0 < blockSize)
    (hgood : Good info w.segment (A ++ ⟨N, hN, .free true⟩ :: B))
    (howner : w.segment.threadId = some t)
    (hplace : Placed w.spans (place t s (A ++ ⟨N, hN, .free true⟩ :: B) rest)) {w' : Work S T}
    {i : Nat}
    (hr : miSegmentsPageTake env t (miSpanQueueFor t N) s (total Span.count A) n w = (w', some i)) :
    i = total Span.count A ∧ ∃ w'', miPageInitSlice t blockSize i
        { w' with segment := miSegmentTryPurge env w'.segment false } = w'' ∧
      Outcome info t s rest w'' true (A ++ ⟨n, hn, .page (some t)⟩ :: behind n N B) ∧
      Untouched (UsedIn 0 (A ++ (⟨N, hN, .free true⟩ : Span T) :: B)) w.segment w''.segment := by
  obtain ⟨hkept, -, hsome⟩ := take_spec env t s hn hnN hsmall hgood.layout howner hplace w' _ hr
  obtain ⟨rfl, hlay, hplace', hsame⟩ := hsome i rfl
  have hne : A ≠ [] := by
    rintro rfl
    obtain ⟨h₁, R, hR⟩ := hgood.layout.head
    cases hR
  have hused : ∀ j, UsedIn 0 (A ++ (⟨N, hN, .free true⟩ : Span T) :: B) j →
      UsedIn 0 (A ++ (⟨n, hn, .page none⟩ : Span T) :: behind n N B) j ∧ j ≠ total Span.count A := by
    intro j hj
    rw [usedIn_append, Nat.zero_add] at hj ⊢
    rcases hj with hj | ⟨hj, -⟩ | hj
    · have := hj.range
      exact ⟨.inl hj, by omega⟩
    · cases hj
    · have := hj.range
      simp only at this
      exact ⟨.inr (.inr ((usedIn_behind hnN B).mpr hj)), by omega⟩
  refine ⟨rfl, ?_⟩
  have hpurged := miSegmentTryPurge_spec hlay.size env false hlay.safe
  generalize miSegmentTryPurge env w'.segment false = seg at *
  refine ⟨_, rfl, ?_, ?_⟩
  · have hthread : seg.threadId = some t :=
      hpurged.same.threadId.trans (hsame.threadId.trans howner)
    have hlay₁ := hlay.purged hpurged
    have hpage : PageOk seg.slices (total Span.count A) n none :=
      hlay₁.spanOk ((at?_eq_some_iff Span.pos).mpr ⟨A, behind n N B, rfl, (Nat.zero_add _).symm⟩)
    have hfull : 0 < fullBlockSize seg blockSize (total Span.count A) :=
      fullBlockSize_pos hblock hpage.xblock (hpage.count ▸ hn)
    have hlay' := Layout.setPage
      (fun sl => { sl with
        xheap := some t
        xblockSize :=
          if fullBlockSize seg blockSize (total Span.count A) < miHugeBlockSize then
            fullBlockSize seg blockSize (total Span.count A)
          else miHugeBlockSize })
      (some t)
      hlay₁ hne (fun _ => rfl) (fun _ => rfl)
      (fun _ _ => by
        simp only
        split
        · exact hfull
        · decide) fun _ => rfl
    refine ⟨?_, (fun h => by cases h), fun _ => ?_, fun _ => .inr hthread⟩
    · show Placed w'.spans _
      rw [place_use t s A (behind n N B) (x := ⟨n, hn, .page none⟩) (y := ⟨n, hn, .page (some t)⟩) rfl
        rfl rfl]
      exact hplace'
    · have hcounted := hgood.counted
      have hpages : pages 0 (A ++ ⟨N, hN, .free true⟩ :: B) =
          pages 0 A ++ pages (0 + total Span.count A + N) B := by
        rw [pages_append]
        rfl
      have hpages' : pages 0 (A ++ ⟨n, hn, .page (some t)⟩ :: behind n N B) =
          pages 0 A ++ ⟨0 + total Span.count A, n, some t⟩ ::
            pages (0 + total Span.count A + N) B := by
        rw [pages_page, pages_behind hnN]
      refine ⟨hlay', ⟨?_, ?_⟩, ?_, fun hnone => ?_, fun _ => .inr ?_⟩
      · show seg.used + 1 = _
        rw [hpurged.same.used, hsame.used, hpages', List.length_append, List.length_cons]
        have hcount := hcounted.used
        rw [hpages, List.length_append] at hcount
        simp only
        omega
      · show seg.abandoned + 1 = _
        rw [hpurged.same.abandoned, hsame.abandoned, hpages', List.countP_append, List.countP_cons]
        have hcount := hcounted.abandoned
        rw [hpages, List.countP_append] at hcount
        simpa using hcount
      · show ∀ x ∈ _, Owned seg.threadId x
        rw [hthread]
        have howned := hgood.owned
        rw [howner] at howned
        intro x hx
        rcases List.mem_append.mp hx with hx | hx
        · exact howned x (List.mem_append_left _ hx)
        · rcases List.mem_cons.mp hx with rfl | hx
          · exact .inr rfl
          · unfold behind at hx
            split at hx
            · rcases List.mem_cons.mp hx with rfl | hx
              · rfl
              · exact howned x (List.mem_append_right _ (List.mem_cons_of_mem _ hx))
            · exact howned x (List.mem_append_right _ (List.mem_cons_of_mem _ hx))
      · exact absurd (hthread.symm.trans hnone) (fun h => by cases h)
      · show seg.abandoned < seg.used
        rw [hpurged.same.used, hpurged.same.abandoned, hsame.used, hsame.abandoned]
        show w.segment.abandoned < w.segment.used + 1
        have hbusy := hgood.busy (by rw [howner]; exact Option.some_ne_none t)
        have hle : (pages 0 (A ++ (⟨N, hN, .free true⟩ : Span T) :: B)).countP
            (fun p => p.heap.isNone) ≤ (pages 0 (A ++ ⟨N, hN, .free true⟩ :: B)).length :=
          List.countP_le_length
        rw [← hcounted.used, ← hcounted.abandoned] at hle
        omega
  · refine ⟨fun j hj => ?_, fun j hj => ?_⟩
    · obtain ⟨-, hji⟩ := hused j hj
      refine ⟨(w.segment.slices j).xheap, ?_⟩
      unfold miPageInitSlice Work.setSlice
      simp only
      rw [setSlice_slices, if_neg hji, hpurged.same.slices, (hkept j hj).1]
    · show seg.os.purges j = _
      rw [hpurged.kept j (hused j hj).1, (hkept j hj).2]

/-- When the memory is refused, all spans are as they were. -/
theorem pageAllocFail_spec (env : Env) {N n : Nat} {hN : 0 < N} (hn : 0 < n) (hnN : n ≤ N)
    (hsmall : n ≤ miMaxSliceOffset + 1)
    (hgood : Good info w.segment (A ++ ⟨N, hN, .free true⟩ :: B))
    (howner : w.segment.threadId = some t)
    (hplace : Placed w.spans (place t s (A ++ ⟨N, hN, .free true⟩ :: B) rest)) {w' : Work S T}
    (hr : miSegmentsPageTake env t (miSpanQueueFor t N) s (total Span.count A) n w = (w', none)) :
    Outcome info t s rest w' true (A ++ ⟨N, hN, .free true⟩ :: B) ∧
      Untouched (UsedIn 0 (A ++ (⟨N, hN, .free true⟩ : Span T) :: B)) w.segment w'.segment := by
  obtain ⟨hkept, hnone, -⟩ := take_spec env t s hn hnN hsmall hgood.layout howner hplace w' _ hr
  obtain ⟨hlay, hplace', hsame⟩ := hnone rfl
  refine ⟨⟨hplace', (fun h => by cases h), fun _ => ?_, fun _ => .inr (hsame.threadId.trans howner)⟩,
    fun j hj => ⟨(w.segment.slices j).xheap, by rw [(hkept j hj).1]⟩, fun j hj => (hkept j hj).2⟩
  refine ⟨hlay, hgood.counted.congr rfl hsame.used hsame.abandoned, ?_, ?_, ?_⟩
  · rw [hsame.threadId]
    exact hgood.owned
  · rw [hsame.threadId, hsame.used]
    exact hgood.idle
  · rw [hsame.threadId, hsame.used, hsame.abandoned]
    exact hgood.busy

end

/-! ## Pages are ranges that are held -/

open HeldRanges (Range)

/-- The pages of all segments, but for those of the segments themselves. -/
def Segments.held (h : Segments S T) (s : S) (r : Range T) : Prop :=
  h.mapped s = true ∧ 0 < r.start ∧ Header (h.segment s) r.start ∧
    0 < ((h.segment s).slices r.start).xblockSize ∧
    ((h.segment s).slices r.start).sliceCount = r.count ∧
    ((h.segment s).slices r.start).xheap = r.owner

/-- The pages of the spans `L`, but for the first. -/
def HeldIn (L : List (Span T)) (r : Range T) : Prop :=
  0 < r.start ∧ (⟨r.start, r.count, r.owner⟩ : Page T) ∈ pages 0 L

theorem mem_pages_range {i : Nat} {L : List (Span T)} {p : Page T} (hp : p ∈ pages i L) :
    0 < p.count ∧ i ≤ p.start ∧ p.start + p.count ≤ i + total Span.count L := by
  obtain ⟨x, hx, hcount, -⟩ := mem_pages_iff.mp hp
  have hrange := at?_range Span.pos hx
  rw [hcount] at hrange
  refine ⟨?_, hrange.1, hrange.2⟩
  rw [← hcount]
  exact x.pos

theorem pages_eq {i : Nat} {L : List (Span T)} {p p' : Page T} (hp : p ∈ pages i L)
    (hp' : p' ∈ pages i L) (he : p.start = p'.start) : p = p' := by
  obtain ⟨x, hx, hcount, huse⟩ := mem_pages_iff.mp hp
  obtain ⟨x', hx', hcount', huse'⟩ := mem_pages_iff.mp hp'
  rw [he, hx'] at hx
  obtain rfl := Option.some.inj hx
  obtain ⟨i₁, n₁, h₁⟩ := p
  obtain ⟨i₂, n₂, h₂⟩ := p'
  simp only at he hcount hcount' huse huse'
  rw [huse'] at huse
  obtain rfl := (Use.page.inj huse).symm
  rw [he, ← hcount, hcount']

theorem heldIn_iff {info : Nat} {seg : MiSegment T} {L : List (Span T)} (h : Layout info seg L)
    {r : Range T} : HeldIn L r ↔ 0 < r.start ∧ Header seg r.start ∧
      0 < (seg.slices r.start).xblockSize ∧ (seg.slices r.start).sliceCount = r.count ∧
      (seg.slices r.start).xheap = r.owner := by
  unfold HeldIn
  refine and_congr_right fun hpos => ?_
  rw [mem_pages_iff, h.header_iff]
  constructor
  · rintro ⟨⟨n, hn, u⟩, hx, hcount, huse⟩
    simp only at hcount huse
    subst huse
    have hok : PageOk seg.slices r.start n r.owner := h.spanOk hx
    exact ⟨⟨_, hx⟩, hok.xblock, hok.count.trans hcount, hok.heap⟩
  · rintro ⟨⟨⟨n, hn, u⟩, hx⟩, hxblock, hcount, hheap⟩
    refine ⟨_, hx, ?_, ?_⟩
    · exact (spanOk_count (h.spanOk hx)).symm.trans hcount
    · cases u with
      | free q =>
          have hok : FreeOk seg.slices r.start n := h.spanOk hx
          rw [hok.xblock] at hxblock
          exact absurd hxblock (Nat.lt_irrefl 0)
      | page heap =>
          have hok : PageOk seg.slices r.start n heap := h.spanOk hx
          exact congrArg Use.page (hok.heap.symm.trans hheap)

section

variable {info : Nat} {h : Segments S T} {L : S → List (Span T)} {t : T} {s : S}

theorem Sound.held_iff (hL : Sound info h L) (hs : h.mapped s = true) {r : Range T} :
    h.held s r ↔ HeldIn (L s) r := by
  unfold Segments.held
  rw [heldIn_iff (hL.good s hs).layout]
  exact and_iff_right hs

theorem not_held (hs : h.mapped s = false) (r : Range T) : ¬ h.held s r := by
  rintro ⟨hs', -⟩
  rw [hs] at hs'
  cases hs'

theorem held_put [DecidableEq S] [DecidableEq T] {rest : S × Nat → Option (T × Nat)}
    {w' : Work S T} {m : Bool} {L' : List (Span T)} (hout : Outcome info t s rest w' m L') :
    (h.put s w' m).held = Function.update h.held s (HeldIn L') := by
  funext s' r
  by_cases hs : s' = s
  · subst hs
    rw [Function.update_self]
    unfold Segments.held Segments.put
    simp only [Function.update_self]
    cases m with
    | false =>
        rw [hout.gone rfl]
        simp [HeldIn, pages]
    | true =>
        rw [heldIn_iff (hout.good rfl).layout]
        simp
  · rw [Function.update_of_ne hs]
    unfold Segments.held Segments.put
    simp only [Function.update_of_ne hs]

end

/-! ## Steps -/

/-- A slice with a heap is the header of a page of that heap. -/
theorem Layout.page_of_heap {info : Nat} {seg : MiSegment T} {L : List (Span T)}
    (h : Layout info seg L) {i : Nat} {t : T} (hi : i < seg.sliceEntries)
    (hheap : (seg.slices i).xheap = some t) :
    ∃ A B n hn, L = A ++ ⟨n, hn, .page (some t)⟩ :: B ∧ i = Spans.total Span.count A := by
  have htotal := h.total
  rw [h.entries] at hi
  obtain ⟨j, x, hx, hlo, hhi⟩ := exists_at? (w := Span.count) Span.pos (i := 0) (k := i) (L := L)
    (Nat.zero_le i) (by omega)
  obtain ⟨n, hn, u⟩ := x
  obtain ⟨k, rfl⟩ : ∃ k, i = j + k := ⟨i - j, by omega⟩
  simp only at hhi
  cases u with
  | free q =>
      have hok : FreeOk seg.slices j n := h.spanOk hx
      rw [hok.heap k (by omega)] at hheap
      cases hheap
  | page heap =>
      have hok : PageOk seg.slices j n heap := h.spanOk hx
      by_cases hk : k = 0
      · subst hk
        rw [Nat.add_zero, hok.heap] at hheap
        subst hheap
        obtain ⟨A, B, rfl, hj⟩ := (at?_eq_some_iff Span.pos).mp hx
        exact ⟨A, B, n, hn, rfl, by omega⟩
      · rw [hok.back k (by omega) (by omega)] at hheap
        cases hheap

theorem total_pos {info : Nat} {A : List (Span T)} (h : Headed info A) :
    0 < total Span.count A := by
  obtain ⟨hinfo, R, rfl⟩ := h
  rw [total_cons]
  simp only
  omega

/-- The page at a place, and the others. -/
theorem heldIn_page {A B : List (Span T)} {n : Nat} {hn : 0 < n} {heap : Option T} {info : Nat}
    (hA : Headed info A) (r : Range T) : HeldIn (A ++ ⟨n, hn, .page heap⟩ :: B) r ↔
      HeldIn (A ++ ⟨n, hn, .free false⟩ :: B) r ∨ r = ⟨total Span.count A, n, heap⟩ := by
  have hpos := total_pos hA
  unfold HeldIn
  rw [pages_page, pages_append, Nat.zero_add, List.mem_append, List.mem_append, List.mem_cons]
  constructor
  · rintro ⟨h₀, h | h | h⟩
    · exact .inl ⟨h₀, .inl h⟩
    · obtain ⟨i, k, o⟩ := r
      cases h
      exact .inr rfl
    · exact .inl ⟨h₀, .inr h⟩
  · rintro (⟨h₀, h | h⟩ | rfl)
    · exact ⟨h₀, .inl h⟩
    · exact ⟨h₀, .inr (.inr h)⟩
    · exact ⟨hpos, .inr (.inl rfl)⟩

/-- No other page is where a span is. -/
theorem Sound.held_of_heap {info : Nat} {h : Segments S T} {L : S → List (Span T)}
    (hL : Sound info h L) {s : S} (hs : h.mapped s = true) {i : Nat} {t : T}
    (hi : i < (h.segment s).sliceEntries) (hheap : ((h.segment s).slices i).xheap = some t) :
    h.held s ⟨i, ((h.segment s).slices i).sliceCount, some t⟩ := by
  have hlay := (hL.good s hs).layout
  obtain ⟨A, B, n, hn, hLs, rfl⟩ := hlay.page_of_heap hi hheap
  have hhead : Headed info (A ++ ⟨n, hn, .page (some t)⟩ :: B) := hLs ▸ hlay.head
  have hheaded : Headed info A := hhead.left hhead.started_page
  have hheld : h.held s ⟨total Span.count A, n, some t⟩ := by
    rw [hL.held_iff hs, hLs]
    exact (heldIn_page hheaded _).mpr (.inr rfl)
  rwa [hheld.2.2.2.2.1]

theorem heldIn_apart {A B : List (Span T)} {n : Nat} {hn : 0 < n} {q : Bool} (heap : Option T)
    {r : Range T} (h : HeldIn (A ++ ⟨n, hn, .free q⟩ :: B) r) {k : Nat} (hk : k ≤ n) :
    HeldRanges.Apart ⟨total Span.count A, k, heap⟩ r := by
  obtain ⟨-, h⟩ := h
  rw [pages_append, Nat.zero_add, List.mem_append] at h
  rcases h with h | h
  · have hrange := (mem_pages_range h).2.2
    simp only at hrange
    exact .inr (by simp only; omega)
  · have hrange := (mem_pages_range (i := total Span.count A + n) h).2.1
    simp only at hrange
    exact .inl (by simp only; omega)

theorem heldIn_ne {A B : List (Span T)} {n : Nat} {hn : 0 < n} {q : Bool} {heap : Option T}
    {r : Range T} (h : HeldIn (A ++ ⟨n, hn, .free q⟩ :: B) r) :
    r ≠ ⟨total Span.count A, n, heap⟩ := by
  rintro rfl
  rcases heldIn_apart heap h (Nat.le_refl n) with hlt | hlt
  · simp only at hlt
    omega
  · simp only at hlt
    omega

/-- What a step does to the segment that it is about. -/
structure Moves [DecidableEq S] [DecidableEq T] (info : Nat) (t : T) (h : Segments S T)
    (L : S → List (Span T)) (s : S) (w' : Work S T) (mapped : Bool) (L' : List (Span T)) : Prop where
  outcome : Outcome info t s (whichQueue h L) w' mapped L'
  step : HeldRanges.Step t h.held (Function.update h.held s (HeldIn L'))
  untouched : h.mapped s = true → mapped = true →
    Untouched (fun j => UsedIn 0 (L s) j ∧ UsedIn 0 L' j) (h.segment s) w'.segment

section

variable [DecidableEq S] [DecidableEq T] {info : Nat} {h h' : Segments S T} {L : S → List (Span T)}
  {t : T} {s : S}

omit [DecidableEq T] in
theorem held_update_self (hL : Sound info h L) (hs : h.mapped s = true) {Q : Range T → Prop}
    (hQ : ∀ r, Q r ↔ HeldIn (L s) r) : Function.update h.held s Q = h.held := by
  rw [Function.update_eq_self_iff]
  funext r
  exact propext ((hQ r).trans (hL.held_iff hs).symm)

/-- A visit to an abandoned segment. -/
theorem moves_of_visit (hL : Sound info h L) (hs : h.mapped s = true)
    (hnone : (h.segment s).threadId = none) {v : Visit} {w' : Work S T} {m : Bool}
    {L' : List (Span T)} (hout : Outcome info t s (whichQueue h L) w' m L')
    (hvisited : Visited t v (L s) (h.segment s) w' m L') : Moves info t h L s w' m L' := by
  have howned := (hL.good s hs).owned
  rw [hnone] at howned
  have hloose : ∀ r, h.held s r → r.owner = none := by
    intro r hr
    obtain ⟨x, hx, -, huse⟩ := mem_pages_iff.mp ((hL.held_iff hs).mp hr).2
    obtain ⟨A, B, he, -⟩ := (at?_eq_some_iff Span.pos).mp hx
    have hxo := howned x (by rw [he]; simp)
    unfold Owned at hxo
    rw [huse] at hxo
    exact hxo.elim id id
  refine ⟨hout, .adopt s hloose (fun r hr => ?_) (fun r r' hr hr' he => ?_), fun _ hm => ?_⟩
  · obtain ⟨heap, hfrom⟩ := hvisited.within _ hr.2
    have hheld := (hL.held_iff hs (r := ⟨r.start, r.count, heap⟩)).mpr ⟨hr.1, hfrom⟩
    obtain rfl := hloose _ hheld
    refine ⟨hheld, ?_⟩
    cases m with
    | false =>
        rw [hout.gone rfl] at hr
        cases hr.2
    | true =>
        obtain ⟨x, hx, -, huse⟩ := mem_pages_iff.mp hr.2
        obtain ⟨A, B, he, -⟩ := (at?_eq_some_iff Span.pos).mp hx
        have hxo := (hout.good rfl).owned x (by rw [he]; simp)
        unfold Owned at hxo
        rw [huse] at hxo
        rcases hxo with ho | ho
        · exact .inl ho
        · rcases hout.owner rfl with ht | ht
          · exact .inl (ho.trans ht)
          · exact .inr (ho.trans ht)
  · have hp := pages_eq hr.2 hr'.2 he
    obtain ⟨i, n, o⟩ := r
    obtain ⟨i', n', o'⟩ := r'
    cases hp
    rfl
  · exact (hvisited.untouched hm).mono fun j hj => hj.2

/-- A page is allocated, or its memory is refused. -/
theorem moves_of_pageAlloc (hL : Sound info h L) (env : Env) {suitable : S → Bool}
    {blockSize fuel : Nat} {sq : T × Nat} {slice : Nat} (hpos : 0 < blockSize)
    (hle : blockSize ≤ miLargeObjSizeMax)
    (hfind : miSegmentsPageFind h suitable t (slicesNeeded blockSize) fuel =
      some (some (sq, s, slice))) {w : Work S T} {o : Option Nat}
    (hr : miSegmentsPageTake env t sq s slice (slicesNeeded blockSize) (h.work s) = (w, o)) :
    (∀ i, o = some i → ∃ L', Moves info t h L s
        (miPageInitSlice t blockSize slice
          { w with segment := miSegmentTryPurge env w.segment false }) true L') ∧
      (o = none → Moves info t h L s w true (L s)) := by
  have hn := slicesNeeded_pos hpos
  have hsmall := slicesNeeded_le hle
  generalize slicesNeeded blockSize = n at hfind hr hn hsmall
  obtain ⟨hs, howner, -, N, hN, hx, hnN, rfl, -⟩ :=
    (hL.pageFind_spec suitable t hn).2.1 fuel sq s slice hfind
  obtain ⟨A, B, hLs, hslice⟩ := (at?_eq_some_iff Span.pos).mp hx
  rw [Nat.zero_add] at hslice
  subst hslice
  have hgood := hL.good s hs
  have hplace := hL.place hs (.inr howner)
  have hheld := fun r => hL.held_iff (r := r) hs
  rw [hLs] at hgood hplace hheld
  have hheaded : Headed info A := Headed.left hgood.layout.head (Headed.started hgood.layout.head nofun)
  refine ⟨fun i ho => ?_, fun ho => ?_⟩
  · subst ho
    obtain ⟨rfl, w'', hw'', hout, huntouched⟩ :=
      pageAlloc_spec (w := h.work s) env hn hnN hsmall hpos hgood howner hplace hr
    refine ⟨A ++ ⟨n, hn, .page (some t)⟩ :: behind n N B, ?_⟩
    rw [hw'']
    refine ⟨hout, ?_, fun _ _ => ?_⟩
    · -- the range is free, as it is in a free span
      refine .take s (total Span.count A) n hn (fun r hr => ?_) fun r => ?_
      · exact heldIn_apart (some t) ((hheld r).mp hr) hnN
      · rw [heldIn_page hheaded, hheld]
        refine or_congr_left ?_
        unfold HeldIn
        rw [pages_append, pages_append]
        refine and_congr_right fun _ => ?_
        rw [List.mem_append, List.mem_append]
        refine or_congr_right ?_
        simp only [pages]
        rw [pages_behind hnN]
    · refine huntouched.mono fun j hj => ?_
      rw [hLs] at hj
      exact hj.1
  · subst ho
    obtain ⟨hout, huntouched⟩ :=
      pageAllocFail_spec (w := h.work s) env hn hnN hsmall hgood howner hplace hr
    rw [← hLs] at hout huntouched
    refine ⟨hout, ?_, fun _ _ => huntouched.mono fun j hj => hj.1⟩
    rw [held_update_self hL hs fun _ => Iff.rfl]
    exact .stay

omit [DecidableEq T] in
theorem Sound.place_unmapped (hL : Sound info h L) (hs : h.mapped s = false) :
    Placed h.spans fun c => if c.1 = s then none else whichQueue h L c := by
  refine cast (congrArg (Placed h.spans) (funext fun c => ?_)) hL.placed
  split
  · rename_i hc
    unfold whichQueue
    rw [hc, hs]
    rfl
  · rfl

theorem moves_of_segmentAlloc (hinfo : 0 < info) (hsmall : info ≤ miMaxSliceOffset + 1)
    (hL : Sound info h L) (hs : h.mapped s = false) {env : Env} {memid : MemId} {w : Work S T}
    (hr : miSegmentAlloc env memid info t s h.spans = some w) :
    ∃ L', (∃ hfree, L' =
        [⟨info, hinfo, .page none⟩, ⟨miSlicesPerSegment - info, hfree, .free true⟩]) ∧
      Moves info t h L s w true L' := by
  have hplace := hL.place_unmapped hs
  cases hos : (miSegmentOsAlloc env memid info : Option (MiSegment T)) with
  | none =>
      unfold miSegmentAlloc at hr
      rw [hos] at hr
      cases hr
  | some seg =>
      obtain ⟨w', hw', hfree, hlay, hplace', hthread, hused, habandoned⟩ :=
        segmentAlloc_spec t s hinfo hsmall hplace hos
      obtain rfl := Option.some.inj (hr.symm.trans hw')
      refine ⟨_, ⟨hfree, rfl⟩, ⟨hplace', (fun h => by cases h), fun _ => ?_, fun _ => .inr hthread⟩, ?_,
        fun hs' => ?_⟩
      · refine ⟨hlay, ⟨?_, ?_⟩, ?_, fun hnone => ?_, fun _ => .inl hused⟩
        · rw [hused]
          rfl
        · rw [habandoned]
          rfl
        · rw [hthread]
          intro x hx
          rcases List.mem_cons.mp hx with rfl | hx
          · exact .inl rfl
          · rw [List.mem_singleton.mp hx]
            rfl
        · exact absurd (hthread.symm.trans hnone) (fun h => by cases h)
      · have hsame : Function.update h.held s (HeldIn
            [(⟨info, hinfo, .page none⟩ : Span T), ⟨miSlicesPerSegment - info, hfree, .free true⟩]) =
            h.held := by
          rw [Function.update_eq_self_iff]
          funext r
          refine propext (iff_of_false ?_ (not_held hs r))
          rintro ⟨hpos, hr⟩
          simp only [pages, List.mem_singleton, Page.mk.injEq] at hr
          omega
        rw [hsame]
        exact .stay
      · rw [hs] at hs'
        cases hs'

theorem moves_of_pageFree (env : Env) (hL : Sound info h L) (hs : h.mapped s = true) {page : Nat}
    (hpage : page < (h.segment s).sliceEntries)
    (hheap : ((h.segment s).slices page).xheap = some t) :
    ∃ w m L', miSegmentPageFree env t s page (h.work s) = some (w, m) ∧ Moves info t h L s w m L' := by
  have hgood := hL.good s hs
  obtain ⟨A, B, n, hn, hLs, rfl⟩ := hgood.layout.page_of_heap hpage hheap
  rw [hLs] at hgood
  have hthread : (h.segment s).threadId = some t := by
    rcases hgood.owned ⟨n, hn, .page (some t)⟩ (by simp) with ho | ho
    · cases ho
    · exact ho.symm
  have hplace := hL.place hs (.inr hthread)
  have hheld := fun r => hL.held_iff (r := r) hs
  rw [hLs] at hplace hheld
  have hheaded : Headed info A := Headed.left hgood.layout.head (Headed.started_page hgood.layout.head)
  obtain ⟨w, m, L', hr, hout, hleft, hlast⟩ := pageFree_spec (w := h.work s) env t s hgood hplace
  -- the pages that are left
  have hheldIn : ∀ r, HeldIn L' r ↔ HeldIn (A ++ ⟨n, hn, .free false⟩ :: B) r := by
    have hother : pages 0 (A ++ (⟨n, hn, .free false⟩ : Span T) :: B) =
        pages 0 A ++ pages (total Span.count A + n) B := by
      rw [pages_append, Nat.zero_add]
      rfl
    intro r
    unfold HeldIn
    refine and_congr_right fun hpos => ?_
    cases m with
    | true => rw [(hleft rfl).1, hother]
    | false =>
        rw [hout.gone rfl]
        refine iff_of_false (fun h => by cases h) fun hr => ?_
        have hlen := hlast rfl
        rw [← hother] at hlen
        obtain ⟨hinfo, R, rfl⟩ := hheaded
        rw [List.cons_append, pages_headed, List.length_cons] at hlen
        rw [List.cons_append, pages_headed,
          List.eq_nil_of_length_eq_zero (Nat.succ_injective hlen), List.mem_singleton,
          Page.mk.injEq] at hr
        omega
  refine ⟨w, m, L', hr, hout, ?_, fun _ hm => ?_⟩
  · have hp : h.held s ⟨total Span.count A, n, some t⟩ :=
      (hheld _).mpr ((heldIn_page hheaded _).mpr (.inr rfl))
    refine .release s _ _ hp fun r => ?_
    rw [hheldIn, hheld, heldIn_page hheaded]
    constructor
    · exact fun hr => ⟨.inl hr, heldIn_ne hr⟩
    · rintro ⟨hr | hr, hne⟩
      · exact hr
      · exact absurd hr hne
  · refine (hleft hm).2.mono fun j hj => ?_
    rw [usedIn_iff_pages, pages_append, Nat.zero_add]
    have hused := hj.2
    rw [usedIn_iff_pages, (hleft hm).1] at hused
    exact hused

theorem moves_of_pageAbandon (env : Env) (hL : Sound info h L) (hs : h.mapped s = true) {page : Nat}
    (hpage : page < (h.segment s).sliceEntries)
    (hheap : ((h.segment s).slices page).xheap = some t) :
    ∃ w L', miSegmentPageAbandon env t s page (h.work s) = some w ∧ Moves info t h L s w true L' := by
  have hgood := hL.good s hs
  obtain ⟨A, B, n, hn, hLs, rfl⟩ := hgood.layout.page_of_heap hpage hheap
  rw [hLs] at hgood
  have hthread : (h.segment s).threadId = some t := by
    rcases hgood.owned ⟨n, hn, .page (some t)⟩ (by simp) with ho | ho
    · cases ho
    · exact ho.symm
  have hplace := hL.place hs (.inr hthread)
  have hheld := fun r => hL.held_iff (r := r) hs
  rw [hLs] at hplace hheld
  have hheaded : Headed info A := Headed.left hgood.layout.head (Headed.started_page hgood.layout.head)
  obtain ⟨w, L', hr, hout, hpages, huntouched⟩ :=
    pageAbandon_spec (w := h.work s) env t s hgood hplace
  refine ⟨w, L', hr, hout, ?_, fun _ _ => huntouched.mono fun j hj => hj.2⟩
  have hp : h.held s ⟨total Span.count A, n, some t⟩ :=
    (hheld _).mpr ((heldIn_page hheaded _).mpr (.inr rfl))
  refine .leave s _ _ hp fun r => ?_
  have hheldIn : HeldIn L' r ↔ HeldIn (A ++ ⟨n, hn, .page none⟩ :: B) r := by
    unfold HeldIn
    rw [hpages]
  rw [hheldIn, heldIn_page hheaded, hheld, heldIn_page hheaded]
  constructor
  · rintro (hr | hr)
    · exact .inl ⟨.inl hr, heldIn_ne hr⟩
    · exact .inr hr
  · rintro (⟨hr | hr, hne⟩ | hr)
    · exact .inl hr
    · exact absurd hr hne
    · exact .inr hr

omit [DecidableEq T] in
theorem Sound.visiting (hL : Sound info h L) (hs : h.mapped s = true)
    (hnone : (h.segment s).threadId = none) :
    Visiting info t s (whichQueue h L) none (h.work s) (L s) [] :=
  (hL.good s hs).visiting (w := h.work s) hnone (hL.place hs (.inl hnone))

/-- Any step changes one segment, and leaves it as it should be. -/
theorem Segments.Step.moves (hinfo : 0 < info) (hsmall : info ≤ miMaxSliceOffset + 1)
    (hL : Sound info h L) (hstep : h.Step info t h') :
    ∃ s w' m L', h' = h.put s w' m ∧ Moves info t h L s w' m L' := by
  cases hstep with
  | pageAlloc env suitable blockSize fuel sq s slice hpos hle hfind hr =>
      obtain ⟨L', hmoves⟩ := (moves_of_pageAlloc hL env hpos hle hfind hr).1 slice rfl
      exact ⟨s, _, true, L', rfl, hmoves⟩
  | pageAllocFail env suitable blockSize fuel sq s slice hpos hle hfind hr =>
      exact ⟨s, _, true, _, rfl, (moves_of_pageAlloc hL env hpos hle hfind hr).2 rfl⟩
  | segmentAlloc env memid s hs hr =>
      obtain ⟨L', -, hmoves⟩ := moves_of_segmentAlloc hinfo hsmall hL hs hr
      exact ⟨s, _, true, L', rfl, hmoves⟩
  | pageFree env s page hs hpage hheap hr =>
      obtain ⟨w, m, L', hr', hmoves⟩ := moves_of_pageFree env hL hs hpage hheap
      obtain ⟨rfl, rfl⟩ := Prod.mk.inj (Option.some.inj (hr.symm.trans hr'))
      exact ⟨s, _, _, L', rfl, hmoves⟩
  | pageAbandon env s page hs hpage hheap hr =>
      obtain ⟨w, L', hr', hmoves⟩ := moves_of_pageAbandon env hL hs hpage hheap
      obtain rfl := Option.some.inj (hr.symm.trans hr')
      exact ⟨s, _, true, L', rfl, hmoves⟩
  | tryReclaim env v s needed blockSize hs hnone hr =>
      obtain ⟨w, m, L', hr', hout, hvisited⟩ :=
        tryReclaimRound_spec env v needed blockSize (hL.visiting (t := t) hs hnone)
      obtain ⟨rfl, rfl⟩ := Prod.mk.inj (Option.some.inj (hr.symm.trans hr'))
      exact ⟨s, _, _, L', rfl, moves_of_visit hL hs hnone hout hvisited⟩
  | collect env v s force hs hnone hr =>
      obtain ⟨w, m, L', hr', hout, hvisited⟩ :=
        abandonedCollectRound_spec env v force (hL.visiting (t := t) hs hnone)
      obtain ⟨rfl, rfl⟩ := Prod.mk.inj (Option.some.inj (hr.symm.trans hr'))
      exact ⟨s, _, _, L', rfl, moves_of_visit hL hs hnone hout hvisited⟩
  | reclaimAll env v s hs hnone hr =>
      have hvisiting := hL.visiting (t := t) hs hnone
      obtain ⟨w, m, right, L', hr', hout, hreclaimed⟩ := segmentReclaim_spec env v 0 hvisiting
      obtain ⟨rfl, he⟩ := Prod.mk.inj (Option.some.inj (hr.symm.trans hr'))
      obtain ⟨rfl, -⟩ := Prod.mk.inj he
      exact ⟨s, _, _, L', rfl,
        moves_of_visit hL hs hnone hout (hreclaimed.visited hout hvisiting.headed)⟩

end

end EflCore.Mimalloc
