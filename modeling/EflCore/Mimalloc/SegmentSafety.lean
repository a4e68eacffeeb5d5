/-
# `EflCore.Mimalloc.SegmentSafety` — what segments guarantee, over whole runs

Any number of threads, each of them allocating, freeing, abandoning and reclaiming in any order, with
an operating system that may refuse memory at any time.  The segments for themselves have `info`
slices, as `mi_segment_calculate_slices` says.

**Proved here.**

    the debug check of the code holds, in any state                       (`mi_segment_is_valid`)
    pages never overlap: the segments hand out ranges                     (`segments_hold_ranges`)
    the memory of a page is committed, and not to be given back           (`page_memory`)
    while others run, a page of a thread stays what it is                 (`foreign_page`)
    any place in a page leads to the page                                 (`mi_segment_page_of`)
    free spans are in the queues they belong to, and have no free neighbours   (`free_spans`)
    the search finds the span to take, if there is one                    (`page_find`)
    abandoned segments have abandoned pages, and no span in a queue       (`abandoned_segment`)
    to reclaim loses no page with blocks, and leaves none abandoned       (`reclaim_keeps`)
    no loop runs on, and nothing fails but the system                     (`loops_end`, `segment_alloc`)
    a refused page leaves all spans as they were                          (`page_refused`)
    what waits to be given back is given back once                        (`try_purge_exact`)
-/
import EflCore.Mimalloc.SegmentCheck
import EflCore.Mimalloc.SegmentRuns

namespace EflCore.Mimalloc

open Spans DoublyLinked

variable {T S : Type}

/-! ## A run -/

/-- A system that refuses no memory, and purges late. -/
def quietEnv : Env := ⟨fun _ _ => true, fun _ _ => true, 0, 10, 1, false, false⟩

def noSegments : Segments Bool Bool where
  segment _ := ⟨false, false, miCommitMaskCreateEmpty, miCommitMaskCreateEmpty, 0, 0, 0, 0, 0, 0, 0,
    none, fun _ => ⟨0, 0, 0, none⟩, ⟨fun _ => false, fun _ => 0⟩⟩
  mapped _ := false
  spans := Store.empty

def oneWork : Work Bool Bool :=
  (miSegmentAlloc quietEnv ⟨false, false⟩ 1 false false noSegments.spans).get (by rfl)

/-- Thread `false` has allocated a segment. -/
def oneSegment : Segments Bool Bool := noSegments.put false oneWork true

theorem oneSegment_reachable : oneSegment.Reachable 1 :=
  .step false (.init _) (.segmentAlloc quietEnv ⟨false, false⟩ false rfl (Option.some_get _).symm)

theorem oneSegment_find :
    miSegmentsPageFind oneSegment (fun _ => true) false (slicesNeeded 64) 1 =
      some (some ((false, 31), false, 1)) := by
  decide +kernel

def takenWork : Work Bool Bool :=
  (miSegmentsPageTake quietEnv false (false, 31) false 1 (slicesNeeded 64) (oneSegment.work false)).1

/-- It has allocated a page in it. -/
def onePage : Segments Bool Bool :=
  oneSegment.put false
    (miPageInitSlice false 64 1
      { takenWork with segment := miSegmentTryPurge quietEnv takenWork.segment false }) true

theorem onePage_reachable : onePage.Reachable 1 :=
  .step false oneSegment_reachable (.pageAlloc quietEnv (fun _ => true) 64 1 (false, 31) false 1
    (by decide) (by decide) oneSegment_find (Prod.ext rfl (by decide +kernel)))

theorem onePage_held : onePage.held false ⟨1, 1, some false⟩ := by
  refine ⟨rfl, by decide, ?_, ?_, ?_, ?_⟩
  · exact .next (i := 0) (.first (by decide +kernel)) (by decide +kernel)
  · decide +kernel
  · decide +kernel
  · decide +kernel

def otherWork : Work Bool Bool :=
  (miSegmentAlloc quietEnv ⟨false, true⟩ 1 true true onePage.spans).get (by rfl)

/-- Thread `true` has allocated a segment, too. -/
def twoSegments : Segments Bool Bool := onePage.put true otherWork true

def abandonedWork : Work Bool Bool :=
  (miSegmentPageAbandon quietEnv false false 1 (onePage.work false)).get (by decide +kernel)

/-- Thread `false` has abandoned its page. -/
def abandonedPage : Segments Bool Bool := onePage.put false abandonedWork true

theorem abandonedPage_reachable : abandonedPage.Reachable 1 :=
  .step false onePage_reachable (.pageAbandon quietEnv false 1 rfl (by decide +kernel)
    (by decide +kernel) (Option.some_get _).symm)

theorem abandonedPage_threadId : (abandonedPage.segment false).threadId = none := by
  decide +kernel

/-- A system that commits no memory. -/
def refusingEnv : Env := { quietEnv with osCommit := fun _ _ => false }

def refusedWork : Work Bool Bool :=
  (miSegmentsPageTake refusingEnv false (false, 31) false 1 (slicesNeeded 64)
    (oneSegment.work false)).1

theorem refusedWork_take : miSegmentsPageTake refusingEnv false (false, 31) false 1 (slicesNeeded 64)
    (oneSegment.work false) = (refusedWork, none) :=
  Prod.ext rfl (by decide +kernel)

/-! ## The invariant -/

section

variable [DecidableEq S] [DecidableEq T] {info : Nat} {h h' : Segments S T} {L : S → List (Span T)}
  {t : T} {s : S}

omit [DecidableEq S] [DecidableEq T] in
theorem sound_init (segment : S → MiSegment T) :
    Sound info (⟨segment, fun _ => false, Store.empty⟩ : Segments S T) fun _ => [] := by
  refine ⟨⟨_, Rep.empty, fun x c => ?_⟩, fun s hs => by cases hs⟩
  refine iff_of_false List.not_mem_nil fun h => ?_
  unfold whichQueue at h
  simp at h

theorem reachable_sound (hinfo : 0 < info) (hsmall : info ≤ miMaxSliceOffset + 1)
    (hr : Segments.Reachable info h) : ∃ L, Sound info h L := by
  induction hr with
  | init segment => exact ⟨_, sound_init segment⟩
  | step t _ hstep ih =>
      obtain ⟨L, hL⟩ := ih
      obtain ⟨s, w', m, L', rfl, hmoves⟩ := hstep.moves hinfo hsmall hL
      exact ⟨_, hL.put hmoves.outcome⟩

/-! ## Pages over a run -/

/-- A run of steps of threads that `P` allows. -/
def Segments.Run (info : Nat) (P : T → Prop) : Segments S T → Segments S T → Prop :=
  Relation.ReflTransGen fun h h' => ∃ t, P t ∧ h.Step info t h'

/-- What is the same about the slices of a range that is held before and after. -/
def Unmoved (h h' : Segments S T) : Prop :=
  ∀ s i n o o', h.held s ⟨i, n, o⟩ → h'.held s ⟨i, n, o'⟩ → ∀ j, i ≤ j → j < i + n →
    (∃ heap, (h'.segment s).slices j = { (h.segment s).slices j with xheap := heap }) ∧
      (h'.segment s).os.purges j = (h.segment s).os.purges j

omit [DecidableEq T] in
theorem put_segment_ne {s' : S} (hs : s' ≠ s) (w : Work S T) (m : Bool) :
    (h.put s w m).segment s' = h.segment s' :=
  Function.update_of_ne hs ..

theorem Moves.unmoved (hL : Sound info h L) {w' : Work S T} {m : Bool} {L' : List (Span T)}
    (hmoves : Moves info t h L s w' m L') : Unmoved h (h.put s w' m) := by
  intro s' i n o o' hheld hheld' j hlo hhi
  by_cases hs : s' = s
  · subst hs
    have hmapped := hheld.1
    have hin := (hL.held_iff hmapped).mp hheld
    rw [held_put hmoves.outcome, Function.update_self] at hheld'
    have hm : m = true := by
      cases m with
      | true => rfl
      | false =>
          rw [hmoves.outcome.gone rfl] at hheld'
          cases hheld'.2
    have huntouched := hmoves.untouched hmapped hm
    have hj : UsedIn 0 (L s') j ∧ UsedIn 0 L' j :=
      ⟨usedIn_iff_pages.mpr ⟨_, hin.2, hlo, hhi⟩, usedIn_iff_pages.mpr ⟨_, hheld'.2, hlo, hhi⟩⟩
    unfold Segments.put
    simp only [Function.update_self]
    exact ⟨huntouched.slices j hj, huntouched.purges j hj⟩
  · rw [put_segment_ne hs]
    exact ⟨⟨((h.segment s').slices j).xheap, rfl⟩, rfl⟩

theorem Segments.Step.spec (hinfo : 0 < info) (hsmall : info ≤ miMaxSliceOffset + 1)
    (hL : Sound info h L) (hstep : h.Step info t h') :
    (∃ L', Sound info h' L') ∧ HeldRanges.Step t h.held h'.held ∧ Unmoved h h' := by
  obtain ⟨s, w', m, L', rfl, hmoves⟩ := hstep.moves hinfo hsmall hL
  refine ⟨⟨_, hL.put hmoves.outcome⟩, ?_, hmoves.unmoved hL⟩
  rw [held_put hmoves.outcome]
  exact hmoves.step

omit [DecidableEq S] [DecidableEq T] in
theorem held_init (segment : S → MiSegment T) :
    (⟨segment, fun _ => false, Store.empty⟩ : Segments S T).held = fun _ _ => False := by
  funext s r
  exact propext (iff_of_false (not_held rfl r) id)

theorem Segments.Reachable.holds (hinfo : 0 < info) (hsmall : info ≤ miMaxSliceOffset + 1)
    (hr : Segments.Reachable info h) :
    HeldRanges.Run (fun _ => True) (fun _ _ => False) h.held := by
  induction hr with
  | init segment => rw [held_init]
  | step t hr hstep ih =>
      obtain ⟨L, hL⟩ := reachable_sound hinfo hsmall hr
      exact ih.tail ⟨t, trivial, (hstep.spec hinfo hsmall hL).2.1⟩

theorem Segments.Run.holds (hinfo : 0 < info) (hsmall : info ≤ miMaxSliceOffset + 1)
    (hr : Segments.Reachable info h) {P : T → Prop} (hrun : Segments.Run info P h h') :
    HeldRanges.Run P h.held h'.held := by
  suffices hall : Segments.Reachable info h' ∧ HeldRanges.Run P h.held h'.held from hall.2
  induction hrun with
  | refl => exact ⟨hr, .refl⟩
  | tail _ hstep ih =>
      obtain ⟨t', ht', hstep⟩ := hstep
      obtain ⟨hr₁, hheld₁⟩ := ih
      obtain ⟨L, hL⟩ := reachable_sound hinfo hsmall hr₁
      exact ⟨.step t' hr₁ hstep, hheld₁.tail ⟨t', ht', (hstep.spec hinfo hsmall hL).2.1⟩⟩

/-- A slice that names a heap is the start of a range that is held, and no two of these overlap.
What a step of a thread does to the held ranges is what the thread may do; and so for runs. -/
theorem segments_hold_ranges (hinfo : 0 < info) (hsmall : info ≤ miMaxSliceOffset + 1)
    (hr : Segments.Reachable info h) :
    HeldRanges.Separate h.held ∧
      (∀ s i t, h.mapped s = true → i < (h.segment s).sliceEntries →
        ((h.segment s).slices i).xheap = some t →
        h.held s ⟨i, ((h.segment s).slices i).sliceCount, some t⟩) ∧
      (∀ t h', h.Step info t h' → HeldRanges.Step t h.held h'.held) ∧
      ∀ P h', Segments.Run info P h h' → HeldRanges.Run P h.held h'.held := by
  obtain ⟨L, hL⟩ := reachable_sound hinfo hsmall hr
  refine ⟨(hr.holds hinfo hsmall).separate ⟨fun h => h.elim, fun h => h.elim⟩, ?_, ?_, ?_⟩
  · intro s i t hs hi hheap
    exact hL.held_of_heap hs hi hheap
  · intro t h' hstep
    exact (hstep.spec hinfo hsmall hL).2.1
  · intro P h' hrun
    exact hrun.holds hinfo hsmall hr

theorem segments_hold_ranges_onePage :
    HeldRanges.Separate onePage.held ∧
      (∀ s i t, onePage.mapped s = true → i < (onePage.segment s).sliceEntries →
        ((onePage.segment s).slices i).xheap = some t →
        onePage.held s ⟨i, ((onePage.segment s).slices i).sliceCount, some t⟩) ∧
      (∀ t h', onePage.Step 1 t h' → HeldRanges.Step t onePage.held h'.held) ∧
      ∀ P h', Segments.Run 1 P onePage h' → HeldRanges.Run P onePage.held h'.held :=
  segments_hold_ranges (by decide) (by decide) onePage_reachable

omit [DecidableEq S] [DecidableEq T] in
theorem Sound.held_memory (hL : Sound info h L) {i n : Nat} {o : Option T}
    (hheld : h.held s ⟨i, n, o⟩) {j : Nat} (hlo : i ≤ j) (hhi : j < i + n) :
    (h.segment s).commitMask.bit j = true ∧ (h.segment s).purgeMask.bit j = false ∧
      (h.segment s).os.committed j = true := by
  have hin := (hL.held_iff hheld.1).mp hheld
  have hsafe := (hL.good s hheld.1).layout.safe
  have hused := usedIn_iff_pages.mpr ⟨_, hin.2, hlo, hhi⟩
  exact ⟨hsafe.commit j hused, hsafe.purge j hused, hsafe.backed j (hsafe.commit j hused)⟩

/-- The memory of a page is committed, and not one that waits to be given back. -/
theorem page_memory (hinfo : 0 < info) (hsmall : info ≤ miMaxSliceOffset + 1)
    (hr : Segments.Reachable info h) {i n : Nat} {o : Option T} (hheld : h.held s ⟨i, n, o⟩) {j : Nat}
    (hlo : i ≤ j) (hhi : j < i + n) :
    (h.segment s).commitMask.bit j = true ∧ (h.segment s).purgeMask.bit j = false ∧
      (h.segment s).os.committed j = true := by
  obtain ⟨L, hL⟩ := reachable_sound hinfo hsmall hr
  exact hL.held_memory hheld hlo hhi

theorem page_memory_onePage :
    (onePage.segment false).commitMask.bit 1 = true ∧ (onePage.segment false).purgeMask.bit 1 = false ∧
      (onePage.segment false).os.committed 1 = true :=
  page_memory (by decide) (by decide) onePage_reachable onePage_held (by decide) (by decide)

/-- When the time has come, what waits to be given back is given back, each slice once, and nothing
else. -/
theorem try_purge_exact (hinfo : 0 < info) (hsmall : info ≤ miMaxSliceOffset + 1)
    (hr : Segments.Reachable info h) (hs : h.mapped s = true)
    (hallow : (h.segment s).allowPurge = true) {env : Env} {force : Bool}
    (hdue : force = true ∨ (h.segment s).purgeExpire ≤ env.now) (j : Nat) :
    (miSegmentTryPurge env (h.segment s) force).os.purges j =
        (h.segment s).os.purges j + (if (h.segment s).purgeMask.bit j then 1 else 0) ∧
      (miSegmentTryPurge env (h.segment s) force).purgeMask.bit j = false ∧
      ((h.segment s).purgeMask.bit j = false →
        (miSegmentTryPurge env (h.segment s) force).commitMask.bit j =
            (h.segment s).commitMask.bit j ∧
          (miSegmentTryPurge env (h.segment s) force).os.committed j =
            (h.segment s).os.committed j) := by
  obtain ⟨L, hL⟩ := reachable_sound hinfo hsmall hr
  have hlay := (hL.good s hs).layout
  obtain ⟨hgiven, hempty⟩ := miSegmentTryPurge_exact hlay.size env hallow hdue hlay.safe.purge_sub
  refine ⟨hgiven.purges j, hempty j, fun hj => ?_⟩
  have hnot : ¬ (h.segment s).purgeMask.bit j = true := by
    rw [hj]
    exact Bool.false_ne_true
  exact ⟨hgiven.commit j hnot, hgiven.committed j hnot⟩

theorem try_purge_exact_onePage :
    (miSegmentTryPurge quietEnv (onePage.segment false) true).os.purges 1 =
        (onePage.segment false).os.purges 1 +
          (if (onePage.segment false).purgeMask.bit 1 then 1 else 0) ∧
      (miSegmentTryPurge quietEnv (onePage.segment false) true).purgeMask.bit 1 = false ∧
      ((onePage.segment false).purgeMask.bit 1 = false →
        (miSegmentTryPurge quietEnv (onePage.segment false) true).commitMask.bit 1 =
            (onePage.segment false).commitMask.bit 1 ∧
          (miSegmentTryPurge quietEnv (onePage.segment false) true).os.committed 1 =
            (onePage.segment false).os.committed 1) :=
  try_purge_exact (by decide) (by decide) onePage_reachable rfl (by decide +kernel) (.inl rfl) 1

omit [DecidableEq S] [DecidableEq T] in
/-- The slices of a page, the first apart. -/
theorem Sound.held_slices (hL : Sound info h L) {i n : Nat} {o : Option T}
    (hheld : h.held s ⟨i, n, o⟩) :
    ((h.segment s).slices i).sliceOffset = 0 ∧
      ∀ k < n, 0 < k → (h.segment s).slices (i + k) = ⟨0, k, 1, none⟩ := by
  obtain ⟨x, hx, hcount, huse⟩ := mem_pages_iff.mp ((hL.held_iff hheld.1).mp hheld).2
  obtain ⟨m, hm, u⟩ := x
  simp only at hx hcount huse
  subst hcount huse
  have hok : PageOk (h.segment s).slices i m o := (hL.good s hheld.1).layout.spanOk hx
  exact ⟨hok.offset, hok.back⟩

/-- While other threads run, a page of a thread keeps its slices, its heap and what is in it. -/
theorem foreign_page (hinfo : 0 < info) (hsmall : info ≤ miMaxSliceOffset + 1)
    (hr : Segments.Reachable info h) (hrun : Segments.Run info (fun t' => t' ≠ t) h h') {i n : Nat}
    (hheld : h.held s ⟨i, n, some t⟩) :
    h'.held s ⟨i, n, some t⟩ ∧ ∀ j, i ≤ j → j < i + n →
      (h'.segment s).slices j = (h.segment s).slices j ∧
      (h'.segment s).os.purges j = (h.segment s).os.purges j ∧
      (h'.segment s).os.committed j = true := by
  suffices hall : Segments.Reachable info h' ∧ h'.held s ⟨i, n, some t⟩ ∧
      ∀ j, i ≤ j → j < i + n → (h'.segment s).slices j = (h.segment s).slices j ∧
        (h'.segment s).os.purges j = (h.segment s).os.purges j by
    obtain ⟨hr', hheld', hsame⟩ := hall
    refine ⟨hheld', fun j hlo hhi => ⟨(hsame j hlo hhi).1, (hsame j hlo hhi).2, ?_⟩⟩
    obtain ⟨L, hL⟩ := reachable_sound hinfo hsmall hr'
    exact (hL.held_memory hheld' hlo hhi).2.2
  induction hrun with
  | refl => exact ⟨hr, hheld, fun j _ _ => ⟨rfl, rfl⟩⟩
  | tail _ hstep ih =>
      obtain ⟨t', hne, hstep⟩ := hstep
      obtain ⟨hr₁, hheld₁, hsame₁⟩ := ih
      obtain ⟨L, hL⟩ := reachable_sound hinfo hsmall hr₁
      obtain ⟨⟨L', hL'⟩, hholds, hunmoved⟩ := hstep.spec hinfo hsmall hL
      have hheld₂ := (hholds.foreign (Ne.symm hne) rfl).mpr hheld₁
      refine ⟨.step t' hr₁ hstep, hheld₂, fun j hlo hhi => ?_⟩
      obtain ⟨⟨heap, hsl⟩, hpurges⟩ := hunmoved s i n _ _ hheld₁ hheld₂ j hlo hhi
      obtain ⟨hsl₁, hpurges₁⟩ := hsame₁ j hlo hhi
      refine ⟨?_, hpurges.trans hpurges₁⟩
      rw [← hsl₁]
      by_cases hj : j = i
      · -- the header, with the heap
        subst hj
        have hheap₁ := hheld₁.2.2.2.2.2
        have hheap₂ := hheld₂.2.2.2.2.2
        simp only at hheap₁ hheap₂
        rw [hsl] at hheap₂ ⊢
        simp only at hheap₂
        rw [hheap₂, ← hheap₁]
      · obtain ⟨k, rfl⟩ : ∃ k, j = i + k := ⟨j - i, by omega⟩
        rw [(hL'.held_slices hheld₂).2 k (by omega) (by omega),
          (hL.held_slices hheld₁).2 k (by omega) (by omega)]

theorem foreign_page_twoSegments :
    twoSegments.held false ⟨1, 1, some false⟩ ∧ ∀ j, 1 ≤ j → j < 1 + 1 →
      (twoSegments.segment false).slices j = (onePage.segment false).slices j ∧
      (twoSegments.segment false).os.purges j = (onePage.segment false).os.purges j ∧
      (twoSegments.segment false).os.committed j = true :=
  have hrun : Segments.Run 1 (fun t' => t' ≠ false) onePage twoSegments :=
    Relation.ReflTransGen.single ⟨true, by decide,
      .segmentAlloc quietEnv ⟨false, true⟩ true rfl (Option.some_get _).symm⟩
  foreign_page (by decide) (by decide) onePage_reachable hrun onePage_held

/-- `_mi_segment_page_of`, for a place `diff` bytes behind the segment -/
def miSegmentPageOf (seg : MiSegment T) (diff : Nat) : Nat :=
  miSliceFirst seg (diff / miSegmentSliceSize)

/-- A place in a page leads to the page, whatever its blocks are. -/
theorem mi_segment_page_of (hinfo : 0 < info) (hsmall : info ≤ miMaxSliceOffset + 1)
    (hr : Segments.Reachable info h) {i n : Nat} {o : Option T} (hheld : h.held s ⟨i, n, o⟩)
    {diff : Nat} (hlo : i * miSegmentSliceSize ≤ diff) (hhi : diff < (i + n) * miSegmentSliceSize) :
    miSegmentPageOf (h.segment s) diff = i := by
  obtain ⟨L, hL⟩ := reachable_sound hinfo hsmall hr
  obtain ⟨hoffset, hback⟩ := hL.held_slices hheld
  have hpos := miSegmentSliceSize_pos
  have hlo' : i ≤ diff / miSegmentSliceSize := (Nat.le_div_iff_mul_le hpos).mpr hlo
  have hhi' : diff / miSegmentSliceSize < i + n := (Nat.div_lt_iff_lt_mul hpos).mpr hhi
  unfold miSegmentPageOf miSliceFirst
  generalize diff / miSegmentSliceSize = j at hlo' hhi'
  obtain ⟨k, rfl⟩ : ∃ k, j = i + k := ⟨j - i, by omega⟩
  by_cases hk : k = 0
  · subst hk
    rw [Nat.add_zero, hoffset, Nat.sub_zero]
  · rw [hback k (by omega) (by omega)]
    simp

theorem mi_segment_page_of_onePage : miSegmentPageOf (onePage.segment false) 70000 = 1 :=
  mi_segment_page_of (by decide) (by decide) onePage_reachable onePage_held (by decide) (by decide)

/-! ## Free spans -/

/-- The check of debug builds holds, of any segment that the thread may look at. -/
theorem mi_segment_is_valid (hinfo : 0 < info) (hsmall : info ≤ miMaxSliceOffset + 1)
    (hr : Segments.Reachable info h) (hs : h.mapped s = true)
    (howner : (h.segment s).threadId = none ∨ (h.segment s).threadId = some t) :
    ∃ enough, ∀ fuel, enough ≤ fuel → miSegmentIsValid h t s fuel = true := by
  obtain ⟨L, hL⟩ := reachable_sound hinfo hsmall hr
  exact hL.isValid hs howner

theorem mi_segment_is_valid_onePage :
    ∃ enough, ∀ fuel, enough ≤ fuel → miSegmentIsValid onePage false false fuel = true :=
  mi_segment_is_valid (by decide) (by decide) onePage_reachable rfl (.inr (by decide +kernel))

/-- There is a free span at a slice. -/
def Segments.free (h : Segments S T) (s : S) (i n : Nat) : Prop :=
  h.mapped s = true ∧ Header (h.segment s) i ∧ ((h.segment s).slices i).xblockSize = 0 ∧
    ((h.segment s).slices i).sliceCount = n

omit [DecidableEq S] [DecidableEq T] in
theorem Sound.free_iff (hL : Sound info h L) {i n : Nat} : h.free s i n ↔
    h.mapped s = true ∧ ∃ hn, at? Span.count 0 (L s) i =
      some ⟨n, hn, .free (h.segment s).threadId.isSome⟩ := by
  unfold Segments.free
  refine and_congr_right fun hs => ?_
  have hgood := hL.good s hs
  rw [hgood.layout.header_iff]
  constructor
  · rintro ⟨⟨⟨m, hm, u⟩, hx⟩, hxblock, hcount⟩
    have hspan := hgood.layout.spanOk hx
    obtain rfl : m = n := (spanOk_count hspan).symm.trans hcount
    refine ⟨hm, ?_⟩
    cases u with
    | page heap => exact absurd ((spanOk_xblock hspan).mp hxblock) (by simp [Span.isPage])
    | free q =>
        obtain ⟨A, B, he, -⟩ := (at?_eq_some_iff Span.pos).mp hx
        obtain rfl : q = (h.segment s).threadId.isSome :=
          hgood.owned ⟨m, hm, .free q⟩ (by rw [he]; simp)
        exact hx
  · rintro ⟨hn, hx⟩
    have hok : FreeOk (h.segment s).slices i n := hgood.layout.spanOk hx
    exact ⟨⟨_, hx⟩, hok.xblock, hok.count⟩

/-- A queue has, once each, the free spans of its thread and of the sizes for it.  Behind a free span
comes a page. -/
theorem free_spans (hinfo : 0 < info) (hsmall : info ≤ miMaxSliceOffset + 1)
    (hr : Segments.Reachable info h) :
    (∀ t bin, ∃ M, LinkedCells.Chain h.spans.next (h.spans.first (t, bin)) M ∧ M.Nodup ∧
      ∀ s i, (s, i) ∈ M ↔
        ∃ n, h.free s i n ∧ (h.segment s).threadId = some t ∧ miSliceBin n = bin) ∧
    ∀ s i n m, h.free s i n → ¬ h.free s (i + n) m := by
  obtain ⟨L, hL⟩ := reachable_sound hinfo hsmall hr
  refine ⟨fun t bin => ?_, fun s i n m hfree hnext => ?_⟩
  · obtain ⟨q, hrep, hq⟩ := hL.placed
    refine ⟨q (t, bin), hrep.chain _, hrep.nodup _, fun s i => ?_⟩
    rw [hq]
    constructor
    · intro hqueue
      obtain ⟨hs, howner, n, hn, hx, he⟩ := whichQueue_some hqueue
      refine ⟨n, hL.free_iff.mpr ⟨hs, hn, ?_⟩, howner, (Prod.mk.inj he).2.symm⟩
      rw [howner]
      exact hx
    · rintro ⟨n, hfree, howner, rfl⟩
      obtain ⟨hs, hn, hx⟩ := hL.free_iff.mp hfree
      rw [howner] at hx
      exact (hq _ _).mp (hL.mem_queue hq hs howner hx).1
  · obtain ⟨hs, hn, hx⟩ := hL.free_iff.mp hfree
    obtain ⟨-, hm, hy⟩ := hL.free_iff.mp hnext
    have hapart := (hL.good s hs).layout.apart
    obtain ⟨A, B, he, hi⟩ := (at?_eq_some_iff Span.pos).mp hx
    rw [he, show i + n = 0 + total Span.count (A ++ [⟨n, hn, .free (h.segment s).threadId.isSome⟩]) by
      rw [hi]; simp, List.append_cons] at hy
    rw [at?_append Span.pos, if_neg (Nat.lt_irrefl _)] at hy
    cases B with
    | nil => cases hy
    | cons y B =>
        unfold at? at hy
        rw [if_pos rfl] at hy
        obtain rfl := Option.some.inj hy
        rw [he] at hapart
        rcases (List.isChain_cons_cons.mp (List.isChain_append.mp hapart).2.1).1 with hpage | hpage
        · cases hpage
        · cases hpage

theorem free_spans_onePage :
    (∀ t bin, ∃ M, LinkedCells.Chain onePage.spans.next (onePage.spans.first (t, bin)) M ∧ M.Nodup ∧
      ∀ s i, (s, i) ∈ M ↔
        ∃ n, onePage.free s i n ∧ (onePage.segment s).threadId = some t ∧ miSliceBin n = bin) ∧
    ∀ s i n m, onePage.free s i n → ¬ onePage.free s (i + n) m :=
  free_spans (by decide) (by decide) onePage_reachable

/-- The search of `mi_segments_page_find_and_allocate`: it ends, finds a span that is large enough,
in no queue later than that of any other such span, and fails only if there is none. -/
theorem page_find (hinfo : 0 < info) (hsmall : info ≤ miMaxSliceOffset + 1)
    (hr : Segments.Reachable info h) (suitable : S → Bool) (t : T) {n : Nat} (hn : 0 < n) :
    (∃ enough, ∀ fuel, enough ≤ fuel → ∃ r, miSegmentsPageFind h suitable t n fuel = some r) ∧
      (∀ fuel sq s i, miSegmentsPageFind h suitable t n fuel = some (some (sq, s, i)) →
        ∃ N, h.free s i N ∧ (h.segment s).threadId = some t ∧ suitable s = true ∧ n ≤ N ∧
          sq = miSpanQueueFor t N ∧ ∀ s' j M, h.free s' j M → (h.segment s').threadId = some t →
            suitable s' = true → n ≤ M → miSliceBin N ≤ miSliceBin M) ∧
      (∀ fuel, miSegmentsPageFind h suitable t n fuel = some none →
        ∀ s' j M, h.free s' j M → (h.segment s').threadId = some t → suitable s' = true → M < n) := by
  obtain ⟨L, hL⟩ := reachable_sound hinfo hsmall hr
  obtain ⟨hends, hfound, hnone⟩ := hL.pageFind_spec suitable t hn
  refine ⟨hends, fun fuel sq s i hr => ?_, fun fuel hr s' j M hfree howner hsuit => ?_⟩
  · obtain ⟨hs, howner, hsuit, N, hN, hx, hle, hsq, hbest⟩ := hfound fuel sq s i hr
    refine ⟨N, hL.free_iff.mpr ⟨hs, hN, by rw [howner]; exact hx⟩, howner, hsuit, hle, hsq, ?_⟩
    intro s' j M hfree howner' hsuit' hle'
    obtain ⟨hs', hM, hy⟩ := hL.free_iff.mp hfree
    rw [howner'] at hy
    exact hbest s' j M hM hs' howner' hsuit' hy hle'
  · obtain ⟨hs', hM, hy⟩ := hL.free_iff.mp hfree
    rw [howner] at hy
    exact hnone fuel hr s' j M hM hs' howner hsuit hy

theorem page_find_oneSegment :
    (∃ enough, ∀ fuel, enough ≤ fuel →
      ∃ r, miSegmentsPageFind oneSegment (fun _ => true) false 8 fuel = some r) ∧
      (∀ fuel sq s i, miSegmentsPageFind oneSegment (fun _ => true) false 8 fuel =
          some (some (sq, s, i)) →
        ∃ N, oneSegment.free s i N ∧ (oneSegment.segment s).threadId = some false ∧ true = true ∧
          8 ≤ N ∧ sq = miSpanQueueFor false N ∧ ∀ s' j M, oneSegment.free s' j M →
            (oneSegment.segment s').threadId = some false → true = true → 8 ≤ M →
            miSliceBin N ≤ miSliceBin M) ∧
      (∀ fuel, miSegmentsPageFind oneSegment (fun _ => true) false 8 fuel = some none →
        ∀ s' j M, oneSegment.free s' j M → (oneSegment.segment s').threadId = some false →
          true = true → M < 8) :=
  page_find (by decide) (by decide) oneSegment_reachable (fun _ => true) false (by decide)

/-! ## Abandoned segments -/

omit [DecidableEq S] [DecidableEq T] in
theorem Sound.held_owned (hL : Sound info h L) {r : HeldRanges.Range T} (hheld : h.held s r) :
    r.owner = none ∨ r.owner = (h.segment s).threadId := by
  obtain ⟨x, hx, -, huse⟩ := mem_pages_iff.mp ((hL.held_iff hheld.1).mp hheld).2
  obtain ⟨A, B, he, -⟩ := (at?_eq_some_iff Span.pos).mp hx
  have howned := (hL.good s hheld.1).owned x (by rw [he]; simp)
  unfold Owned at howned
  rw [huse] at howned
  exact howned

/-- A segment is abandoned when all its pages are, and then no slice of it is linked.  Otherwise its
pages are of its thread or abandoned. -/
theorem abandoned_segment (hinfo : 0 < info) (hsmall : info ≤ miMaxSliceOffset + 1)
    (hr : Segments.Reachable info h) (hs : h.mapped s = true) :
    ((h.segment s).threadId = none → (h.segment s).used = (h.segment s).abandoned ∧
      0 < (h.segment s).used ∧ (∀ r, h.held s r → r.owner = none) ∧
      ∀ i, h.spans.next (s, i) = none ∧ h.spans.prev (s, i) = none) ∧
    ∀ t, (h.segment s).threadId = some t →
      ((h.segment s).used = 0 ∨ (h.segment s).abandoned < (h.segment s).used) ∧
      ∀ r, h.held s r → r.owner = none ∨ r.owner = some t := by
  obtain ⟨L, hL⟩ := reachable_sound hinfo hsmall hr
  have hgood := hL.good s hs
  refine ⟨fun hnone => ⟨?_, hgood.idle hnone, fun r hheld => ?_, fun i => ?_⟩,
    fun t howner => ⟨hgood.busy (by rw [howner]; exact Option.some_ne_none t), fun r hheld => ?_⟩⟩
  · -- all pages count as abandoned
    have hall : (pages 0 (L s)).countP (fun p => p.heap.isNone) = (pages 0 (L s)).length := by
      rw [List.countP_eq_length]
      intro p hp
      obtain ⟨x, hx, -, huse⟩ := mem_pages_iff.mp hp
      obtain ⟨A, B, he, -⟩ := (at?_eq_some_iff Span.pos).mp hx
      have howned := hgood.owned x (by rw [he]; simp)
      unfold Owned at howned
      rw [huse, hnone] at howned
      exact Option.isNone_iff_eq_none.mpr (howned.elim id id)
    rw [← hgood.counted.used, ← hgood.counted.abandoned] at hall
    omega
  · have howned := hL.held_owned hheld
    rw [hnone] at howned
    exact howned.elim id id
  · refine hL.placed.loose ?_
    unfold whichQueue
    rw [if_pos hs, hnone]
  · have howned := hL.held_owned hheld
    rw [howner] at howned
    exact howned

theorem abandoned_segment_abandonedPage :
    (abandonedPage.segment false).used = (abandonedPage.segment false).abandoned ∧
      0 < (abandonedPage.segment false).used ∧
      (∀ r, abandonedPage.held false r → r.owner = none) ∧
      ∀ i, abandonedPage.spans.next (false, i) = none ∧ abandonedPage.spans.prev (false, i) = none :=
  (abandoned_segment (by decide) (by decide) abandonedPage_reachable rfl).1 abandonedPage_threadId

/-- `mi_segment_reclaim` takes over the pages that it does not find free, all of them and no others.
The segment goes if there is none, and has no abandoned page otherwise. -/
theorem reclaim_keeps (hinfo : 0 < info) (hsmall : info ≤ miMaxSliceOffset + 1)
    (hr : Segments.Reachable info h) (hs : h.mapped s = true)
    (hnone : (h.segment s).threadId = none) (env : Env) (v : Visit) (t : T) (requested : Nat) :
    ∃ w m right, miSegmentReclaim env v t s requested (h.work s) = some (w, m, right) ∧
      (∀ i n o, (h.put s w m).held s ⟨i, n, o⟩ ↔
        h.held s ⟨i, n, none⟩ ∧ v.reclaimAllFree i = false ∧ o = some t) ∧
      (m = false ↔ ∀ i n o, h.held s ⟨i, n, o⟩ → v.reclaimAllFree i = true) ∧
      (m = true → w.segment.threadId = some t ∧ w.segment.abandoned = 0) := by
  obtain ⟨L, hL⟩ := reachable_sound hinfo hsmall hr
  have hvisit := hL.visiting (t := t) hs hnone
  obtain ⟨w, m, right, L', hr', hout, hreclaimed⟩ := segmentReclaim_spec env v requested hvisit
  have hheld : ∀ i n o, h.held s ⟨i, n, o⟩ ↔
      o = none ∧ (⟨i, n, o⟩ : Page T) ∈ (pages 0 (L s)).tail := by
    obtain ⟨hhinfo, R, hR⟩ := hvisit.headed
    intro i n o
    rw [hL.held_iff hs]
    unfold HeldIn
    rw [hR, pages_headed, List.tail_cons, List.mem_cons, Page.mk.injEq]
    constructor
    · rintro ⟨hpos, hp⟩
      have hmem := hp.resolve_left fun hp => by omega
      refine ⟨?_, hmem⟩
      have hheld : h.held s ⟨i, n, o⟩ := (hL.held_iff hs).mpr
        ⟨hpos, by rw [hR, pages_headed]; exact List.mem_cons_of_mem _ hmem⟩
      have howned := hL.held_owned hheld
      rw [hnone] at howned
      exact howned.elim id id
    · rintro ⟨-, hp⟩
      have hlo := (mem_pages_range hp).2.1
      simp only [total_cons, total_nil] at hlo
      exact ⟨by simp only; omega, .inr hp⟩
  have hleft : ∀ i n o, (⟨i, n, o⟩ : Page T) ∈
      (withoutFree v.reclaimAllFree (pages 0 (L s)).tail).map (Page.give t) ↔
        h.held s ⟨i, n, none⟩ ∧ v.reclaimAllFree i = false ∧ o = some t := by
    intro i n o
    rw [hheld, List.mem_map]
    constructor
    · rintro ⟨p, hp, he⟩
      obtain ⟨hp, hfree⟩ := List.mem_filter.mp hp
      obtain ⟨i', n', o'⟩ := p
      obtain ⟨rfl, rfl, rfl⟩ := Page.mk.injEq .. ▸ he
      have hpos : h.held s ⟨i', n', o'⟩ := by
        refine (hL.held_iff hs).mpr ?_
        obtain ⟨hhinfo, R, hR⟩ := hvisit.headed
        rw [hR, pages_headed, List.tail_cons] at hp
        have hlo := (mem_pages_range hp).2.1
        simp only [total_cons, total_nil] at hlo
        refine ⟨by simp only; omega, ?_⟩
        rw [hR, pages_headed]
        exact List.mem_cons_of_mem _ hp
      obtain ⟨rfl, hp⟩ := (hheld _ _ _).mp hpos
      exact ⟨⟨rfl, hp⟩, by simpa using hfree, rfl⟩
    · rintro ⟨⟨-, hp⟩, hlive, rfl⟩
      exact ⟨_, mem_withoutFree hp hlive, rfl⟩
  refine ⟨w, m, right, hr', fun i n o => ?_, ?_, fun hm => ⟨hreclaimed.thread hm, hreclaimed.abandoned hm⟩⟩
  · rw [held_put hout, Function.update_self, ← hleft]
    unfold HeldIn
    cases m with
    | false =>
        rw [hout.gone rfl, hreclaimed.nothing rfl]
        simp [pages]
    | true =>
        rw [hreclaimed.left rfl, List.mem_cons, Page.mk.injEq]
        constructor
        · rintro ⟨hpos, hp | hp⟩
          · exact absurd hp.1 (Nat.pos_iff_ne_zero.mp hpos)
          · exact hp
        · intro hp
          exact ⟨((hleft i n o).mp hp).1.2.1, .inr hp⟩
  · constructor
    · rintro rfl i n o hh
      by_contra hlive
      obtain ⟨rfl, hp⟩ := (hheld i n o).mp hh
      have hmem := mem_withoutFree hp (Bool.eq_false_iff.mpr hlive)
      rw [hreclaimed.nothing rfl] at hmem
      cases hmem
    · intro hall
      by_contra hm
      have hm : m = true := by simpa using hm
      -- a segment that stays has a page
      have hempty : withoutFree v.reclaimAllFree (pages 0 (L s)).tail = [] := by
        rw [List.eq_nil_iff_forall_not_mem]
        intro p hp
        obtain ⟨i, n, o⟩ := p
        have hgive := (hleft i n (some t)).mp (List.mem_map.mpr ⟨_, hp, rfl⟩)
        rw [hall i n none hgive.1] at hgive
        cases hgive.2.1
      have hgood := hout.good hm
      have hcount := hgood.counted.used
      rw [hreclaimed.left hm, hempty] at hcount
      simp only [List.map_nil, List.length_cons, List.length_nil] at hcount
      have hused := hreclaimed.used hm
      omega

theorem reclaim_keeps_abandonedPage : ∃ w m right,
    miSegmentReclaim quietEnv ⟨fun _ => false, fun _ => false, fun _ => false, true⟩ true false 0
        (abandonedPage.work false) = some (w, m, right) ∧
      (∀ i n o, (abandonedPage.put false w m).held false ⟨i, n, o⟩ ↔
        abandonedPage.held false ⟨i, n, none⟩ ∧ false = false ∧ o = some true) ∧
      (m = false ↔ ∀ i n o, abandonedPage.held false ⟨i, n, o⟩ → false = true) ∧
      (m = true → w.segment.threadId = some true ∧ w.segment.abandoned = 0) :=
  reclaim_keeps (by decide) (by decide) abandonedPage_reachable rfl abandonedPage_threadId quietEnv
    ⟨fun _ => false, fun _ => false, fun _ => false, true⟩ true 0

/-! ## What can fail -/

/-- No loop runs on, whatever the system does and whatever other threads free meanwhile. -/
theorem loops_end (hinfo : 0 < info) (hsmall : info ≤ miMaxSliceOffset + 1)
    (hr : Segments.Reachable info h) (hs : h.mapped s = true) (env : Env) :
    (∀ t page, page < (h.segment s).sliceEntries → ((h.segment s).slices page).xheap = some t →
      (∃ r, miSegmentPageFree env t s page (h.work s) = some r) ∧
        ∃ w, miSegmentPageAbandon env t s page (h.work s) = some w) ∧
    ((h.segment s).threadId = none → ∀ v t needed blockSize force,
      (∃ r, tryReclaimRound env v t s needed blockSize (h.work s) = some r) ∧
        ∃ r, abandonedCollectRound env v t s force (h.work s) = some r) := by
  obtain ⟨L, hL⟩ := reachable_sound hinfo hsmall hr
  refine ⟨fun t page hpage hheap => ⟨?_, ?_⟩, fun hnone v t needed blockSize force => ⟨?_, ?_⟩⟩
  · obtain ⟨w, m, L', hr', -⟩ := moves_of_pageFree env hL hs hpage hheap
    exact ⟨_, hr'⟩
  · obtain ⟨w, L', hr', -⟩ := moves_of_pageAbandon env hL hs hpage hheap
    exact ⟨_, hr'⟩
  · obtain ⟨w, m, L', hr', -⟩ :=
      tryReclaimRound_spec env v needed blockSize (hL.visiting (t := t) hs hnone)
    exact ⟨_, hr'⟩
  · obtain ⟨w, m, L', hr', -⟩ := abandonedCollectRound_spec env v force (hL.visiting (t := t) hs hnone)
    exact ⟨_, hr'⟩

theorem loops_end_abandonedPage :
    (∃ r, tryReclaimRound quietEnv ⟨fun _ => false, fun _ => false, fun _ => true, true⟩ true false 1 64
        (abandonedPage.work false) = some r) ∧
      ∃ r, abandonedCollectRound quietEnv ⟨fun _ => false, fun _ => false, fun _ => true, true⟩ true false
        false (abandonedPage.work false) = some r :=
  (loops_end (by decide) (by decide) abandonedPage_reachable rfl quietEnv).2 abandonedPage_threadId
    ⟨fun _ => false, fun _ => false, fun _ => true, true⟩ true 1 64 false

/-- A segment is there once the system has given its memory, all of it free behind `info`. -/
theorem segment_alloc (hinfo : 0 < info) (hsmall : info ≤ miMaxSliceOffset + 1)
    (hr : Segments.Reachable info h) (hs : h.mapped s = false) (env : Env) (memid : MemId) (t : T) :
    (miSegmentAlloc env memid info t s h.spans).isSome =
        (miSegmentOsAlloc env memid info : Option (MiSegment T)).isSome ∧
      ∀ w, miSegmentAlloc env memid info t s h.spans = some w →
        (h.put s w true).free s info (miSlicesPerSegment - info) ∧
          ∀ r, ¬ (h.put s w true).held s r := by
  obtain ⟨L, hL⟩ := reachable_sound hinfo hsmall hr
  have hplace := hL.place_unmapped hs
  cases hos : (miSegmentOsAlloc env memid info : Option (MiSegment T)) with
  | none =>
      unfold miSegmentAlloc
      rw [hos]
      exact ⟨rfl, fun w hw => by cases hw⟩
  | some seg =>
      obtain ⟨w, hw, hfree, -, -, howner, -, -⟩ := segmentAlloc_spec t s hinfo hsmall hplace hos
      rw [hw]
      refine ⟨rfl, fun w' hw' => ?_⟩
      obtain rfl := Option.some.inj hw'
      obtain ⟨L', ⟨hfree', hL'⟩, hmoves⟩ := moves_of_segmentAlloc hinfo hsmall hL hs hw
      have hsound := hL.put hmoves.outcome
      have hmapped : (h.put s w true).mapped s = true := Function.update_self ..
      have hown : ((h.put s w true).segment s).threadId = some t := by
        rw [← howner]
        exact congrArg MiSegment.threadId (Function.update_self ..)
      refine ⟨hsound.free_iff.mpr ⟨hmapped, hfree, ?_⟩, fun r hheld => ?_⟩
      · rw [hown, Function.update_self, hL']
        simp [at?, Nat.pos_iff_ne_zero.mp hinfo]
      · have hin := (hsound.held_iff hmapped).mp hheld
        rw [Function.update_self, hL'] at hin
        obtain ⟨hpos, hp⟩ := hin
        simp only [pages, List.mem_singleton, Page.mk.injEq] at hp
        omega

theorem segment_alloc_onePage :
    (miSegmentAlloc quietEnv ⟨false, true⟩ 1 true true onePage.spans).isSome =
        (miSegmentOsAlloc quietEnv ⟨false, true⟩ 1 : Option (MiSegment Bool)).isSome ∧
      ∀ w, miSegmentAlloc quietEnv ⟨false, true⟩ 1 true true onePage.spans = some w →
        (onePage.put true w true).free true 1 (miSlicesPerSegment - 1) ∧
          ∀ r, ¬ (onePage.put true w true).held true r :=
  segment_alloc (by decide) (by decide) onePage_reachable rfl quietEnv ⟨false, true⟩ true

/-- When the system refuses the memory of a page, no span and no page is another than before. -/
theorem page_refused (hinfo : 0 < info) (hsmall : info ≤ miMaxSliceOffset + 1)
    (hr : Segments.Reachable info h) {suitable : S → Bool} {blockSize fuel i : Nat} {sq : T × Nat}
    (hpos : 0 < blockSize) (hle : blockSize ≤ miLargeObjSizeMax)
    (hfind : miSegmentsPageFind h suitable t (slicesNeeded blockSize) fuel = some (some (sq, s, i)))
    {env : Env} {w : Work S T}
    (htake : miSegmentsPageTake env t sq s i (slicesNeeded blockSize) (h.work s) = (w, none)) :
    (h.put s w true).held = h.held ∧
      (∀ s' j n, (h.put s w true).free s' j n ↔ h.free s' j n) ∧
      w.segment.used = (h.segment s).used := by
  obtain ⟨L, hL⟩ := reachable_sound hinfo hsmall hr
  have hmoves := (moves_of_pageAlloc hL env hpos hle hfind htake).2 rfl
  obtain ⟨hs, howner, -, N, hN, hx, -⟩ :=
    (hL.pageFind_spec suitable t (slicesNeeded_pos hpos)).2.1 fuel sq s i hfind
  have hsound := hL.put hmoves.outcome
  rw [Function.update_eq_self] at hsound
  have hmapped : (h.put s w true).mapped s = true := Function.update_self ..
  have hseg : (h.put s w true).segment s = w.segment := Function.update_self ..
  -- there is a free span, in a queue
  have hthread : w.segment.threadId.isSome = true := by
    obtain ⟨A, B, he, -⟩ := (at?_eq_some_iff Span.pos).mp hx
    exact ((hmoves.outcome.good rfl).owned ⟨N, hN, .free true⟩ (by rw [he]; simp)).symm
  refine ⟨?_, fun s' j n => ?_, ?_⟩
  · rw [held_put hmoves.outcome]
    exact held_update_self hL hs fun _ => Iff.rfl
  · rw [hsound.free_iff, hL.free_iff]
    by_cases hs' : s' = s
    · subst hs'
      rw [hseg, hthread, howner, hmapped, hs]
      rfl
    · rw [put_segment_ne hs']
      have hm : (h.put s w true).mapped s' = h.mapped s' := Function.update_of_ne hs' ..
      rw [hm]
  · have hcount := (hmoves.outcome.good rfl).counted.used
    rw [← (hL.good s hs).counted.used] at hcount
    omega

theorem page_refused_oneSegment :
    (oneSegment.put false refusedWork true).held = oneSegment.held ∧
      (∀ s' j n, (oneSegment.put false refusedWork true).free s' j n ↔ oneSegment.free s' j n) ∧
      refusedWork.segment.used = (oneSegment.segment false).used :=
  page_refused (by decide) (by decide) oneSegment_reachable (by decide) (by decide) oneSegment_find
    refusedWork_take

end

end EflCore.Mimalloc
