/-
# `EflCore.Mimalloc.Segments` — spans of slices in segments

A segment is a row of slices; a slice is also the header of the page, or of the free span, that
starts at it.  The thread that owns a segment keeps its free spans in its span queues, one queue for
each bin.  Segments are of kind `MI_SEGMENT_NORMAL`.

| in the source | here |
| :-- | :-- |
| `slice->slice_offset` | `sliceOffset`, in slices |
| `slice->next`, `slice->prev`, `tld->spans[bin]` | `spans`, a store of linked cells |
| `segment->thread_id`, 0 when abandoned | `threadId`, `none` when abandoned |
| `mi_page_heap(page)` | `xheap`, the thread of the heap |
| `_mi_os_commit`, `_mi_os_purge`, `_mi_clock_now`, options | `Env`, anything |

`os` of a segment is not in the source: it is what the operating system has done, slice by slice.
Within one step the clock stands still, and the system answers a request the way it did before.

What the blocks of a page are doing is the subject of `ThreadFree`.  Here a page that is looked at is
found free or not (`Visit`), as the threads that free blocks of it would have it.
-/
import EflCore.Lib.DoublyLinked
import EflCore.Mimalloc.Bins
import EflCore.Mimalloc.CommitMask

namespace EflCore.Mimalloc

/-! ## Constants -/

def miSegmentSize : Nat := miSlicesPerSegment * miSegmentSliceSize

def miMinimalCommitSize : Nat := 1 * miSegmentSliceSize

def miCommitSize : Nat := miSegmentSliceSize

def miAlignmentMax : Nat := miSegmentSize / 2

def miMaxSliceOffset : Nat := miAlignmentMax / miSegmentSliceSize - 1

def miMediumPageSize : Nat := 8 * miSegmentSliceSize

def miSmallObjSizeMax : Nat := miSegmentSliceSize / 4

def miLargeObjSizeMax : Nat := miSegmentSize / 2

def miHugeBlockSize : Nat := 2 * 1024 * 1024 * 1024

def miAlignUp (sz alignment : Nat) : Nat := (sz + alignment - 1) / alignment * alignment

def miAlignDown (sz alignment : Nat) : Nat := sz / alignment * alignment

/-! ## State -/

variable {T S : Type}

structure MiSlice (T : Type) where
  sliceCount : Nat
  sliceOffset : Nat
  xblockSize : Nat
  xheap : Option T

/-- What the operating system has done with the memory of a segment. -/
structure OsMem where
  /-- the memory of a slice can be used -/
  committed : Nat → Bool
  /-- how often it was given back, wholly or only what was in it -/
  purges : Nat → Nat

structure MiSegment (T : Type) where
  allowDecommit : Bool
  allowPurge : Bool
  commitMask : MiCommitMask
  purgeMask : MiCommitMask
  purgeExpire : Int
  abandoned : Nat
  abandonedVisits : Nat
  used : Nat
  segmentSlices : Nat
  segmentInfoSlices : Nat
  sliceEntries : Nat
  threadId : Option T
  slices : Nat → MiSlice T
  os : OsMem

/-- The cells of the span queues are slices, the queues those of a thread and a bin. -/
abbrev SpanStore (S T : Type) : Type := DoublyLinked.Store (S × Nat) (T × Nat)

/-- A segment that a function works on, and the span queues. -/
structure Work (S T : Type) where
  segment : MiSegment T
  spans : SpanStore S T

structure Segments (S T : Type) where
  segment : S → MiSegment T
  /-- the segments that there are -/
  mapped : S → Bool
  spans : SpanStore S T

/-- The answers a call gets from the operating system, and the options. -/
structure Env where
  osCommit : Nat → Nat → Bool
  osPurge : Nat → Nat → Bool
  now : Int
  purgeDelay : Int
  purgeExtendDelay : Int
  abandonedPagePurge : Bool
  pageReset : Bool

def MiSegment.setSlice (seg : MiSegment T) (i : Nat) (f : MiSlice T → MiSlice T) : MiSegment T :=
  { seg with slices := Function.update seg.slices i (f (seg.slices i)) }

def Work.setSlice (w : Work S T) (i : Nat) (f : MiSlice T → MiSlice T) : Work S T :=
  { w with segment := w.segment.setSlice i f }

/-! ## Commit and purge -/

def miSegmentInfoSize (seg : MiSegment T) : Nat := seg.segmentInfoSlices * miSegmentSliceSize

/-- `mi_segment_size` -/
def MiSegment.size (seg : MiSegment T) : Nat := seg.segmentSlices * miSegmentSliceSize

/-- `mi_segment_commit_mask`: `start_p` less the segment, `full_size` and the mask. -/
def miSegmentCommitMask (seg : MiSegment T) (conservative : Bool) (pstart size : Nat) :
    Nat × Nat × MiCommitMask :=
  if size = 0 ∨ size > miSegmentSize then (0, 0, miCommitMaskCreateEmpty)
  else
    let segstart := miSegmentInfoSize seg
    let segsize := seg.size
    if pstart ≥ segsize then (0, 0, miCommitMaskCreateEmpty)
    else
      let start := if conservative then miAlignUp pstart miCommitSize
        else miAlignDown pstart miMinimalCommitSize
      let end' := if conservative then miAlignDown (pstart + size) miCommitSize
        else miAlignUp (pstart + size) miMinimalCommitSize
      let start := if pstart ≥ segstart ∧ start < segstart then segstart else start
      let end' := if end' > segsize then segsize else end'
      let fullSize := if end' > start then end' - start else 0
      if fullSize = 0 then (start, 0, miCommitMaskCreateEmpty)
      else
        (start, fullSize, miCommitMaskCreate (start / miCommitSize) (fullSize / miCommitSize))

/-- The slices with a byte in a range. -/
def inRange (start size j : Nat) : Bool :=
  decide (start < (j + 1) * miSegmentSliceSize ∧ j * miSegmentSliceSize < start + size)

def OsMem.commit (os : OsMem) (start size : Nat) : OsMem :=
  { os with committed := fun j => os.committed j || inRange start size j }

def OsMem.purge (os : OsMem) (start size : Nat) (decommitted : Bool) : OsMem where
  committed j := os.committed j && !(decommitted && inRange start size j)
  purges j := if inRange start size j then os.purges j + 1 else os.purges j

def miSegmentCommit (env : Env) (seg : MiSegment T) (p size : Nat) : Bool × MiSegment T :=
  let (start, fullSize, mask) := miSegmentCommitMask seg false p size
  if miCommitMaskIsEmpty mask ∨ fullSize = 0 then (true, seg)
  else
    let done := miCommitMaskAllSet seg.commitMask mask
    if !done && !env.osCommit start fullSize then (false, seg)
    else
      let seg :=
        if done then seg
        else
          { seg with
            os := seg.os.commit start fullSize
            commitMask := miCommitMaskSet seg.commitMask mask }
      let seg :=
        if miCommitMaskAnySet seg.purgeMask mask then
          { seg with purgeExpire := env.now + env.purgeDelay }
        else seg
      (true, { seg with purgeMask := miCommitMaskClear seg.purgeMask mask })

def miSegmentEnsureCommitted (env : Env) (seg : MiSegment T) (p size : Nat) : Bool × MiSegment T :=
  if miCommitMaskIsFull seg.commitMask && miCommitMaskIsEmpty seg.purgeMask then (true, seg)
  else miSegmentCommit env seg p size

/-- `mi_segment_purge` returns true always. -/
def miSegmentPurge (env : Env) (seg : MiSegment T) (p size : Nat) : MiSegment T :=
  if !seg.allowPurge then seg
  else
    let (start, fullSize, mask) := miSegmentCommitMask seg true p size
    if miCommitMaskIsEmpty mask ∨ fullSize = 0 then seg
    else
      let seg :=
        if miCommitMaskAnySet seg.commitMask mask then
          let decommitted := env.osPurge start fullSize
          { seg with
            os := seg.os.purge start fullSize decommitted
            commitMask :=
              if decommitted then miCommitMaskClear seg.commitMask mask else seg.commitMask }
        else seg
      { seg with purgeMask := miCommitMaskClear seg.purgeMask mask }

def miSegmentTryPurge (env : Env) (seg : MiSegment T) (force : Bool) : MiSegment T :=
  if !seg.allowPurge || miCommitMaskIsEmpty seg.purgeMask then seg
  else if !force && env.now < seg.purgeExpire then seg
  else
    let mask := seg.purgeMask
    (miCommitMaskForeach mask).foldl
      (fun seg r => miSegmentPurge env seg (r.1 * miCommitSize) (r.2 * miCommitSize))
      { seg with purgeExpire := 0, purgeMask := miCommitMaskCreateEmpty }

def miSegmentSchedulePurge (env : Env) (seg : MiSegment T) (p size : Nat) : MiSegment T :=
  if !seg.allowPurge then seg
  else if env.purgeDelay = 0 then miSegmentPurge env seg p size
  else
    let (_, fullSize, mask) := miSegmentCommitMask seg true p size
    if miCommitMaskIsEmpty mask ∨ fullSize = 0 then seg
    else
      let cmask := miCommitMaskCreateIntersect seg.commitMask mask
      let seg := { seg with purgeMask := miCommitMaskSet seg.purgeMask cmask }
      if seg.purgeExpire = 0 then { seg with purgeExpire := env.now + env.purgeDelay }
      else if seg.purgeExpire ≤ env.now then
        if seg.purgeExpire + env.purgeExtendDelay ≤ env.now then miSegmentTryPurge env seg true
        else { seg with purgeExpire := env.now + env.purgeExtendDelay }
      else { seg with purgeExpire := seg.purgeExpire + env.purgeExtendDelay }

/-! ## Span queues -/

section

variable [DecidableEq S] [DecidableEq T]

def miSpanQueuePush (sq : T × Nat) (s : S) (slice : Nat) (w : Work S T) : Work S T :=
  { w.setSlice slice fun sl => { sl with xblockSize := 0 } with spans := w.spans.push sq (s, slice) }

/-- `mi_span_queue_for`; the queues of a thread are told apart by their bins. -/
def miSpanQueueFor (t : T) (sliceCount : Nat) : T × Nat := (t, miSliceBin sliceCount)

def miSpanQueueDelete (sq : T × Nat) (s : S) (slice : Nat) (w : Work S T) : Work S T :=
  { w.setSlice slice fun sl => { sl with xblockSize := 1 } with
    spans := w.spans.delete sq (s, slice) }

/-! ## Span free -/

def miSegmentIsAbandoned (seg : MiSegment T) : Bool := seg.threadId.isNone

def miSegmentSpanFree (env : Env) (t : T) (s : S) (sliceIndex sliceCount : Nat) (allowPurge : Bool)
    (w : Work S T) : Work S T :=
  let sq := if miSegmentIsAbandoned w.segment then none else some (miSpanQueueFor t sliceCount)
  let sliceCount := if sliceCount = 0 then 1 else sliceCount
  let w := w.setSlice sliceIndex fun sl => { sl with sliceCount := sliceCount, sliceOffset := 0 }
  let w :=
    if sliceCount > 1 then
      w.setSlice (sliceIndex + sliceCount - 1) fun sl =>
        { sl with sliceCount := 0, sliceOffset := sliceCount - 1, xblockSize := 0 }
    else w
  let w :=
    if allowPurge then
      { w with
        segment := miSegmentSchedulePurge env w.segment (sliceIndex * miSegmentSliceSize)
          (sliceCount * miSegmentSliceSize) }
    else w
  match sq with
  | some sq => miSpanQueuePush sq s sliceIndex w
  | none => w.setSlice sliceIndex fun sl => { sl with xblockSize := 0 }

def miSegmentSpanRemoveFromQueue (t : T) (s : S) (slice : Nat) (w : Work S T) : Work S T :=
  miSpanQueueDelete (miSpanQueueFor t (w.segment.slices slice).sliceCount) s slice w

def miSliceFirst (seg : MiSegment T) (slice : Nat) : Nat := slice - (seg.slices slice).sliceOffset

/-- `mi_segment_span_free_coalesce`: what is left, and the slice the free span is at. -/
def miSegmentSpanFreeCoalesce (env : Env) (t : T) (s : S) (slice : Nat) (w : Work S T) :
    Work S T × Nat :=
  let isAbandoned := miSegmentIsAbandoned w.segment
  let sliceCount := (w.segment.slices slice).sliceCount
  let next := slice + sliceCount
  let (w, sliceCount) :=
    if next < w.segment.sliceEntries ∧ (w.segment.slices next).xblockSize = 0 then
      (if !isAbandoned then miSegmentSpanRemoveFromQueue t s next w else w,
        sliceCount + (w.segment.slices next).sliceCount)
    else (w, sliceCount)
  let (w, sliceCount, slice) :=
    if slice > 0 then
      let prev := miSliceFirst w.segment (slice - 1)
      if (w.segment.slices prev).xblockSize = 0 then
        (if !isAbandoned then miSegmentSpanRemoveFromQueue t s prev w else w,
          sliceCount + (w.segment.slices prev).sliceCount, prev)
      else (w, sliceCount, slice)
    else (w, sliceCount, slice)
  (miSegmentSpanFree env t s slice sliceCount true w, slice)

/-! ## Page allocation -/

/-- The slices behind `slice` up to the `extra`-th point back to it. -/
def setBackOffsets (slice : Nat) : Nat → MiSegment T → MiSegment T
  | 0, seg => seg
  | extra + 1, seg =>
      (setBackOffsets slice extra seg).setSlice (slice + (extra + 1)) fun sl =>
        { sl with sliceOffset := extra + 1, sliceCount := 0, xblockSize := 1 }

/-- `mi_segment_span_allocate`: whether the memory could be committed. -/
def miSegmentSpanAllocate (env : Env) (sliceIndex sliceCount : Nat) (w : Work S T) :
    Work S T × Bool :=
  let (ok, seg) := miSegmentEnsureCommitted env w.segment (sliceIndex * miSegmentSliceSize)
    (sliceCount * miSegmentSliceSize)
  if !ok then ({ w with segment := seg }, false)
  else
    let bsize := sliceCount * miSegmentSliceSize
    let seg := seg.setSlice sliceIndex fun sl =>
      { sl with
        sliceOffset := 0
        sliceCount := sliceCount
        xblockSize := if bsize ≥ miHugeBlockSize then miHugeBlockSize else bsize }
    let extra := sliceCount - 1
    let extra := if extra > miMaxSliceOffset then miMaxSliceOffset else extra
    let extra :=
      if sliceIndex + extra ≥ seg.sliceEntries then seg.sliceEntries - sliceIndex - 1 else extra
    let seg := setBackOffsets sliceIndex extra seg
    let last := sliceIndex + sliceCount - 1
    let last := if last > seg.sliceEntries then seg.sliceEntries else last
    let seg :=
      if last > sliceIndex then
        seg.setSlice last fun sl =>
          { sl with sliceOffset := last - sliceIndex, sliceCount := 0, xblockSize := 1 }
      else seg
    ({ w with segment := { seg with used := seg.used + 1 } }, true)

def miSegmentSliceSplit (env : Env) (t : T) (s : S) (slice sliceCount : Nat) (w : Work S T) :
    Work S T :=
  if (w.segment.slices slice).sliceCount ≤ sliceCount then w
  else
    let nextIndex := slice + sliceCount
    let nextCount := (w.segment.slices slice).sliceCount - sliceCount
    (miSegmentSpanFree env t s nextIndex nextCount false w).setSlice slice fun sl =>
      { sl with sliceCount := sliceCount }

/-- The walk along one queue; `none` when the steps run out. -/
def findInQueue (h : Segments S T) (suitable : S → Bool) (sliceCount : Nat) :
    Nat → Option (S × Nat) → Option (Option (S × Nat))
  | _, none => some none
  | 0, some _ => none
  | n + 1, some c =>
      if ((h.segment c.1).slices c.2).sliceCount ≥ sliceCount ∧ suitable c.1 then some (some c)
      else findInQueue h suitable sliceCount n (h.spans.next c)

/-- The queues of a thread from `bin` on, `k` of them. -/
def findInQueues (h : Segments S T) (suitable : S → Bool) (t : T) (sliceCount fuel : Nat) :
    Nat → Nat → Option (Option ((T × Nat) × S × Nat))
  | 0, _ => some none
  | k + 1, bin =>
      match findInQueue h suitable sliceCount fuel (h.spans.first (t, bin)) with
      | none => none
      | some (some c) => some (some ((t, bin), c))
      | some none => findInQueues h suitable t sliceCount fuel k (bin + 1)

/-- The span `mi_segments_page_find_and_allocate` takes, and the queue it is in. -/
def miSegmentsPageFind (h : Segments S T) (suitable : S → Bool) (t : T) (sliceCount fuel : Nat) :
    Option (Option ((T × Nat) × S × Nat)) :=
  let bin := miSliceBin sliceCount
  let sliceCount := if sliceCount = 0 then 1 else sliceCount
  findInQueues h suitable t sliceCount fuel (miSegmentBinMax + 1 - bin) bin

/-- What it does with it: a page, or `none` when the memory could not be committed. -/
def miSegmentsPageTake (env : Env) (t : T) (sq : T × Nat) (s : S) (slice sliceCount : Nat)
    (w : Work S T) : Work S T × Option Nat :=
  let sliceCount := if sliceCount = 0 then 1 else sliceCount
  let w := miSpanQueueDelete sq s slice w
  let w :=
    if (w.segment.slices slice).sliceCount > sliceCount then
      miSegmentSliceSplit env t s slice sliceCount w
    else w
  let (w, ok) := miSegmentSpanAllocate env slice (w.segment.slices slice).sliceCount w
  if !ok then ((miSegmentSpanFreeCoalesce env t s slice w).1, none)
  else (w, some slice)

def miSegmentPageStart (seg : MiSegment T) (slice : Nat) : Nat × Nat :=
  let psize := (seg.slices slice).sliceCount * miSegmentSliceSize
  let xblockSize := (seg.slices slice).xblockSize
  let startOffset :=
    if xblockSize ≥ wordSize then
      if xblockSize ≤ 64 then 3 * xblockSize else if xblockSize ≤ 512 then xblockSize else 0
    else 0
  (slice * miSegmentSliceSize + startOffset, psize - startOffset)

def miPageBlockSize (seg : MiSegment T) (slice : Nat) : Nat :=
  if (seg.slices slice).xblockSize < miHugeBlockSize then (seg.slices slice).xblockSize
  else (miSegmentPageStart seg slice).2

/-- `full_block_size` of `mi_page_fresh_alloc`: a page in the queue for what is larger than medium
is all one block. -/
def fullBlockSize (seg : MiSegment T) (blockSize slice : Nat) : Nat :=
  if blockSize > miMediumObjSizeMax then miPageBlockSize seg slice else blockSize

/-- `mi_page_init`, of what is modelled of a page -/
def miPageInitSlice (t : T) (blockSize slice : Nat) (w : Work S T) : Work S T :=
  let blockSize := fullBlockSize w.segment blockSize slice
  w.setSlice slice fun sl =>
    { sl with
      xheap := some t
      xblockSize := if blockSize < miHugeBlockSize then blockSize else miHugeBlockSize }

/-- The slices `_mi_segment_page_alloc` asks for, for a block that is not huge. -/
def slicesNeeded (blockSize : Nat) : Nat :=
  let required := if blockSize ≤ miSmallObjSizeMax then blockSize
    else if blockSize ≤ miMediumObjSizeMax then miMediumPageSize
    else blockSize
  let pageSize := miAlignUp required
    (if required > miMediumPageSize then miMediumPageSize else miSegmentSliceSize)
  pageSize / miSegmentSliceSize

/-! ## Segment allocation -/

structure MemId where
  isPinned : Bool
  initiallyCommitted : Bool

/-- `mi_segment_os_alloc`; memory that is not known to be zero is zeroed by its caller. -/
def miSegmentOsAlloc (env : Env) (memid : MemId) (info : Nat) : Option (MiSegment T) :=
  let os : OsMem := ⟨fun _ => memid.initiallyCommitted, fun _ => 0⟩
  let commitNeeded := (info * miSegmentSliceSize + miCommitSize - 1) / miCommitSize
  if !memid.initiallyCommitted && !env.osCommit 0 (commitNeeded * miCommitSize) then none
  else some
    { allowDecommit := !memid.isPinned
      allowPurge := !memid.isPinned && decide (env.purgeDelay ≥ 0)
      commitMask :=
        if memid.initiallyCommitted then miCommitMaskCreateFull else miCommitMaskCreate 0 commitNeeded
      purgeMask := miCommitMaskCreateEmpty
      purgeExpire := 0
      abandoned := 0
      abandonedVisits := 0
      used := 0
      segmentSlices := miSlicesPerSegment
      segmentInfoSlices := 0
      sliceEntries := 0
      threadId := none
      slices := fun _ => ⟨0, 0, 0, none⟩
      os := if memid.initiallyCommitted then os else os.commit 0 (commitNeeded * miCommitSize) }

/-- The links of zeroed slices. -/
def zeroLinks (s : S) (spans : SpanStore S T) : SpanStore S T :=
  { spans with
    next := fun c => if c.1 = s then none else spans.next c
    prev := fun c => if c.1 = s then none else spans.prev c }

def miSegmentAlloc (env : Env) (memid : MemId) (info : Nat) (t : T) (s : S)
    (spans : SpanStore S T) : Option (Work S T) :=
  match miSegmentOsAlloc env memid info with
  | none => none
  | some seg =>
      let seg := { seg with
        segmentInfoSlices := info
        threadId := some t
        sliceEntries := miSlicesPerSegment }
      let (w, ok) := miSegmentSpanAllocate env 0 info ⟨seg, zeroLinks s spans⟩
      if !ok then none
      else
        let w := { w with segment := { w.segment with used := 0 } }
        some (miSegmentSpanFree env t s info (w.segment.sliceEntries - info) false w)

/-! ## Segment free, page free and abandonment -/

/-- The loop of `mi_segment_free`. -/
def freeSpans (t : T) (s : S) : Nat → Nat → Work S T → Option (Work S T)
  | 0, slice, w => if slice < w.segment.sliceEntries then none else some w
  | n + 1, slice, w =>
      if slice < w.segment.sliceEntries then
        let w :=
          if (w.segment.slices slice).xblockSize = 0 then miSegmentSpanRemoveFromQueue t s slice w
          else w
        freeSpans t s n (slice + (w.segment.slices slice).sliceCount) w
      else some w

/-- `mi_segment_free`, but for its memory: that goes with the segment. -/
def miSegmentFree (t : T) (s : S) (w : Work S T) : Option (Work S T) :=
  (freeSpans t s w.segment.sliceEntries 0 w).map fun w =>
    { w with segment := { w.segment with threadId := none } }

/-- `mi_segment_page_clear`: what is left, and the slice the free span is at. -/
def miSegmentPageClear (env : Env) (t : T) (s : S) (page : Nat) (w : Work S T) : Work S T × Nat :=
  let w :=
    if w.segment.allowDecommit && env.pageReset then
      let (start, psize) := miSegmentPageStart w.segment page
      { w with segment := { w.segment with os := w.segment.os.purge start psize false } }
    else w
  let w := w.setSlice page fun sl => { sl with xblockSize := 1, xheap := none }
  let (w, slice) := miSegmentSpanFreeCoalesce env t s page w
  ({ w with segment := { w.segment with used := w.segment.used - 1 } }, slice)

/-- The loop of `mi_segment_abandon`. -/
def abandonSpans (t : T) (s : S) : Nat → Nat → Work S T → Option (Work S T)
  | 0, slice, w => if slice < w.segment.sliceEntries then none else some w
  | n + 1, slice, w =>
      if slice < w.segment.sliceEntries then
        let w :=
          if (w.segment.slices slice).xblockSize = 0 then
            -- but keep it free
            (miSegmentSpanRemoveFromQueue t s slice w).setSlice slice fun sl =>
              { sl with xblockSize := 0 }
          else w
        abandonSpans t s n (slice + (w.segment.slices slice).sliceCount) w
      else some w

def miSegmentAbandon (env : Env) (t : T) (s : S) (w : Work S T) : Option (Work S T) :=
  (abandonSpans t s w.segment.sliceEntries 0 w).map fun w =>
    { w with
      segment := { miSegmentTryPurge env w.segment env.abandonedPagePurge with
        threadId := none
        abandonedVisits := 1 } }

/-- `_mi_segment_page_free`, with the heap taken from the page as `_mi_page_free` does: what is left,
and whether the segment is still there. -/
def miSegmentPageFree (env : Env) (t : T) (s : S) (page : Nat) (w : Work S T) :
    Option (Work S T × Bool) :=
  let w := w.setSlice page fun sl => { sl with xheap := none }
  let w := (miSegmentPageClear env t s page w).1
  if w.segment.used = 0 then (miSegmentFree t s w).map fun w => (w, false)
  else if w.segment.used = w.segment.abandoned then
    (miSegmentAbandon env t s w).map fun w => (w, true)
  else some (w, true)

/-- `_mi_segment_page_abandon`, with the heap taken from the page as `_mi_page_abandon` does. -/
def miSegmentPageAbandon (env : Env) (t : T) (s : S) (page : Nat) (w : Work S T) :
    Option (Work S T) :=
  let w := w.setSlice page fun sl => { sl with xheap := none }
  let w := { w with segment := { w.segment with abandoned := w.segment.abandoned + 1 } }
  if w.segment.used = w.segment.abandoned then miSegmentAbandon env t s w else some w

/-! ## Reclaim -/

/-- What a visit to an abandoned segment finds out about its pages, by the slices they are at. -/
structure Visit where
  /-- `mi_page_all_free` in `mi_segment_check_free` -/
  checkAllFree : Nat → Bool
  /-- `mi_page_all_free` in `mi_segment_reclaim`: other threads free blocks in between -/
  reclaimAllFree : Nat → Bool
  /-- `mi_page_has_any_available` -/
  available : Nat → Bool
  isSuitable : Bool

/-- The loop of `mi_segment_check_free`. -/
def checkFreeLoop (env : Env) (v : Visit) (t : T) (s : S) (needed blockSize : Nat) :
    Nat → Nat → Bool → Work S T → Option (Work S T × Bool)
  | 0, slice, hasPage, w => if slice < w.segment.sliceEntries then none else some (w, hasPage)
  | n + 1, slice, hasPage, w =>
      if slice < w.segment.sliceEntries then
        let (w, slice, hasPage) :=
          if (w.segment.slices slice).xblockSize > 0 then
            if v.checkAllFree slice then
              let w := { w with segment := { w.segment with abandoned := w.segment.abandoned - 1 } }
              let (w, slice) := miSegmentPageClear env t s slice w
              (w, slice, hasPage || decide ((w.segment.slices slice).sliceCount ≥ needed))
            else
              (w, slice,
                hasPage ||
                  (decide ((w.segment.slices slice).xblockSize = blockSize) && v.available slice))
          else (w, slice, hasPage || decide ((w.segment.slices slice).sliceCount ≥ needed))
        checkFreeLoop env v t s needed blockSize n (slice + (w.segment.slices slice).sliceCount)
          hasPage w
      else some (w, hasPage)

def miSegmentCheckFree (env : Env) (v : Visit) (t : T) (s : S) (needed blockSize : Nat)
    (w : Work S T) : Option (Work S T × Bool) :=
  checkFreeLoop env v t s needed blockSize w.segment.sliceEntries (w.segment.slices 0).sliceCount
    false w

/-- The loop of `mi_segment_reclaim`. -/
def reclaimLoop (env : Env) (v : Visit) (t : T) (s : S) (requested : Nat) :
    Nat → Nat → Bool → Work S T → Option (Work S T × Bool)
  | 0, slice, right, w => if slice < w.segment.sliceEntries then none else some (w, right)
  | n + 1, slice, right, w =>
      if slice < w.segment.sliceEntries then
        let (w, slice, right) :=
          if (w.segment.slices slice).xblockSize > 0 then
            let w := { w with segment := { w.segment with abandoned := w.segment.abandoned - 1 } }
            let w := w.setSlice slice fun sl => { sl with xheap := some t }
            if v.reclaimAllFree slice then
              let (w, slice) := miSegmentPageClear env t s slice w
              (w, slice, right)
            else
              (w, slice,
                right ||
                  (decide (requested = (w.segment.slices slice).xblockSize) && v.available slice))
          else
            let (w, slice) := miSegmentSpanFreeCoalesce env t s slice w
            (w, slice, right)
        reclaimLoop env v t s requested n (slice + (w.segment.slices slice).sliceCount) right w
      else some (w, right)

/-- `mi_segment_reclaim`: what is left, whether the segment is still there, and
`*right_page_reclaimed`. -/
def miSegmentReclaim (env : Env) (v : Visit) (t : T) (s : S) (requested : Nat) (w : Work S T) :
    Option (Work S T × Bool × Bool) :=
  let w := { w with segment := { w.segment with threadId := some t, abandonedVisits := 0 } }
  match reclaimLoop env v t s requested w.segment.sliceEntries (w.segment.slices 0).sliceCount false w with
  | none => none
  | some (w, right) =>
      if w.segment.used = 0 then (miSegmentFree t s w).map fun w => (w, false, right)
      else some (w, true, right)

/-- One round of `mi_segment_try_reclaim`, with the segment it has popped. -/
def tryReclaimRound (env : Env) (v : Visit) (t : T) (s : S) (needed blockSize : Nat)
    (w : Work S T) : Option (Work S T × Bool) :=
  let w := { w with
    segment := { w.segment with abandonedVisits := w.segment.abandonedVisits + 1 } }
  match miSegmentCheckFree env v t s needed blockSize w with
  | none => none
  | some (w, hasPage) =>
      if w.segment.used = 0 then (miSegmentReclaim env v t s 0 w).map fun r => (r.1, r.2.1)
      else if hasPage && v.isSuitable then
        (miSegmentReclaim env v t s blockSize w).map fun r => (r.1, r.2.1)
      else if decide (w.segment.abandonedVisits > 3) && v.isSuitable then
        (miSegmentReclaim env v t s 0 w).map fun r => (r.1, r.2.1)
      else some ({ w with segment := miSegmentTryPurge env w.segment true }, true)

/-- One round of `_mi_abandoned_collect`. -/
def abandonedCollectRound (env : Env) (v : Visit) (t : T) (s : S) (force : Bool) (w : Work S T) :
    Option (Work S T × Bool) :=
  match miSegmentCheckFree env v t s 0 0 w with
  | none => none
  | some (w, _) =>
      if w.segment.used = 0 then (miSegmentReclaim env v t s 0 w).map fun r => (r.1, r.2.1)
      else some ({ w with segment := miSegmentTryPurge env w.segment force }, true)

/-! ## Runs -/

def Segments.work (h : Segments S T) (s : S) : Work S T := ⟨h.segment s, h.spans⟩

def Segments.put (h : Segments S T) (s : S) (w : Work S T) (mapped : Bool) : Segments S T where
  segment := Function.update h.segment s w.segment
  mapped := Function.update h.mapped s mapped
  spans := w.spans

/-- What a thread `t` can do next.  A page it frees or abandons is one of its heap; a segment it
visits is one that `mi_abandoned_pop` has given it. -/
inductive Segments.Step (info : Nat) (t : T) (h : Segments S T) : Segments S T → Prop
  | pageAlloc (env : Env) (suitable : S → Bool) (blockSize fuel : Nat) (sq : T × Nat) (s : S)
      (slice : Nat) {w : Work S T} : 0 < blockSize → blockSize ≤ miLargeObjSizeMax →
      miSegmentsPageFind h suitable t (slicesNeeded blockSize) fuel = some (some (sq, s, slice)) →
      miSegmentsPageTake env t sq s slice (slicesNeeded blockSize) (h.work s) = (w, some slice) →
      h.Step info t
        (h.put s
          (miPageInitSlice t blockSize slice { w with segment := miSegmentTryPurge env w.segment false })
          true)
  | pageAllocFail (env : Env) (suitable : S → Bool) (blockSize fuel : Nat) (sq : T × Nat) (s : S)
      (slice : Nat) {w : Work S T} : 0 < blockSize → blockSize ≤ miLargeObjSizeMax →
      miSegmentsPageFind h suitable t (slicesNeeded blockSize) fuel = some (some (sq, s, slice)) →
      miSegmentsPageTake env t sq s slice (slicesNeeded blockSize) (h.work s) = (w, none) →
      h.Step info t (h.put s w true)
  | segmentAlloc (env : Env) (memid : MemId) (s : S) {w : Work S T} : h.mapped s = false →
      miSegmentAlloc env memid info t s h.spans = some w → h.Step info t (h.put s w true)
  | pageFree (env : Env) (s : S) (page : Nat) {w : Work S T} {mapped : Bool} : h.mapped s = true →
      page < (h.segment s).sliceEntries → ((h.segment s).slices page).xheap = some t →
      miSegmentPageFree env t s page (h.work s) = some (w, mapped) → h.Step info t (h.put s w mapped)
  | pageAbandon (env : Env) (s : S) (page : Nat) {w : Work S T} : h.mapped s = true →
      page < (h.segment s).sliceEntries → ((h.segment s).slices page).xheap = some t →
      miSegmentPageAbandon env t s page (h.work s) = some w → h.Step info t (h.put s w true)
  | tryReclaim (env : Env) (v : Visit) (s : S) (needed blockSize : Nat) {w : Work S T}
      {mapped : Bool} : h.mapped s = true → (h.segment s).threadId = none →
      tryReclaimRound env v t s needed blockSize (h.work s) = some (w, mapped) →
      h.Step info t (h.put s w mapped)
  | collect (env : Env) (v : Visit) (s : S) (force : Bool) {w : Work S T} {mapped : Bool} :
      h.mapped s = true → (h.segment s).threadId = none →
      abandonedCollectRound env v t s force (h.work s) = some (w, mapped) →
      h.Step info t (h.put s w mapped)
  /-- a round of `_mi_abandoned_reclaim_all` -/
  | reclaimAll (env : Env) (v : Visit) (s : S) {w : Work S T} {mapped right : Bool} :
      h.mapped s = true → (h.segment s).threadId = none →
      miSegmentReclaim env v t s 0 (h.work s) = some (w, mapped, right) →
      h.Step info t (h.put s w mapped)

inductive Segments.Reachable (info : Nat) : Segments S T → Prop
  | init (segment : S → MiSegment T) :
      Segments.Reachable info ⟨segment, fun _ => false, DoublyLinked.Store.empty⟩
  | step {h h' : Segments S T} (t : T) : Segments.Reachable info h → h.Step info t h' →
      Segments.Reachable info h'

end

end EflCore.Mimalloc
