/-
# `EflCore.Mimalloc.ThreadFree` — the free lists of a page, and the threads at them

`MimAllocatorBase::Deallocate` is `mi_free`, and any thread may call it on any block.  A page has
three lists of free blocks, its heap a fourth, all of them linked through the blocks themselves:

    page->free                   `malloc` pops it                         owning thread only
    page->local_free             blocks freed by the owning thread        owning thread only
    page->xthread_free           blocks freed by other threads            atomic, with two flag bits
    heap->thread_delayed_free    one such block, so that the owner looks  atomic

The flag says where the next thread that frees a block of the page from outside puts it:

    MI_USE_DELAYED_FREE     on the heap's list; the flag is MI_DELAYED_FREEING meanwhile
    MI_NO_DELAYED_FREE      on the page's list: a block of the page is on the heap's list
    MI_NEVER_DELAYED_FREE   on the page's list: the heap is going away

A state is the memory these functions use and, for each thread, where it is in them (`Pc`).  A
thread steps from one access to shared memory to the next: what it does in between is to memory
no other thread uses, and is taken with one of the accesses.  A compare and swap that fails loads
the value anew (it may fail for no reason, being weak), so the load before such a loop is taken
with the step that leads to it.  Any thread steps at any time, and a thread that is in none of
these functions may call one (`Op`).

A thread has the one heap here that it allocates from, and `thread_id` of a segment is kept with
each of its pages.  `mi_page_t` has the fields these functions read.  Where the pages are is the
subject of `Segments`; `mi_segment_check_free`, which collects pages that no heap has, is there and
not here.
-/
import EflCore.Lib.LinkedCells

namespace EflCore.Mimalloc

open LinkedCells

variable {T P : Type}

/-! ## Memory -/

inductive MiDelayed where
  | useDelayedFree
  | delayedFreeing
  | noDelayedFree
  | neverDelayedFree
  deriving DecidableEq, Repr

/-- `mi_page_block_at(page, start, block_size, idx)` -/
structure MiBlock (P : Type) where
  page : P
  idx : Nat
  deriving DecidableEq, Repr

/-- `mi_thread_free_t`: a block, and a flag in the two bits that its alignment leaves. -/
structure MiThreadFree (P : Type) where
  block : Option (MiBlock P)
  delayed : MiDelayed
  deriving DecidableEq, Repr

/-- `mi_page_t`, with `thread_id` of its segment. -/
structure MiPage (T P : Type) where
  capacity : Nat
  reserved : Nat
  free : Option (MiBlock P)
  used : Nat
  xblockSize : Nat
  localFree : Option (MiBlock P)
  xthreadFree : MiThreadFree P
  xheap : Option T
  threadId : Option T
  deriving DecidableEq, Repr

/-- A page that is not in use: `mi_segment_page_clear` zeroes it. -/
def MiPage.zero : MiPage T P :=
  ⟨0, 0, none, 0, 0, none, ⟨none, .useDelayedFree⟩, none, none⟩

/-! ## Where a thread is -/

/-- The loop of `_mi_heap_delayed_free_partial`: the block it goes on with, `all_freed`, and
whether `mi_heap_collect_ex(MI_ABANDON)` runs it. -/
structure Drain (P : Type) where
  next : Option (MiBlock P)
  allFreed : Bool
  abandon : Bool
  deriving DecidableEq, Repr

/-- What `_mi_page_try_use_delayed_free` is called for. -/
inductive TryFor (P : Type) where
  | delayed (b : MiBlock P) (d : Drain P)
  | never (rest : List P)
  | reclaim
  deriving DecidableEq, Repr

/-- What `_mi_page_free_collect` is called for. -/
inductive CollectFor (P : Type) where
  | done
  | delayed (b : MiBlock P) (d : Drain P)
  | abandon (rest : List P)
  | reclaim
  deriving DecidableEq, Repr

inductive Pc (T P : Type) where
  | idle
  /- `_mi_free_block_mt` -/
  | mtFree (b : MiBlock P) (tfree : MiThreadFree P)
  | mtHeap (b : MiBlock P)
  | mtDelay (b : MiBlock P) (heap : T) (dfree : Option (MiBlock P))
  | mtReset (p : P) (tfree : MiThreadFree P)
  /- `_mi_heap_delayed_free_partial` and `_mi_free_delayed_block` -/
  | drainTake (block : Option (MiBlock P)) (abandon : Bool)
  | drain (d : Drain P)
  | drainInsert (b : MiBlock P) (d : Drain P) (dfree : Option (MiBlock P))
  | drainFree (b : MiBlock P) (d : Drain P)
  /- `_mi_page_try_use_delayed_free` -/
  | tryLoad (p : P) (delay : MiDelayed) (override : Bool) (yields : Nat) (k : TryFor P)
  | tryCas (p : P) (delay : MiDelayed) (override : Bool) (yields : Nat) (tfree : MiThreadFree P)
      (k : TryFor P)
  /- `_mi_page_free_collect` -/
  | collect (p : P) (force : Bool) (k : CollectFor P)
  | collectCas (p : P) (force : Bool) (tfree : MiThreadFree P) (k : CollectFor P)
  | collectAppend (p : P) (force : Bool) (head : MiBlock P) (k : CollectFor P)
  /- `mi_heap_collect_ex(MI_ABANDON)` -/
  | abandonMark (rest : List P)
  | abandonRetired
  | abandonCollect (rest : List P)
  | abandonPage (p : P) (rest : List P)
  /- `mi_segment_reclaim` -/
  | reclaimPage (p : P)
  deriving DecidableEq, Repr

structure State (T P : Type) where
  /-- `block->next` -/
  next : MiBlock P → Option (MiBlock P)
  page : P → MiPage T P
  /-- `heap->thread_delayed_free` -/
  delayed : T → Option (MiBlock P)
  /-- the pages in the queues of the heap -/
  pages : T → List P
  /-- the blocks the program has -/
  live : MiBlock P → Bool
  pc : T → Pc T P

variable [DecidableEq T] [DecidableEq P]

namespace State

def setNext (s : State T P) (b : MiBlock P) (o : Option (MiBlock P)) : State T P :=
  { s with next := Function.update s.next b o }

def setPage (s : State T P) (p : P) (pg : MiPage T P) : State T P :=
  { s with page := Function.update s.page p pg }

def setTfree (s : State T P) (p : P) (tf : MiThreadFree P) : State T P :=
  s.setPage p { s.page p with xthreadFree := tf }

def setDelayed (s : State T P) (h : T) (o : Option (MiBlock P)) : State T P :=
  { s with delayed := Function.update s.delayed h o }

def setPages (s : State T P) (t : T) (l : List P) : State T P :=
  { s with pages := Function.update s.pages t l }

def setLive (s : State T P) (b : MiBlock P) (v : Bool) : State T P :=
  { s with live := Function.update s.live b v }

def setPc (s : State T P) (t : T) (pc : Pc T P) : State T P :=
  { s with pc := Function.update s.pc t pc }

/-- Before the first allocation: no page is in use. -/
def init : State T P :=
  ⟨fun _ => none, fun _ => .zero, fun _ => none, fun _ => [], fun _ => false, fun _ => .idle⟩

end State

/-! ## What the owner of a page does to it -/

/-- The pop of `_mi_page_malloc`. -/
def miPageMalloc (s : State T P) (p : P) (b : MiBlock P) : State T P :=
  (s.setPage p { s.page p with used := (s.page p).used + 1, free := s.next b }).setLive b true

/-- `_mi_free_block(page, local = true, block)`, up to the page's being retired. -/
def miFreeBlockLocal (s : State T P) (b : MiBlock P) : State T P :=
  let pg := s.page b.page
  (s.setNext b pg.localFree).setPage b.page
    { pg with localFree := some b, used := pg.used - 1 }

/-- The part of `_mi_page_free_collect` behind the thread-free list.  The loop that looks for the
end of the list stops if the list does: it has no other bound. -/
def miPageLocalCollect (s : State T P) (p : P) (force : Bool) : Option (State T P) :=
  let pg := s.page p
  match pg.localFree with
  | none => some s
  | some b =>
      if pg.free = none then
        some (s.setPage p { pg with free := some b, localFree := none })
      else if force then
        match lastOf s.next pg.capacity b with
        | none => none
        | some tail =>
            some ((s.setNext tail pg.free).setPage p { pg with free := some b, localFree := none })
      else some s

/-- `_mi_page_thread_free_collect` behind the exchange: `head` was the list.  A list longer than
the page has blocks is reported and left where it is. -/
def miPageThreadFreeAppend (s : State T P) (p : P) (head : MiBlock P) : State T P :=
  let pg := s.page p
  let (count, tail) := walk s.next pg.capacity 1 head
  if pg.capacity < count then s
  else (s.setNext tail pg.localFree).setPage p
    { pg with localFree := some head, used := pg.used - count }

def miMaxExtendSize : Nat := 4 * 1024

def miMinExtend : Nat := 4

/-- How many blocks `mi_page_extend_free` adds. -/
def miExtendCount (pg : MiPage T P) : Nat :=
  let extend := pg.reserved - pg.capacity
  let maxExtend := if miMaxExtendSize ≤ pg.xblockSize then miMinExtend
    else miMaxExtendSize / pg.xblockSize
  let maxExtend := if maxExtend < miMinExtend then miMinExtend else maxExtend
  if maxExtend < extend then maxExtend else extend

/-- The loop of `mi_page_free_list_extend`: each block is linked to the one behind it. -/
def linkBlocks (p : P) : Nat → Nat → (MiBlock P → Option (MiBlock P)) →
    MiBlock P → Option (MiBlock P)
  | 0, _, next => next
  | n + 1, i, next => linkBlocks p n (i + 1) (Function.update next ⟨p, i⟩ (some ⟨p, i + 1⟩))

def miPageExtendFree (s : State T P) (p : P) : State T P :=
  let pg := s.page p
  if pg.free ≠ none then s
  else if pg.reserved ≤ pg.capacity then s
  else
    let extend := miExtendCount pg
    let next := linkBlocks p extend pg.capacity s.next
    let next := Function.update next ⟨p, pg.capacity + extend - 1⟩ pg.free
    { s with next := next }.setPage p
      { pg with free := some ⟨p, pg.capacity⟩, capacity := pg.capacity + extend }

/-- `mi_page_init` and `mi_page_queue_push` of a fresh page, up to `mi_page_extend_free`. -/
def miPageInit (s : State T P) (t : T) (p : P) (reserved blockSize : Nat) : State T P :=
  (s.setPage p { s.page p with
    xheap := some t, threadId := some t, xblockSize := blockSize, reserved := reserved }).setPages t
      (p :: s.pages t)

def miPageQueueRemove (s : State T P) (t : T) (p : P) : State T P :=
  s.setPages t ((s.pages t).filter (· ≠ p))

/-- `_mi_page_free`, down to `mi_segment_page_clear`. -/
def miPageFree (s : State T P) (t : T) (p : P) : State T P :=
  (miPageQueueRemove s t p).setPage p .zero

/-- `_mi_page_abandon`, and what its segment loses by it. -/
def miPageAbandon (s : State T P) (t : T) (p : P) : State T P :=
  (miPageQueueRemove s t p).setPage p { s.page p with xheap := none, threadId := none }

/-! ## Steps -/

/-- Where `_mi_page_try_use_delayed_free` returns `true` to. -/
def TryFor.onTrue (p : P) : TryFor P → Pc T P
  | .delayed b d => .collect p false (.delayed b d)
  | .never rest => .abandonMark rest
  | .reclaim => .collect p false .reclaim

/-- Where it returns `false` to: `_mi_page_use_delayed_free` calls it again. -/
def TryFor.onFalse (s : State T P) (t : T) (p : P) (delay : MiDelayed) (override : Bool) :
    TryFor P → Pc T P
  | .delayed b d => .drainInsert b { d with allFreed := false } (s.delayed t)
  | .never rest => .tryLoad p delay override 0 (.never rest)
  | .reclaim => .tryLoad p delay override 0 .reclaim

/-- Where `_mi_page_free_collect` returns to. -/
def CollectFor.onDone (p : P) : CollectFor P → Pc T P
  | .done => .idle
  | .delayed b d => .drainFree b d
  | .abandon rest => .abandonPage p rest
  | .reclaim => .reclaimPage p

/-- The rest of `_mi_page_free_collect`, and the return. -/
def collectRest (s : State T P) (t : T) (p : P) (force : Bool) (k : CollectFor P) :
    Option (State T P) :=
  (miPageLocalCollect s p force).map (·.setPc t (k.onDone p))

/-- Thread `t` takes its next step.  A compare and swap succeeds if it finds what it expects,
unless it fails for no reason (`weak`).  `none`: the thread is in none of the functions, or in a
loop that does not end. -/
def advance (s : State T P) (t : T) (weak : Bool) : Option (State T P) :=
  match s.pc t with
  | .idle => none
  | .mtFree b tfree =>
      let now := (s.page b.page).xthreadFree
      if tfree.delayed = .useDelayedFree then
        if now = tfree ∧ weak = false then
          some ((s.setTfree b.page { tfree with delayed := .delayedFreeing }).setPc t (.mtHeap b))
        else some (s.setPc t (.mtFree b now))
      else
        let s := s.setNext b tfree.block
        if now = tfree ∧ weak = false then
          some ((s.setTfree b.page { tfree with block := some b }).setPc t .idle)
        else some (s.setPc t (.mtFree b now))
  | .mtHeap b =>
      match (s.page b.page).xheap with
      | none => some (s.setPc t (.mtReset b.page (s.page b.page).xthreadFree))
      | some h => some (s.setPc t (.mtDelay b h (s.delayed h)))
  | .mtDelay b h dfree =>
      let s := s.setNext b dfree
      if s.delayed h = dfree ∧ weak = false then
        some ((s.setDelayed h (some b)).setPc t (.mtReset b.page (s.page b.page).xthreadFree))
      else some (s.setPc t (.mtDelay b h (s.delayed h)))
  | .mtReset p tfree =>
      let now := (s.page p).xthreadFree
      if now = tfree ∧ weak = false then
        some ((s.setTfree p { tfree with delayed := .noDelayedFree }).setPc t .idle)
      else some (s.setPc t (.mtReset p now))
  | .drainTake block abandon =>
      if block = none then some (s.setPc t (.drain ⟨none, true, abandon⟩))
      else if s.delayed t = block ∧ weak = false then
        some ((s.setDelayed t none).setPc t (.drain ⟨block, true, abandon⟩))
      else some (s.setPc t (.drainTake (s.delayed t) abandon))
  | .drain d =>
      match d.next with
      | none =>
          if d.abandon then
            if d.allFreed then some (s.setPc t .abandonRetired)
            else some (s.setPc t (.drainTake (s.delayed t) true))
          else some (s.setPc t .idle)
      | some b =>
          some (s.setPc t (.tryLoad b.page .useDelayedFree false 0
            (.delayed b { d with next := s.next b })))
  | .drainInsert b d dfree =>
      let s := s.setNext b dfree
      if s.delayed t = dfree ∧ weak = false then
        some ((s.setDelayed t (some b)).setPc t (.drain d))
      else some (s.setPc t (.drainInsert b d (s.delayed t)))
  | .drainFree b d => some ((miFreeBlockLocal s b).setPc t (.drain d))
  | .tryLoad p delay override yields k =>
      let tfree := (s.page p).xthreadFree
      if tfree.delayed = .delayedFreeing then
        if 4 ≤ yields then some (s.setPc t (k.onFalse s t p delay override))
        else some (s.setPc t (.tryLoad p delay override (yields + 1) k))
      else if tfree.delayed = delay then some (s.setPc t (k.onTrue p))
      else if override = false ∧ tfree.delayed = .neverDelayedFree then
        some (s.setPc t (k.onTrue p))
      else some (s.setPc t (.tryCas p delay override yields tfree k))
  | .tryCas p delay override yields tfree k =>
      if (s.page p).xthreadFree = tfree ∧ weak = false then
        some ((s.setTfree p { tfree with delayed := delay }).setPc t (k.onTrue p))
      else some (s.setPc t (.tryLoad p delay override yields k))
  | .collect p force k =>
      let tfree := (s.page p).xthreadFree
      if force ∨ tfree.block ≠ none then some (s.setPc t (.collectCas p force tfree k))
      else collectRest s t p force k
  | .collectCas p force tfree k =>
      if (s.page p).xthreadFree = tfree ∧ weak = false then
        let s := s.setTfree p { tfree with block := none }
        match tfree.block with
        | none => collectRest s t p force k
        | some head => some (s.setPc t (.collectAppend p force head k))
      else some (s.setPc t (.collectCas p force (s.page p).xthreadFree k))
  | .collectAppend p force head k => collectRest (miPageThreadFreeAppend s p head) t p force k
  | .abandonMark [] => some (s.setPc t (.drainTake (s.delayed t) true))
  | .abandonMark (p :: rest) =>
      some (s.setPc t (.tryLoad p .neverDelayedFree false 0 (.never rest)))
  | .abandonRetired => some (s.setPc t (.abandonCollect (s.pages t)))
  | .abandonCollect [] => some (s.setPc t .idle)
  | .abandonCollect (p :: rest) => some (s.setPc t (.collect p true (.abandon rest)))
  | .abandonPage p rest =>
      if (s.page p).used = 0 then some ((miPageFree s t p).setPc t (.abandonCollect rest))
      else some ((miPageAbandon s t p).setPc t (.abandonCollect rest))
  | .reclaimPage p =>
      if (s.page p).used = 0 then some ((s.setPage p .zero).setPc t .idle)
      else some ((s.setPages t (p :: s.pages t)).setPc t .idle)

/-- What a thread may call. -/
inductive Op (P : Type) where
  | malloc (p : P)
  | free (b : MiBlock P)
  | heapDelayedFreePartial
  | pageFreeCollect (p : P) (force : Bool)
  | pageExtendFree (p : P)
  | pageFresh (p : P) (reserved blockSize : Nat)
  | pageFree (p : P)
  | heapCollectAbandon
  | segmentReclaim (p : P)
  deriving DecidableEq, Repr

/-- The places where a page of which all blocks are free may be freed: a retired page now or
later, by `_mi_free_block` also in the loop of `_mi_heap_delayed_free_partial`. -/
def Pc.mayFreePage : Pc T P → Bool
  | .idle | .drain _ | .abandonRetired => true
  | _ => false

/-- Thread `t` calls `op`.  `none`: it is not the thread, the block or the page for it. -/
def call (s : State T P) (t : T) (op : Op P) : Option (State T P) :=
  match op with
  | .pageFree p =>
      if (s.pc t).mayFreePage ∧ p ∈ s.pages t ∧ (s.page p).used = 0 then some (miPageFree s t p)
      else none
  | op =>
      if s.pc t ≠ .idle then none
      else match op with
      | .malloc p =>
          if p ∈ s.pages t then (s.page p).free.map (miPageMalloc s p) else none
      | .free b =>
          if s.live b then
            let s := s.setLive b false
            if (s.page b.page).threadId = some t then some (miFreeBlockLocal s b)
            else some (s.setPc t (.mtFree b (s.page b.page).xthreadFree))
          else none
      | .heapDelayedFreePartial => some (s.setPc t (.drainTake (s.delayed t) false))
      | .pageFreeCollect p force =>
          if p ∈ s.pages t then some (s.setPc t (.collect p force .done)) else none
      | .pageExtendFree p => if p ∈ s.pages t then some (miPageExtendFree s p) else none
      | .pageFresh p reserved blockSize =>
          if s.page p = .zero ∧ 0 < reserved ∧ 0 < blockSize then
            some (miPageInit s t p reserved blockSize)
          else none
      | .pageFree _ => none
      | .heapCollectAbandon => some (s.setPc t (.abandonMark (s.pages t)))
      | .segmentReclaim p =>
          if (s.page p).threadId = none ∧ 0 < (s.page p).capacity then
            some ((s.setPage p { s.page p with threadId := some t, xheap := some t }).setPc t
              (.tryLoad p .useDelayedFree true 0 .reclaim))
          else none

inductive Event (T P : Type) where
  | step (t : T) (weak : Bool)
  | call (t : T) (op : Op P)
  deriving DecidableEq, Repr

def exec (s : State T P) : Event T P → Option (State T P)
  | .step t weak => advance s t weak
  | .call t op => call s t op

/-- The state after a run, if every event of it can take place. -/
def run (s : State T P) : List (Event T P) → Option (State T P)
  | [] => some s
  | e :: es => (exec s e).bind fun s => run s es

def Reachable (s : State T P) : Prop := ∃ es, run State.init es = some s

/-- What holds at first and is kept by every event holds in every state of every run. -/
theorem Reachable.invariant {Q : State T P → Prop} (h0 : Q State.init)
    (hstep : ∀ s e s', Q s → exec s e = some s' → Q s') {s : State T P} (h : Reachable s) : Q s := by
  obtain ⟨es, h⟩ := h
  have general : ∀ (es : List (Event T P)) (s₀ : State T P), Q s₀ → run s₀ es = some s → Q s := by
    intro es
    induction es with
    | nil =>
        intro s₀ hs h
        cases h
        exact hs
    | cons e es ih =>
        intro s₀ hs h
        obtain ⟨s₁, he, h⟩ := Option.bind_eq_some_iff.mp h
        exact ih s₁ (hstep s₀ e s₁ hs he) h
  exact general es _ h0 h

end EflCore.Mimalloc
