/-
# `EflCore.Mimalloc.SpanMap` — a segment as a list of spans

The slices of a segment are headers and points back to headers.  What they stand for is a list of
spans, which cover the segment from slice 0 on: free spans, which are in a span queue or not yet, and
pages, which belong to the heap of a thread or are abandoned.

| | its slices |
| :-- | :-- |
| `free`, `n` slices | the first has the count, the last points back |
| `page`, `n` slices | the first has the count, each other one points back |

Coalescing reads the slice before a span and the one behind it: a page or a free span is told from
them by `xblock_size`.

**Proved here.**  `mi_segment_span_free_coalesce` turns spans into one free span with the free
neighbours they have, and puts it in the queue for its size (`spanFreeCoalesce_spec`).
-/
import EflCore.Lib.Spans
import EflCore.Mimalloc.Purge

namespace EflCore.Mimalloc

open Spans DoublyLinked

variable {T S : Type}

inductive Use (T : Type) where
  | free (queued : Bool)
  | page (heap : Option T)

structure Span (T : Type) where
  count : Nat
  pos : 0 < count
  use : Use T

namespace Span

def isPage (s : Span T) : Bool :=
  match s.use with
  | .free _ => false
  | .page _ => true

end Span

/-! ## What the slices say -/

structure FreeOk (sl : Nat → MiSlice T) (i n : Nat) : Prop where
  count : (sl i).sliceCount = n
  offset : (sl i).sliceOffset = 0
  xblock : (sl i).xblockSize = 0
  back : (sl (i + n - 1)).sliceOffset = n - 1
  last : 1 < n → (sl (i + n - 1)).sliceCount = 0 ∧ (sl (i + n - 1)).xblockSize = 0
  heap : ∀ k < n, (sl (i + k)).xheap = none

structure PageOk (sl : Nat → MiSlice T) (i n : Nat) (heap : Option T) : Prop where
  count : (sl i).sliceCount = n
  offset : (sl i).sliceOffset = 0
  xblock : 0 < (sl i).xblockSize
  heap : (sl i).xheap = heap
  small : n ≤ miMaxSliceOffset + 1
  back : ∀ k < n, 0 < k → sl (i + k) = ⟨0, k, 1, none⟩

def SpanOk (sl : Nat → MiSlice T) (i : Nat) (s : Span T) : Prop :=
  match s.use with
  | .free _ => FreeOk sl i s.count
  | .page heap => PageOk sl i s.count heap

theorem SpanOk.congr {sl sl' : Nat → MiSlice T} {i : Nat} {s : Span T} (h : SpanOk sl i s)
    (hsl : ∀ k, i ≤ k → k < i + s.count → sl' k = sl k) : SpanOk sl' i s := by
  obtain ⟨n, hn, u⟩ := s
  have hhead := hsl i (Nat.le_refl i) (by simp only; omega)
  cases u with
  | free q =>
      have hlast := hsl (i + n - 1) (by omega) (by simp only; omega)
      obtain ⟨h₁, h₂, h₃, h₄, h₅, h₆⟩ := h
      refine ⟨?_, ?_, ?_, ?_, ?_, ?_⟩
      · rw [hhead, h₁]
      · rw [hhead, h₂]
      · rw [hhead, h₃]
      · rw [hlast, h₄]
      · rw [hlast]
        exact h₅
      · intro k hk
        rw [hsl (i + k) (by omega) (by simpa using hk), h₆ k hk]
  | page heap =>
      obtain ⟨h₁, h₂, h₃, h₄, h₅, h₆⟩ := h
      refine ⟨?_, ?_, ?_, ?_, h₅, ?_⟩
      · rw [hhead, h₁]
      · rw [hhead, h₂]
      · rw [hhead]
        exact h₃
      · rw [hhead, h₄]
      · intro k hk hk0
        rw [hsl (i + k) (by omega) (by simpa using hk), h₆ k hk hk0]

abbrev SpansOk (sl : Nat → MiSlice T) (i : Nat) (L : List (Span T)) : Prop :=
  All Span.count (SpanOk sl) i L

theorem SpansOk.congr {sl sl' : Nat → MiSlice T} {i : Nat} {L : List (Span T)}
    (h : SpansOk sl i L) (hsl : ∀ k, i ≤ k → k < i + total Span.count L → sl' k = sl k) :
    SpansOk sl' i L :=
  h.imp fun k s _ hlo hhi hs => hs.congr fun j hj hj' => hsl j (by omega) (by omega)

theorem spanOk_count {sl : Nat → MiSlice T} {i : Nat} {s : Span T} (h : SpanOk sl i s) :
    (sl i).sliceCount = s.count := by
  obtain ⟨n, hn, u⟩ := s
  cases u with
  | free q => exact h.count
  | page heap => exact h.count

theorem spanOk_offset {sl : Nat → MiSlice T} {i : Nat} {s : Span T} (h : SpanOk sl i s) :
    (sl i).sliceOffset = 0 := by
  obtain ⟨n, hn, u⟩ := s
  cases u with
  | free q => exact h.offset
  | page heap => exact h.offset

/-- `mi_slice_is_used` tells the pages. -/
theorem spanOk_xblock {sl : Nat → MiSlice T} {i : Nat} {s : Span T} (h : SpanOk sl i s) :
    (sl i).xblockSize = 0 ↔ s.isPage = false := by
  obtain ⟨n, hn, u⟩ := s
  cases u with
  | free q => exact iff_of_true h.xblock rfl
  | page heap => exact iff_of_false (Nat.pos_iff_ne_zero.mp h.xblock) (by simp [Span.isPage])

/-- The last slice of a span leads to the first. -/
theorem spanOk_back {sl : Nat → MiSlice T} {i : Nat} {s : Span T} (h : SpanOk sl i s) :
    (sl (i + s.count - 1)).sliceOffset = s.count - 1 := by
  obtain ⟨n, hn, u⟩ := s
  cases u with
  | free q => exact h.back
  | page heap =>
      show (sl (i + n - 1)).sliceOffset = n - 1
      by_cases hn1 : n = 1
      · subst hn1
        exact h.offset
      · have hb := h.back (n - 1) (Nat.sub_lt hn Nat.one_pos) (by omega)
        rw [Nat.add_sub_assoc hn, hb]

/-! ## Slices in use -/

def UsedIn : Nat → List (Span T) → Nat → Prop
  | _, [], _ => False
  | i, s :: L, j => s.isPage = true ∧ i ≤ j ∧ j < i + s.count ∨ UsedIn (i + s.count) L j

theorem usedIn_append {i : Nat} {A B : List (Span T)} {j : Nat} :
    UsedIn i (A ++ B) j ↔ UsedIn i A j ∨ UsedIn (i + total Span.count A) B j := by
  induction A generalizing i with
  | nil => simp [UsedIn]
  | cons s A ih => simp only [List.cons_append, UsedIn, ih, total_cons, or_assoc, Nat.add_assoc]

theorem UsedIn.range {i : Nat} {L : List (Span T)} {j : Nat} (h : UsedIn i L j) :
    i ≤ j ∧ j < i + total Span.count L := by
  induction L generalizing i with
  | nil => exact h.elim
  | cons s L ih =>
      have htotal := total_cons Span.count s L
      have hpos := s.pos
      rcases h with ⟨-, hlo, hhi⟩ | h
      · omega
      · have := ih h
        omega

/-! ## Pages -/

structure Page (T : Type) where
  start : Nat
  count : Nat
  heap : Option T

def pages : Nat → List (Span T) → List (Page T)
  | _, [] => []
  | i, ⟨n, _, .free _⟩ :: L => pages (i + n) L
  | i, ⟨n, _, .page heap⟩ :: L => ⟨i, n, heap⟩ :: pages (i + n) L

theorem pages_append (i : Nat) (A B : List (Span T)) :
    pages i (A ++ B) = pages i A ++ pages (i + total Span.count A) B := by
  induction A generalizing i with
  | nil => rfl
  | cons x A ih =>
      obtain ⟨n, hn, u⟩ := x
      cases u with
      | free q => simp only [List.cons_append, pages, ih, total_cons, Nat.add_assoc]
      | page heap => simp only [List.cons_append, pages, ih, total_cons, Nat.add_assoc]

theorem mem_pages_iff {i : Nat} {L : List (Span T)} {p : Page T} :
    p ∈ pages i L ↔ ∃ x, at? Span.count i L p.start = some x ∧ x.count = p.count ∧
      x.use = .page p.heap := by
  constructor
  · induction L generalizing i with
    | nil => exact fun h => by cases h
    | cons x L ih =>
        obtain ⟨n, hn, u⟩ := x
        intro hp
        have htail : p ∈ pages (i + n) L → ∃ x,
            at? Span.count i (⟨n, hn, u⟩ :: L) p.start = some x ∧ x.count = p.count ∧
              x.use = .page p.heap := by
          intro hp
          obtain ⟨x, hx, hrest⟩ := ih hp
          refine ⟨x, ?_, hrest⟩
          have hlo := (at?_range Span.pos hx).1
          unfold at?
          rwa [if_neg (by omega)]
        cases u with
        | free q => exact htail hp
        | page heap =>
            rcases List.mem_cons.mp hp with rfl | hp
            · exact ⟨_, if_pos rfl, rfl, rfl⟩
            · exact htail hp
  · rintro ⟨⟨n, hn, u⟩, hx, hcount, huse⟩
    obtain ⟨A, B, rfl, hstart⟩ := (at?_eq_some_iff Span.pos).mp hx
    simp only at hcount huse
    subst hcount huse
    rw [pages_append]
    refine List.mem_append_right _ ?_
    simp only [pages, ← hstart]
    exact List.mem_cons_self

theorem usedIn_iff_pages {i : Nat} {L : List (Span T)} {j : Nat} :
    UsedIn i L j ↔ ∃ p ∈ pages i L, p.start ≤ j ∧ j < p.start + p.count := by
  induction L generalizing i with
  | nil => simp [UsedIn, pages]
  | cons x L ih =>
      obtain ⟨n, hn, u⟩ := x
      cases u with
      | free q => simp [UsedIn, pages, Span.isPage, ih]
      | page heap => simp [UsedIn, pages, Span.isPage, ih]

/-! ## The queues of the free spans -/

/-- The queue that a span has to be in. -/
def Span.queue (t : T) (s : Span T) : Option (T × Nat) :=
  match s.use with
  | .free true => some (miSpanQueueFor t s.count)
  | _ => none

/-- The queue of what starts at a slice, for the spans of one thread. -/
def queueAt (t : T) (L : List (Span T)) (i : Nat) : Option (T × Nat) :=
  (at? Span.count 0 L i).bind (Span.queue t)

section

variable [DecidableEq S]

/-- The queues of the slices of `s`, and of those of the other segments. -/
def place (t : T) (s : S) (L : List (Span T)) (rest : S × Nat → Option (T × Nat)) (c : S × Nat) :
    Option (T × Nat) :=
  if c.1 = s then queueAt t L c.2 else rest c

omit [DecidableEq S] in
theorem queueAt_append (t : T) (A B : List (Span T)) (i : Nat) :
    queueAt t (A ++ B) i =
      if i < total Span.count A then queueAt t A i
      else (at? Span.count (total Span.count A) B i).bind (Span.queue t) := by
  unfold queueAt
  rw [at?_append Span.pos, Nat.zero_add]
  split <;> rfl

theorem place_self (t : T) (s : S) (A B : List (Span T)) (x : Span T)
    (rest : S × Nat → Option (T × Nat)) :
    place t s (A ++ x :: B) rest (s, total Span.count A) = x.queue t := by
  unfold place
  rw [if_pos rfl, queueAt_append, if_neg (Nat.lt_irrefl _)]
  unfold at?
  rw [if_pos rfl]
  rfl

/-- A span comes into a queue, or out of it. -/
theorem place_set (t : T) (s : S) (A B : List (Span T)) {x y : Span T} (h : y.count = x.count)
    (rest : S × Nat → Option (T × Nat)) :
    Function.update (place t s (A ++ x :: B) rest) (s, total Span.count A) (y.queue t) =
      place t s (A ++ y :: B) rest := by
  funext c
  obtain ⟨s', i⟩ := c
  by_cases hs : s' = s
  · subst hs
    by_cases hi : i = total Span.count A
    · subst hi
      rw [Function.update_self, place_self]
    · have hne : (s', i) ≠ (s', total Span.count A) := fun e => hi (Prod.mk.inj e).2
      rw [Function.update_of_ne hne]
      unfold place
      rw [if_pos rfl, if_pos rfl, queueAt_append, queueAt_append]
      simp only [at?, if_neg hi, h]
  · have hne : (s', i) ≠ (s, total Span.count A) := fun e => hs (Prod.mk.inj e).1
    rw [Function.update_of_ne hne]
    unfold place
    rw [if_neg hs, if_neg hs]

omit [DecidableEq S] in
theorem queueAt_none {t : T} {L : List (Span T)} (h : ∀ x ∈ L, x.queue t = none) (i : Nat) :
    queueAt t L i = none := by
  unfold queueAt
  cases hi : at? Span.count 0 L i with
  | none => rfl
  | some x =>
      obtain ⟨A, B, rfl, -⟩ := (at?_eq_some_iff Span.pos).mp hi
      exact h x (by simp)

/-- In no queue, a span may be used for anything. -/
theorem place_use (t : T) (s : S) (A B : List (Span T)) {x y : Span T} (h : y.count = x.count)
    (hx : x.queue t = none) (hy : y.queue t = none) (rest : S × Nat → Option (T × Nat)) :
    place t s (A ++ y :: B) rest = place t s (A ++ x :: B) rest := by
  rw [← place_set t s A B h, hy, Function.update_eq_self_iff, place_self, hx]

/-- Two spans that are in no queue may be taken for one. -/
theorem place_merge (t : T) (s : S) (A B : List (Span T)) {x y z : Span T}
    (h : z.count = x.count + y.count) (hx : x.queue t = none) (hy : y.queue t = none)
    (hz : z.queue t = none) (rest : S × Nat → Option (T × Nat)) :
    place t s (A ++ x :: y :: B) rest = place t s (A ++ z :: B) rest := by
  funext c
  unfold place
  split
  · rw [queueAt_append, queueAt_append]
    simp only [at?]
    split
    · rfl
    · split
      · exact hx.trans hz.symm
      · have hpos := x.pos
        split
        · rename_i hi
          rw [at?_eq_none_of_lt Span.pos B (by have := y.pos; omega)]
          exact hy
        · rw [h, Nat.add_assoc]
  · rfl

end

/-! ## The free operations -/

@[simp] theorem setSlice_slices (seg : MiSegment T) (i : Nat) (f : MiSlice T → MiSlice T) (j : Nat) :
    (seg.setSlice i f).slices j = if j = i then f (seg.slices i) else seg.slices j := by
  unfold MiSegment.setSlice
  exact Function.update_apply ..

/-- Of the slices in use neither the headers nor the memory have changed. -/
structure Changed (U : Nat → Prop) (seg seg' : MiSegment T) : Prop where
  same : SameFields seg seg'
  safe : Safe seg' U
  slices : ∀ j, U j → seg'.slices j = seg.slices j
  kept : ∀ j, U j → seg'.os.purges j = seg.os.purges j

theorem Safe.changed {U : Nat → Prop} {seg : MiSegment T} (h : Safe seg U) : Changed U seg seg :=
  ⟨SameFields.refl seg, h, fun _ _ => rfl, fun _ _ => rfl⟩

theorem Purged.changed {U : Nat → Prop} {seg seg' : MiSegment T} (h : Purged U seg seg')
    (hs : Safe seg U) : Changed U seg seg' :=
  ⟨h.same.toSameFields, h.safe hs, fun _ _ => by rw [h.same.slices], h.kept⟩

theorem Changed.trans {U : Nat → Prop} {seg seg' seg'' : MiSegment T} (h : Changed U seg seg')
    (h' : Changed U seg' seg'') : Changed U seg seg'' :=
  ⟨h.same.trans h'.same, h'.safe, fun j hj => (h'.slices j hj).trans (h.slices j hj),
    fun j hj => (h'.kept j hj).trans (h.kept j hj)⟩

theorem Safe.setSlice {U : Nat → Prop} {seg : MiSegment T} (h : Safe seg U) {i : Nat} (hi : ¬ U i)
    (f : MiSlice T → MiSlice T) : Changed U seg (seg.setSlice i f) := by
  refine ⟨⟨rfl, rfl, rfl, rfl, rfl, rfl, rfl, rfl⟩, ⟨h.purge_sub, h.backed, h.commit, h.purge⟩, ?_,
    fun _ _ => rfl⟩
  intro j hj
  have hji : j ≠ i := by
    rintro rfl
    exact hi hj
  rw [setSlice_slices, if_neg hji]

section

variable [DecidableEq S] [DecidableEq T] {w : Work S T} {U : Nat → Prop} {A B : List (Span T)}
  {rest : S × Nat → Option (T × Nat)}

/-- The slices that `mi_segment_span_free` sets. -/
def freeSlices (sl : Nat → MiSlice T) (i n j : Nat) : MiSlice T :=
  if j = i then { sl i with sliceCount := n, sliceOffset := 0, xblockSize := 0 }
  else if j = i + n - 1 then
    { sl j with sliceCount := 0, sliceOffset := n - 1, xblockSize := 0 }
  else sl j

omit [DecidableEq T] in
theorem freeSlices_ok {sl : Nat → MiSlice T} {i n : Nat} (hn : 0 < n)
    (hheap : ∀ k < n, (sl (i + k)).xheap = none) : FreeOk (freeSlices sl i n) i n := by
  have hhead : freeSlices sl i n i = { sl i with sliceCount := n, sliceOffset := 0, xblockSize := 0 } :=
    if_pos rfl
  refine ⟨by rw [hhead], by rw [hhead], by rw [hhead], ?_, ?_, ?_⟩
  · by_cases hn1 : n = 1
    · subst hn1
      rw [show i + 1 - 1 = i by omega, hhead]
    · unfold freeSlices
      rw [if_neg (by omega), if_pos rfl]
  · intro hlt
    unfold freeSlices
    rw [if_neg (by omega), if_pos rfl]
    exact ⟨rfl, rfl⟩
  · intro k hk
    unfold freeSlices
    split
    · exact hheap 0 hn
    · split
      · exact hheap k hk
      · exact hheap k hk

omit [DecidableEq T] in
theorem freeSlices_outside {sl : Nat → MiSlice T} {i n j : Nat} (hn : 0 < n)
    (hj : ¬ (i ≤ j ∧ j < i + n)) : freeSlices sl i n j = sl j := by
  unfold freeSlices
  rw [if_neg (by omega), if_neg (by omega)]

/-- `mi_segment_span_free` makes a free span of slices that are in no span. -/
theorem spanFree_spec (env : Env) (t : T) (s : S) {n : Nat} (hn : 0 < n) (allowPurge : Bool)
    (hsize : w.segment.segmentSlices = miSlicesPerSegment)
    (hend : total Span.count A + n ≤ miSlicesPerSegment)
    (howner : ∀ t', w.segment.threadId = some t' → t' = t)
    (hplace : Placed w.spans (place t s (A ++ ⟨n, hn, .free false⟩ :: B) rest))
    (hsafe : Safe w.segment U)
    (hU : ∀ j, U j → ¬ (total Span.count A ≤ j ∧ j < total Span.count A + n)) :
    ∀ w', miSegmentSpanFree env t s (total Span.count A) n allowPurge w = w' →
      (∀ j, w'.segment.slices j = freeSlices w.segment.slices (total Span.count A) n j) ∧
      Placed w'.spans
        (place t s (A ++ ⟨n, hn, .free w.segment.threadId.isSome⟩ :: B) rest) ∧
      Changed U w.segment w'.segment := by
  rintro w' rfl
  generalize hi : total Span.count A = i at *
  unfold miSegmentSpanFree
  rw [if_neg (Nat.pos_iff_ne_zero.mp hn)]
  simp only
  -- the slices of the header and of the end
  obtain ⟨w₁, hw₁, hspans₁, hchanged₁, hhead₁, hsl₁⟩ : ∃ w₁ : Work S T,
      (if n > 1 then
        (w.setSlice i fun sl => { sl with sliceCount := n, sliceOffset := 0 }).setSlice (i + n - 1)
          fun sl => { sl with sliceCount := 0, sliceOffset := n - 1, xblockSize := 0 }
        else w.setSlice i fun sl => { sl with sliceCount := n, sliceOffset := 0 }) = w₁ ∧
      w₁.spans = w.spans ∧ Changed U w.segment w₁.segment ∧
      w₁.segment.slices i = { w.segment.slices i with sliceCount := n, sliceOffset := 0 } ∧
      ∀ j, j ≠ i → w₁.segment.slices j = freeSlices w.segment.slices i n j := by
    have hchanged := hsafe.setSlice (i := i) (fun hi => hU i hi (by omega)) fun sl =>
      { sl with sliceCount := n, sliceOffset := 0 }
    refine ⟨_, rfl, ?_⟩
    split
    · refine ⟨rfl, hchanged.trans (hchanged.safe.setSlice (i := i + n - 1)
        (fun hi => hU _ hi (by omega)) fun sl =>
        { sl with sliceCount := 0, sliceOffset := n - 1, xblockSize := 0 }), ?_, ?_⟩
      · simp only [Work.setSlice, setSlice_slices, if_true]
        rw [if_neg (by omega)]
      · intro j hj
        simp only [Work.setSlice, setSlice_slices]
        unfold freeSlices
        rw [if_neg hj, if_neg hj, if_neg (show ¬ i + n - 1 = i by omega)]
        by_cases hjn : j = i + n - 1
        · rw [if_pos hjn, if_pos hjn, hjn]
        · rw [if_neg hjn, if_neg hjn]
    · refine ⟨rfl, hchanged, ?_, ?_⟩
      · simp only [Work.setSlice, setSlice_slices, if_true]
      · intro j hj
        simp only [Work.setSlice, setSlice_slices]
        unfold freeSlices
        rw [if_neg hj, if_neg hj, if_neg (by omega)]
  rw [hw₁]
  -- the memory
  obtain ⟨w₂, hw₂, hspans₂, hchanged₂, hsl₂⟩ : ∃ w₂ : Work S T,
      (if allowPurge = true then
        { w₁ with
          segment := miSegmentSchedulePurge env w₁.segment (i * miSegmentSliceSize)
            (n * miSegmentSliceSize) }
        else w₁) = w₂ ∧
      w₂.spans = w.spans ∧ Changed U w.segment w₂.segment ∧
      w₂.segment.slices = w₁.segment.slices := by
    refine ⟨_, rfl, ?_⟩
    split
    · have hpurged := miSegmentSchedulePurge_spec (hchanged₁.same.segmentSlices.trans hsize) env hn
        hend hU hchanged₁.safe
      exact ⟨hspans₁, hchanged₁.trans (hpurged.changed hchanged₁.safe), hpurged.same.slices⟩
    · exact ⟨hspans₁, hchanged₁, rfl⟩
  rw [hw₂]
  have hsl : ∀ j, (w₂.segment.setSlice i fun sl => { sl with xblockSize := 0 }).slices j =
      freeSlices w.segment.slices i n j := by
    intro j
    rw [setSlice_slices, hsl₂]
    by_cases hj : j = i
    · subst hj
      rw [if_pos rfl, hhead₁]
      unfold freeSlices
      rw [if_pos rfl]
    · rw [if_neg hj, hsl₁ j hj]
  have hchanged := hchanged₂.trans (hchanged₂.safe.setSlice (i := i)
    (fun hi => hU i hi (by omega)) fun sl => { sl with xblockSize := 0 })
  cases howned : w.segment.threadId with
  | none =>
      simp only [miSegmentIsAbandoned, howned, Option.isNone_none, if_true]
      refine ⟨hsl, ?_, hchanged⟩
      rw [show (w₂.setSlice i fun sl => { sl with xblockSize := 0 }).spans = w.spans from hspans₂]
      exact hplace
  | some t' =>
      obtain rfl := howner t' howned
      simp only [miSegmentIsAbandoned, howned, Option.isNone_some, Bool.false_eq_true, if_false,
        miSpanQueuePush]
      refine ⟨hsl, ?_, hchanged⟩
      have hnone : place t' s (A ++ ⟨n, hn, .free false⟩ :: B) rest (s, i) = none := by
        rw [← hi, place_self]
        rfl
      have hpush := hplace.push hnone (miSpanQueueFor t' n)
      rw [← hi] at hpush ⊢
      rw [hspans₂]
      show Placed _ (place t' s (A ++ ⟨n, hn, .free true⟩ :: B) rest)
      rw [← place_set t' s A B (x := ⟨n, hn, .free false⟩) (y := ⟨n, hn, .free true⟩) rfl rest]
      exact hpush

/-- A free span, queued or not, comes out of its queue. -/
theorem removeFromQueue_spec (t : T) (s : S) {n : Nat} {hn : 0 < n} {q : Bool}
    (hcount : (w.segment.slices (total Span.count A)).sliceCount = n)
    (hplace : Placed w.spans (place t s (A ++ ⟨n, hn, .free q⟩ :: B) rest))
    (hsafe : Safe w.segment U) (hU : ¬ U (total Span.count A)) :
    ∀ w', miSegmentSpanRemoveFromQueue t s (total Span.count A) w = w' →
      (∀ j, w'.segment.slices j =
        if j = total Span.count A then { w.segment.slices j with xblockSize := 1 }
        else w.segment.slices j) ∧
      Placed w'.spans (place t s (A ++ ⟨n, hn, .free false⟩ :: B) rest) ∧
      Changed U w.segment w'.segment := by
  rintro w' rfl
  unfold miSegmentSpanRemoveFromQueue miSpanQueueDelete
  rw [hcount]
  refine ⟨?_, ?_, hsafe.setSlice hU fun sl => { sl with xblockSize := 1 }⟩
  · intro j
    simp only [Work.setSlice, setSlice_slices]
    split
    · rename_i hj
      rw [hj]
    · rfl
  · rw [← place_set t s A B (x := ⟨n, hn, .free q⟩) (y := ⟨n, hn, .free false⟩) rfl rest]
    refine hplace.delete fun y hy => ?_
    rw [place_self] at hy
    cases q with
    | false => cases hy
    | true => exact (Option.some.inj hy).symm

/-- A free neighbour is taken out of its queue, if its segment has an owner. -/
theorem takeNeighbour_spec (t : T) (s : S) {n : Nat} {hn : 0 < n} {q : Bool}
    (hcount : (w.segment.slices (total Span.count A)).sliceCount = n)
    (hplace : Placed w.spans (place t s (A ++ ⟨n, hn, .free q⟩ :: B) rest))
    (hsafe : Safe w.segment U) (hU : ¬ U (total Span.count A)) (abandoned : Bool)
    (hq : abandoned = true → q = false) :
    ∀ w', (if (!abandoned) = true then miSegmentSpanRemoveFromQueue t s (total Span.count A) w
        else w) = w' →
      (∀ j, j ≠ total Span.count A → w'.segment.slices j = w.segment.slices j) ∧
      (∀ j, (w'.segment.slices j).xheap = (w.segment.slices j).xheap) ∧
      Placed w'.spans (place t s (A ++ ⟨n, hn, .free false⟩ :: B) rest) ∧
      Changed U w.segment w'.segment := by
  rintro w' rfl
  cases abandoned with
  | true =>
      obtain rfl := hq rfl
      exact ⟨fun _ _ => rfl, fun _ => rfl, hplace, hsafe.changed⟩
  | false =>
      obtain ⟨hsl, hplace', hchanged⟩ := removeFromQueue_spec t s hcount hplace hsafe hU _ rfl
      refine ⟨fun j hj => ?_, fun j => ?_, hplace', hchanged⟩
      · refine (hsl j).trans ?_
        rw [if_neg hj]
      · refine (congrArg MiSlice.xheap (hsl j)).trans ?_
        split <;> rfl

end

/-! ## Coalescing -/

/-- What stays of the spans before a free one, and the slices it takes from them. -/
def Before (A A' : List (Span T)) (a : Nat) : Prop :=
  A' = A ∧ a = 0 ∧ (∀ x, A.getLast? = some x → x.isPage = true) ∨
    ∃ h q, A = A' ++ [⟨a, h, .free q⟩]

/-- What stays of the spans behind a free one, and the slices it takes from them. -/
def After (B B' : List (Span T)) (b : Nat) : Prop :=
  B' = B ∧ b = 0 ∧ (∀ x, B.head? = some x → x.isPage = true) ∨ ∃ h q, B = ⟨b, h, .free q⟩ :: B'

theorem Before.total {A A' : List (Span T)} {a : Nat} (h : Before A A' a) :
    Spans.total Span.count A = Spans.total Span.count A' + a := by
  rcases h with ⟨rfl, rfl, -⟩ | ⟨h, q, rfl⟩
  · rfl
  · simp

theorem After.total {B B' : List (Span T)} {b : Nat} (h : After B B' b) :
    Spans.total Span.count B = b + Spans.total Span.count B' := by
  rcases h with ⟨rfl, rfl, -⟩ | ⟨h, q, rfl⟩
  · simp
  · simp

theorem Before.spansOk {A A' : List (Span T)} {a i : Nat} {sl : Nat → MiSlice T}
    (h : Before A A' a) (hA : SpansOk sl i A) : SpansOk sl i A' := by
  rcases h with ⟨rfl, -, -⟩ | ⟨h, q, rfl⟩
  · exact hA
  · exact (all_append.mp hA).1

theorem After.spansOk {B B' : List (Span T)} {b i : Nat} {sl : Nat → MiSlice T}
    (h : After B B' b) (hB : SpansOk sl i B) : SpansOk sl (i + b) B' := by
  rcases h with ⟨rfl, rfl, -⟩ | ⟨h, q, rfl⟩
  · exact hB
  · exact hB.2

theorem Before.usedIn {A A' : List (Span T)} {a : Nat} (h : Before A A' a) {i j : Nat} :
    UsedIn i A j ↔ UsedIn i A' j := by
  rcases h with ⟨rfl, -, -⟩ | ⟨h, q, rfl⟩
  · rfl
  · rw [usedIn_append]
    simp [UsedIn, Span.isPage]

theorem After.usedIn {B B' : List (Span T)} {b : Nat} (h : After B B' b) {i j : Nat} :
    UsedIn i B j ↔ UsedIn (i + b) B' j := by
  rcases h with ⟨rfl, rfl, -⟩ | ⟨h, q, rfl⟩
  · rfl
  · simp [UsedIn, Span.isPage]

theorem Before.pages {A A' : List (Span T)} {a : Nat} (h : Before A A' a) (i : Nat) :
    Mimalloc.pages i A' = Mimalloc.pages i A := by
  rcases h with ⟨rfl, -, -⟩ | ⟨h, q, rfl⟩
  · rfl
  · simp [pages_append, Mimalloc.pages]

theorem After.pages {B B' : List (Span T)} {b : Nat} (h : After B B' b) (i : Nat) :
    Mimalloc.pages (i + b) B' = Mimalloc.pages i B := by
  rcases h with ⟨rfl, rfl, -⟩ | ⟨h, q, rfl⟩
  · rfl
  · simp [Mimalloc.pages]

/-- Coalescing does not touch pages. -/
theorem pages_merged {A A' B B' : List (Span T)} {a b n i : Nat} (hbefore : Before A A' a)
    (hafter : After B B' b) (hm : 0 < a + n + b) (q : Bool) :
    Mimalloc.pages i (A' ++ ⟨a + n + b, hm, .free q⟩ :: B') =
      Mimalloc.pages i A ++ Mimalloc.pages (i + Spans.total Span.count A + n) B := by
  rw [pages_append, hbefore.pages, hbefore.total]
  simp only [Mimalloc.pages]
  rw [← hafter.pages]
  congr 2
  omega

section

variable [DecidableEq S] [DecidableEq T] {w : Work S T} {U : Nat → Prop} {A B : List (Span T)}
  {rest : S × Nat → Option (T × Nat)}

theorem spanFreeCoalesce_spec (env : Env) (t : T) (s : S) {n : Nat} (hn : 0 < n)
    (hA : SpansOk w.segment.slices 0 A) (hB : SpansOk w.segment.slices (total Span.count A + n) B)
    (htotal : total Span.count A + n + total Span.count B = miSlicesPerSegment)
    (hentries : w.segment.sliceEntries = miSlicesPerSegment)
    (hsize : w.segment.segmentSlices = miSlicesPerSegment) (hne : A ≠ [])
    (hcount : (w.segment.slices (total Span.count A)).sliceCount = n)
    (hheap : ∀ k < n, (w.segment.slices (total Span.count A + k)).xheap = none)
    (howner : ∀ t', w.segment.threadId = some t' → t' = t)
    (hflags : w.segment.threadId = none → ∀ x ∈ A ++ B, x.use ≠ .free true)
    (hplace : Placed w.spans (place t s (A ++ ⟨n, hn, .free false⟩ :: B) rest))
    (hsafe : Safe w.segment U)
    (hU : ∀ j, U j → UsedIn 0 (A ++ ⟨n, hn, .free false⟩ :: B) j) :
    ∀ w' slice, miSegmentSpanFreeCoalesce env t s (total Span.count A) w = (w', slice) →
      ∃ (A' B' : List (Span T)) (a b : Nat) (hm : 0 < a + n + b), Before A A' a ∧ After B B' b ∧
        slice = total Span.count A' ∧
        SpansOk w'.segment.slices 0
          (A' ++ ⟨a + n + b, hm, .free w.segment.threadId.isSome⟩ :: B') ∧
        Placed w'.spans
          (place t s (A' ++ ⟨a + n + b, hm, .free w.segment.threadId.isSome⟩ :: B') rest) ∧
        Changed U w.segment w'.segment := by
  intro w' slice hr
  unfold miSegmentSpanFreeCoalesce at hr
  simp only [hcount, hentries] at hr
  have hflag : ∀ {m : Nat} {hm : 0 < m} {q : Bool}, ⟨m, hm, .free q⟩ ∈ A ++ B →
      miSegmentIsAbandoned w.segment = true → q = false := by
    intro m hm q hmem habandoned
    have hfree := hflags (Option.isNone_iff_eq_none.mp habandoned) _ hmem
    cases q with
    | false => rfl
    | true => exact absurd rfl hfree
  -- the span behind
  obtain ⟨w₁, B', b, hafter, hw₁, hsl₁, hheap₁, hplace₁, hchanged₁⟩ : ∃ (w₁ : Work S T)
      (B' : List (Span T)) (b : Nat), After B B' b ∧
      (if total Span.count A + n < miSlicesPerSegment ∧
          (w.segment.slices (total Span.count A + n)).xblockSize = 0 then
        (if (!miSegmentIsAbandoned w.segment) = true then
            miSegmentSpanRemoveFromQueue t s (total Span.count A + n) w else w,
          n + (w.segment.slices (total Span.count A + n)).sliceCount)
        else (w, n)) = (w₁, n + b) ∧
      (∀ j, j ≠ total Span.count A + n ∨ b = 0 → w₁.segment.slices j = w.segment.slices j) ∧
      (∀ k < n + b, (w₁.segment.slices (total Span.count A + k)).xheap = none) ∧
      Placed w₁.spans (place t s (A ++ ⟨n + b, by omega, .free false⟩ :: B') rest) ∧
      Changed U w.segment w₁.segment := by
    cases B with
    | nil =>
        rw [if_neg (by simp at htotal; omega)]
        exact ⟨w, [], 0, .inl ⟨rfl, rfl, fun x hx => by cases hx⟩, rfl, fun _ _ => rfl, hheap,
          hplace, hsafe.changed⟩
    | cons y B =>
        obtain ⟨m, hm, u⟩ := y
        simp only [total_cons] at htotal
        cases u with
        | page heap =>
            have hused := mt (spanOk_xblock hB.1).mp (by simp [Span.isPage])
            rw [if_neg fun h => hused h.2]
            refine ⟨w, _, 0, .inl ⟨rfl, rfl, ?_⟩, rfl, fun _ _ => rfl, hheap, hplace,
              hsafe.changed⟩
            rintro x hx
            obtain rfl := Option.some.inj hx
            rfl
        | free q =>
            have hfree := (spanOk_xblock hB.1).mpr rfl
            have hm' := spanOk_count hB.1
            rw [if_pos ⟨by omega, hfree⟩]
            have hassoc : ∀ u : Use T, A ++ ⟨n, hn, .free false⟩ :: ⟨m, hm, u⟩ :: B =
                (A ++ [⟨n, hn, .free false⟩]) ++ ⟨m, hm, u⟩ :: B := fun u => by simp
            have htot : total Span.count (A ++ [⟨n, hn, .free false⟩]) = total Span.count A + n := by
              simp
            have hout : ¬ U (total Span.count (A ++ [⟨n, hn, .free false⟩])) := by
              intro hj
              have hj := hU _ hj
              rw [htot, usedIn_append, Nat.zero_add] at hj
              rcases hj with hj | ⟨hj, -⟩ | hj
              · have := hj.range
                omega
              · cases hj
              · rcases hj with ⟨hj, -⟩ | hj
                · cases hj
                · have := hj.range
                  simp only at this
                  omega
            rw [hassoc] at hplace
            have hstep := takeNeighbour_spec t s (by rw [htot]; exact hm') hplace hsafe hout
              (miSegmentIsAbandoned w.segment) (hflag (List.mem_append_right A List.mem_cons_self)) _ rfl
            rw [htot, ← hassoc] at hstep
            obtain ⟨hsl, hheap', hplace', hchanged⟩ := hstep
            refine ⟨_, B, m, .inr ⟨hm, q, rfl⟩, by rw [hm'], fun j hj => hsl j ?_, ?_, ?_,
              hchanged⟩
            · omega
            · intro k hk
              rw [hheap']
              by_cases hkn : k < n
              · exact hheap k hkn
              · obtain ⟨l, rfl⟩ : ∃ l, k = n + l := ⟨k - n, by omega⟩
                rw [← Nat.add_assoc]
                exact hB.1.heap l (by simp only; omega)
            · rwa [place_merge t s A B (z := ⟨n + m, by omega, .free false⟩) rfl rfl rfl rfl] at hplace'
  rw [hw₁] at hr
  obtain ⟨A, z, rfl⟩ : ∃ A₀ z, A = A₀ ++ [z] := by
    rcases List.eq_nil_or_concat A with rfl | ⟨A₀, z, rfl⟩
    · exact absurd rfl hne
    · exact ⟨A₀, z, List.concat_eq_append⟩
  have htotA : total Span.count (A ++ [z]) = total Span.count A + z.count := by simp
  have hz := (all_append.mp hA).2.1
  rw [Nat.zero_add] at hz
  have hzpos := z.pos
  rw [htotA] at hr hsl₁ hheap₁ hB htotal
  -- the slice before the span leads to the header of the span before
  have hfirst : miSliceFirst w₁.segment (total Span.count A + z.count - 1) = total Span.count A := by
    unfold miSliceFirst
    rw [hsl₁ _ (.inl (by omega)), spanOk_back hz]
    omega
  have hxblock : (w₁.segment.slices (total Span.count A)).xblockSize = 0 ↔ z.isPage = false := by
    rw [hsl₁ _ (.inl (by omega))]
    exact spanOk_xblock hz
  have hcountz : (w₁.segment.slices (total Span.count A)).sliceCount = z.count := by
    rw [hsl₁ _ (.inl (by omega))]
    exact spanOk_count hz
  simp only [show total Span.count A + z.count > 0 by omega, if_true, hfirst, hcountz] at hr
  have hafterTotal := hafter.total
  -- the span before
  obtain ⟨w₂, A', a, hbefore, hw₂, hsl₂, hheap₂, hplace₂, hchanged₂⟩ : ∃ (w₂ : Work S T)
      (A' : List (Span T)) (a : Nat), Before (A ++ [z]) A' a ∧
      (if (w₁.segment.slices (total Span.count A)).xblockSize = 0 then
          (if (!miSegmentIsAbandoned w.segment) = true then
              miSegmentSpanRemoveFromQueue t s (total Span.count A) w₁ else w₁,
            n + b + z.count, total Span.count A)
        else (w₁, n + b, total Span.count A + z.count)) = (w₂, a + n + b, total Span.count A') ∧
      (∀ j, ¬ (total Span.count A' ≤ j ∧ j < total Span.count A' + (a + n + b)) →
        w₂.segment.slices j = w.segment.slices j) ∧
      (∀ k < a + n + b, (w₂.segment.slices (total Span.count A' + k)).xheap = none) ∧
      Placed w₂.spans (place t s (A' ++ ⟨a + n + b, by omega, .free false⟩ :: B') rest) ∧
      Changed U w.segment w₂.segment := by
    obtain ⟨m, hm, u⟩ := z
    simp only at *
    cases u with
    | page heap =>
        rw [if_neg (mt hxblock.mp (by simp [Span.isPage]))]
        refine ⟨w₁, A ++ [⟨m, hm, .page heap⟩], 0, .inl ⟨rfl, rfl, ?_⟩, ?_, ?_, ?_, ?_, hchanged₁⟩
        · intro x hx
          rw [List.getLast?_concat] at hx
          obtain rfl := Option.some.inj hx
          rfl
        · rw [htotA, Nat.zero_add]
        · intro j hj
          rw [htotA, Nat.zero_add] at hj
          exact hsl₁ j (by omega)
        · rw [htotA]
          simpa only [Nat.zero_add] using hheap₁
        · simpa only [Nat.zero_add] using hplace₁
    | free q =>
        rw [if_pos (hxblock.mpr rfl)]
        have hassoc : ∀ u : Use T, (A ++ [⟨m, hm, u⟩]) ++ ⟨n + b, by omega, .free false⟩ :: B' =
            A ++ ⟨m, hm, u⟩ :: ⟨n + b, by omega, .free false⟩ :: B' := fun u => by simp
        rw [hassoc] at hplace₁
        have hout : ¬ U (total Span.count A) := by
          intro hj
          have hj := hU _ hj
          rw [List.append_assoc, usedIn_append, Nat.zero_add] at hj
          rcases hj with hj | ⟨hj, -⟩ | hj
          · have := hj.range
            omega
          · cases hj
          · have := hj.range
            simp only at this
            omega
        have hmem : (⟨m, hm, .free q⟩ : Span T) ∈ A ++ [⟨m, hm, .free q⟩] ++ B := by simp
        obtain ⟨hsl, hheap', hplace', hchanged⟩ := takeNeighbour_spec t s
          hcountz hplace₁ hchanged₁.safe hout (miSegmentIsAbandoned w.segment)
          (hflag hmem) _ rfl
        refine ⟨_, A, m, .inr ⟨hm, q, rfl⟩, by rw [Nat.add_assoc m n b, Nat.add_comm m], ?_, ?_, ?_,
          hchanged₁.trans hchanged⟩
        · intro j hj
          rw [hsl j (by omega)]
          exact hsl₁ j (by omega)
        · intro k hk
          rw [hheap']
          by_cases hkm : k < m
          · rw [hsl₁ _ (.inl (by omega))]
            exact hz.heap k hkm
          · obtain ⟨l, rfl⟩ : ∃ l, k = m + l := ⟨k - m, by omega⟩
            rw [← Nat.add_assoc]
            exact hheap₁ l (by omega)
        · rwa [place_merge t s A B' (z := ⟨m + n + b, by omega, .free false⟩)
            (by simp only; omega) rfl rfl rfl] at hplace'
  simp only [hw₂] at hr
  obtain ⟨rfl, rfl⟩ := Prod.mk.inj hr
  have hbeforeTotal := hbefore.total
  rw [htotA] at hbeforeTotal
  -- the free span
  have hm : 0 < a + n + b := by omega
  have hU' : ∀ j, U j →
      ¬ (total Span.count A' ≤ j ∧ j < total Span.count A' + (a + n + b)) := by
    intro j hj hj'
    have hj := hU j hj
    rw [usedIn_append, htotA, Nat.zero_add, hbefore.usedIn] at hj
    rcases hj with hj | ⟨hj, -⟩ | hj
    · have := hj.range
      omega
    · cases hj
    · have := (hafter.usedIn.mp hj).range
      simp only at this
      omega
  obtain ⟨hsl, hplace₃, hchanged₃⟩ := spanFree_spec env t s hm true
    (hchanged₂.same.segmentSlices.trans hsize) (by omega)
    (fun t' ht' => howner t' (hchanged₂.same.threadId.symm.trans ht')) hplace₂ hchanged₂.safe hU' _ rfl
  rw [hchanged₂.same.threadId] at hplace₃
  refine ⟨A', B', a, b, hm, hbefore, hafter, rfl, ?_, hplace₃, hchanged₂.trans hchanged₃⟩
  have hsame : ∀ j, ¬ (total Span.count A' ≤ j ∧ j < total Span.count A' + (a + n + b)) →
      (miSegmentSpanFree env t s (total Span.count A') (a + n + b) true w₂).segment.slices j =
        w.segment.slices j := by
    intro j hj
    rw [hsl, freeSlices_outside hm hj, hsl₂ j hj]
  refine all_append.mpr ⟨?_, ?_, ?_⟩
  · exact (hbefore.spansOk hA).congr fun j hj hj' => hsame j (by omega)
  · show FreeOk _ _ (a + n + b)
    rw [Nat.zero_add, funext hsl]
    exact freeSlices_ok hm hheap₂
  · have hB' := hafter.spansOk hB
    rw [Nat.zero_add, show total Span.count A' + (a + n + b) = total Span.count A + z.count + n + b by
      omega]
    exact hB'.congr fun j hj hj' => hsame j (by omega)

end

/-! ## Segments that are laid out -/

/-- One of two neighbours is a page: free ones would be one span. -/
def Apart (x y : Span T) : Prop := x.isPage = true ∨ y.isPage = true

/-- The first `info` slices are a page for the segment itself. -/
structure Layout (info : Nat) (seg : MiSegment T) (L : List (Span T)) : Prop where
  spans : SpansOk seg.slices 0 L
  total : total Span.count L = miSlicesPerSegment
  entries : seg.sliceEntries = miSlicesPerSegment
  size : seg.segmentSlices = miSlicesPerSegment
  head : ∃ h R, L = ⟨info, h, .page none⟩ :: R
  apart : L.IsChain Apart
  safe : Safe seg (UsedIn 0 L)

theorem Before.subset {A A' : List (Span T)} {a : Nat} (h : Before A A' a) : A' ⊆ A := by
  rcases h with ⟨rfl, -, -⟩ | ⟨h, q, rfl⟩
  · exact fun _ hx => hx
  · exact List.subset_append_left A' _

theorem After.subset {B B' : List (Span T)} {b : Nat} (h : After B B' b) : B' ⊆ B := by
  rcases h with ⟨rfl, -, -⟩ | ⟨h, q, rfl⟩
  · exact fun _ hx => hx
  · exact List.subset_cons_self _ B'

/-- What is before a free span and its free neighbour ends in a page. -/
theorem Before.apart {A A' : List (Span T)} {a : Nat} (h : Before A A' a) (hA : A.IsChain Apart) :
    A'.IsChain Apart ∧ ∀ x, A'.getLast? = some x → x.isPage = true := by
  rcases h with ⟨rfl, -, hlast⟩ | ⟨h, q, rfl⟩
  · exact ⟨hA, hlast⟩
  · obtain ⟨hA', -, hpair⟩ := List.isChain_append.mp hA
    refine ⟨hA', fun x hx => ?_⟩
    rcases hpair x hx _ rfl with hpage | hpage
    · exact hpage
    · cases hpage

theorem After.apart {B B' : List (Span T)} {b : Nat} (h : After B B' b) (hB : B.IsChain Apart) :
    B'.IsChain Apart ∧ ∀ x, B'.head? = some x → x.isPage = true := by
  rcases h with ⟨rfl, -, hfirst⟩ | ⟨h, q, rfl⟩
  · exact ⟨hB, hfirst⟩
  · cases B' with
    | nil => exact ⟨List.IsChain.nil, fun x hx => by cases hx⟩
    | cons y B' =>
        obtain ⟨hpair, hB'⟩ := List.isChain_cons_cons.mp hB
        refine ⟨hB', fun x hx => ?_⟩
        obtain rfl := Option.some.inj hx
        rcases hpair with hpage | hpage
        · cases hpage
        · exact hpage

theorem apart_free {A B : List (Span T)} {x : Span T} (hA : A.IsChain Apart) (hB : B.IsChain Apart)
    (hlast : ∀ y, A.getLast? = some y → y.isPage = true)
    (hfirst : ∀ y, B.head? = some y → y.isPage = true) : (A ++ x :: B).IsChain Apart := by
  refine List.isChain_append.mpr ⟨hA, ?_, fun y hy z _ => .inl (hlast y hy)⟩
  cases B with
  | nil => exact List.isChain_singleton x
  | cons z B => exact List.isChain_cons_cons.mpr ⟨.inr (hfirst z rfl), hB⟩

section

variable [DecidableEq S] [DecidableEq T] {w : Work S T} {A B : List (Span T)}
  {rest : S × Nat → Option (T × Nat)}

/-- Coalescing leaves the segment laid out, with the pages that it had. -/
theorem spanFreeCoalesce_layout (env : Env) (t : T) (s : S) {info n : Nat} (hn : 0 < n)
    (hA : SpansOk w.segment.slices 0 A) (hB : SpansOk w.segment.slices (total Span.count A + n) B)
    (htotal : total Span.count A + n + total Span.count B = miSlicesPerSegment)
    (hentries : w.segment.sliceEntries = miSlicesPerSegment)
    (hsize : w.segment.segmentSlices = miSlicesPerSegment)
    (hhead : ∃ h R, A = ⟨info, h, .page none⟩ :: R)
    (hapartA : A.IsChain Apart) (hapartB : B.IsChain Apart)
    (hcount : (w.segment.slices (total Span.count A)).sliceCount = n)
    (hheap : ∀ k < n, (w.segment.slices (total Span.count A + k)).xheap = none)
    (howner : ∀ t', w.segment.threadId = some t' → t' = t)
    (hflags : w.segment.threadId = none → ∀ x ∈ A ++ B, x.use ≠ .free true)
    (hplace : Placed w.spans (place t s (A ++ ⟨n, hn, .free false⟩ :: B) rest))
    (hsafe : Safe w.segment (UsedIn 0 (A ++ ⟨n, hn, .free false⟩ :: B))) :
    ∀ w' slice, miSegmentSpanFreeCoalesce env t s (total Span.count A) w = (w', slice) →
      ∃ (A' B' : List (Span T)) (a b : Nat) (hm : 0 < a + n + b), Before A A' a ∧ After B B' b ∧
        slice = total Span.count A' ∧
        Layout info w'.segment
          (A' ++ ⟨a + n + b, hm, .free w.segment.threadId.isSome⟩ :: B') ∧
        Placed w'.spans
          (place t s (A' ++ ⟨a + n + b, hm, .free w.segment.threadId.isSome⟩ :: B') rest) ∧
        Changed (UsedIn 0 (A ++ ⟨n, hn, .free false⟩ :: B)) w.segment w'.segment := by
  intro w' slice hr
  obtain ⟨h, R, hR⟩ := hhead
  obtain ⟨A', B', a, b, hm, hbefore, hafter, hslice, hspans, hplace', hchanged⟩ :=
    spanFreeCoalesce_spec env t s hn hA hB htotal hentries hsize (by simp [hR]) hcount hheap howner
      hflags hplace hsafe (fun _ hj => hj) w' slice hr
  refine ⟨A', B', a, b, hm, hbefore, hafter, hslice, ?_, hplace', hchanged⟩
  have hbeforeTotal := hbefore.total
  have hafterTotal := hafter.total
  obtain ⟨hapartA', hlast⟩ := hbefore.apart hapartA
  obtain ⟨hapartB', hfirst⟩ := hafter.apart hapartB
  refine ⟨hspans, ?_, hchanged.same.sliceEntries.trans hentries,
    hchanged.same.segmentSlices.trans hsize, ?_, apart_free hapartA' hapartB' hlast hfirst,
    hchanged.safe.mono fun j hj => ?_⟩
  · simp only [total_append, total_cons]
    omega
  · -- the first span is a page, so it is not the free neighbour
    rcases hbefore with ⟨rfl, -, -⟩ | ⟨ha, q, hA'⟩
    · exact ⟨h, R ++ ⟨a + n + b, hm, .free w.segment.threadId.isSome⟩ :: B', by rw [hR]; rfl⟩
    · cases A' with
      | nil =>
          rw [hR] at hA'
          cases hA'
      | cons y A' =>
          rw [hR] at hA'
          obtain ⟨rfl, -⟩ := List.cons.inj hA'
          exact ⟨h, _, rfl⟩
  · rw [usedIn_append] at hj ⊢
    rw [hbefore.usedIn]
    refine hj.imp_right ?_
    rintro (⟨hpage, -⟩ | hj)
    · cases hpage
    · refine .inr (hafter.usedIn.mpr ?_)
      have he : 0 + total Span.count A + n + b = 0 + total Span.count A' + (a + n + b) := by omega
      simpa only [he] using hj

end

end EflCore.Mimalloc
