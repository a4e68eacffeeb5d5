/-
# `EflCore.Mimalloc.Reclaim` — visits to abandoned segments

A thread that has popped an abandoned segment goes through its spans.  Other threads may have freed
the blocks of its pages meanwhile, so pages can have become free.  The loop goes on from the header of
a free span when it has coalesced it, which may be one before the span it was at.

| | pages without blocks | other pages | free spans |
| :-- | :-- | :-- | :-- |
| `checkFreeLoop` | freed | as they are | as they are |
| `reclaimLoop` | freed | get the heap | go into the queues |

**Proved here.**  Both loops end, with all spans visited (`checkFreeLoop_spec`, `reclaimLoop_spec`).
What is left is a segment as it should be: still abandoned, or of the thread with no page abandoned,
or gone when there is no page left (`segmentReclaim_spec`, `tryReclaimRound_spec`,
`abandonedCollectRound_spec`).
-/
import EflCore.Mimalloc.PageFree

namespace EflCore.Mimalloc

open Spans DoublyLinked

variable {T S : Type}

section

variable [DecidableEq S] [DecidableEq T] {w : Work S T} {A B : List (Span T)}
  {rest : S × Nat → Option (T × Nat)} {info : Nat} {t : T} {s : S} {o : Option T}

/-! ## A visit -/

/-- The spans `A` are done, the spans `B` are not, and the owner is `o`. -/
structure Visiting (info : Nat) (t : T) (s : S) (rest : S × Nat → Option (T × Nat)) (o : Option T)
    (w : Work S T) (A B : List (Span T)) : Prop where
  layout : Layout info w.segment (A ++ B)
  counted : Counted w.segment (A ++ B)
  thread : w.segment.threadId = o
  owner : o = none ∨ o = some t
  done : ∀ x ∈ A, Owned o x
  ahead : ∀ x ∈ B, Owned none x
  started : A ≠ []
  placed : Placed w.spans (place t s (A ++ B) rest)

/-- The loop has come on to `A'` and `B'`, with `k` spans to go at most. -/
structure Onward (info : Nat) (t : T) (s : S) (rest : S × Nat → Option (T × Nat)) (o : Option T)
    (seg : MiSegment T) (k : Nat) (P Q : List (Page T)) (w' : Work S T) (A' B' : List (Span T)) :
    Prop where
  visiting : Visiting info t s rest o w' A' B'
  fewer : B'.length ≤ k
  before : pages 0 A' = P
  after : pages (total Span.count A') B' = Q
  untouched : Untouched (UsedIn 0 (A' ++ B')) seg w'.segment

omit [DecidableEq T] in
theorem Visiting.headed (h : Visiting info t s rest o w A B) : Headed info A :=
  Headed.left h.layout.head h.started

omit [DecidableEq T] in
/-- The loop leaves a span as it is. -/
theorem Visiting.skip {x : Span T} (h : Visiting info t s rest o w A (x :: B)) (hx : Owned o x) :
    Visiting info t s rest o w (A ++ [x]) B := by
  have happ : A ++ x :: B = (A ++ [x]) ++ B := List.append_cons A x B
  obtain ⟨h₁, h₂, h₃, h₄, h₅, h₆, h₇, h₈⟩ := h
  rw [happ] at h₁ h₂ h₈
  refine ⟨h₁, h₂, h₃, h₄, fun y hy => ?_, fun y hy => h₆ y (List.mem_cons_of_mem x hy), by simp, h₈⟩
  rcases List.mem_append.mp hy with hy | hy
  · exact h₅ y hy
  · rwa [List.mem_singleton.mp hy]

omit [DecidableEq T] in
/-- The loop goes on behind the free span that it has made. -/
theorem onward_of_merge {A' B' : List (Span T)} {a b n : Nat} {w' : Work S T}
    (hbefore : Before A A' a) (hafter : After B B' b) (hm : 0 < a + n + b)
    (howner : o = none ∨ o = some t) (hdone : ∀ x ∈ A, Owned o x) (hahead : ∀ x ∈ B, Owned none x)
    (hthread : w'.segment.threadId = o)
    (hlay : Layout info w'.segment (A' ++ ⟨a + n + b, hm, .free o.isSome⟩ :: B'))
    (hplace : Placed w'.spans (place t s (A' ++ ⟨a + n + b, hm, .free o.isSome⟩ :: B') rest))
    (hused : w'.segment.used + 1 = (pages 0 A ++ pages (total Span.count A + n) B).length)
    (habandoned : w'.segment.abandoned + 1 =
      (pages 0 A ++ pages (total Span.count A + n) B).countP fun p => p.heap.isNone)
    {seg : MiSegment T}
    {hn : 0 < n}
    (huntouched : Untouched (UsedIn 0 (A ++ (⟨n, hn, .free false⟩ : Span T) :: B)) seg w'.segment) :
    ∃ A'' B'', total Span.count A' + (w'.segment.slices (total Span.count A')).sliceCount =
        total Span.count A'' ∧
      Onward info t s rest o seg B.length (pages 0 A) (pages (total Span.count A + n) B) w' A'' B'' := by
  have hpages := pages_merged (i := 0) hbefore hafter hm o.isSome
  rw [Nat.zero_add] at hpages
  have hbeforeTotal := hbefore.total
  have happ := List.append_cons A' (⟨a + n + b, hm, .free o.isSome⟩ : Span T) B'
  have hcount := spanOk_count (all_append.mp hlay.spans).2.1
  rw [Nat.zero_add] at hcount
  refine ⟨A' ++ [⟨a + n + b, hm, .free o.isSome⟩], B', by rw [hcount]; simp, ⟨?_, ?_, ?_, ?_, ?_, ?_, by simp, ?_⟩,
    ?_, ?_, ?_, ?_⟩
  · rw [← happ]
    exact hlay
  · rw [← happ]
    exact ⟨by rw [hpages, hused], by rw [hpages, habandoned]⟩
  · exact hthread
  · exact howner
  · intro x hx
    rcases List.mem_append.mp hx with hx | hx
    · exact hdone x (hbefore.subset hx)
    · rw [List.mem_singleton.mp hx]
      exact rfl
  · exact fun x hx => hahead x (hafter.subset hx)
  · rw [← happ]
    exact hplace
  · rcases hafter with ⟨rfl, -, -⟩ | ⟨hb, q, rfl⟩
    · exact Nat.le_refl _
    · exact Nat.le_succ _
  · rw [pages_append, hbefore.pages]
    exact List.append_nil _
  · rw [← hafter.pages]
    congr 1
    simp only [total_append, total_cons, total_nil]
    omega
  · rw [← happ]
    refine huntouched.mono fun j hj => ?_
    rw [usedIn_iff_pages, hpages] at hj
    rw [usedIn_iff_pages, pages_append, Nat.zero_add]
    exact hj

/-- The loop frees a page. -/
theorem pageClear_onward (env : Env) {n : Nat} {hn : 0 < n} (heap : Option T)
    (hlay : Layout info w.segment (A ++ ⟨n, hn, .page heap⟩ :: B)) (hne : A ≠ [])
    (howner : o = none ∨ o = some t) (hthread : w.segment.threadId = o)
    (hdone : ∀ x ∈ A, Owned o x) (hahead : ∀ x ∈ B, Owned none x)
    (hplace : Placed w.spans (place t s (A ++ ⟨n, hn, .page heap⟩ :: B) rest))
    (hused : w.segment.used = (pages 0 A ++ pages (total Span.count A + n) B).length)
    (habandoned : w.segment.abandoned + 1 =
      (pages 0 A ++ pages (total Span.count A + n) B).countP fun p => p.heap.isNone) :
    ∀ w' slice, miSegmentPageClear env t s (total Span.count A) w = (w', slice) →
      ∃ A' B', slice + (w'.segment.slices slice).sliceCount = total Span.count A' ∧
        Onward info t s rest o w.segment B.length (pages 0 A) (pages (total Span.count A + n) B) w'
          A' B' := by
  intro w' slice hr
  obtain ⟨A', B', a, b, hm, hbefore, hafter, rfl, hlay', hplace', hsame, huntouched⟩ :=
    pageClear_spec env t s hne hlay
      (fun t' ht' => by
        rcases howner with ho | ho
        · rw [hthread, ho] at ht'
          cases ht'
        · rw [hthread, ho] at ht'
          exact (Option.some.inj ht').symm)
      (fun hnone x hx => by
        have ho : o = none := hthread.symm.trans hnone
        rcases List.mem_append.mp hx with hx | hx
        · exact not_queued ho hdone x hx
        · exact not_queued rfl hahead x hx)
      hplace w' slice hr
  rw [hthread] at hlay' hplace'
  have hpos : 0 < (pages 0 A ++ pages (total Span.count A + n) B).length := by
    refine Nat.lt_of_lt_of_le (Headed.left hlay.head hne).loose ?_
    rw [List.length_append]
    exact Nat.le_trans List.countP_le_length (Nat.le_add_right _ _)
  refine onward_of_merge hbefore hafter hm howner hdone hahead (hsame.threadId.trans hthread) hlay'
    hplace' ?_ ?_ huntouched
  · rw [hsame.used]
    show w.segment.used - 1 + 1 = _
    omega
  · rw [hsame.abandoned]
    exact habandoned

/-- The loop takes a free span over. -/
theorem Visiting.coalesce (env : Env) {n : Nat} {hn : 0 < n} {q : Bool}
    (h : Visiting info t s rest (some t) w A (⟨n, hn, .free q⟩ :: B)) :
    ∀ w' slice, miSegmentSpanFreeCoalesce env t s (total Span.count A) w = (w', slice) →
      ∃ A' B', slice + (w'.segment.slices slice).sliceCount = total Span.count A' ∧
        Onward info t s rest (some t) w.segment B.length (pages 0 A)
          (pages (total Span.count A + n) B) w' A' B' := by
  intro w' slice hr
  obtain ⟨hlay, hcounted, hthread, howner, hdone, hahead, hne, hplace⟩ := h
  obtain rfl : q = false := hahead _ List.mem_cons_self
  have hahead' : ∀ x ∈ B, Owned none x := fun x hx => hahead x (List.mem_cons_of_mem _ hx)
  obtain ⟨hA, hfree, hB⟩ := all_append.mp hlay.spans
  rw [Nat.zero_add] at hfree hB
  obtain ⟨hapartA, hapartB, -⟩ := List.isChain_append.mp hlay.apart
  have htotal := hlay.total
  simp only [total_append, total_cons] at htotal
  obtain ⟨A', B', a, b, hm, hbefore, hafter, rfl, hlay', hplace', hchanged⟩ :=
    spanFreeCoalesce_layout env t s hn hA hB (by omega) hlay.entries hlay.size
      (Headed.left hlay.head hne) hapartA (List.isChain_cons.mp hapartB).2 hfree.count hfree.heap
      (fun t' ht' => by rw [hthread] at ht'; exact (Option.some.inj ht').symm)
      (fun hnone => by rw [hthread] at hnone; cases hnone) hplace hlay.safe w' slice hr
  rw [hthread] at hlay' hplace'
  have hpages : pages 0 (A ++ ⟨n, hn, .free false⟩ :: B) =
      pages 0 A ++ pages (total Span.count A + n) B := by
    rw [pages_append, Nat.zero_add]
    rfl
  refine onward_of_merge hbefore hafter hm howner hdone hahead' (hchanged.same.threadId.trans hthread)
    hlay' hplace' ?_ ?_ hchanged.untouched
  · rw [hchanged.same.used, hcounted.used, hpages]
  · rw [hchanged.same.abandoned, hcounted.abandoned, hpages]

/-! ## `mi_segment_check_free` -/

omit [DecidableEq T] in
/-- The pages that are not counted once one of them is free. -/
theorem Visiting.counts {n : Nat} {hn : 0 < n} {heap : Option T}
    (h : Visiting info t s rest o w A (⟨n, hn, .page heap⟩ :: B)) :
    heap = none ∧ w.segment.used = (pages 0 A ++ pages (total Span.count A + n) B).length ∧
      w.segment.abandoned - 1 + 1 =
        (pages 0 A ++ pages (total Span.count A + n) B).countP fun p => p.heap.isNone := by
  obtain rfl : heap = none := (h.ahead _ List.mem_cons_self).elim id id
  have hused := h.counted.used
  have habandoned := h.counted.abandoned
  have hloose := h.headed.loose
  rw [pages_page, Nat.zero_add] at hused habandoned
  rw [List.length_append, List.length_cons] at hused
  rw [List.countP_append, List.countP_cons] at habandoned
  rw [List.length_append, List.countP_append]
  simp only [Option.isNone_none, if_true] at habandoned
  exact ⟨rfl, by omega, by omega⟩

omit [DecidableEq S] [DecidableEq T] in
theorem pages_cons (i : Nat) (x : Span T) (B : List (Span T)) :
    pages i (x :: B) = pages i [x] ++ pages (i + x.count) B := by
  rw [← List.singleton_append, pages_append]
  simp

/-- The pages that are left when `free` says which have no blocks. -/
def withoutFree (free : Nat → Bool) (P : List (Page T)) : List (Page T) :=
  P.filter fun p => !free p.start

omit [DecidableEq S] [DecidableEq T] in
theorem withoutFree_append (free : Nat → Bool) (P Q : List (Page T)) :
    withoutFree free (P ++ Q) = withoutFree free P ++ withoutFree free Q :=
  List.filter_append ..

/-- Each page of `L'` is one of `L`, of whatever heap. -/
def Within (L' L : List (Span T)) : Prop :=
  ∀ p ∈ pages 0 L', ∃ heap, (⟨p.start, p.count, heap⟩ : Page T) ∈ pages 0 L

omit [DecidableEq S] [DecidableEq T] in
theorem Within.usedIn {L L' : List (Span T)} (h : Within L' L) {j : Nat} (hj : UsedIn 0 L' j) :
    UsedIn 0 L j := by
  rw [usedIn_iff_pages] at hj ⊢
  obtain ⟨p, hp, hrange⟩ := hj
  obtain ⟨heap, hp'⟩ := h p hp
  exact ⟨_, hp', hrange⟩

omit [DecidableEq S] [DecidableEq T] in
theorem Within.trans {L L' L'' : List (Span T)} (h : Within L' L) (h' : Within L'' L') :
    Within L'' L := by
  intro p hp
  obtain ⟨heap, hp'⟩ := h' p hp
  exact h ⟨p.start, p.count, heap⟩ hp'

omit [DecidableEq S] [DecidableEq T] in
theorem within_withoutFree {A B L' : List (Span T)} {free : Nat → Bool}
    (h : pages 0 L' = pages 0 A ++ withoutFree free (pages (total Span.count A) B)) :
    Within L' (A ++ B) := by
  intro p hp
  rw [h] at hp
  rw [pages_append, Nat.zero_add]
  refine ⟨p.heap, ?_⟩
  rcases List.mem_append.mp hp with hp | hp
  · exact List.mem_append_left _ hp
  · exact List.mem_append_right _ (List.mem_of_mem_filter hp)

omit [DecidableEq T] in
/-- At the end of the spans the loop ends. -/
theorem Visiting.ended (h : Visiting info t s rest o w A []) :
    ¬ total Span.count A < w.segment.sliceEntries := by
  have htotal := h.layout.total
  rw [List.append_nil] at htotal
  rw [h.layout.entries, htotal]
  exact Nat.lt_irrefl _

omit [DecidableEq T] in
theorem Visiting.next {x : Span T} (h : Visiting info t s rest o w A (x :: B)) :
    total Span.count A < w.segment.sliceEntries ∧ SpanOk w.segment.slices (total Span.count A) x := by
  have htotal := h.layout.total
  have hspan := (all_append.mp h.layout.spans).2.1
  have hpos := x.pos
  rw [Nat.zero_add] at hspan
  simp only [total_append, total_cons] at htotal
  rw [h.layout.entries]
  exact ⟨by omega, hspan⟩

theorem checkFreeLoop_spec (env : Env) (v : Visit) (needed blockSize : Nat) :
    ∀ (k : Nat) {w : Work S T} {A B : List (Span T)} (hasPage : Bool), B.length ≤ k →
    Visiting info t s rest none w A B →
    ∃ w' has L', checkFreeLoop env v t s needed blockSize k (total Span.count A) hasPage w =
        some (w', has) ∧
      Visiting info t s rest none w' L' [] ∧
      pages 0 L' = pages 0 A ++ withoutFree v.checkAllFree (pages (total Span.count A) B) ∧
      Untouched (UsedIn 0 L') w.segment w'.segment := by
  intro k
  induction k with
  | zero =>
      intro w A B hasPage hlen hvisit
      obtain rfl := List.eq_nil_of_length_eq_zero (Nat.le_zero.mp hlen)
      refine ⟨w, hasPage, A, ?_, hvisit, (List.append_nil _).symm, Untouched.refl _ _⟩
      unfold checkFreeLoop
      rw [if_neg hvisit.ended]
  | succ k ih =>
      intro w A B hasPage hlen hvisit
      cases B with
      | nil =>
          refine ⟨w, hasPage, A, ?_, hvisit, (List.append_nil _).symm, Untouched.refl _ _⟩
          unfold checkFreeLoop
          rw [if_neg hvisit.ended]
      | cons x B =>
          obtain ⟨hlt, hspan⟩ := hvisit.next
          have hcount := spanOk_count hspan
          have hlen' : B.length ≤ k := by simpa using hlen
          unfold checkFreeLoop
          rw [if_pos hlt]
          -- the loop leaves the span as it is
          have hskip : ∀ has : Bool, withoutFree v.checkAllFree (pages (total Span.count A) [x]) =
              pages (total Span.count A) [x] → ∃ w' has' L',
              checkFreeLoop env v t s needed blockSize k
                (total Span.count A + (w.segment.slices (total Span.count A)).sliceCount) has w =
                  some (w', has') ∧
              Visiting info t s rest none w' L' [] ∧
              pages 0 L' = pages 0 A ++
                withoutFree v.checkAllFree (pages (total Span.count A) (x :: B)) ∧
              Untouched (UsedIn 0 L') w.segment w'.segment := by
            intro has hkeep
            have hnext : total Span.count (A ++ [x]) = total Span.count A + x.count := by simp
            obtain ⟨w', has', L', hr, hvisit', hpages, huntouched⟩ :=
              ih has hlen' (hvisit.skip (hvisit.ahead x List.mem_cons_self))
            rw [hcount, ← hnext]
            refine ⟨w', has', L', hr, hvisit', ?_, huntouched⟩
            rw [hpages, pages_cons _ x B, withoutFree_append, hkeep, pages_append, Nat.zero_add,
              List.append_assoc, hnext]
          obtain ⟨n, hn, u⟩ := x
          cases u with
          | free q =>
              rw [if_neg (by rw [hspan.xblock]; exact Nat.lt_irrefl 0)]
              exact hskip _ rfl
          | page heap =>
              rw [if_pos hspan.xblock]
              cases hfree : v.checkAllFree (total Span.count A) with
              | false =>
                  simp only [Bool.false_eq_true, if_false]
                  exact hskip _ (by simp [pages, withoutFree, hfree])
              | true =>
                  obtain ⟨rfl, hused, habandoned⟩ := hvisit.counts
                  simp only [if_true]
                  generalize hw₁ : ({ w with
                    segment := { w.segment with abandoned := w.segment.abandoned - 1 } } : Work S T) =
                      w₁
                  have huntouched₁ : ∀ U, Untouched U w.segment w₁.segment := by
                    intro U
                    rw [← hw₁]
                    exact ⟨(Untouched.refl U _).1, (Untouched.refl U _).2⟩
                  generalize hclear : miSegmentPageClear env t s (total Span.count A) w₁ = r
                  obtain ⟨w₂, slice⟩ := r
                  obtain ⟨A', B', hslice, honward⟩ := pageClear_onward (w := w₁) (A := A) (B := B)
                    (o := none) env none
                    (by rw [← hw₁]; exact hvisit.layout.fields rfl rfl rfl rfl rfl rfl) hvisit.started
                    (.inl rfl) (by rw [← hw₁]; exact hvisit.thread) hvisit.done
                    (fun y hy => hvisit.ahead y (List.mem_cons_of_mem _ hy))
                    (by rw [← hw₁]; exact hvisit.placed) (by rw [← hw₁]; exact hused)
                    (by rw [← hw₁]; exact habandoned) w₂ slice hclear
                  simp only [hslice]
                  obtain ⟨w', has', L', hr, hvisit', hpages, huntouched⟩ :=
                    ih _ (Nat.le_trans honward.fewer hlen') honward.visiting
                  refine ⟨w', has', L', hr, hvisit', ?_, ?_⟩
                  · rw [hpages, honward.before, honward.after]
                    simp [pages, withoutFree, hfree]
                  · have hwithin := within_withoutFree hpages
                    exact ((huntouched₁ _).trans
                      (honward.untouched.mono fun j => hwithin.usedIn)).trans huntouched

/-! ## `mi_segment_reclaim` -/

/-- The page with a heap of the thread. -/
def Page.give (t : T) (p : Page T) : Page T := { p with heap := some t }

omit [DecidableEq S] [DecidableEq T] in
theorem within_give {A B L' : List (Span T)} {free : Nat → Bool}
    (h : pages 0 L' =
      pages 0 A ++ (withoutFree free (pages (total Span.count A) B)).map (Page.give t)) :
    Within L' (A ++ B) := by
  intro p hp
  rw [h] at hp
  rw [pages_append, Nat.zero_add]
  rcases List.mem_append.mp hp with hp | hp
  · exact ⟨p.heap, List.mem_append_left _ hp⟩
  · obtain ⟨q, hq, rfl⟩ := List.mem_map.mp hp
    exact ⟨q.heap, List.mem_append_right _ (List.mem_of_mem_filter hq)⟩

theorem reclaimLoop_spec (env : Env) (v : Visit) (requested : Nat) :
    ∀ (k : Nat) {w : Work S T} {A B : List (Span T)} (right : Bool), B.length ≤ k →
    Visiting info t s rest (some t) w A B →
    ∃ w' right' L', reclaimLoop env v t s requested k (total Span.count A) right w =
        some (w', right') ∧
      Visiting info t s rest (some t) w' L' [] ∧
      pages 0 L' = pages 0 A ++
        (withoutFree v.reclaimAllFree (pages (total Span.count A) B)).map (Page.give t) ∧
      Untouched (UsedIn 0 L') w.segment w'.segment := by
  intro k
  induction k with
  | zero =>
      intro w A B right hlen hvisit
      obtain rfl := List.eq_nil_of_length_eq_zero (Nat.le_zero.mp hlen)
      refine ⟨w, right, A, ?_, hvisit, (List.append_nil _).symm, Untouched.refl _ _⟩
      unfold reclaimLoop
      rw [if_neg hvisit.ended]
  | succ k ih =>
      intro w A B right hlen hvisit
      cases B with
      | nil =>
          refine ⟨w, right, A, ?_, hvisit, (List.append_nil _).symm, Untouched.refl _ _⟩
          unfold reclaimLoop
          rw [if_neg hvisit.ended]
      | cons x B =>
          obtain ⟨hlt, hspan⟩ := hvisit.next
          have hcount := spanOk_count hspan
          have hlen' : B.length ≤ k := by simpa using hlen
          unfold reclaimLoop
          rw [if_pos hlt]
          obtain ⟨n, hn, u⟩ := x
          cases u with
          | free q =>
              rw [if_neg (by rw [hspan.xblock]; exact Nat.lt_irrefl 0)]
              generalize hco : miSegmentSpanFreeCoalesce env t s (total Span.count A) w = r
              obtain ⟨w₁, slice⟩ := r
              obtain ⟨A', B', hslice, honward⟩ := hvisit.coalesce env w₁ slice hco
              simp only [hslice]
              obtain ⟨w', right', L', hr, hvisit', hpages, huntouched⟩ :=
                ih right (Nat.le_trans honward.fewer hlen') honward.visiting
              refine ⟨w', right', L', hr, hvisit', ?_, ?_⟩
              · rw [hpages, honward.before, honward.after]
                rfl
              · have hwithin := within_give hpages
                exact (honward.untouched.mono fun j => hwithin.usedIn).trans huntouched
          | page heap =>
              obtain ⟨rfl, hused, habandoned⟩ := hvisit.counts
              have hlooseA := hvisit.headed.loose
              rw [if_pos hspan.xblock]
              -- the page gets the heap
              simp only
              generalize hw₁ : (({ w with
                segment := { w.segment with abandoned := w.segment.abandoned - 1 } } : Work S T).setSlice
                  (total Span.count A) fun sl => { sl with xheap := some t }) = w₁
              have hlay₁ : Layout info w₁.segment (A ++ ⟨n, hn, .page (some t)⟩ :: B) := by
                rw [← hw₁]
                exact Layout.setPage (fun sl => { sl with xheap := some t }) (some t)
                  (hvisit.layout.fields rfl rfl rfl rfl rfl rfl) hvisit.started (fun _ => rfl)
                  (fun _ => rfl) (fun _ h => h) fun _ => rfl
              have hplace₁ : Placed w₁.spans
                  (place t s (A ++ ⟨n, hn, .page (some t)⟩ :: B) rest) := by
                rw [← hw₁, place_use t s A B (x := ⟨n, hn, .page none⟩) (y := ⟨n, hn, .page (some t)⟩)
                  rfl rfl rfl]
                exact hvisit.placed
              have hthread₁ : w₁.segment.threadId = some t := by
                rw [← hw₁]
                exact hvisit.thread
              have hused₁ : w₁.segment.used = w.segment.used := by
                rw [← hw₁]
                rfl
              have habandoned₁ : w₁.segment.abandoned = w.segment.abandoned - 1 := by
                rw [← hw₁]
                rfl
              have huntouched₁ : ∀ U, Untouched U w.segment w₁.segment := by
                intro U
                rw [← hw₁]
                refine ⟨fun j _ => ?_, fun _ _ => rfl⟩
                simp only [Work.setSlice, setSlice_slices]
                split
                · rename_i hj
                  exact ⟨some t, by rw [hj]⟩
                · exact ⟨(w.segment.slices j).xheap, rfl⟩
              have hahead := fun y hy => hvisit.ahead y (List.mem_cons_of_mem _ hy)
              cases hfree : v.reclaimAllFree (total Span.count A) with
              | true =>
                  simp only [if_true]
                  generalize hclear : miSegmentPageClear env t s (total Span.count A) w₁ = r
                  obtain ⟨w₂, slice⟩ := r
                  obtain ⟨A', B', hslice, honward⟩ := pageClear_onward env (some t) hlay₁ hvisit.started
                    (.inr rfl) hthread₁ hvisit.done hahead hplace₁ (hused₁.trans hused)
                    (by rw [habandoned₁]; exact habandoned) w₂ slice hclear
                  simp only [hslice]
                  obtain ⟨w', right', L', hr, hvisit', hpages, huntouched⟩ :=
                    ih right (Nat.le_trans honward.fewer hlen') honward.visiting
                  refine ⟨w', right', L', hr, hvisit', ?_, ?_⟩
                  · rw [hpages, honward.before, honward.after]
                    simp [pages, withoutFree, hfree]
                  · have hwithin := within_give hpages
                    exact ((huntouched₁ _).trans
                      (honward.untouched.mono fun j => hwithin.usedIn)).trans huntouched
              | false =>
                  have hcount₁ := (all_append.mp hlay₁.spans).2.1.count
                  rw [Nat.zero_add] at hcount₁
                  have hcounted₁ : Counted w₁.segment (A ++ ⟨n, hn, .page (some t)⟩ :: B) := by
                    refine hvisit.counted.setHeap hused₁ ?_
                    rw [habandoned₁]
                    have hab := hvisit.counted.abandoned
                    rw [pages_page, List.countP_append, List.countP_cons] at hab
                    simp only [Option.isNone_none, if_true, Option.isNone_some, Bool.false_eq_true,
                      if_false] at hab ⊢
                    omega
                  have hvisit₁ : Visiting info t s rest (some t) w₁
                      (A ++ [⟨n, hn, .page (some t)⟩]) B := by
                    rw [List.append_cons] at hlay₁ hcounted₁ hplace₁
                    refine ⟨hlay₁, hcounted₁, hthread₁, .inr rfl, fun y hy => ?_, hahead, by simp, hplace₁⟩
                    rcases List.mem_append.mp hy with hy | hy
                    · exact hvisit.done y hy
                    · rw [List.mem_singleton.mp hy]
                      exact .inr rfl
                  have hnext : total Span.count (A ++ [⟨n, hn, .page (some t)⟩]) =
                      total Span.count A + n := by simp
                  simp only [Bool.false_eq_true, if_false, hcount₁]
                  obtain ⟨w', right', L', hr, hvisit', hpages, huntouched⟩ := ih _ hlen' hvisit₁
                  rw [hnext] at hr hpages
                  refine ⟨w', right', L', hr, hvisit', ?_, (huntouched₁ _).trans huntouched⟩
                  rw [hpages, pages_append, Nat.zero_add]
                  simp [pages, withoutFree, hfree, Page.give]

/-! ## Visits -/

omit [DecidableEq T] in
/-- An abandoned segment can be visited. -/
theorem Good.visiting {L : List (Span T)} (h : Good info w.segment L)
    (hnone : w.segment.threadId = none) (hplace : Placed w.spans (place t s L rest)) :
    Visiting info t s rest none w L [] := by
  have hne : L ≠ [] := Headed.ne_nil h.layout.head
  have howned := h.owned
  rw [hnone] at howned
  rw [← List.append_nil L] at hplace
  refine ⟨?_, ?_, hnone, .inl rfl, howned, (fun _ hx => by cases hx), hne, hplace⟩
  · rw [List.append_nil]
    exact h.layout
  · rw [List.append_nil]
    exact h.counted

omit [DecidableEq T] in
/-- A loop starts behind the page for the segment itself. -/
theorem Visiting.restart {L : List (Span T)} (h : Visiting info t s rest none w L []) :
    ∃ hinfo R, L = ⟨info, hinfo, .page none⟩ :: R ∧
      (w.segment.slices 0).sliceCount = total Span.count [(⟨info, hinfo, .page none⟩ : Span T)] ∧
      R.length ≤ w.segment.sliceEntries ∧
      Visiting info t s rest none w [⟨info, hinfo, .page none⟩] R := by
  obtain ⟨hlay, hcounted, hthread, howner, hdone, -, -, hplace⟩ := h
  rw [List.append_nil] at hlay hcounted hplace
  obtain ⟨hinfo, R, rfl⟩ := hlay.head
  have hlen := layout_length hlay
  rw [List.length_cons] at hlen
  refine ⟨hinfo, R, rfl, ?_, by omega, hlay, hcounted, hthread, howner,
    fun x hx => hdone x ?_, fun x hx => hdone x (List.mem_cons_of_mem _ hx), by simp, hplace⟩
  · have hcount := hlay.spans.1.count
    rw [hcount]
    simp
  · rw [List.mem_singleton.mp hx]
    exact List.mem_cons_self

omit [DecidableEq S] [DecidableEq T] in
theorem pages_headed {hinfo : 0 < info} {R : List (Span T)} :
    pages 0 (⟨info, hinfo, .page none⟩ :: R) =
      ⟨0, info, none⟩ :: pages (total Span.count [(⟨info, hinfo, .page none⟩ : Span T)]) R := by
  simp [pages]

omit [DecidableEq S] [DecidableEq T] in
theorem pages_tail {hinfo : 0 < info} {R : List (Span T)} :
    (pages 0 (⟨info, hinfo, .page none⟩ :: R)).tail =
      pages (total Span.count [(⟨info, hinfo, .page none⟩ : Span T)]) R := by
  rw [pages_headed, List.tail_cons]

theorem segmentCheckFree_spec (env : Env) (v : Visit) (needed blockSize : Nat) {L : List (Span T)}
    (h : Visiting info t s rest none w L []) :
    ∃ w' has L', miSegmentCheckFree env v t s needed blockSize w = some (w', has) ∧
      Visiting info t s rest none w' L' [] ∧
      pages 0 L' = ⟨0, info, none⟩ :: withoutFree v.checkAllFree (pages 0 L).tail ∧
      Untouched (UsedIn 0 L') w.segment w'.segment := by
  obtain ⟨hinfo, R, rfl, hfirst, hlen, hvisit⟩ := h.restart
  unfold miSegmentCheckFree
  rw [hfirst]
  obtain ⟨w', has, L', hr, hvisit', hpages, huntouched⟩ :=
    checkFreeLoop_spec env v needed blockSize _ false hlen hvisit
  refine ⟨w', has, L', hr, hvisit', ?_, huntouched⟩
  rw [hpages, pages_tail]
  rfl

/-- What `mi_segment_reclaim` leaves of the pages of a segment, which are `P`. -/
structure Reclaimed (t : T) (info : Nat) (v : Visit) (P : List (Page T)) (seg : MiSegment T)
    (w' : Work S T) (mapped : Bool) (L' : List (Span T)) : Prop where
  thread : mapped = true → w'.segment.threadId = some t
  abandoned : mapped = true → w'.segment.abandoned = 0
  used : mapped = true → 0 < w'.segment.used
  left : mapped = true →
    pages 0 L' = ⟨0, info, none⟩ :: (withoutFree v.reclaimAllFree P.tail).map (Page.give t)
  nothing : mapped = false → withoutFree v.reclaimAllFree P.tail = []
  untouched : mapped = true → Untouched (UsedIn 0 L') seg w'.segment

theorem segmentReclaim_spec (env : Env) (v : Visit) (requested : Nat) {L : List (Span T)}
    (h : Visiting info t s rest none w L []) :
    ∃ w' m right L', miSegmentReclaim env v t s requested w = some (w', m, right) ∧
      Outcome info t s rest w' m L' ∧ Reclaimed t info v (pages 0 L) w.segment w' m L' := by
  obtain ⟨hinfo, R, rfl, hfirst, hlen, hvisit⟩ := h.restart
  unfold miSegmentReclaim
  simp only
  generalize hw₁ : ({ w with
    segment := { w.segment with threadId := some t, abandonedVisits := 0 } } : Work S T) = w₁
  have hvisit₁ : Visiting info t s rest (some t) w₁ [⟨info, hinfo, .page none⟩] R := by
    obtain ⟨hlay, hcounted, -, -, -, hahead, hne, hplace⟩ := hvisit
    refine ⟨?_, ?_, ?_, .inr rfl, fun x hx => ?_, hahead, hne, ?_⟩
    · rw [← hw₁]
      exact hlay.fields rfl rfl rfl rfl rfl rfl
    · rw [← hw₁]
      exact hcounted.congr rfl rfl rfl
    · rw [← hw₁]
    · rw [List.mem_singleton.mp hx]
      exact .inl rfl
    · rw [← hw₁]
      exact hplace
  have huntouched₁ : ∀ U, Untouched U w.segment w₁.segment := by
    intro U
    rw [← hw₁]
    exact ⟨(Untouched.refl U _).1, (Untouched.refl U _).2⟩
  have hslices₁ : w₁.segment.slices = w.segment.slices := by rw [← hw₁]
  have hentries₁ : w₁.segment.sliceEntries = w.segment.sliceEntries := by rw [← hw₁]
  rw [hfirst]
  obtain ⟨w₂, right, L', hr, hvisit₂, hpages, huntouched⟩ :=
    reclaimLoop_spec env v requested w.segment.sliceEntries false hlen hvisit₁
  rw [hr]
  have hpages' : pages 0 L' = ⟨0, info, none⟩ :: (withoutFree v.reclaimAllFree
      (pages 0 (⟨info, hinfo, .page none⟩ :: R)).tail).map (Page.give t) := by
    rw [hpages, pages_tail]
    rfl
  obtain ⟨hlay, hcounted, hthread, -, howned, -, -, hplace⟩ := hvisit₂
  rw [List.append_nil] at hlay hcounted hplace
  have habandoned : w₂.segment.abandoned = 0 := by
    have hloose : ∀ P : List (Page T), (P.map (Page.give t)).countP (fun p => p.heap.isNone) = 0 := by
      intro P
      rw [List.countP_eq_zero]
      intro p hp
      obtain ⟨q, -, rfl⟩ := List.mem_map.mp hp
      simp [Page.give]
    have hcount := hcounted.abandoned
    rw [hpages', List.countP_cons, hloose] at hcount
    simpa using hcount
  simp only
  split
  · rename_i hzero
    obtain ⟨w₃, hw₃, hplace₃⟩ := segmentFree_spec t s hlay hplace
    rw [hw₃]
    refine ⟨w₃, false, right, [], rfl,
      ⟨hplace₃, fun _ => rfl, (fun h => by cases h), fun h => by cases h⟩,
      ⟨(fun h => by cases h), (fun h => by cases h), (fun h => by cases h), (fun h => by cases h),
        fun _ => ?_, fun h => by cases h⟩⟩
    have hcount := hcounted.used
    rw [hpages', hzero, List.length_cons, List.length_map] at hcount
    exact List.eq_nil_of_length_eq_zero (by omega)
  · rename_i hused
    refine ⟨w₂, true, right, L', rfl, ⟨hplace, (fun h => by cases h), fun _ => ?_, fun _ => .inr hthread⟩,
      ⟨fun _ => hthread, fun _ => habandoned, fun _ => Nat.pos_of_ne_zero hused, fun _ => hpages',
        (fun h => by cases h), fun _ => (huntouched₁ _).trans huntouched⟩⟩
    refine ⟨hlay, hcounted, ?_, fun hnone => ?_, fun _ => .inr ?_⟩
    · rw [hthread]
      exact howned
    · rw [hthread] at hnone
      cases hnone
    · rw [habandoned]
      exact Nat.pos_of_ne_zero hused

/-! ## Rounds -/

/-- What a round leaves of the spans `L`.  A page stays unless one of the visits finds it free. -/
structure Visited (t : T) (v : Visit) (L : List (Span T)) (seg : MiSegment T) (w' : Work S T)
    (mapped : Bool) (L' : List (Span T)) : Prop where
  kept : ∀ p ∈ (pages 0 L).tail, v.checkAllFree p.start = false →
    v.reclaimAllFree p.start = false → ∃ heap, (⟨p.start, p.count, heap⟩ : Page T) ∈ pages 0 L'
  within : Within L' L
  owned : mapped = true → w'.segment.threadId = some t →
    w'.segment.abandoned = 0 ∧ ∀ p ∈ (pages 0 L').tail, p.heap = some t
  untouched : mapped = true → Untouched (UsedIn 0 L') seg w'.segment

omit [DecidableEq S] [DecidableEq T] in
theorem mem_withoutFree {free : Nat → Bool} {P : List (Page T)} {p : Page T} (hp : p ∈ P)
    (h : free p.start = false) : p ∈ withoutFree free P :=
  List.mem_filter.mpr ⟨hp, by rw [h]; rfl⟩

omit [DecidableEq T] in
theorem Reclaimed.visited {v : Visit} {L : List (Span T)} {seg : MiSegment T} {w' : Work S T}
    {m : Bool} {L' : List (Span T)} (h : Reclaimed t info v (pages 0 L) seg w' m L')
    (hout : Outcome info t s rest w' m L') (hL : Headed info L) : Visited t v L seg w' m L' := by
  obtain ⟨hinfo, R, rfl⟩ := hL
  refine ⟨fun p hp _ hlive => ?_, fun p hp => ?_, fun hm _ => ⟨h.abandoned hm, fun p hp => ?_⟩,
    h.untouched⟩
  · have hmem := mem_withoutFree hp hlive
    cases m with
    | false =>
        rw [h.nothing rfl] at hmem
        cases hmem
    | true =>
        rw [h.left rfl]
        exact ⟨some t, List.mem_cons_of_mem _ (List.mem_map.mpr ⟨p, hmem, rfl⟩)⟩
  · cases m with
    | false =>
        rw [hout.gone rfl] at hp
        cases hp
    | true =>
        rw [h.left rfl] at hp
        rcases List.mem_cons.mp hp with rfl | hp
        · exact ⟨none, by rw [pages_headed]; exact List.mem_cons_self⟩
        · obtain ⟨q, hq, rfl⟩ := List.mem_map.mp hp
          exact ⟨q.heap, List.mem_of_mem_tail (List.mem_of_mem_filter hq)⟩
  · rw [h.left hm, List.tail_cons] at hp
    obtain ⟨q, -, rfl⟩ := List.mem_map.mp hp
    rfl

omit [DecidableEq S] [DecidableEq T] in
/-- A visit before the other. -/
theorem Visited.after {v : Visit} {L L₁ L' : List (Span T)} {seg seg₁ : MiSegment T}
    {w' : Work S T} {m : Bool} (h : Visited t v L₁ seg₁ w' m L')
    (hpages : pages 0 L₁ = ⟨0, info, none⟩ :: withoutFree v.checkAllFree (pages 0 L).tail)
    (hwithin : Within L₁ L) (huntouched : Untouched (UsedIn 0 L₁) seg seg₁) :
    Visited t v L seg w' m L' := by
  refine ⟨fun p hp hcheck hlive => h.kept p ?_ hcheck hlive, hwithin.trans h.within, h.owned,
    fun hm => (huntouched.mono fun j => h.within.usedIn).trans (h.untouched hm)⟩
  rw [hpages]
  exact mem_withoutFree hp hcheck

omit [DecidableEq S] [DecidableEq T] in
theorem within_checked {L L₁ : List (Span T)} {free : Nat → Bool} (hL : Headed info L)
    (hpages : pages 0 L₁ = ⟨0, info, none⟩ :: withoutFree free (pages 0 L).tail) : Within L₁ L := by
  obtain ⟨hinfo, R, rfl⟩ := hL
  intro p hp
  rw [hpages] at hp
  rcases List.mem_cons.mp hp with rfl | hp
  · exact ⟨none, by rw [pages_headed]; exact List.mem_cons_self⟩
  · exact ⟨p.heap, List.mem_of_mem_tail (List.mem_of_mem_filter hp)⟩

omit [DecidableEq T] in
/-- The segment stays abandoned. -/
theorem Visiting.stays (env : Env) (v : Visit) (force : Bool) {L : List (Span T)}
    (h : Visiting info t s rest none w L []) (hused : w.segment.used ≠ 0) :
    Outcome info t s rest { w with segment := miSegmentTryPurge env w.segment force } true L ∧
      Visited t v L w.segment { w with segment := miSegmentTryPurge env w.segment force } true L := by
  obtain ⟨hlay, hcounted, hthread, -, howned, -, -, hplace⟩ := h
  rw [List.append_nil] at hlay hcounted hplace
  have hpurged := miSegmentTryPurge_spec hlay.size env force hlay.safe
  generalize miSegmentTryPurge env w.segment force = seg at *
  have hthread' : seg.threadId = none := hpurged.same.threadId.trans hthread
  refine ⟨⟨hplace, (fun h => by cases h), fun _ => ?_, fun _ => .inl hthread'⟩,
    fun p hp _ _ => ⟨p.heap, List.mem_of_mem_tail hp⟩, fun p hp => ⟨p.heap, hp⟩, fun _ ht => ?_,
    fun _ => ⟨fun j _ => ⟨(w.segment.slices j).xheap, ?_⟩, hpurged.kept⟩⟩
  · refine ⟨hlay.purged hpurged, hcounted.congr rfl hpurged.same.used hpurged.same.abandoned, ?_,
      fun _ => ?_, fun h => absurd hthread' h⟩
    · rw [hthread']
      exact howned
    · rw [hpurged.same.used]
      exact Nat.pos_of_ne_zero hused
  · exact absurd (hthread'.symm.trans ht) (fun h => by cases h)
  · show seg.slices j = _
    rw [hpurged.same.slices]

/-- The segment is reclaimed. -/
theorem Visiting.reclaimed (env : Env) (v : Visit) (requested : Nat) {L : List (Span T)}
    (h : Visiting info t s rest none w L []) :
    ∃ w' m L', (miSegmentReclaim env v t s requested w).map (fun r => (r.1, r.2.1)) = some (w', m) ∧
      Outcome info t s rest w' m L' ∧ Visited t v L w.segment w' m L' := by
  obtain ⟨w', m, right, L', hr, hout, hreclaimed⟩ := segmentReclaim_spec env v requested h
  rw [hr]
  exact ⟨w', m, L', rfl, hout, hreclaimed.visited hout h.headed⟩

/-- `mi_segment_try_reclaim` -/
theorem tryReclaimRound_spec (env : Env) (v : Visit) (needed blockSize : Nat) {L : List (Span T)}
    (h : Visiting info t s rest none w L []) :
    ∃ w' m L', tryReclaimRound env v t s needed blockSize w = some (w', m) ∧
      Outcome info t s rest w' m L' ∧ Visited t v L w.segment w' m L' := by
  unfold tryReclaimRound
  simp only
  generalize hw₁ : ({ w with
    segment := { w.segment with abandonedVisits := w.segment.abandonedVisits + 1 } } : Work S T) = w₁
  have hvisit₁ : Visiting info t s rest none w₁ L [] := by
    obtain ⟨hlay, hcounted, hthread, howner, howned, hahead, hne, hplace⟩ := h
    refine ⟨?_, ?_, ?_, howner, howned, hahead, hne, ?_⟩
    · rw [← hw₁]
      exact hlay.fields rfl rfl rfl rfl rfl rfl
    · rw [← hw₁]
      exact hcounted.congr rfl rfl rfl
    · rw [← hw₁]
      exact hthread
    · rw [← hw₁]
      exact hplace
  have huntouched₁ : ∀ U, Untouched U w.segment w₁.segment := by
    intro U
    rw [← hw₁]
    exact ⟨(Untouched.refl U _).1, (Untouched.refl U _).2⟩
  obtain ⟨w₂, has, L₁, hr, hvisit₂, hpages, huntouched⟩ :=
    segmentCheckFree_spec env v needed blockSize hvisit₁
  have hwithin := within_checked h.headed hpages
  rw [hr]
  simp only
  split
  · obtain ⟨w', m, L', hr', hout, hvisited⟩ := hvisit₂.reclaimed env v 0
    exact ⟨w', m, L', hr', hout,
      hvisited.after hpages hwithin ((huntouched₁ _).trans huntouched)⟩
  · rename_i hused
    split
    · obtain ⟨w', m, L', hr', hout, hvisited⟩ := hvisit₂.reclaimed env v blockSize
      exact ⟨w', m, L', hr', hout,
        hvisited.after hpages hwithin ((huntouched₁ _).trans huntouched)⟩
    · split
      · obtain ⟨w', m, L', hr', hout, hvisited⟩ := hvisit₂.reclaimed env v 0
        exact ⟨w', m, L', hr', hout,
          hvisited.after hpages hwithin ((huntouched₁ _).trans huntouched)⟩
      · obtain ⟨hout, hvisited⟩ := hvisit₂.stays env v true hused
        exact ⟨_, true, L₁, rfl, hout,
          hvisited.after hpages hwithin ((huntouched₁ _).trans huntouched)⟩

/-- `_mi_abandoned_collect` -/
theorem abandonedCollectRound_spec (env : Env) (v : Visit) (force : Bool) {L : List (Span T)}
    (h : Visiting info t s rest none w L []) :
    ∃ w' m L', abandonedCollectRound env v t s force w = some (w', m) ∧
      Outcome info t s rest w' m L' ∧ Visited t v L w.segment w' m L' := by
  unfold abandonedCollectRound
  obtain ⟨w₁, has, L₁, hr, hvisit₁, hpages, huntouched⟩ := segmentCheckFree_spec env v 0 0 h
  have hwithin := within_checked h.headed hpages
  rw [hr]
  simp only
  split
  · obtain ⟨w', m, L', hr', hout, hvisited⟩ := hvisit₁.reclaimed env v 0
    exact ⟨w', m, L', hr', hout, hvisited.after hpages hwithin huntouched⟩
  · rename_i hused
    obtain ⟨hout, hvisited⟩ := hvisit₁.stays env v force hused
    exact ⟨_, true, L₁, rfl, hout, hvisited.after hpages hwithin huntouched⟩

end

end EflCore.Mimalloc
