/-
# `EflCore.Mimalloc.SpanSearch` — all segments, and the search for a free span

The spans of all segments share the span queues.  `Sound info h L` says that `L s` are the spans of
each segment `s` there is, and that the queues hold what they have to: the free spans of a thread,
each in the queue for its size.

**Proved here.**  The search ends, if it may go on for as long as the queues are.  What it finds is a
free span of the thread that is large enough, in the first queue that has one; when it finds nothing,
there is none (`pageFind_spec`).
-/
import EflCore.Mimalloc.Reclaim
import Mathlib.Data.Finset.Lattice.Fold

namespace EflCore.Mimalloc

open Spans DoublyLinked

variable {T S : Type}

/-! ## Headers -/

/-- The slices that a loop over the spans of a segment comes to. -/
inductive Header (seg : MiSegment T) : Nat → Prop
  | first : 0 < seg.sliceEntries → Header seg 0
  | next {i : Nat} : Header seg i → i + (seg.slices i).sliceCount < seg.sliceEntries →
      Header seg (i + (seg.slices i).sliceCount)

section

variable {info : Nat} {seg : MiSegment T} {L : List (Span T)}

theorem Layout.spanOk (h : Layout info seg L) {i : Nat} {x : Span T}
    (hx : at? Span.count 0 L i = some x) : SpanOk seg.slices i x :=
  (all_iff Span.pos).mp h.spans i x hx

theorem Layout.at_next (h : Layout info seg L) {i : Nat} {x : Span T}
    (hx : at? Span.count 0 L i = some x) (hlt : i + x.count < seg.sliceEntries) :
    ∃ y, at? Span.count 0 L (i + x.count) = some y := by
  obtain ⟨A, B, rfl, hi⟩ := (at?_eq_some_iff Span.pos).mp hx
  have htotal := h.total
  rw [h.entries] at hlt
  cases B with
  | nil =>
      simp only [total_append, total_cons, total_nil] at htotal
      omega
  | cons y B =>
      refine ⟨y, (at?_eq_some_iff Span.pos).mpr ⟨A ++ [x], B, by simp, ?_⟩⟩
      rw [hi]
      simp

/-- The loops come to the spans, and to nothing else. -/
theorem Layout.header_iff (h : Layout info seg L) {i : Nat} :
    Header seg i ↔ ∃ x, at? Span.count 0 L i = some x := by
  constructor
  · intro hi
    induction hi with
    | first =>
        obtain ⟨hinfo, R, rfl⟩ := h.head
        exact ⟨_, if_pos rfl⟩
    | next hi hlt ih =>
        obtain ⟨x, hx⟩ := ih
        rw [spanOk_count (h.spanOk hx)] at hlt ⊢
        exact h.at_next hx hlt
  · rintro ⟨x, hx⟩
    obtain ⟨A, B, hL, hi⟩ := (at?_eq_some_iff Span.pos).mp hx
    rw [Nat.zero_add] at hi
    subst hi
    have hpos := x.pos
    clear hx
    induction A using List.reverseRecOn generalizing x B with
    | nil =>
        have htotal := h.total
        rw [hL, List.nil_append, total_cons] at htotal
        refine .first ?_
        rw [h.entries]
        omega
    | append_singleton A y ih =>
        have hy : L = A ++ y :: (x :: B) := by rw [hL]; simp
        have hspan := h.spanOk ((at?_eq_some_iff Span.pos).mpr ⟨A, x :: B, hy, rfl⟩)
        rw [Nat.zero_add] at hspan
        have hcount := spanOk_count hspan
        have hheader := ih y (x :: B) hy y.pos
        have htotal := h.total
        rw [hL] at htotal
        simp only [total_append, total_cons, total_nil, Nat.add_zero] at htotal ⊢
        rw [← hcount]
        refine .next hheader ?_
        rw [hcount, h.entries]
        omega

end

/-! ## All segments -/

/-- Which queue a slice has to be in. -/
def whichQueue (h : Segments S T) (L : S → List (Span T)) (c : S × Nat) : Option (T × Nat) :=
  if h.mapped c.1 then
    match (h.segment c.1).threadId with
    | some t => queueAt t (L c.1) c.2
    | none => none
  else none

structure Sound (info : Nat) (h : Segments S T) (L : S → List (Span T)) : Prop where
  placed : Placed h.spans (whichQueue h L)
  good : ∀ s, h.mapped s = true → Good info (h.segment s) (L s)

section

variable [DecidableEq S] [DecidableEq T] {info : Nat} {h : Segments S T} {L : S → List (Span T)}
  {t : T} {s : S}

omit [DecidableEq S] [DecidableEq T] in
theorem queueAt_loose {L : List (Span T)} (hL : ∀ x ∈ L, x.use ≠ .free true) (t : T) (i : Nat) :
    queueAt t L i = none := by
  refine queueAt_none (fun x hx => ?_) i
  obtain ⟨n, hn, u⟩ := x
  cases u with
  | free q =>
      cases q with
      | false => rfl
      | true => exact absurd rfl (hL _ hx)
  | page heap => rfl

omit [DecidableEq T] in
/-- The queues, as a function on the segment `s` sees them. -/
theorem Sound.place (hL : Sound info h L) (hs : h.mapped s = true)
    (howner : (h.segment s).threadId = none ∨ (h.segment s).threadId = some t) :
    Placed h.spans (place t s (L s) (whichQueue h L)) := by
  refine cast (congrArg (Placed h.spans) (funext fun c => ?_)) hL.placed
  unfold Mimalloc.place
  split
  · rename_i hc
    unfold whichQueue
    rw [hc, if_pos hs]
    rcases howner with hnone | hsome
    · rw [hnone]
      have howned := (hL.good s hs).owned
      rw [hnone] at howned
      exact (queueAt_loose (not_queued rfl howned) t c.2).symm
    · rw [hsome]
  · rfl

omit [DecidableEq T] in
theorem Sound.put (hL : Sound info h L) {w' : Work S T} {m : Bool} {L' : List (Span T)}
    (hout : Outcome info t s (whichQueue h L) w' m L') :
    Sound info (h.put s w' m) (Function.update L s L') := by
  refine ⟨?_, fun s' hs' => ?_⟩
  · refine cast (congrArg (Placed w'.spans) (funext fun c => ?_)) hout.placed
    unfold Mimalloc.place whichQueue Segments.put
    by_cases hc : c.1 = s
    · rw [if_pos hc, hc]
      simp only [Function.update_self]
      cases m with
      | false =>
          rw [hout.gone rfl]
          rfl
      | true =>
          rcases hout.owner rfl with hnone | hsome
          · have howned := (hout.good rfl).owned
            rw [hnone] at howned ⊢
            exact queueAt_loose (not_queued rfl howned) t c.2
          · rw [hsome]
            rfl
    · rw [if_neg hc]
      simp only [Function.update_of_ne hc]
  · unfold Segments.put at hs' ⊢
    simp only at hs' ⊢
    by_cases hs : s' = s
    · subst hs
      rw [Function.update_self] at hs'
      rw [Function.update_self, Function.update_self]
      exact hout.good hs'
    · rw [Function.update_of_ne hs] at hs'
      rw [Function.update_of_ne hs, Function.update_of_ne hs]
      exact hL.good s' hs'

omit [DecidableEq S] [DecidableEq T] in
/-- What is in a queue of a thread is a free span that it owns, of the size for the queue. -/
theorem whichQueue_some {bin i : Nat} (hq : whichQueue h L (s, i) = some (t, bin)) :
    h.mapped s = true ∧ (h.segment s).threadId = some t ∧ ∃ n hn,
      at? Span.count 0 (L s) i = some ⟨n, hn, .free true⟩ ∧ (t, bin) = miSpanQueueFor t n := by
  unfold whichQueue at hq
  split at hq
  · rename_i hs
    cases howner : (h.segment s).threadId with
    | none =>
        rw [howner] at hq
        cases hq
    | some t' =>
        rw [howner] at hq
        unfold queueAt at hq
        simp only at hq
        cases hx : at? Span.count 0 (L s) i with
        | none =>
            rw [hx] at hq
            cases hq
        | some x =>
            rw [hx] at hq
            obtain ⟨n, hn, u⟩ := x
            cases u with
            | page heap => cases hq
            | free q =>
                cases q with
                | false => cases hq
                | true =>
                    have he : (t', miSliceBin n) = (t, bin) := Option.some.inj hq
                    obtain ⟨rfl, rfl⟩ := Prod.mk.inj he
                    exact ⟨hs, rfl, n, hn, rfl, rfl⟩
  · cases hq

/-! ## The search -/

/-- A span the search may take. -/
def Suitable (h : Segments S T) (suitable : S → Bool) (sliceCount : Nat) (c : S × Nat) : Prop :=
  ((h.segment c.1).slices c.2).sliceCount ≥ sliceCount ∧ suitable c.1 = true

omit [DecidableEq S] [DecidableEq T] in
theorem findInQueue_spec (suitable : S → Bool) (n : Nat) :
    ∀ (fuel : Nat) {o : Option (S × Nat)} {M : List (S × Nat)},
    LinkedCells.Chain h.spans.next o M →
    (M.length ≤ fuel → ∃ r, findInQueue h suitable n fuel o = some r) ∧
      (∀ c, findInQueue h suitable n fuel o = some (some c) → c ∈ M ∧ Suitable h suitable n c) ∧
      (findInQueue h suitable n fuel o = some none → ∀ c ∈ M, ¬ Suitable h suitable n c) := by
  intro fuel
  induction fuel with
  | zero =>
      intro o M hM
      cases M with
      | nil =>
          obtain rfl : o = none := hM
          exact ⟨fun _ => ⟨none, rfl⟩, fun c hc => (by cases hc), fun _ c hc => by cases hc⟩
      | cons c M =>
          obtain ⟨rfl, -⟩ := hM
          exact ⟨fun hlen => absurd hlen (by simp), fun c hc => (by cases hc), fun hc => by cases hc⟩
  | succ fuel ih =>
      intro o M hM
      cases M with
      | nil =>
          obtain rfl : o = none := hM
          exact ⟨fun _ => ⟨none, rfl⟩, fun c hc => (by cases hc), fun _ c hc => by cases hc⟩
      | cons c M =>
          obtain ⟨rfl, hM⟩ := hM
          obtain ⟨hends, hfound, hnone⟩ := ih hM
          unfold findInQueue
          by_cases hc : Suitable h suitable n c
          · have hc' := hc
            unfold Suitable at hc'
            rw [if_pos hc']
            refine ⟨fun _ => ⟨_, rfl⟩, fun d hd => ?_, fun hd => by cases hd⟩
            obtain rfl := Option.some.inj (Option.some.inj hd)
            exact ⟨List.mem_cons_self, hc⟩
          · have hc' := hc
            unfold Suitable at hc'
            rw [if_neg hc']
            refine ⟨fun hlen => hends (by simpa using hlen), fun d hd => ?_, fun hd d hdM => ?_⟩
            · obtain ⟨hmem, hok⟩ := hfound d hd
              exact ⟨List.mem_cons_of_mem c hmem, hok⟩
            · rcases List.mem_cons.mp hdM with rfl | hdM
              · exact hc
              · exact hnone hd d hdM

omit [DecidableEq S] [DecidableEq T] in
theorem findInQueues_spec {q : T × Nat → List (S × Nat)} (hq : Rep h.spans q) (suitable : S → Bool)
    (t : T) (n fuel : Nat) : ∀ k bin,
    ((∀ b < bin + k, (q (t, b)).length ≤ fuel) → ∃ r, findInQueues h suitable t n fuel k bin = some r) ∧
      (∀ sq c, findInQueues h suitable t n fuel k bin = some (some (sq, c)) →
        ∃ b, sq = (t, b) ∧ bin ≤ b ∧ c ∈ q (t, b) ∧ Suitable h suitable n c ∧
          ∀ b', bin ≤ b' → b' < b → ∀ d ∈ q (t, b'), ¬ Suitable h suitable n d) ∧
      (findInQueues h suitable t n fuel k bin = some none →
        ∀ b, bin ≤ b → b < bin + k → ∀ d ∈ q (t, b), ¬ Suitable h suitable n d) := by
  intro k
  induction k with
  | zero =>
      intro bin
      exact ⟨fun _ => ⟨none, rfl⟩, fun sq c hc => (by cases hc), fun _ b hlo hhi => by omega⟩
  | succ k ih =>
      intro bin
      obtain ⟨hends, hfound, hnone⟩ := ih (bin + 1)
      obtain ⟨hends₁, hfound₁, hnone₁⟩ := findInQueue_spec suitable n fuel (hq.chain (t, bin))
      unfold findInQueues
      cases hr : findInQueue h suitable n fuel (h.spans.first (t, bin)) with
      | none =>
          refine ⟨fun hlen => ?_, fun sq c hc => (by cases hc), fun hc => by cases hc⟩
          obtain ⟨r, hr'⟩ := hends₁ (hlen bin (by omega))
          rw [hr] at hr'
          cases hr'
      | some r =>
          cases r with
          | some c =>
              refine ⟨fun _ => ⟨_, rfl⟩, fun sq d hd => ?_, fun hd => by cases hd⟩
              obtain ⟨rfl, rfl⟩ := Prod.mk.inj (Option.some.inj (Option.some.inj hd))
              obtain ⟨hmem, hok⟩ := hfound₁ c hr
              exact ⟨bin, rfl, Nat.le_refl _, hmem, hok, fun b' hlo hhi => by omega⟩
          | none =>
              have hthis := hnone₁ hr
              refine ⟨fun hlen => hends fun b hb => hlen b (by omega), fun sq d hd => ?_,
                fun hd b hlo hhi => ?_⟩
              · obtain ⟨b, hsq, hlo, hmem, hok, hbefore⟩ := hfound sq d hd
                refine ⟨b, hsq, by omega, hmem, hok, fun b' hlo' hhi' => ?_⟩
                by_cases hb : b' = bin
                · rw [hb]
                  exact hthis
                · exact hbefore b' (by omega) hhi'
              · by_cases hb : b = bin
                · rw [hb]
                  exact hthis
                · exact hnone hd b (by omega) (by omega)

omit [DecidableEq S] [DecidableEq T] in
theorem Sound.mem_queue (hL : Sound info h L) {q : T × Nat → List (S × Nat)}
    (hq : ∀ x c, c ∈ q x ↔ whichQueue h L c = some x) (hs : h.mapped s = true)
    (howner : (h.segment s).threadId = some t) {n i : Nat} {hn : 0 < n}
    (hx : at? Span.count 0 (L s) i = some ⟨n, hn, .free true⟩) :
    (s, i) ∈ q (t, miSliceBin n) ∧ miSliceBin n ≤ miSegmentBinMax := by
  refine ⟨(hq _ _).mpr ?_, ?_⟩
  · unfold whichQueue queueAt
    rw [if_pos hs, howner]
    simp only
    rw [hx]
    rfl
  · have hrange := (at?_range Span.pos hx).2
    simp only at hrange
    rw [(hL.good s hs).layout.total] at hrange
    exact Nat.le_trans (miSliceBin_mono (n := 1024) (by unfold miSlicesPerSegment at hrange; omega))
      (by decide)

omit [DecidableEq S] [DecidableEq T] in
/-- `mi_segments_page_find_and_allocate`, up to the span that it finds. -/
theorem Sound.pageFind_spec (hL : Sound info h L) (suitable : S → Bool) (t : T) {n : Nat}
    (hn : 0 < n) :
    (∃ enough, ∀ fuel, enough ≤ fuel → ∃ r, miSegmentsPageFind h suitable t n fuel = some r) ∧
      (∀ fuel sq s i, miSegmentsPageFind h suitable t n fuel = some (some (sq, s, i)) →
        h.mapped s = true ∧ (h.segment s).threadId = some t ∧ suitable s = true ∧ ∃ N hN,
          at? Span.count 0 (L s) i = some ⟨N, hN, .free true⟩ ∧ n ≤ N ∧ sq = miSpanQueueFor t N ∧
          ∀ s' j M hM, h.mapped s' = true → (h.segment s').threadId = some t → suitable s' = true →
            at? Span.count 0 (L s') j = some ⟨M, hM, .free true⟩ → n ≤ M →
            miSliceBin N ≤ miSliceBin M) ∧
      (∀ fuel, miSegmentsPageFind h suitable t n fuel = some none →
        ∀ s' j M hM, h.mapped s' = true → (h.segment s').threadId = some t → suitable s' = true →
          at? Span.count 0 (L s') j = some ⟨M, hM, .free true⟩ → M < n) := by
  obtain ⟨q, hrep, hq⟩ := hL.placed
  have hspec := fun fuel => findInQueues_spec hrep suitable t n fuel
    (miSegmentBinMax + 1 - miSliceBin n) (miSliceBin n)
  -- a span that is large enough is suitable, and not in a queue before
  have hlarge : ∀ {s' j M hM}, h.mapped s' = true → (h.segment s').threadId = some t →
      suitable s' = true → at? Span.count 0 (L s') j = some ⟨M, hM, .free true⟩ → n ≤ M →
      Suitable h suitable n (s', j) ∧ miSliceBin n ≤ miSliceBin M ∧
        (s', j) ∈ q (t, miSliceBin M) ∧ miSliceBin M ≤ miSegmentBinMax := by
    intro s' j M hM hs' howner hsuit hx hle
    obtain ⟨hmem, hbin⟩ := hL.mem_queue hq hs' howner hx
    refine ⟨⟨?_, hsuit⟩, miSliceBin_mono hle, hmem, hbin⟩
    rw [spanOk_count ((hL.good s' hs').layout.spanOk hx)]
    exact hle
  unfold miSegmentsPageFind
  simp only
  rw [if_neg (Nat.pos_iff_ne_zero.mp hn)]
  refine ⟨⟨(Finset.range (miSegmentBinMax + 1 + miSliceBin n)).sup fun b => (q (t, b)).length,
    fun fuel hfuel => ?_⟩, fun fuel sq s i hr => ?_, fun fuel hr => ?_⟩
  · refine (hspec fuel).1 fun b hb => Nat.le_trans ?_ hfuel
    exact Finset.le_sup (f := fun b => (q (t, b)).length) (Finset.mem_range.mpr (by omega))
  · obtain ⟨b, rfl, hlo, hmem, hok, hbefore⟩ := (hspec fuel).2.1 sq (s, i) hr
    obtain ⟨hs, howner, N, hN, hx, he⟩ := whichQueue_some ((hq _ _).mp hmem)
    have hcount := spanOk_count ((hL.good s hs).layout.spanOk hx)
    obtain rfl : b = miSliceBin N := (Prod.mk.inj he).2
    refine ⟨hs, howner, hok.2, N, hN, hx, ?_, rfl, fun s' j M hM hs' howner' hsuit hx' hle => ?_⟩
    · rw [← show _ = N from hcount]
      exact hok.1
    · obtain ⟨hok', hbin, hmem', -⟩ := hlarge hs' howner' hsuit hx' hle
      by_contra hlt
      exact hbefore _ hbin (by omega) _ hmem' hok'
  · intro s' j M hM hs' howner' hsuit hx'
    by_contra hlt
    obtain ⟨hok', hbin, hmem', hmax⟩ := hlarge hs' howner' hsuit hx' (by omega)
    exact (hspec fuel).2.2 hr _ hbin (by omega) _ hmem' hok'

end

end EflCore.Mimalloc
