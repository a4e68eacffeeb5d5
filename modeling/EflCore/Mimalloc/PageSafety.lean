/-
# `EflCore.Mimalloc.PageSafety` — what holds of the free lists in every run

From the ownership state that belongs to a reachable state (`Reachable.sim`).  The statements are
about the state of the machine alone.

**Proved here.**  In every reachable state, whatever the threads did and in whatever order,

* every page passes `mi_page_is_valid_init`, and is in the queues of its heap (`page_is_valid`);
* every block is with the program, in one list, or with one thread: none is lost, none is there
  twice (`block_once`);
* `used` counts what the owner has yet to see freed, and just the live blocks once nothing is on
  its way (`used_eq_live`);
* the flag means what its comment says (`delayed_flag`);
* a page is given back only when nobody has, or is at, any block of it (`freed_page_unused`);
* `heap != NULL` in `_mi_free_block_mt`, and a heap that is gone is in nobody's hands
  (`mt_heap`, `abandoned_heap`);
* no thread loops for ever over a list (`advance_total`, `thread_free_count`), and whoever waits for
  `MI_DELAYED_FREEING` waits for at most three steps of one thread (`delayed_freeing_ends`).
-/
import EflCore.Mimalloc.Refinement

namespace EflCore.Mimalloc

open LinkedCells Relation

variable {T P : Type}

/-! ## In terms of the machine -/

/-- Where each list starts, those in local variables of threads among them. -/
def State.head (s : State T P) : Place T P → Option (MiBlock P) :=
  Mimalloc.head s.page s.delayed (hands s) (takens s)

def State.InList (s : State T P) (x : Place T P) (b : MiBlock P) : Prop :=
  ∃ L, Chain s.next (s.head x) L ∧ b ∈ L

/-- The block is in a local variable of a thread that is about to put it somewhere. -/
def Pc.Has (pc : Pc T P) (b : MiBlock P) : Prop :=
  pc.mt.block = some b ∨ pc.held = some b ∨ pc.back = some b

namespace Sim

variable {s : State T P} {a : Own T P}

theorem inList_iff (h : Sim s a) {x : Place T P} {b : MiBlock P} :
    s.InList x b ↔ a.loc b = .list x := by
  obtain ⟨L, hc, -, hm⟩ := h.mem.list x
  constructor
  · rintro ⟨L', hc', hb⟩
    cases hc.unique hc'
    exact (hm b).mp hb
  · exact fun hb => ⟨L, hc, (hm b).mpr hb⟩

theorem has_iff (h : Sim s a) {t : T} {b : MiBlock P} :
    (s.pc t).Has b ↔ a.loc b = .freeing t ∨ a.loc b = .held t ∨ a.loc b = .back t := by
  unfold Pc.Has
  rw [h.inv.freeing t b, (h.thr t).mt, (h.thr t).held b, (h.thr t).back b]

theorem born_iff (h : Sim s a) {b : MiBlock P} :
    b.idx < (s.page b.page).capacity ↔ a.loc b ≠ .unborn := by
  rw [ne_eq, h.mem.born b, not_le]

end Sim

/-! ## What an event does to a page -/

/-- Without a block size it has no blocks, and no heap. -/
def MiPage.Sized (pg : MiPage T P) : Prop :=
  pg.xblockSize = 0 → pg.capacity = 0 ∧ pg.reserved = 0 ∧ pg.xheap = none

/-- A page that is not zeroed grows, and keeps the block size that `mi_page_init` set. -/
structure MiPage.Grows (pg pg' : MiPage T P) : Prop where
  capacity : pg.capacity ≤ pg'.capacity
  sized : pg.Sized → pg'.Sized

theorem MiPage.Grows.refl (pg : MiPage T P) : pg.Grows pg := ⟨le_refl _, id⟩

theorem MiPage.Grows.trans {pg pg' pg'' : MiPage T P} (h : pg.Grows pg') (h' : pg'.Grows pg'') :
    pg.Grows pg'' :=
  ⟨h.capacity.trans h'.capacity, fun hs => h'.sized (h.sized hs)⟩

/-- What is written has to do with the lists. -/
theorem MiPage.Grows.lists {pg pg' : MiPage T P} (hc : pg'.capacity = pg.capacity)
    (hb : pg'.xblockSize = pg.xblockSize) (hr : pg'.reserved = pg.reserved)
    (hh : pg'.xheap = pg.xheap ∨ pg'.xheap = none) : pg.Grows pg' := by
  refine ⟨hc.ge, fun hs h0 => ?_⟩
  obtain ⟨hcap, hres, hheap⟩ := hs (hb ▸ h0)
  refine ⟨hc.trans hcap, hr.trans hres, ?_⟩
  rcases hh with hh | hh
  · exact hh.trans hheap
  · exact hh

variable [DecidableEq T] [DecidableEq P]

section Grows
variable {s s' : State T P}

omit [DecidableEq T] in
theorem setPage_grows {s₁ : State T P} {q : P} {pg : MiPage T P} (hs : s₁.page = s.page)
    (h : (s.page q).Grows pg) (p : P) : (s.page p).Grows ((s₁.setPage q pg).page p) := by
  show (s.page p).Grows (Function.update s₁.page q pg p)
  by_cases hp : p = q
  · subst hp
    rwa [Function.update_self]
  · rw [Function.update_of_ne hp, hs]
    exact .refl _

omit [DecidableEq T] in
theorem miPageLocalCollect_grows {q : P} {force : Bool}
    (h : miPageLocalCollect s q force = some s') (p : P) : (s.page p).Grows (s'.page p) := by
  unfold miPageLocalCollect at h
  simp only at h
  split at h
  · cases h
    exact .refl _
  · split at h
    · cases h
      refine setPage_grows ?_ (.lists ?_ ?_ ?_ (.inl ?_)) p <;> rfl
    · split at h
      · split at h
        · cases h
        · cases h
          refine setPage_grows ?_ (.lists ?_ ?_ ?_ (.inl ?_)) p <;> rfl
      · cases h
        exact .refl _

theorem collectRest_grows {t : T} {q : P} {force : Bool} {k : CollectFor P}
    (h : collectRest s t q force k = some s') (p : P) : (s.page p).Grows (s'.page p) := by
  obtain ⟨s₁, h₁, rfl⟩ := Option.map_eq_some_iff.mp h
  exact miPageLocalCollect_grows h₁ p

omit [DecidableEq T] in
/-- A page that is zeroed was not used. -/
theorem setPage_zero_grows {q : P} (hu : (s.page q).used = 0) (p : P) :
    (s.page p).used = 0 ∧ (s.setPage q .zero).page p = .zero ∨
      (s.page p).Grows ((s.setPage q .zero).page p) := by
  show _ ∧ Function.update s.page q .zero p = _ ∨ (s.page p).Grows (Function.update s.page q .zero p)
  by_cases hp : p = q
  · subst hp
    exact .inl ⟨hu, Function.update_self ..⟩
  · rw [Function.update_of_ne hp]
    exact .inr (.refl _)

/-- Only a page of which no block is used is zeroed. -/
theorem advance_grows {t : T} {weak : Bool} (h : advance s t weak = some s') (p : P) :
    (s.page p).used = 0 ∧ s'.page p = .zero ∨ (s.page p).Grows (s'.page p) := by
  have hset : ∀ (s₁ : State T P) {q : P} {pg : MiPage T P}, s₁.page = s.page →
      (s.page q).Grows pg → (s.page p).Grows ((s₁.setPage q pg).page p) :=
    fun _ _ _ hs hq => setPage_grows hs hq p
  have hlists : ∀ {q : P} {tf : MiThreadFree P},
      (s.page q).Grows { s.page q with xthreadFree := tf } := .lists rfl rfl rfl (.inl rfl)
  unfold advance at h
  cases hpc : s.pc t with
  | idle =>
      rw [hpc] at h
      cases h
  | abandonPage q rest =>
      simp only [hpc] at h
      split at h
      · rename_i hu
        cases h
        exact setPage_zero_grows (s := miPageQueueRemove s t q) hu p
      · cases h
        exact .inr (hset (miPageQueueRemove s t q) rfl (.lists rfl rfl rfl (.inr rfl)))
  | reclaimPage q =>
      simp only [hpc] at h
      split at h
      · rename_i hu
        cases h
        exact setPage_zero_grows hu p
      · cases h
        exact .inr (.refl _)
  | collect q force k =>
      simp only [hpc] at h
      split at h
      · cases h
        exact .inr (.refl _)
      · exact .inr (collectRest_grows h p)
  | collectCas q force tfree k =>
      simp only [hpc] at h
      split at h
      · split at h
        · exact .inr ((hset _ rfl hlists).trans (collectRest_grows h p))
        · cases h
          exact .inr (hset _ rfl hlists)
      · cases h
        exact .inr (.refl _)
  | collectAppend q force head k =>
      simp only [hpc] at h
      refine .inr (MiPage.Grows.trans ?_ (collectRest_grows h p))
      unfold miPageThreadFreeAppend
      simp only
      split
      · exact .refl _
      · exact hset (State.setNext s _ _) rfl (.lists rfl rfl rfl (.inl rfl))
  | drainFree b d =>
      simp only [hpc] at h
      cases h
      exact .inr (hset (State.setNext s _ _) rfl (.lists rfl rfl rfl (.inl rfl)))
  | drain d | mtHeap b =>
      simp only [hpc] at h
      refine .inr ?_
      repeat' split at h
      all_goals
        cases h
        exact .refl _
  | abandonMark rest | abandonCollect rest =>
      rw [hpc] at h
      refine .inr ?_
      cases rest <;> cases h <;> exact .refl _
  | mtFree | mtDelay | mtReset | drainTake | drainInsert | tryLoad | tryCas | abandonRetired =>
      simp only [hpc] at h
      refine .inr ?_
      repeat' split at h
      all_goals
        cases h
        first | exact .refl _ | exact hset _ rfl hlists

theorem call_grows {t : T} {op : Op P} (h : call s t op = some s') (p : P) :
    (s.page p).used = 0 ∧ s'.page p = .zero ∨ (s.page p).Grows (s'.page p) := by
  have hset : ∀ (s₁ : State T P) {q : P} {pg : MiPage T P}, s₁.page = s.page →
      (s.page q).Grows pg → (s.page p).Grows ((s₁.setPage q pg).page p) :=
    fun _ _ _ hs hq => setPage_grows hs hq p
  cases op with
  | pageFree q =>
      unfold call at h
      simp only at h
      split at h
      · rename_i hc
        cases h
        exact setPage_zero_grows (s := miPageQueueRemove s t q) hc.2.2 p
      · cases h
  | malloc q =>
      simp only [call] at h
      split at h
      · cases h
      · split at h
        · obtain ⟨b, -, rfl⟩ := Option.map_eq_some_iff.mp h
          exact .inr (hset _ rfl (.lists rfl rfl rfl (.inl rfl)))
        · cases h
  | pageExtendFree q =>
      simp only [call] at h
      split at h
      · cases h
      · split at h
        · cases h
          refine .inr ?_
          unfold miPageExtendFree
          simp only
          split
          · exact .refl _
          · split
            · exact .refl _
            · rename_i hroom
              -- a page that has no block size has no blocks reserved
              refine hset _ rfl ⟨Nat.le_add_right _ _, fun hs h0 => absurd ?_ hroom⟩
              rw [(hs h0).2.1]
              exact Nat.zero_le _
        · cases h
  | pageFresh q reserved blockSize =>
      simp only [call] at h
      split at h
      · cases h
      · split at h
        · rename_i hnew
          cases h
          refine .inr (hset s rfl ⟨le_refl _, fun _ h0 => ?_⟩)
          exact absurd h0 hnew.2.2.ne'
        · cases h
  | segmentReclaim q =>
      simp only [call] at h
      split at h
      · cases h
      · split at h
        · rename_i hleft
          cases h
          refine .inr (hset s rfl ⟨le_refl _, fun hs h0 => ?_⟩)
          exact absurd (hs h0).1 hleft.2.ne'
        · cases h
  | free b =>
      simp only [call] at h
      refine .inr ?_
      repeat' split at h
      all_goals cases h
      · exact hset (State.setNext (s.setLive b false) b _) rfl (.lists rfl rfl rfl (.inl rfl))
      · exact .refl _
  | heapDelayedFreePartial | pageFreeCollect | heapCollectAbandon =>
      simp only [call] at h
      refine .inr ?_
      repeat' split at h
      all_goals cases h <;> exact .refl _

theorem exec_grows {e : Event T P} (h : exec s e = some s') (p : P) :
    (s.page p).used = 0 ∧ s'.page p = .zero ∨ (s.page p).Grows (s'.page p) := by
  cases e with
  | step t weak => exact advance_grows h p
  | call t op => exact call_grows h p

end Grows

/-! ## A run

Two threads and a page: `false` has the page, `true` frees blocks of it.  The first goes by the
delayed list, the second by the thread-free list. -/

def steps (t : Bool) (n : Nat) : List (Event Bool Unit) := List.replicate n (.step t false)

/-- `true` has announced itself. -/
def announcedRun : List (Event Bool Unit) :=
  [.call false (.pageFresh () 8 64), .call false (.pageExtendFree ()), .call false (.malloc ()),
    .call false (.malloc ()), .call false (.malloc ()), .call true (.free ⟨(), 0⟩),
    .step true false]

/-- One block waits for `false`, which has taken over the other. -/
def collectedRun : List (Event Bool Unit) :=
  announcedRun ++ steps true 3 ++ [.call true (.free ⟨(), 1⟩), .step true false,
    .call false (.pageFreeCollect () true)] ++ steps false 2

/-- Both are back, and one is still with the program. -/
def settledRun : List (Event Bool Unit) :=
  collectedRun ++ [.step false false, .call false .heapDelayedFreePartial] ++ steps false 7

/-- The heap of `false` has gone, and the page waits for another one. -/
def abandonedRun : List (Event Bool Unit) :=
  announcedRun ++ steps true 3 ++ [.call false .heapCollectAbandon] ++ steps false 15

def stateAfter (es : List (Event Bool Unit)) : State Bool Unit :=
  (run State.init es).getD State.init

theorem run_stateAfter (es : List (Event Bool Unit)) (h : (run State.init es).isSome = true) :
    run State.init es = some (stateAfter es) := by
  obtain ⟨s, hs⟩ := Option.isSome_iff_exists.mp h
  rw [stateAfter, hs]
  rfl

theorem reachable_stateAfter (es : List (Event Bool Unit))
    (h : (run State.init es).isSome = true) : Reachable (stateAfter es) :=
  ⟨es, run_stateAfter es h⟩

/-- Every run is a run of the ownership machine: there the memory is what it is here, and each
thread has what it has here.  One event is matched by steps of its own thread (`exec_sim`). -/
theorem run_refines {s : State T P} {es : List (Event T P)} (h : run State.init es = some s) :
    ∃ a, ReflTransGen (fun a a' => ∃ t, Own.Step t a a') Own.init a ∧ Sim s a :=
  Reachable.sim ⟨es, h⟩

theorem run_refines_settled : ∃ a, ReflTransGen (fun a a' => ∃ t, Own.Step t a a') Own.init a ∧
    Sim (stateAfter settledRun) a :=
  run_refines (run_stateAfter settledRun (by decide))

/-! ## Pages -/

/-- `mi_page_list_is_valid` -/
def State.ListIsValid (s : State T P) (p : P) (o : Option (MiBlock P)) : Prop :=
  ∃ L, Chain s.next o L ∧ L.Nodup ∧
    ∀ b ∈ L, b.page = p ∧ b.idx < (s.page p).capacity ∧ s.live b = false

/-- `_mi_page_is_valid` -/
structure State.PageIsValid (s : State T P) (p : P) : Prop where
  blockSize : s.page p ≠ .zero → 0 < (s.page p).xblockSize
  used : (s.page p).used ≤ (s.page p).capacity
  capacity : (s.page p).capacity ≤ (s.page p).reserved
  free : s.ListIsValid p (s.page p).free
  localFree : s.ListIsValid p (s.page p).localFree
  threadFree : s.ListIsValid p (s.page p).xthreadFree.block
  count : ∃ L L', Chain s.next (s.page p).free L ∧ Chain s.next (s.page p).localFree L' ∧
    (s.page p).used + (L.length + L'.length) = (s.page p).capacity
  threadId : (s.page p).threadId = (s.page p).xheap
  queue : ∀ t, p ∈ s.pages t ↔ (s.page p).xheap = some t ∧ (s.pc t).adopting ≠ some p

omit [DecidableEq T] [DecidableEq P] in
theorem Sim.listIsValid {s : State T P} {a : Own T P} (h : Sim s a) {p : P} {x : Place T P}
    (hx : ∀ b, a.loc b = .list x → b.page = p) : s.ListIsValid p (s.head x) := by
  obtain ⟨L, hc, hn, hm⟩ := h.mem.list x
  refine ⟨L, hc, hn, fun b hb => ?_⟩
  have hb := (hm b).mp hb
  have hp := hx b hb
  subst hp
  refine ⟨rfl, h.born_iff.mpr (by simp [hb]), ?_⟩
  have hl := h.mem.live b
  rw [hb] at hl
  simpa using hl

theorem Reachable.sized {s : State T P} (h : Reachable s) (p : P) : (s.page p).Sized := by
  refine h.invariant (Q := fun s => ∀ p, (s.page p).Sized) (fun _ _ => ⟨rfl, rfl, rfl⟩) ?_ p
  intro s e s' hs he p
  rcases exec_grows he p with ⟨-, hzero⟩ | hgrows
  · rw [hzero]
    exact fun _ => ⟨rfl, rfl, rfl⟩
  · exact hgrows.sized (hs p)

/-- Every page is valid, at any time. -/
theorem page_is_valid {s : State T P} (h : Reachable s) (p : P) : s.PageIsValid p := by
  obtain ⟨a, -, hsim⟩ := h.sim
  obtain ⟨L, L', hc, hc', hcount⟩ := hsim.mem.count p
  have hl := fun b => hsim.inv.listed b p
  refine ⟨fun hused => ?_, by omega, hsim.mem.reserved p,
    hsim.listIsValid (x := .free p) fun b hb => hl b (.inl hb),
    hsim.listIsValid (x := .localFree p) fun b hb => hl b (.inr (.inl hb)),
    hsim.listIsValid (x := .threadFree p) fun b hb => hl b (.inr (.inr hb)),
    ⟨L, L', hc, hc', by omega⟩, ?_, fun t => ?_⟩
  · refine Nat.pos_of_ne_zero fun h0 => hused ?_
    obtain ⟨hcap, -, hheap⟩ := h.sized p h0
    exact hsim.mem.zero p (hsim.mem.heap p ▸ hheap) hcap
  · rw [hsim.mem.threadId p, hsim.mem.heap p]
  · rw [hsim.mem.heap p]
    exact (hsim.thr t).queued p

theorem page_is_valid_collected : (stateAfter collectedRun).PageIsValid () :=
  page_is_valid (reachable_stateAfter collectedRun (by decide)) ()

/-! ## Blocks -/

/-- A block that its page has is in just one place: with the program, in a list, or with a thread.
One that the page has not is in none. -/
def State.Once (s : State T P) (b : MiBlock P) : Prop :=
  if b.idx < (s.page b.page).capacity then
    s.live b = true ∧ (∀ x, ¬s.InList x b) ∧ (∀ t, ¬(s.pc t).Has b) ∨
    s.live b = false ∧ (∃! x, s.InList x b) ∧ (∀ t, ¬(s.pc t).Has b) ∨
    s.live b = false ∧ (∀ x, ¬s.InList x b) ∧ ∃! t, (s.pc t).Has b
  else s.live b = false ∧ (∀ x, ¬s.InList x b) ∧ ∀ t, ¬(s.pc t).Has b

theorem block_once {s : State T P} (h : Reachable s) (b : MiBlock P) : s.Once b := by
  obtain ⟨a, -, hsim⟩ := h.sim
  simp only [State.Once, hsim.born_iff, hsim.inList_iff, hsim.has_iff]
  have hl : s.live b = false ↔ a.loc b ≠ .live := by
    rw [ne_eq, ← hsim.mem.live b, Bool.not_eq_true]
  rw [hl, hsim.mem.live b]
  cases a.loc b with
  | unborn => simp
  | live => simp
  | list x => simp
  | freeing t | held t | back t => simp

theorem block_once_announced : (stateAfter announcedRun).Once ⟨(), 0⟩ :=
  block_once (reachable_stateAfter announcedRun (by decide)) ⟨(), 0⟩

/-- `used` is the number of blocks that are not in one of the two lists of the owner. -/
theorem Sim.used_count {s : State T P} {a : Own T P} (h : Sim s a) (p : P) :
    ∃ M : List (MiBlock P), M.Nodup ∧ (∀ b, b ∈ M ↔ b.page = p ∧ a.loc b ≠ .unborn ∧
      a.loc b ≠ .list (.free p) ∧ a.loc b ≠ .list (.localFree p)) ∧
      M.length = (s.page p).used := by
  classical
  obtain ⟨L, L', hc, hc', hcount⟩ := h.mem.count p
  obtain ⟨K, hk, hKn, hKm⟩ := h.mem.list (.free p)
  obtain ⟨K', hk', hKn', hKm'⟩ := h.mem.list (.localFree p)
  cases hc.unique hk
  cases hc'.unique hk'
  -- all blocks of the page
  let all : List (MiBlock P) := (List.range (s.page p).capacity).map (MiBlock.mk p)
  have hall : ∀ b, b ∈ all ↔ b.page = p ∧ a.loc b ≠ .unborn := by
    intro b
    simp only [all, List.mem_map, List.mem_range]
    constructor
    · rintro ⟨i, hi, rfl⟩
      exact ⟨rfl, h.born_iff.mp hi⟩
    · rintro ⟨rfl, hb⟩
      exact ⟨b.idx, h.born_iff.mpr hb, rfl⟩
  have halln : all.Nodup := by
    refine List.nodup_range.map fun i j e => ?_
    cases e
    rfl
  let M := all.filter fun b => a.loc b ≠ .list (.free p) ∧ a.loc b ≠ .list (.localFree p)
  have hM : ∀ b, b ∈ M ↔ b.page = p ∧ a.loc b ≠ .unborn ∧ a.loc b ≠ .list (.free p) ∧
      a.loc b ≠ .list (.localFree p) := by
    intro b
    simp only [M, List.mem_filter, hall, decide_eq_true_eq]
    tauto
  refine ⟨M, halln.filter _, hM, ?_⟩
  have hperm : (M ++ (L ++ L')).Perm all := by
    refine (List.perm_ext_iff_of_nodup ?_ halln).mpr fun b => ?_
    · refine List.nodup_append.mpr ⟨halln.filter _, List.nodup_append.mpr ⟨hKn, hKn', ?_⟩, ?_⟩
      · rintro b hb c hcL rfl
        have e := ((hKm b).mp hb).symm.trans ((hKm' b).mp hcL)
        cases e
      · rintro b hb c hcL rfl
        rcases List.mem_append.mp hcL with hcL | hcL
        · exact ((hM b).mp hb).2.2.1 ((hKm b).mp hcL)
        · exact ((hM b).mp hb).2.2.2 ((hKm' b).mp hcL)
    · have hl := h.inv.listed b p
      rw [List.mem_append, List.mem_append, hM, hKm, hKm', hall]
      constructor
      · rintro (hb | hb | hb)
        · exact ⟨hb.1, hb.2.1⟩
        · exact ⟨hl (.inl hb), by simp [hb]⟩
        · exact ⟨hl (.inr (.inl hb)), by simp [hb]⟩
      · intro hb
        by_cases h₁ : a.loc b = .list (.free p)
        · exact .inr (.inl h₁)
        · by_cases h₂ : a.loc b = .list (.localFree p)
          · exact .inr (.inr h₂)
          · exact .inl ⟨hb.1, hb.2, h₁, h₂⟩
  have hlen := hperm.length_eq
  simp only [all, List.length_append, List.length_map, List.length_range] at hlen
  omega

omit [DecidableEq T] [DecidableEq P] in
/-- Nothing of the page is on its way: its owner is in none of the functions, there is nothing on
its delayed list, and nobody is freeing a block of the page. -/
theorem Sim.settled {s : State T P} {a : Own T P} (h : Sim s a) {t : T} {p : P}
    (hp : (s.page p).xheap = some t) (hpc : s.pc t = .idle) (hd : s.delayed t = none)
    (hmt : ∀ u b, (s.pc u).mt.block = some b → b.page ≠ p)
    (hn : (s.page p).xthreadFree.delayed ≠ .neverDelayedFree) :
    a.flag p = .useDelayedFree ∧ ∀ b, b.page = p → a.loc b = .unborn ∨ a.loc b = .live ∨
      a.loc b = .list (.free p) ∨ a.loc b = .list (.localFree p) := by
  have hthr := h.thr t
  rw [hpc] at hthr
  rw [h.mem.heap p] at hp
  rw [h.mem.flag p] at hn
  have howned : ∀ b u, b.page = p → (a.loc b = .list (.delayed u) ∨ a.loc b = .list (.hand u) ∨
      a.loc b = .back u ∨ a.loc b = .held u ∨ a.loc b = .list (.taken u)) → u = t := by
    rintro b u rfl hb
    have e := (h.inv.owned b u hb).symm.trans hp
    exact Option.some.inj e
  have hhand : hands s t = none := Sim.hands_eq hpc
  have hnone : ∀ b, a.loc b ≠ .list (.delayed t) ∧ a.loc b ≠ .list (.hand t) ∧
      a.loc b ≠ .back t ∧ a.loc b ≠ .held t ∧ a.loc b ≠ .list (.taken t) := fun b =>
    ⟨h.mem.head_none (x := .delayed t) hd b, h.mem.head_none (x := .hand t) hhand b,
      (fun e => nomatch (hthr.back b).mp e), (fun e => nomatch (hthr.held b).mp e),
      h.not_taken hpc rfl b⟩
  have hnot : ∀ b, b.page = p → ¬a.Waiting b := by
    rintro b hb ⟨u, hu⟩
    have hut : u = t := howned b u hb (by tauto)
    subst hut
    have := hnone b
    tauto
  have hfree : ∀ u b, b.page = p → a.loc b ≠ .freeing u := by
    intro u b hb hf
    have hm := (h.inv.freeing u b).mp hf
    rw [(h.thr u).mt] at hm
    exact hmt u b hm hb
  have hf : a.flag p = .useDelayedFree := by
    cases hf : a.flag p with
    | useDelayedFree => rfl
    | neverDelayedFree => exact absurd hf hn
    | noDelayedFree =>
        obtain ⟨b, hb, hw⟩ := h.inv.waits p hf
        exact absurd hw (hnot b hb)
    | delayedFreeing =>
        obtain ⟨u, hu⟩ := h.inv.one p hf
        cases hm : a.mt u with
        | idle | push b =>
            rw [hm] at hu
            cases hu
        | heap b | delay b v =>
            rw [hm] at hu
            refine absurd ((h.inv.freeing u b).mpr (by rw [hm]; rfl)) (hfree u b ?_)
            exact Option.some.inj hu
        | reset q =>
            rw [hm] at hu
            cases hu
            obtain ⟨b, hb, hw⟩ := h.inv.resets u p hm
            exact absurd hw (hnot b hb)
  refine ⟨hf, fun b hb => ?_⟩
  have hl := fun q => h.inv.listed b q
  have ho := fun u => howned b u hb
  have hn := hnone b
  have hfr := fun u => hfree u b hb
  have hth : a.loc b ≠ .list (.threadFree p) := by
    intro e
    have hpend := hthr.pend p hp (h.inv.collected b p e hf)
    cases hpend
  cases hloc : a.loc b with
  | list x => cases x <;> grind
  | _ => grind

/-- A page with nothing on its way has as many blocks in use as the program has of it. -/
theorem used_eq_live {s : State T P} (h : Reachable s) {t : T} {p : P}
    (hp : (s.page p).xheap = some t) (hpc : s.pc t = .idle) (hd : s.delayed t = none)
    (hmt : ∀ u b, (s.pc u).mt.block = some b → b.page ≠ p)
    (hn : (s.page p).xthreadFree.delayed ≠ .neverDelayedFree) :
    (s.page p).xthreadFree = ⟨none, .useDelayedFree⟩ ∧
      ∃ M : List (MiBlock P), M.Nodup ∧ (∀ b, b ∈ M ↔ b.page = p ∧ s.live b = true) ∧
        M.length = (s.page p).used := by
  obtain ⟨a, -, hsim⟩ := h.sim
  obtain ⟨hf, hall⟩ := hsim.settled hp hpc hd hmt hn
  obtain ⟨M, hMn, hM, hlen⟩ := hsim.used_count p
  refine ⟨?_, M, hMn, fun b => ?_, hlen⟩
  · have hblock : (s.page p).xthreadFree.block = none := by
      refine hsim.mem.head_eq_none (x := .threadFree p) fun b hb => ?_
      have hbp := hsim.inv.listed b p (.inr (.inr hb))
      simpa [hb] using hall b hbp
    have hdelayed := (hsim.mem.flag p).trans hf
    cases he : (s.page p).xthreadFree with
    | mk block delayed =>
        rw [he] at hblock hdelayed
        cases hblock
        cases hdelayed
        rfl
  · rw [hM, hsim.mem.live b]
    constructor
    · rintro ⟨hb, hu, h₁, h₂⟩
      exact ⟨hb, by simpa [hu, h₁, h₂] using hall b hb⟩
    · rintro ⟨hb, hl⟩
      exact ⟨hb, by simp [hl]⟩

theorem used_eq_live_settled :
    ((stateAfter settledRun).page ()).xthreadFree = ⟨none, .useDelayedFree⟩ ∧
      ∃ M : List (MiBlock Unit), M.Nodup ∧
        (∀ b, b ∈ M ↔ b.page = () ∧ (stateAfter settledRun).live b = true) ∧ M.length = 1 :=
  used_eq_live (t := false) (p := ()) (reachable_stateAfter settledRun (by decide)) rfl rfl
    rfl (fun u _ hb => by cases u <;> cases hb) (by decide)

/-! ## The flag -/

/-- What each value of the flag says: the block that makes it `MI_NO_DELAYED_FREE` has yet to be
seen by the owner, and under `MI_USE_DELAYED_FREE` nothing is left on the thread-free list. -/
def State.FlagSays (s : State T P) (p : P) : MiDelayed → Prop
  | .useDelayedFree => (s.page p).xthreadFree.block ≠ none →
      ∃ t, (s.page p).xheap = some t ∧ (s.pc t).collecting = some p
  | .delayedFreeing => (s.page p).xheap ≠ none ∧ ∃! t, (s.pc t).mt.announced = some p
  | .noDelayedFree => ∃ t b, (s.page p).xheap = some t ∧ b.page = p ∧
      (s.InList (.delayed t) b ∨ s.InList (.hand t) b ∨ (s.pc t).back = some b)
  | .neverDelayedFree => ∀ t, (s.pc t).mt.announced ≠ some p

theorem delayed_flag {s : State T P} (h : Reachable s) (p : P) :
    s.FlagSays p (s.page p).xthreadFree.delayed := by
  obtain ⟨a, -, hsim⟩ := h.sim
  have hmt : ∀ t, (s.pc t).mt = a.mt t := fun t => (hsim.thr t).mt.symm
  rw [hsim.mem.flag p]
  unfold State.FlagSays
  simp only [hsim.mem.heap p, hsim.inList_iff, hmt]
  cases hf : a.flag p with
  | useDelayedFree =>
      intro hne
      obtain ⟨b, hb⟩ := Option.ne_none_iff_exists'.mp hne
      have hl : a.loc b = .list (.threadFree p) := hsim.mem.loc_head (x := .threadFree p) hb
      have hpend := hsim.inv.collected b p hl hf
      cases hp : a.heap p with
      | none =>
          rcases hsim.inv.orphan p hp with hn | ⟨-, hall⟩
          · rw [hf] at hn
            cases hn
          · have hu := hall b (hsim.inv.listed b p (.inr (.inr hl)))
            rw [hl] at hu
            cases hu
      | some t => exact ⟨t, rfl, (hsim.thr t).pend p hp hpend⟩
  | delayedFreeing =>
      obtain ⟨t, ht⟩ := hsim.inv.one p hf
      refine ⟨fun hp => ?_, t, ht, fun u hu => hsim.inv.unique u t p hu ht⟩
      rcases hsim.inv.orphan p hp with hn | ⟨hn, -⟩ <;> rw [hf] at hn <;> cases hn
  | noDelayedFree =>
      obtain ⟨b, rfl, t, hb⟩ := hsim.inv.waits p hf
      have hp := hsim.inv.owned b t (by tauto)
      refine ⟨t, b, hp, rfl, ?_⟩
      rwa [← (hsim.thr t).back b]
  | neverDelayedFree =>
      intro t ht
      have hn := hsim.inv.announced t p ht
      rw [hf] at hn
      cases hn

theorem delayed_flag_collected : ∃ t b, ((stateAfter collectedRun).page ()).xheap = some t ∧
    b.page = () ∧ ((stateAfter collectedRun).InList (.delayed t) b ∨
      (stateAfter collectedRun).InList (.hand t) b ∨ ((stateAfter collectedRun).pc t).back = some b) :=
  delayed_flag (reachable_stateAfter collectedRun (by decide)) ()

/-! ## Giving pages back -/

/-- When a page is given back, the program has no block of it, no thread has one or is at the page
in `_mi_free_block_mt`, and all its blocks are in the two lists that only its owner uses. -/
theorem freed_page_unused {s s' : State T P} (h : Reachable s) {e : Event T P}
    (hs : exec s e = some s') {p : P} (hp : (s'.page p).capacity < (s.page p).capacity)
    {b : MiBlock P} (hb : b.page = p) :
    s.live b = false ∧ (∀ t, ¬(s.pc t).Has b) ∧ (∀ t, (s.pc t).mt.announced ≠ some p) ∧
      (∀ x, s.InList x b → x = .free p ∨ x = .localFree p) ∧
      (b.idx < (s.page p).capacity → s.InList (.free p) b ∨ s.InList (.localFree p) b) := by
  have hu : (s.page p).used = 0 := by
    rcases exec_grows hs p with ⟨hu, -⟩ | hgrows
    · exact hu
    · exact absurd hgrows.capacity (not_le.mpr hp)
  obtain ⟨a, -, hsim⟩ := h.sim
  have hall := fun c hc => hsim.mem.all_free hsim.inv hu (b := c) hc
  simp only [hsim.inList_iff, hsim.has_iff]
  have hl := hsim.mem.live b
  refine ⟨?_, fun t => ?_, fun t ht => ?_, fun x hx => ?_, fun hidx => ?_⟩
  · rcases hall b hb with hb | hb | hb <;> simpa [hb] using hl
  · rcases hall b hb with hb | hb | hb <;> simp [hb]
  · -- whoever is announced at the page has a block of it, or one is on its way to the owner
    rw [← (hsim.thr t).mt] at ht
    cases hm : a.mt t with
    | idle | push c =>
        rw [hm] at ht
        cases ht
    | heap c | delay c v =>
        rw [hm] at ht
        have hc := (hsim.inv.freeing t c).mpr (by rw [hm]; rfl)
        simpa [hc] using hall c (Option.some.inj ht)
    | reset q =>
        rw [hm] at ht
        cases ht
        obtain ⟨c, hc, u, hw⟩ := hsim.inv.resets t p hm
        have := hall c hc
        grind
  · rcases hall b hb with hb | hb | hb <;> rw [hb] at hx <;> cases hx
    · exact .inl rfl
    · exact .inr rfl
  · rcases hall b hb with hloc | hloc
    · exact absurd hloc (hsim.born_iff.mp (hb ▸ hidx))
    · exact hloc

theorem freed_page_unused_settled :
    (stateAfter (settledRun ++ [.call false (.free ⟨(), 2⟩)])).live ⟨(), 2⟩ = false :=
  (freed_page_unused (e := .call false (.pageFree ())) (p := ()) (b := ⟨(), 2⟩)
    (reachable_stateAfter (settledRun ++ [.call false (.free ⟨(), 2⟩)]) (by decide)) rfl
    (by decide) rfl).1

/-! ## Heaps that go away -/

omit [DecidableEq T] [DecidableEq P] in
theorem Sim.announced_heap {s : State T P} {a : Own T P} (h : Sim s a) {t : T} {p : P}
    (ht : (s.pc t).mt.announced = some p) : ∃ u, (s.page p).xheap = some u := by
  rw [← (h.thr t).mt] at ht
  have hf : a.flag p = .delayedFreeing := h.inv.announced t p ht
  rw [h.mem.heap p]
  cases hp : a.heap p with
  | some u => exact ⟨u, rfl⟩
  | none => rcases h.inv.orphan p hp with hn | ⟨hn, -⟩ <;> rw [hf] at hn <;> cases hn

/-- `mi_assert_internal(heap != NULL)` of `_mi_free_block_mt`; and the heap that it read has the
page until it is done with it. -/
theorem mt_heap {s : State T P} (h : Reachable s) {t : T} {b : MiBlock P} :
    (s.pc t = .mtHeap b → ∃ u, (s.page b.page).xheap = some u) ∧
    ∀ u dfree, s.pc t = .mtDelay b u dfree → (s.page b.page).xheap = some u := by
  obtain ⟨a, -, hsim⟩ := h.sim
  refine ⟨fun hpc => ?_, fun u dfree hpc => ?_⟩
  · exact hsim.announced_heap (by rw [hpc]; rfl)
  · have hm := (hsim.thr t).mt
    rw [hpc] at hm
    rw [hsim.mem.heap]
    exact hsim.inv.heapRead t b u hm

theorem mt_heap_announced : ∃ u, ((stateAfter announcedRun).page ()).xheap = some u :=
  (mt_heap (t := true) (b := ⟨(), 0⟩) (reachable_stateAfter announcedRun (by decide))).1 rfl

/-- `mi_heap_collect_ex(MI_ABANDON)` ends with a heap that has no page and nothing on its delayed
list, and no thread is about to put a block there: its memory may be given back. -/
theorem abandoned_heap {s : State T P} (h : Reachable s) {t : T}
    (hpc : s.pc t = .abandonCollect []) :
    s.pages t = [] ∧ s.delayed t = none ∧ (∀ p, (s.page p).xheap ≠ some t) ∧
      ∀ u b dfree, s.pc u ≠ .mtDelay b t dfree := by
  obtain ⟨a, -, hsim⟩ := h.sim
  have hthr := hsim.thr t
  rw [hpc] at hthr
  obtain ⟨⟨-, hd⟩, hpages⟩ := hthr.ok
  have hheap : ∀ p, a.heap p ≠ some t := by
    intro p hp
    have hq := (hthr.queued p).mpr ⟨hp, fun e => by cases e⟩
    rw [hpages] at hq
    cases hq
  refine ⟨hpages, hd, fun p => ?_, fun u b dfree hu => ?_⟩
  · rw [hsim.mem.heap p]
    exact hheap p
  · have hm := (hsim.thr u).mt
    rw [hu] at hm
    exact hheap b.page (hsim.inv.heapRead u b t hm)

theorem abandoned_heap_run :
    (stateAfter abandonedRun).pages false = [] ∧ (stateAfter abandonedRun).delayed false = none ∧
      (∀ p, ((stateAfter abandonedRun).page p).xheap ≠ some false) ∧
      ∀ u b dfree, (stateAfter abandonedRun).pc u ≠ .mtDelay b false dfree :=
  abandoned_heap (reachable_stateAfter abandonedRun (by decide)) rfl

/-! ## Loops -/

/-- The list that `_mi_page_thread_free_collect` took has no more blocks than the page has in use:
it is not reported as corrupted, and `used` does not fall below zero. -/
theorem thread_free_count {s : State T P} (h : Reachable s) {t : T} {p : P} {force : Bool}
    {b : MiBlock P} {k : CollectFor P} (hpc : s.pc t = .collectAppend p force b k) :
    (walk s.next (s.page p).capacity 1 b).1 ≤ (s.page p).used ∧
      (s.page p).used ≤ (s.page p).capacity := by
  obtain ⟨a, -, hsim⟩ := h.sim
  have hthr := hsim.thr t
  rw [hpc] at hthr
  obtain ⟨M, hM, hMn, hMm⟩ := hsim.mem.list (.taken t)
  have htk : takens s t = some b := by
    show (s.pc t).taken = some b
    rw [hpc]
    rfl
  have hM : Chain s.next (some b) M := htk ▸ hM
  have hle : M.length ≤ (s.page p).used := hsim.mem.length_le_used hsim.inv hMn fun c hc => by
    have hc := (hMm c).mp hc
    exact ⟨(Option.some.inj (hthr.taken c hc)).symm, by simp [hc]⟩
  obtain ⟨L, L', -, -, hcount⟩ := hsim.mem.count p
  obtain ⟨last, -, hw⟩ := walk_chain hM (s.page p).capacity 1 (by omega)
  have hpos : 0 < M.length := by
    obtain ⟨M', rfl, -⟩ := hM.exists_cons
    simp
  rw [hw]
  show 1 + (M.length - 1) ≤ _ ∧ _
  omega

theorem thread_free_count_collected :
    (walk (stateAfter collectedRun).next ((stateAfter collectedRun).page ()).capacity 1 ⟨(), 1⟩).1 ≤
      ((stateAfter collectedRun).page ()).used ∧
    ((stateAfter collectedRun).page ()).used ≤ ((stateAfter collectedRun).page ()).capacity :=
  have hpc : (stateAfter collectedRun).pc false = .collectAppend () true ⟨(), 1⟩ .done := rfl
  thread_free_count (reachable_stateAfter collectedRun (by decide)) hpc

/-- A thread that is in one of the functions can always take a step: no loop over a list that it
runs by itself goes on for ever. -/
theorem advance_total {s : State T P} (h : Reachable s) (t : T) (weak : Bool) :
    advance s t weak = none ↔ s.pc t = .idle := by
  obtain ⟨a, -, hsim⟩ := h.sim
  have hthr := hsim.thr t
  have hrest : ∀ {s₁ : State T P} {hand taken : T → Option (MiBlock P)} {a₁ : Own T P} {p : P}
      {force : Bool} {k : CollectFor P}, Mem s₁ hand taken a₁ → a₁.heap p = some t →
      collectRest s₁ t p force k ≠ none := by
    intro s₁ hand taken a₁ p force k hm hp
    obtain ⟨s₂, hs₂, -⟩ := hm.localCollect (p := p) (by simp [hp]) force
    simp [collectRest, hs₂]
  constructor
  swap
  · intro hpc
    simp [advance, hpc]
  intro hnone
  unfold advance at hnone
  cases hpc : s.pc t with
  | idle => rfl
  | collect p force k =>
      rw [hpc] at hthr
      simp only [hpc] at hnone
      split at hnone
      · cases hnone
      · exact absurd hnone (hrest hsim.mem (hthr.visits p rfl))
  | collectCas p force tfree k =>
      rw [hpc] at hthr
      have hp : a.heap p = some t := hthr.visits p rfl
      simp only [hpc] at hnone
      split at hnone
      · rename_i hnow
        obtain ⟨rfl, -⟩ := hnow
        have htk : takens s t = none := by
          show (s.pc t).taken = none
          rw [hpc]
          rfl
        split at hnone
        · exact absurd hnone (hrest (hsim.mem.collect (p := p) (by simp [hp]) htk) hp)
        · cases hnone
      · cases hnone
  | collectAppend p force head k =>
      rw [hpc] at hthr
      have hp : a.heap p = some t := hthr.visits p rfl
      have htk : takens s t = some head := by
        show (s.pc t).taken = some head
        rw [hpc]
        rfl
      simp only [hpc] at hnone
      refine absurd hnone (hrest (hsim.mem.append hsim.inv htk fun b hb => ?_) hp)
      exact (Option.some.inj (hthr.taken b hb)).symm
  | drain d | mtHeap b | abandonPage p rest | reclaimPage p =>
      simp only [hpc] at hnone
      repeat' split at hnone
      all_goals cases hnone
  | abandonMark rest | abandonCollect rest =>
      rw [hpc] at hnone
      cases rest <;> cases hnone
  | drainFree | abandonRetired =>
      rw [hpc] at hnone
      cases hnone
  | mtFree | mtDelay | mtReset | drainTake | drainInsert | tryLoad | tryCas =>
      simp only [hpc] at hnone
      repeat' split at hnone
      all_goals cases hnone

theorem advance_total_collected : advance (stateAfter collectedRun) false true = none ↔
    (stateAfter collectedRun).pc false = .idle :=
  advance_total (reachable_stateAfter collectedRun (by decide)) false true

/-- `n` steps of one thread, no compare and swap of which fails for no reason. -/
def State.alone (s : State T P) (t : T) (n : Nat) : Option (State T P) :=
  run s (List.replicate n (.step t false))

theorem State.alone_succ (s : State T P) (t : T) (n : Nat) :
    s.alone t (n + 1) = (advance s t false).bind fun s => s.alone t n := rfl

theorem mtReset_alone {s : State T P} {t : T} {p : P}
    (hpc : s.pc t = .mtReset p (s.page p).xthreadFree) :
    ∃ s', s.alone t 1 = some s' ∧ (s'.page p).xthreadFree.delayed = .noDelayedFree := by
  have hs : advance s t false = some ((s.setTfree p { (s.page p).xthreadFree with
      delayed := .noDelayedFree }).setPc t .idle) := by
    unfold advance
    simp [hpc]
  refine ⟨_, by rw [State.alone_succ, hs]; rfl, ?_⟩
  show (Function.update s.page p _ p).xthreadFree.delayed = _
  rw [Function.update_self]

theorem mtDelay_alone {s : State T P} {t u : T} {b : MiBlock P}
    (hpc : s.pc t = .mtDelay b u (s.delayed u)) :
    ∃ s', s.alone t 2 = some s' ∧ (s'.page b.page).xthreadFree.delayed = .noDelayedFree := by
  let s₁ := ((s.setNext b (s.delayed u)).setDelayed u (some b)).setPc t
    (.mtReset b.page (s.page b.page).xthreadFree)
  have hs : advance s t false = some s₁ := by
    unfold advance
    simp [hpc, s₁, State.setNext, State.setDelayed]
  obtain ⟨s', hs', hf⟩ := mtReset_alone (s := s₁) (t := t) (p := b.page) (Function.update_self ..)
  exact ⟨s', by rw [State.alone_succ, hs]; exact hs', hf⟩

/-- Whoever waits for the end of `MI_DELAYED_FREEING` waits for one thread, which takes the flag
down in three steps if it is let alone, wherever it is and whatever the others have left. -/
theorem delayed_freeing_ends {s : State T P} (h : Reachable s) {p : P}
    (hf : (s.page p).xthreadFree.delayed = .delayedFreeing) :
    ∃ t n s', n ≤ 3 ∧ s.alone t n = some s' ∧
      (s'.page p).xthreadFree.delayed = .noDelayedFree := by
  obtain ⟨a, -, hsim⟩ := h.sim
  obtain ⟨t, ht⟩ := hsim.inv.one p ((hsim.mem.flag p).symm.trans hf)
  rw [(hsim.thr t).mt] at ht
  refine ⟨t, ?_⟩
  cases hpc : s.pc t with
  | mtHeap b =>
      rw [hpc] at ht
      cases ht
      obtain ⟨u, hu⟩ := hsim.announced_heap (t := t) (p := b.page) (by rw [hpc]; rfl)
      let s₁ := s.setPc t (.mtDelay b u (s.delayed u))
      have hs : advance s t false = some s₁ := by
        unfold advance
        simp [hpc, hu, s₁]
      obtain ⟨s', hs', hf'⟩ := mtDelay_alone (s := s₁) (t := t) (u := u) (b := b)
        (Function.update_self ..)
      exact ⟨3, s', le_refl 3, by rw [State.alone_succ, hs]; exact hs', hf'⟩
  | mtDelay b u dfree =>
      rw [hpc] at ht
      cases ht
      by_cases hd : s.delayed u = dfree
      · subst hd
        obtain ⟨s', hs', hf'⟩ := mtDelay_alone hpc
        exact ⟨2, s', by omega, hs', hf'⟩
      · -- the list has changed since the thread looked at it
        let s₁ := (s.setNext b dfree).setPc t (.mtDelay b u (s.delayed u))
        have hs : advance s t false = some s₁ := by
          unfold advance
          simp [hpc, hd, s₁, State.setNext]
        obtain ⟨s', hs', hf'⟩ := mtDelay_alone (s := s₁) (t := t) (u := u) (b := b)
          (Function.update_self ..)
        exact ⟨3, s', le_refl 3, by rw [State.alone_succ, hs]; exact hs', hf'⟩
  | mtReset q tfree =>
      rw [hpc] at ht
      cases ht
      by_cases hd : (s.page p).xthreadFree = tfree
      · subst hd
        obtain ⟨s', hs', hf'⟩ := mtReset_alone hpc
        exact ⟨1, s', by omega, hs', hf'⟩
      · let s₁ := s.setPc t (.mtReset p (s.page p).xthreadFree)
        have hs : advance s t false = some s₁ := by
          unfold advance
          simp [hpc, hd, s₁]
        obtain ⟨s', hs', hf'⟩ := mtReset_alone (s := s₁) (t := t) (p := p)
          (Function.update_self ..)
        exact ⟨2, s', by omega, by rw [State.alone_succ, hs]; exact hs', hf'⟩
  | _ =>
      rw [hpc] at ht
      cases ht

theorem delayed_freeing_ends_announced : ∃ t n s', n ≤ 3 ∧
    (stateAfter announcedRun).alone t n = some s' ∧
      (s'.page ()).xthreadFree.delayed = .noDelayedFree :=
  delayed_freeing_ends (reachable_stateAfter announcedRun (by decide)) rfl

end EflCore.Mimalloc
