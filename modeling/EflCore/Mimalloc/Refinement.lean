/-
# `EflCore.Mimalloc.Refinement` — what the threads do is what `Own` allows

`Sim s a` relates a state of the machine of `ThreadFree` to an ownership state: the memory is as
`Mem` has it, and each thread has what its place in the code says it has (`Thr`).

| where thread `t` is                           | what it has                                |
| :-------------------------------------------- | :----------------------------------------- |
| `_mi_free_block_mt`                           | a block it frees, or is announced at a page |
| `_mi_heap_delayed_free_partial`               | what is left of the list it took           |
| `_mi_page_try_use_delayed_free` for it        | a block that it may have to put back       |
| `_mi_page_free_collect`, `drainFree` for it   | a block that it will free                  |
| `_mi_page_thread_free_collect`                | the thread-free list of the page           |
| `mi_heap_collect_ex(MI_ABANDON)` behind marking | pages that are all `MI_NEVER_DELAYED_FREE` |

**Proved here.**  Every event of the machine is matched by steps of `Own` of its thread
(`exec_sim`), so for every reachable state there is an ownership state (`Reachable.sim`).
-/
import EflCore.Mimalloc.Accounts

namespace EflCore.Mimalloc

open Relation

variable {T P : Type}

/-! ## What a thread has -/

def TryFor.hand : TryFor P → Option (MiBlock P)
  | .delayed _ d => d.next
  | .never _ | .reclaim => none

def TryFor.back : TryFor P → Option (MiBlock P)
  | .delayed b _ => some b
  | .never _ | .reclaim => none

def TryFor.adopting (p : P) : TryFor P → Option P
  | .reclaim => some p
  | .delayed .. | .never _ => none

def CollectFor.hand : CollectFor P → Option (MiBlock P)
  | .delayed _ d => d.next
  | .done | .abandon _ | .reclaim => none

def CollectFor.held : CollectFor P → Option (MiBlock P)
  | .delayed b _ => some b
  | .done | .abandon _ | .reclaim => none

def CollectFor.adopting (p : P) : CollectFor P → Option P
  | .reclaim => some p
  | .done | .delayed .. | .abandon _ => none

namespace Pc

def mt : Pc T P → Mt T P
  | .mtFree b _ => .push b
  | .mtHeap b => .heap b
  | .mtDelay b h _ => .delay b h
  | .mtReset p _ => .reset p
  | _ => .idle

/-- What is left of the list that it took from its heap. -/
def hand : Pc T P → Option (MiBlock P)
  | .drain d | .drainInsert _ d _ | .drainFree _ d => d.next
  | .tryLoad _ _ _ _ k | .tryCas _ _ _ _ _ k => k.hand
  | .collect _ _ k | .collectCas _ _ _ k | .collectAppend _ _ _ k => k.hand
  | _ => none

/-- The list that it took from a page. -/
def taken : Pc T P → Option (MiBlock P)
  | .collectAppend _ _ b _ => some b
  | _ => none

def held : Pc T P → Option (MiBlock P)
  | .drainFree b _ => some b
  | .collect _ _ k | .collectCas _ _ _ k | .collectAppend _ _ _ k => k.held
  | _ => none

def back : Pc T P → Option (MiBlock P)
  | .drainInsert b _ _ => some b
  | .tryLoad _ _ _ _ k | .tryCas _ _ _ _ _ k => k.back
  | _ => none

/-- The page of its heap that it is at. -/
def visits : Pc T P → Option P
  | .tryLoad p _ _ _ _ | .tryCas p _ _ _ _ _ => some p
  | .collect p _ _ | .collectCas p _ _ _ | .collectAppend p _ _ _ => some p
  | .abandonPage p _ | .reclaimPage p => some p
  | _ => none

/-- The page that it is about to collect. -/
def collecting : Pc T P → Option P
  | .collect p _ _ | .collectCas p _ _ _ => some p
  | _ => none

/-- The page that is its own but not in its queues yet. -/
def adopting : Pc T P → Option P
  | .tryLoad p _ _ _ k | .tryCas p _ _ _ _ k => k.adopting p
  | .collect p _ k | .collectCas p _ _ k | .collectAppend p _ _ k => k.adopting p
  | .reclaimPage p => some p
  | _ => none

end Pc

section Ok
variable (pages : List P) (delayed : Option (MiBlock P)) (marked : Prop) (flag : P → MiDelayed)

/-- The heap is going away, and no block will be on its delayed list again. -/
def Leaving : Prop := marked ∧ delayed = none

def Drain.Ok (d : Drain P) : Prop := d.abandon = true → Leaving delayed marked

def TryFor.Ok (p : P) (delay : MiDelayed) (override : Bool) : TryFor P → Prop
  | .delayed b d => b.page = p ∧ delay = .useDelayedFree ∧ override = false ∧ d.Ok delayed marked
  | .never rest => delay = .neverDelayedFree ∧ override = false ∧ p ∈ pages ∧ rest ⊆ pages ∧
      ∀ q ∈ pages, q ≠ p → q ∉ rest → flag q = .neverDelayedFree
  | .reclaim => delay = .useDelayedFree ∧ override = true ∧ flag p = .neverDelayedFree

def CollectFor.Ok (p : P) : CollectFor P → Prop
  | .delayed b d => b.page = p ∧ d.Ok delayed marked
  | .abandon rest => Leaving delayed marked ∧ pages = p :: rest
  | .done | .reclaim => True

/-- What a thread relies on where it is. -/
def Pc.Ok : Pc T P → Prop
  | .drainTake block abandon => abandon = true → marked ∧ (block = none → delayed = none)
  | .drain d | .drainFree _ d => d.Ok delayed marked
  | .drainInsert _ d _ => d.abandon = false
  | .tryLoad p delay override _ k => k.Ok pages delayed marked flag p delay override
  | .tryCas p delay override _ tfree k => k.Ok pages delayed marked flag p delay override ∧
      tfree.delayed ≠ .delayedFreeing ∧ (override = false → tfree.delayed ≠ .neverDelayedFree)
  | .collect p _ k | .collectCas p _ _ k | .collectAppend p _ _ k => k.Ok pages delayed marked p
  | .abandonMark rest => rest ⊆ pages ∧ ∀ q ∈ pages, q ∉ rest → flag q = .neverDelayedFree
  | .abandonRetired => Leaving delayed marked
  | .abandonCollect rest => Leaving delayed marked ∧ pages = rest
  | .abandonPage p rest => Leaving delayed marked ∧ pages = p :: rest
  | .idle | .mtFree .. | .mtHeap _ | .mtDelay .. | .mtReset .. | .reclaimPage _ => True

end Ok

structure Thr (pages : List P) (delayed : Option (MiBlock P)) (pc : Pc T P) (a : Own T P) (t : T) :
    Prop where
  mt : a.mt t = pc.mt
  held : ∀ b, a.loc b = .held t ↔ pc.held = some b
  back : ∀ b, a.loc b = .back t ↔ pc.back = some b
  taken : ∀ b, a.loc b = .list (.taken t) → pc.visits = some b.page
  visits : ∀ p, pc.visits = some p → a.heap p = some t
  nodup : pages.Nodup
  queued : ∀ p, p ∈ pages ↔ a.heap p = some t ∧ pc.adopting ≠ some p
  pend : ∀ p, a.heap p = some t → a.pend p = true → pc.collecting = some p
  ok : pc.Ok pages delayed (a.Marked t) a.flag

def hands (s : State T P) (t : T) : Option (MiBlock P) := (s.pc t).hand

def takens (s : State T P) (t : T) : Option (MiBlock P) := (s.pc t).taken

structure Sim (s : State T P) (a : Own T P) : Prop where
  inv : a.Inv
  mem : Mem s (hands s) (takens s) a
  thr : ∀ t, Thr (s.pages t) (s.delayed t) (s.pc t) a t

/-! ## What other threads do to it -/

theorem Thr.keeps {pages : List P} {delayed delayed' : Option (MiBlock P)} {pc : Pc T P}
    {a a' : Own T P} {u : T} (h : Thr pages delayed pc a u) (hk : Own.Keeps u a a')
    (hd : a.Marked u → delayed = none → delayed' = none) : Thr pages delayed' pc a' u where
  mt := hk.mt.trans h.mt
  held b := (hk.held b).trans (h.held b)
  back b := (hk.back b).trans (h.back b)
  taken b hb := h.taken b ((hk.taken b).mp hb)
  visits p hp := (hk.heap p).mpr (h.visits p hp)
  nodup := h.nodup
  queued p := by
    rw [hk.heap p]
    exact h.queued p
  pend p hp hpend := by
    have hp := (hk.heap p).mp hp
    rw [hk.pend p hp] at hpend
    exact h.pend p hp hpend
  ok := by
    have hok := h.ok
    have hnever : ∀ p ∈ pages, a.flag p = .neverDelayedFree → a'.flag p = .neverDelayedFree :=
      fun p hp => hk.never p ((h.queued p).mp hp).1
    have hleave : Leaving delayed (a.Marked u) → Leaving delayed' (a'.Marked u) :=
      fun e => ⟨hk.marked e.1, hd e.1 e.2⟩
    have hdrain : ∀ d : Drain P, d.Ok delayed (a.Marked u) → d.Ok delayed' (a'.Marked u) :=
      fun d hd' e => hleave (hd' e)
    have htry : ∀ (p : P) (delay : MiDelayed) (override : Bool) (k : TryFor P),
        a.heap p = some u → k.Ok pages delayed (a.Marked u) a.flag p delay override →
        k.Ok pages delayed' (a'.Marked u) a'.flag p delay override := by
      intro p delay override k hp hk'
      cases k with
      | delayed b d => exact ⟨hk'.1, hk'.2.1, hk'.2.2.1, hdrain d hk'.2.2.2⟩
      | never rest =>
          obtain ⟨h₁, h₂, h₃, h₄, h₅⟩ := hk'
          exact ⟨h₁, h₂, h₃, h₄, fun q hq hqp hqr => hnever q hq (h₅ q hq hqp hqr)⟩
      | reclaim => exact ⟨hk'.1, hk'.2.1, hk.never p hp hk'.2.2⟩
    have hcollect : ∀ (p : P) (k : CollectFor P), k.Ok pages delayed (a.Marked u) p →
        k.Ok pages delayed' (a'.Marked u) p := by
      intro p k hk'
      cases k with
      | done => trivial
      | delayed b d => exact ⟨hk'.1, hdrain d hk'.2⟩
      | abandon rest => exact ⟨hleave hk'.1, hk'.2⟩
      | reclaim => trivial
    cases pc with
    | idle | mtFree | mtHeap | mtDelay | mtReset | reclaimPage => trivial
    | drainTake block abandon =>
        intro e
        obtain ⟨hm, hb⟩ := hok e
        exact ⟨hk.marked hm, fun e => hd hm (hb e)⟩
    | drain d | drainFree b d => exact hdrain d hok
    | drainInsert b d dfree => exact hok
    | tryLoad p delay override yields k =>
        exact htry p delay override k (h.visits p rfl) hok
    | tryCas p delay override yields tfree k =>
        exact ⟨htry p delay override k (h.visits p rfl) hok.1, hok.2⟩
    | collect p force k | collectCas p force tfree k | collectAppend p force head k =>
        exact hcollect p k hok
    | abandonMark rest => exact ⟨hok.1, fun q hq hqr => hnever q hq (hok.2 q hq hqr)⟩
    | abandonRetired => exact hleave hok
    | abandonCollect rest | abandonPage p rest => exact ⟨hleave hok.1, hok.2⟩

variable [DecidableEq T] [DecidableEq P]

/-- A thread has made its steps: what is left to show is about the memory and the thread. -/
theorem Sim.step {s s' : State T P} {a a' : Own T P} (h : Sim s a) {t : T}
    (hs : ReflTransGen (Own.Step t) a a') (hpc : ∀ u, u ≠ t → s'.pc u = s.pc u)
    (hpages : ∀ u, u ≠ t → s'.pages u = s.pages u) (mem : Mem s' (hands s') (takens s') a')
    (thr : Thr (s'.pages t) (s'.delayed t) (s'.pc t) a' t) :
    ∃ a', ReflTransGen (Own.Step t) a a' ∧ Sim s' a' := by
  obtain ⟨hi, hk⟩ := Own.steps hs h.inv
  refine ⟨a', hs, hi, mem, fun u => ?_⟩
  by_cases hu : u = t
  · exact hu ▸ thr
  · rw [hpc u hu, hpages u hu]
    refine (h.thr u).keeps (hk u hu) fun hm hd => ?_
    refine mem.head_eq_none (x := .delayed u) fun b hb => ?_
    exact h.mem.head_none (x := .delayed u) hd b ((hk u hu).delayed hm b hb)

omit [DecidableEq P] in
theorem hands_setPc (s : State T P) (t : T) (pc : Pc T P) :
    hands (s.setPc t pc) = Function.update (hands s) t pc.hand := by
  funext u
  show (Function.update s.pc t pc u).hand = _
  by_cases hu : u = t
  · subst hu
    rw [Function.update_self, Function.update_self]
  · rw [Function.update_of_ne hu, Function.update_of_ne hu]
    rfl

omit [DecidableEq P] in
theorem takens_setPc (s : State T P) (t : T) (pc : Pc T P) :
    takens (s.setPc t pc) = Function.update (takens s) t pc.taken := by
  funext u
  show (Function.update s.pc t pc u).taken = _
  by_cases hu : u = t
  · subst hu
    rw [Function.update_self, Function.update_self]
  · rw [Function.update_of_ne hu, Function.update_of_ne hu]
    rfl

/-- A thread goes on to `pc`. -/
theorem Sim.next {s s₁ : State T P} {a a' : Own T P} (h : Sim s a) {t : T} {pc : Pc T P}
    (hs : ReflTransGen (Own.Step t) a a') (hpc : s₁.pc = s.pc)
    (hpages : ∀ u, u ≠ t → s₁.pages u = s.pages u)
    (mem : Mem s₁ (Function.update (hands s) t pc.hand) (Function.update (takens s) t pc.taken) a')
    (thr : Thr (s₁.pages t) (s₁.delayed t) pc a' t) :
    ∃ a', ReflTransGen (Own.Step t) a a' ∧ Sim (s₁.setPc t pc) a' := by
  have hh : hands s₁ = hands s := by
    funext u
    show (s₁.pc u).hand = (s.pc u).hand
    rw [hpc]
  have ht : takens s₁ = takens s := by
    funext u
    show (s₁.pc u).taken = (s.pc u).taken
    rw [hpc]
  refine h.step hs (fun u hu => ?_) hpages ?_ ?_
  · show Function.update s₁.pc t pc u = s.pc u
    rw [Function.update_of_ne hu, hpc]
  · rw [hands_setPc, takens_setPc, hh, ht]
    exact mem.congr rfl rfl rfl rfl rfl rfl rfl rfl rfl
  · show Thr (s₁.pages t) (s₁.delayed t) (Function.update s₁.pc t pc t) a' t
    rwa [Function.update_self]

/-- What a thread has in its hands, and which page it adopts. -/
def Pc.view (pc : Pc T P) : Mt T P × Option (MiBlock P) × Option (MiBlock P) ×
    Option (MiBlock P) × Option (MiBlock P) × Option P :=
  (pc.mt, pc.hand, pc.taken, pc.held, pc.back, pc.adopting)

/-- The same, where the lists that the thread has taken stay what they are. -/
theorem Sim.goto {s s₁ : State T P} {a a' : Own T P} (h : Sim s a) {t : T} {pc pc' : Pc T P}
    (hpc : s.pc t = pc) (hhand : pc'.hand = pc.hand) (htaken : pc'.taken = pc.taken)
    (hs : ReflTransGen (Own.Step t) a a') (hpc₁ : s₁.pc = s.pc)
    (hpages : ∀ u, u ≠ t → s₁.pages u = s.pages u) (mem : Mem s₁ (hands s) (takens s) a')
    (thr : Thr (s₁.pages t) (s₁.delayed t) pc' a' t) :
    ∃ a', ReflTransGen (Own.Step t) a a' ∧ Sim (s₁.setPc t pc') a' := by
  subst hpc
  refine h.next hs hpc₁ hpages ?_ thr
  rw [Function.update_eq_self_iff.mpr hhand, Function.update_eq_self_iff.mpr htaken]
  exact mem

/-- The same, where the thread has another block of the list that it took from its heap. -/
theorem Sim.nextHand {s s₁ : State T P} {a a' : Own T P} (h : Sim s a) {t : T} {pc pc' : Pc T P}
    (hpc : s.pc t = pc) (htaken : pc'.taken = pc.taken)
    (hs : ReflTransGen (Own.Step t) a a') (hpc₁ : s₁.pc = s.pc)
    (hpages : ∀ u, u ≠ t → s₁.pages u = s.pages u)
    (mem : Mem s₁ (Function.update (hands s) t pc'.hand) (takens s) a')
    (thr : Thr (s₁.pages t) (s₁.delayed t) pc' a' t) :
    ∃ a', ReflTransGen (Own.Step t) a a' ∧ Sim (s₁.setPc t pc') a' := by
  subst hpc
  refine h.next hs hpc₁ hpages ?_ thr
  have htk : Function.update (takens s) t pc'.taken = takens s :=
    Function.update_eq_self_iff.mpr htaken
  rw [htk]
  exact mem

omit [DecidableEq T] [DecidableEq P] in
theorem Sim.hands_eq {s : State T P} {t : T} {pc : Pc T P} (hpc : s.pc t = pc) :
    hands s t = pc.hand := by
  show (s.pc t).hand = pc.hand
  rw [hpc]

omit [DecidableEq T] [DecidableEq P] in
/-- Where a thread has no list of a page. -/
theorem Sim.not_taken {s : State T P} {a : Own T P} (h : Sim s a) {t : T} {pc : Pc T P}
    (hpc : s.pc t = pc) (ht : pc.taken = none) (b : MiBlock P) : a.loc b ≠ .list (.taken t) := by
  subst hpc
  exact h.mem.head_none (x := .taken t) ht b

/-- A thread only goes on. -/
theorem Sim.stutter {s : State T P} {a : Own T P} (h : Sim s a) {t : T} {pc pc' : Pc T P}
    (hpc : s.pc t = pc) (hview : pc'.view = pc.view) (htaken : pc.taken = none)
    (hvisits : ∀ p, pc'.visits = some p → a.heap p = some t)
    (hcollecting : ∀ p, pc.collecting = some p → pc'.collecting = some p)
    (ok : pc'.Ok (s.pages t) (s.delayed t) (a.Marked t) a.flag) :
    ∃ a', ReflTransGen (Own.Step t) a a' ∧ Sim (s.setPc t pc') a' := by
  subst hpc
  simp only [Pc.view, Prod.mk.injEq] at hview
  obtain ⟨hmt, hhand, ht, hheld, hback, hadopt⟩ := hview
  have hthr := h.thr t
  refine h.goto rfl hhand ht .refl rfl (fun _ _ => rfl) h.mem ⟨?_, ?_, ?_, ?_, hvisits, hthr.nodup,
    ?_, fun p hp hpend => hcollecting p (hthr.pend p hp hpend), ok⟩
  · rw [hmt]
    exact hthr.mt
  · rw [hheld]
    exact hthr.held
  · rw [hback]
    exact hthr.back
  · exact fun b hb => absurd hb (h.mem.head_none (x := .taken t) htaken b)
  · rw [hadopt]
    exact hthr.queued

/-! ## `_mi_free_block_mt` -/

/-- In none of the functions, or in `_mi_free_block_mt`. -/
def Pc.remote : Pc T P → Bool
  | .idle | .mtFree .. | .mtHeap _ | .mtDelay .. | .mtReset .. => true
  | _ => false

omit [DecidableEq T] [DecidableEq P] in
theorem Pc.view_remote {pc : Pc T P} (h : pc.remote = true) :
    pc.view = (pc.mt, none, none, none, none, none) ∧ pc.visits = none ∧ pc.collecting = none := by
  cases pc with
  | idle | mtFree | mtHeap | mtDelay | mtReset => exact ⟨rfl, rfl, rfl⟩
  | _ => cases h

omit [DecidableEq T] [DecidableEq P] in
theorem Thr.remote {pages : List P} {delayed delayed' : Option (MiBlock P)} {pc pc' : Pc T P}
    {a a' : Own T P} {t : T} (h : Thr pages delayed pc a t) (hpc : pc.remote = true)
    (hpc' : pc'.remote = true) (hmt : a'.mt t = pc'.mt) (hheap : a'.heap = a.heap)
    (hpend : a'.pend = a.pend)
    (hloc : ∀ b k, k = .held t ∨ k = .back t ∨ k = .list (.taken t) → a'.loc b = k → a.loc b = k) :
    Thr pages delayed' pc' a' t := by
  obtain ⟨hv, hvis, hcol⟩ := Pc.view_remote hpc
  obtain ⟨hv', hvis', hcol'⟩ := Pc.view_remote hpc'
  simp only [Pc.view, Prod.mk.injEq, true_and] at hv hv'
  obtain ⟨-, -, hheld, hback, hadopt⟩ := hv
  obtain ⟨-, -, hheld', hback', hadopt'⟩ := hv'
  refine ⟨hmt, fun b => ?_, fun b => ?_, fun b hb => ?_, fun p hp => ?_, h.nodup, fun p => ?_,
    fun p hp hpp => ?_, ?_⟩
  · have hb := h.held b
    rw [hheld] at hb
    rw [hheld']
    exact ⟨fun e => hb.mp (hloc b _ (.inl rfl) e), fun e => by cases e⟩
  · have hb := h.back b
    rw [hback] at hb
    rw [hback']
    exact ⟨fun e => hb.mp (hloc b _ (.inr (.inl rfl)) e), fun e => by cases e⟩
  · have hb := h.taken b (hloc b _ (.inr (.inr rfl)) hb)
    rw [hvis] at hb
    cases hb
  · rw [hvis'] at hp
    cases hp
  · have hp := h.queued p
    rw [hadopt] at hp
    rw [hadopt', hheap]
    exact hp
  · rw [hheap] at hp
    rw [hpend] at hpp
    have hp := h.pend p hp hpp
    rw [hcol] at hp
    cases hp
  · cases pc' with
    | idle | mtFree | mtHeap | mtDelay | mtReset => trivial
    | _ => cases hpc'

/-- A thread in `_mi_free_block_mt` makes its step. -/
theorem Sim.remote {s s₁ : State T P} {a a' : Own T P} (h : Sim s a) {t : T} {pc pc' : Pc T P}
    (hpc : s.pc t = pc) (hr : pc.remote = true) (hr' : pc'.remote = true) (hs : Own.Step t a a')
    (hpc₁ : s₁.pc = s.pc) (hpages : s₁.pages = s.pages) (mem : Mem s₁ (hands s) (takens s) a')
    (hmt : a'.mt t = pc'.mt) (hheap : a'.heap = a.heap) (hpend : a'.pend = a.pend)
    (hloc : ∀ b k, k = .held t ∨ k = .back t ∨ k = .list (.taken t) → a'.loc b = k → a.loc b = k) :
    ∃ a', ReflTransGen (Own.Step t) a a' ∧ Sim (s₁.setPc t pc') a' := by
  obtain ⟨hv, -⟩ := Pc.view_remote hr
  obtain ⟨hv', -⟩ := Pc.view_remote hr'
  simp only [Pc.view, Prod.mk.injEq, true_and] at hv hv'
  refine h.goto hpc ?_ ?_ (.single hs) hpc₁ (fun u _ => by rw [hpages]) mem ?_
  · rw [hv.1, hv'.1]
  · rw [hv.2.1, hv'.2.1]
  · rw [hpages]
    have hthr := h.thr t
    rw [hpc] at hthr
    exact hthr.remote hr hr' hmt hheap hpend hloc

theorem mtFree_sim {s s' : State T P} {a : Own T P} (h : Sim s a) {t : T} {weak : Bool}
    {b : MiBlock P} {tfree : MiThreadFree P} (hpc : s.pc t = .mtFree b tfree)
    (hs : advance s t weak = some s') : ∃ a', ReflTransGen (Own.Step t) a a' ∧ Sim s' a' := by
  have ht : a.mt t = .push b := by
    rw [(h.thr t).mt, hpc]
    rfl
  have hb : a.loc b = .freeing t := (h.inv.freeing t b).mpr (by rw [ht]; rfl)
  have hlist : ∀ x, a.loc b ≠ .list x := by simp [hb]
  have hflag := h.mem.flag b.page
  unfold advance at hs
  simp only [hpc] at hs
  split at hs
  · rename_i hu
    split at hs
    · -- the flag is `MI_USE_DELAYED_FREE`: the thread announces itself
      rename_i hnow
      cases hs
      rw [← hnow.1] at hu
      have hf : a.flag b.page = .useDelayedFree := hflag.symm.trans hu
      have hheap : a.heap b.page ≠ none := by
        intro e
        rcases h.inv.orphan b.page e with hn | ⟨-, hall⟩
        · rw [hf] at hn
          cases hn
        · simpa [hb] using hall b rfl
      rw [← hnow.1]
      refine h.remote hpc rfl rfl (.announce b ht hf) rfl rfl ?_ (Function.update_self ..) rfl rfl
        (fun _ _ _ e => e)
      exact (h.mem.setFlag b.page .delayedFreeing hheap).congr rfl rfl rfl rfl rfl rfl rfl rfl rfl
    · cases hs
      exact h.stutter hpc rfl rfl (fun p e => by cases e) (fun p e => by cases e) trivial
  · rename_i hu
    split at hs
    · -- otherwise the block goes on the thread-free list
      rename_i hnow
      cases hs
      have hnow : (s.page b.page).xthreadFree = tfree := hnow.1
      rw [← hnow] at hu ⊢
      have hf : a.flag b.page ≠ .useDelayedFree := fun e => hu (hflag.trans e)
      refine h.remote hpc rfl rfl (.push b ht hf) rfl rfl ?_ (Function.update_self ..) rfl rfl ?_
      · exact (h.mem.threadPush hlist (by simp [hb]) (by simp [hb])).congr rfl rfl rfl rfl rfl rfl
          rfl rfl rfl
      · rintro c k hk
        exact (Own.setLoc_eq_iff (by grind) (by grind)).mp
    · cases hs
      have hm := h.mem.write hlist tfree.block
      have hthr := h.thr t
      rw [hpc] at hthr
      exact h.goto hpc rfl rfl .refl rfl (fun _ _ => rfl) hm
        (hthr.remote rfl rfl ht rfl rfl fun _ _ _ e => e)

theorem mtHeap_sim {s s' : State T P} {a : Own T P} (h : Sim s a) {t : T} {weak : Bool}
    {b : MiBlock P} (hpc : s.pc t = .mtHeap b) (hs : advance s t weak = some s') :
    ∃ a', ReflTransGen (Own.Step t) a a' ∧ Sim s' a' := by
  have ht : a.mt t = .heap b := by
    rw [(h.thr t).mt, hpc]
    rfl
  have hb : a.loc b = .freeing t := (h.inv.freeing t b).mpr (by rw [ht]; rfl)
  have hf : a.flag b.page = .delayedFreeing := h.inv.announced t b.page (by rw [ht]; rfl)
  unfold advance at hs
  simp only [hpc] at hs
  cases hx : (s.page b.page).xheap with
  | none =>
      -- a page that has lost its heap is `MI_NEVER_DELAYED_FREE`
      have e : a.heap b.page = none := (h.mem.heap b.page).symm.trans hx
      rcases h.inv.orphan b.page e with hn | ⟨hn, -⟩ <;> rw [hf] at hn <;> cases hn
  | some u =>
      rw [hx] at hs
      cases hs
      have hu : a.heap b.page = some u := (h.mem.heap b.page).symm.trans hx
      exact h.remote hpc rfl rfl (.readHeap b u ht hu) rfl rfl
        (h.mem.congr rfl rfl rfl rfl rfl rfl rfl rfl rfl) (Function.update_self ..) rfl rfl
        (fun _ _ _ e => e)

theorem mtDelay_sim {s s' : State T P} {a : Own T P} (h : Sim s a) {t u : T} {weak : Bool}
    {b : MiBlock P} {dfree : Option (MiBlock P)} (hpc : s.pc t = .mtDelay b u dfree)
    (hs : advance s t weak = some s') : ∃ a', ReflTransGen (Own.Step t) a a' ∧ Sim s' a' := by
  have ht : a.mt t = .delay b u := by
    rw [(h.thr t).mt, hpc]
    rfl
  have hb : a.loc b = .freeing t := (h.inv.freeing t b).mpr (by rw [ht]; rfl)
  have hlist : ∀ x, a.loc b ≠ .list x := by simp [hb]
  unfold advance at hs
  simp only [hpc] at hs
  split at hs
  · rename_i hnow
    cases hs
    have hnow : s.delayed u = dfree := hnow.1
    rw [← hnow]
    refine h.remote hpc rfl rfl (.delay b u ht) rfl rfl ?_ (Function.update_self ..) rfl rfl ?_
    · exact (h.mem.delayedPush hlist (by simp [hb]) (by simp [hb]) u).congr rfl rfl rfl rfl rfl rfl
        rfl rfl rfl
    · rintro c k hk
      exact (Own.setLoc_eq_iff (by grind) (by grind)).mp
  · cases hs
    have hthr := h.thr t
    rw [hpc] at hthr
    exact h.goto hpc rfl rfl .refl rfl (fun _ _ => rfl) (h.mem.write hlist dfree)
      (hthr.remote rfl rfl ht rfl rfl fun _ _ _ e => e)

theorem mtReset_sim {s s' : State T P} {a : Own T P} (h : Sim s a) {t : T} {weak : Bool}
    {p : P} {tfree : MiThreadFree P} (hpc : s.pc t = .mtReset p tfree)
    (hs : advance s t weak = some s') : ∃ a', ReflTransGen (Own.Step t) a a' ∧ Sim s' a' := by
  have ht : a.mt t = .reset p := by
    rw [(h.thr t).mt, hpc]
    rfl
  have hf : a.flag p = .delayedFreeing := h.inv.announced t p (by rw [ht]; rfl)
  have hheap : a.heap p ≠ none := by
    intro e
    rcases h.inv.orphan p e with hn | ⟨hn, -⟩ <;> rw [hf] at hn <;> cases hn
  unfold advance at hs
  simp only [hpc] at hs
  split at hs
  · rename_i hnow
    cases hs
    rw [← hnow.1]
    refine h.remote hpc rfl rfl (.reset p ht) rfl rfl ?_ (Function.update_self ..) rfl rfl
      (fun _ _ _ e => e)
    exact (h.mem.setFlag p .noDelayedFree hheap).congr rfl rfl rfl rfl rfl rfl rfl rfl rfl
  · cases hs
    exact h.stutter hpc rfl rfl (fun p e => by cases e) (fun p e => by cases e) trivial

/-! ## `_mi_heap_delayed_free_partial` -/

theorem drainTake_sim {s s' : State T P} {a : Own T P} (h : Sim s a) {t : T} {weak : Bool}
    {block : Option (MiBlock P)} {abandon : Bool} (hpc : s.pc t = .drainTake block abandon)
    (hs : advance s t weak = some s') : ∃ a', ReflTransGen (Own.Step t) a a' ∧ Sim s' a' := by
  have hthr := h.thr t
  rw [hpc] at hthr
  unfold advance at hs
  simp only [hpc] at hs
  split at hs
  · -- there was nothing on the list
    rename_i hb
    cases hs
    refine h.stutter hpc rfl rfl (fun p e => by cases e) (fun p e => by cases e) fun e => ?_
    exact ⟨(hthr.ok e).1, (hthr.ok e).2 hb⟩
  · split at hs
    · rename_i hnow
      cases hs
      have hnow : s.delayed t = block := hnow.1
      subst hnow
      refine h.nextHand hpc rfl (.single .take) rfl (fun _ _ => rfl)
        (h.mem.take (Sim.hands_eq hpc)) ⟨hthr.mt, fun b => ?_, fun b => ?_,
        fun b hb => ?_, (fun p e => by cases e), hthr.nodup, hthr.queued, hthr.pend, fun e => ?_⟩
      · exact (Own.moveAll_eq_iff (by simp)).trans (hthr.held b)
      · exact (Own.moveAll_eq_iff (by simp)).trans (hthr.back b)
      · have hb' : a.loc b = .list (.taken t) := by
          simp only [Own.moveAll] at hb
          grind
        exact absurd hb' (h.not_taken hpc rfl b)
      · exact ⟨(hthr.ok e).1, Function.update_self ..⟩
    · cases hs
      exact h.stutter hpc rfl rfl (fun p e => by cases e) (fun p e => by cases e)
        fun e => ⟨(hthr.ok e).1, fun e => e⟩

theorem drain_sim {s s' : State T P} {a : Own T P} (h : Sim s a) {t : T} {weak : Bool}
    {d : Drain P} (hpc : s.pc t = .drain d) (hs : advance s t weak = some s') :
    ∃ a', ReflTransGen (Own.Step t) a a' ∧ Sim s' a' := by
  have hthr := h.thr t
  rw [hpc] at hthr
  unfold advance at hs
  simp only [hpc] at hs
  obtain ⟨next, allFreed, abandon⟩ := d
  cases next with
  | none =>
      simp only at hs
      split at hs
      · rename_i ha
        split at hs
        · cases hs
          exact h.stutter hpc rfl rfl (fun p e => by cases e) (fun p e => by cases e) (hthr.ok ha)
        · cases hs
          exact h.stutter hpc rfl rfl (fun p e => by cases e) (fun p e => by cases e)
            fun _ => ⟨(hthr.ok ha).1, fun e => e⟩
      · cases hs
        exact h.stutter hpc rfl rfl (fun p e => by cases e) (fun p e => by cases e) trivial
  | some b =>
      cases hs
      have hh : hands s t = some b := Sim.hands_eq hpc
      have hb : a.loc b = .list (.hand t) := h.mem.loc_head (x := .hand t) hh
      have hp : a.heap b.page = some t := h.inv.owned b t (.inr (.inl hb))
      refine h.nextHand hpc rfl (.single (.putBack b hb)) rfl (fun _ _ => rfl)
        (h.mem.handPop hh rfl (by simp) (by simp)) ⟨hthr.mt, fun c => ?_,
        fun c => ?_, fun c hc => ?_, fun p e => ?_, hthr.nodup, hthr.queued, hthr.pend,
        rfl, rfl, rfl, hthr.ok⟩
      · exact (Own.setLoc_eq_iff (by simp [hb]) (by simp)).trans (hthr.held c)
      · have hc := hthr.back c
        simp only [Own.setLoc, Function.update_apply, Pc.back, TryFor.back] at hc ⊢
        grind
      · have hc := (Own.setLoc_eq_iff (by simp [hb]) (by simp)).mp hc
        exact absurd hc (h.not_taken hpc rfl c)
      · cases e
        exact hp

theorem drainInsert_sim {s s' : State T P} {a : Own T P} (h : Sim s a) {t : T} {weak : Bool}
    {b : MiBlock P} {d : Drain P} {dfree : Option (MiBlock P)}
    (hpc : s.pc t = .drainInsert b d dfree) (hs : advance s t weak = some s') :
    ∃ a', ReflTransGen (Own.Step t) a a' ∧ Sim s' a' := by
  have hthr := h.thr t
  rw [hpc] at hthr
  have hb : a.loc b = .back t := (hthr.back b).mpr rfl
  have hlist : ∀ x, a.loc b ≠ .list x := by simp [hb]
  unfold advance at hs
  simp only [hpc] at hs
  split at hs
  · rename_i hnow
    cases hs
    have hnow : s.delayed t = dfree := hnow.1
    rw [← hnow]
    refine h.goto hpc rfl rfl (.single (.insert b hb)) rfl (fun _ _ => rfl)
      (h.mem.delayedPush hlist (by simp [hb]) (by simp [hb]) t) ⟨hthr.mt, fun c => ?_,
        fun c => ?_, fun c hc => ?_, (fun p e => by cases e), hthr.nodup, hthr.queued, hthr.pend,
        fun e => ?_⟩
    · exact (Own.setLoc_eq_iff (by simp [hb]) (by simp)).trans (hthr.held c)
    · have hc := hthr.back c
      simp only [Own.setLoc, Function.update_apply, Pc.back] at hc ⊢
      grind
    · have hc := (Own.setLoc_eq_iff (by simp [hb]) (by simp)).mp hc
      exact absurd hc (h.not_taken hpc rfl c)
    · have ha : d.abandon = false := hthr.ok
      rw [ha] at e
      cases e
  · cases hs
    exact h.goto hpc rfl rfl .refl rfl (fun _ _ => rfl) (h.mem.write hlist dfree)
      ⟨hthr.mt, hthr.held, hthr.back, hthr.taken, hthr.visits, hthr.nodup, hthr.queued,
        hthr.pend, hthr.ok⟩

theorem drainFree_sim {s s' : State T P} {a : Own T P} (h : Sim s a) {t : T} {weak : Bool}
    {b : MiBlock P} {d : Drain P} (hpc : s.pc t = .drainFree b d)
    (hs : advance s t weak = some s') : ∃ a', ReflTransGen (Own.Step t) a a' ∧ Sim s' a' := by
  have hthr := h.thr t
  rw [hpc] at hthr
  have hb : a.loc b = .held t := (hthr.held b).mpr rfl
  have hp : a.heap b.page = some t := h.inv.owned b t (by simp [hb])
  unfold advance at hs
  simp only [hpc] at hs
  cases hs
  refine h.goto hpc rfl rfl (.single (.freeLocal b hp (.inr hb))) rfl (fun _ _ => rfl) ?_
    ⟨hthr.mt, fun c => ?_, fun c => ?_, fun c hc => ?_, (fun p e => by cases e), hthr.nodup,
      hthr.queued, hthr.pend, hthr.ok⟩
  · exact h.mem.freeLocal (by simp [hb]) (by simp [hb]) (by simp [hb])
      (h.mem.used_pos h.inv (by simp [hb]) (by simp [hb]) (by simp [hb]))
  · have hc := hthr.held c
    simp only [Own.setLoc, Function.update_apply, Pc.held] at hc ⊢
    grind
  · exact (Own.setLoc_eq_iff (by simp [hb]) (by simp)).trans (hthr.back c)
  · have hc := (Own.setLoc_eq_iff (by simp [hb]) (by simp)).mp hc
    exact absurd hc (h.not_taken hpc rfl c)

/-! ## `_mi_page_try_use_delayed_free` -/

/-- A block of the delayed list will be freed: its page may have been left with the flag up. -/
theorem Sim.reuse {s s₁ : State T P} {a : Own T P} (h : Sim s a) {t : T} {pc : Pc T P}
    {b : MiBlock P} {d : Drain P} (hpc : s.pc t = pc)
    (hview : pc.view = (.idle, d.next, none, none, some b, none)) (hcol : pc.collecting = none)
    (hok : d.Ok (s.delayed t) (a.Marked t)) (hf : a.flag b.page ≠ .delayedFreeing)
    (hpc₁ : s₁.pc = s.pc) (hpages : s₁.pages = s.pages) (hdelayed : s₁.delayed = s.delayed)
    (mem : Mem s₁ (hands s) (takens s) (a.setFlag b.page (Own.reused (a.flag b.page)))) :
    ∃ a', ReflTransGen (Own.Step t) a a' ∧
      Sim (s₁.setPc t (.collect b.page false (.delayed b d))) a' := by
  have hthr := h.thr t
  rw [hpc] at hthr
  simp only [Pc.view, Prod.mk.injEq] at hview
  obtain ⟨hmt, hhand, htaken, hheld, hback, hadopt⟩ := hview
  have hb : a.loc b = .back t := (hthr.back b).mpr hback
  have hp : a.heap b.page = some t := h.inv.owned b t (by simp [hb])
  have hmem := mem.setLoc (b := b) (l := .held t) (by simp [Own.setFlag, hb, Loc.place])
    (by simp [Own.setFlag, hb]) (by simp [Own.setFlag, hb]) rfl (by simp) (by simp)
  refine h.goto hpc hhand.symm htaken.symm (.single (.reuse b hb hf)) hpc₁
    (fun u _ => by rw [hpages]) (hmem.congr rfl rfl rfl rfl rfl rfl rfl rfl rfl) ?_
  rw [hpages, hdelayed]
  refine ⟨?_, fun c => ?_, fun c => ?_, fun c hc => ?_, fun p e => ?_, hthr.nodup, fun p => ?_,
    fun p hq hpend => ?_, rfl, fun e => ⟨fun q hq => ?_, (hok e).2⟩⟩
  · have hm := hthr.mt
    rw [hmt] at hm
    exact hm
  · have hc := hthr.held c
    rw [hheld] at hc
    show Function.update a.loc b (.held t) c = _ ↔ some b = some c
    by_cases hcb : c = b
    · subst hcb
      simp
    · rw [Function.update_of_ne hcb, hc]
      exact ⟨(fun e => by cases e), fun e => absurd (Option.some.inj e).symm hcb⟩
  · have hc := hthr.back c
    rw [hback] at hc
    show Function.update a.loc b (.held t) c = _ ↔ none = some c
    by_cases hcb : c = b
    · subst hcb
      simp
    · rw [Function.update_of_ne hcb, hc]
      exact ⟨fun e => absurd (Option.some.inj e).symm hcb, (fun e => by cases e)⟩
  · have hc : a.loc c = .list (.taken t) := (Own.setLoc_eq_iff (by simp [hb]) (by simp)).mp hc
    exact absurd hc (h.not_taken hpc htaken c)
  · cases e
    exact hp
  · have hq := hthr.queued p
    rw [hadopt] at hq
    exact hq
  · show some b.page = some p
    have hpend : Function.update a.pend b.page true p = true := hpend
    by_cases hpb : p = b.page
    · rw [hpb]
    · rw [Function.update_of_ne hpb] at hpend
      have hc := hthr.pend p hq hpend
      rw [hcol] at hc
      cases hc
  · show Function.update a.flag b.page _ q = _
    by_cases hqb : q = b.page
    · subst hqb
      rw [Function.update_self, (hok e).1 b.page hp]
      rfl
    · rw [Function.update_of_ne hqb]
      exact (hok e).1 q hq

theorem tryLoad_sim {s s' : State T P} {a : Own T P} (h : Sim s a) {t : T} {weak : Bool} {p : P}
    {delay : MiDelayed} {override : Bool} {yields : Nat} {k : TryFor P}
    (hpc : s.pc t = .tryLoad p delay override yields k) (hs : advance s t weak = some s') :
    ∃ a', ReflTransGen (Own.Step t) a a' ∧ Sim s' a' := by
  have hthr := h.thr t
  rw [hpc] at hthr
  have hp : a.heap p = some t := hthr.visits p rfl
  have hflag := h.mem.flag p
  have hok : k.Ok (s.pages t) (s.delayed t) (a.Marked t) a.flag p delay override := hthr.ok
  have hvisits : ∀ {pc' : Pc T P}, pc'.visits = some p →
      ∀ q, pc'.visits = some q → a.heap q = some t := by
    intro pc' hv q hq
    rw [hv] at hq
    cases hq
    exact hp
  -- the flag is what it should be, or may not be touched any more
  have htrue : (a.flag p = delay ∨ override = false ∧ a.flag p = .neverDelayedFree) →
      a.flag p ≠ .delayedFreeing →
      ∃ a', ReflTransGen (Own.Step t) a a' ∧ Sim (s.setPc t (k.onTrue p)) a' := by
    intro hd hf
    cases k with
    | delayed b d =>
        obtain ⟨rfl, hdelay, hover, hdrain⟩ := hok
        have hr : Own.reused (a.flag b.page) = a.flag b.page := by
          rcases hd with hd | ⟨-, hd⟩
          · rw [hd, hdelay]
            rfl
          · rw [hd]
            rfl
        refine h.reuse hpc rfl rfl hdrain hf rfl rfl rfl ?_
        refine h.mem.congr rfl rfl rfl rfl rfl rfl rfl ?_ rfl
        exact Function.update_eq_self_iff.mpr hr
    | never rest =>
        obtain ⟨hdelay, hover, hpp, hrest, hall⟩ := hok
        refine h.stutter hpc rfl rfl (fun p e => by cases e) (fun p e => by cases e)
          ⟨hrest, fun q hq hqr => ?_⟩
        by_cases hqp : q = p
        · subst hqp
          rcases hd with hd | ⟨-, hd⟩
          · exact hd.trans hdelay
          · exact hd
        · exact hall q hq hqp hqr
    | reclaim =>
        obtain ⟨hdelay, hover, hn⟩ := hok
        rcases hd with hd | ⟨hd, -⟩
        · rw [hn, hdelay] at hd
          cases hd
        · rw [hover] at hd
          cases hd
  unfold advance at hs
  simp only [hpc] at hs
  split at hs
  · rename_i hf
    have hf : a.flag p = .delayedFreeing := hflag.symm.trans hf
    split at hs
    · -- the thread that is announced takes too long
      cases hs
      cases k with
      | delayed b d =>
          refine h.stutter hpc rfl rfl (fun p e => by cases e) (fun p e => by cases e) ?_
          obtain ⟨rfl, -, -, hdrain⟩ := hok
          show d.abandon = false
          by_contra ha
          have hn := (hdrain (by simpa using ha)).1 b.page hp
          rw [hf] at hn
          cases hn
      | never rest | reclaim =>
          exact h.stutter hpc rfl rfl (hvisits rfl) (fun p e => by cases e) hok
    · cases hs
      exact h.stutter hpc rfl rfl (hvisits rfl) (fun p e => by cases e) hok
  · rename_i hf
    have hf : a.flag p ≠ .delayedFreeing := fun e => hf (hflag.trans e)
    split at hs
    · rename_i hd
      cases hs
      exact htrue (.inl (hflag.symm.trans hd)) hf
    · split at hs
      · rename_i hd
        cases hs
        exact htrue (.inr ⟨hd.1, hflag.symm.trans hd.2⟩) hf
      · rename_i hd
        cases hs
        refine h.stutter hpc rfl rfl (hvisits rfl) (fun p e => by cases e) ⟨hok, ?_, ?_⟩
        · exact fun e => hf (hflag.symm.trans e)
        · exact fun ho e => hd ⟨ho, e⟩

theorem tryCas_sim {s s' : State T P} {a : Own T P} (h : Sim s a) {t : T} {weak : Bool} {p : P}
    {delay : MiDelayed} {override : Bool} {yields : Nat} {tfree : MiThreadFree P} {k : TryFor P}
    (hpc : s.pc t = .tryCas p delay override yields tfree k) (hs : advance s t weak = some s') :
    ∃ a', ReflTransGen (Own.Step t) a a' ∧ Sim s' a' := by
  have hthr := h.thr t
  rw [hpc] at hthr
  have hp : a.heap p = some t := hthr.visits p rfl
  have hheap : a.heap p ≠ none := by simp [hp]
  have hflag := h.mem.flag p
  obtain ⟨hok, hf, hn⟩ : k.Ok (s.pages t) (s.delayed t) (a.Marked t) a.flag p delay override ∧
      tfree.delayed ≠ .delayedFreeing ∧ (override = false → tfree.delayed ≠ .neverDelayedFree) :=
    hthr.ok
  unfold advance at hs
  simp only [hpc] at hs
  split at hs
  · rename_i hnow
    cases hs
    obtain ⟨rfl, -⟩ := hnow
    rw [hflag] at hf hn
    have hmem := h.mem.setFlag p delay hheap
    cases k with
    | delayed b d =>
        obtain ⟨rfl, rfl, hover, hdrain⟩ := hok
        have hr : Own.reused (a.flag b.page) = .useDelayedFree := by
          have hn := hn hover
          cases ha : a.flag b.page <;> simp_all [Own.reused]
        refine h.reuse hpc rfl rfl hdrain hf rfl rfl rfl ?_
        rw [hr]
        exact hmem
    | never rest =>
        obtain ⟨rfl, hover, hpp, hrest, hall⟩ := hok
        refine h.goto hpc rfl rfl (.single (.never p hp hf)) rfl (fun _ _ => rfl)
          (hmem.congr rfl rfl rfl rfl rfl rfl rfl rfl rfl) ⟨hthr.mt, hthr.held, hthr.back,
          fun b hb => absurd hb (h.not_taken hpc rfl b), (fun p e => by cases e), hthr.nodup,
          hthr.queued, fun q hq hpend => ?_, hrest, fun q hq hqr => ?_⟩
        · simp only [Own.setPend, Own.setFlag, Function.update_apply] at hpend
          split at hpend
          · cases hpend
          · exact hthr.pend q hq hpend
        · show Function.update a.flag p _ q = _
          by_cases hqp : q = p
          · rw [hqp, Function.update_self]
          · rw [Function.update_of_ne hqp]
            exact hall q hq hqp hqr
    | reclaim =>
        obtain ⟨rfl, hover, -⟩ := hok
        refine h.goto hpc rfl rfl (.single (.override p hp hf)) rfl (fun _ _ => rfl)
          (hmem.congr rfl rfl rfl rfl rfl rfl rfl rfl rfl) ⟨hthr.mt, hthr.held, hthr.back,
          fun b hb => absurd hb (h.not_taken hpc rfl b), hthr.visits, hthr.nodup,
          hthr.queued, fun q hq hpend => ?_, trivial⟩
        simp only [Own.setPend, Own.setFlag, Function.update_apply] at hpend
        split at hpend
        · rename_i hqp
          show some p = some q
          rw [hqp]
        · have hc := hthr.pend q hq hpend
          cases hc
  · cases hs
    exact h.stutter hpc rfl rfl hthr.visits (fun p e => by cases e) hok

/-! ## `_mi_page_free_collect` -/

section OnDone
omit [DecidableEq T] [DecidableEq P]

theorem CollectFor.onDone_view (k : CollectFor P) (p : P) :
    (k.onDone p : Pc T P).view = (.idle, k.hand, none, k.held, none, k.adopting p) := by
  cases k <;> rfl

theorem CollectFor.onDone_visits {k : CollectFor P} {p q : P}
    (h : (k.onDone p : Pc T P).visits = some q) : q = p := by
  cases k with
  | done | delayed => cases h
  | abandon | reclaim => exact (Option.some.inj h).symm

theorem CollectFor.onDone_ok {k : CollectFor P} {p : P} {pages : List P}
    {delayed : Option (MiBlock P)} {marked : Prop} {flag : P → MiDelayed}
    (h : k.Ok pages delayed marked p) : (k.onDone p : Pc T P).Ok pages delayed marked flag := by
  cases k with
  | done | reclaim => trivial
  | delayed b d => exact h.2
  | abandon rest => exact h

end OnDone

omit [DecidableEq T] in
theorem miPageLocalCollect_frame {s s' : State T P} {p : P} {force : Bool}
    (h : miPageLocalCollect s p force = some s') :
    s'.pc = s.pc ∧ s'.pages = s.pages ∧ s'.delayed = s.delayed := by
  unfold miPageLocalCollect at h
  simp only at h
  split at h
  · cases h
    exact ⟨rfl, rfl, rfl⟩
  · split at h
    · cases h
      exact ⟨rfl, rfl, rfl⟩
    · split at h
      · split at h
        · cases h
        · cases h
          exact ⟨rfl, rfl, rfl⟩
      · cases h
        exact ⟨rfl, rfl, rfl⟩

theorem Own.keeps_refill (u : T) (a : Own T P) (p : P) :
    Own.Keeps u a (a.moveAll (.localFree p) (.free p)) := by
  constructor <;> simp only [Own.moveAll] <;> grind

/-- The rest of `_mi_page_free_collect`: it comes to an end. -/
theorem Sim.collectRest {s s₁ s' : State T P} {a a₁ : Own T P} (h : Sim s a) {t : T} {p : P}
    {force : Bool} {k : CollectFor P} {pc : Pc T P} (hpc : s.pc t = pc) (hhand : k.hand = pc.hand)
    (hs : ReflTransGen (Own.Step t) a a₁) (hpc₁ : s₁.pc = s.pc) (hpages : s₁.pages = s.pages)
    (mem : Mem s₁ (hands s) (Function.update (takens s) t none) a₁)
    (thr : Thr (s₁.pages t) (s₁.delayed t) (k.onDone p) a₁ t) (hp : a₁.heap p = some t)
    (hc : collectRest s₁ t p force k = some s') :
    ∃ a', ReflTransGen (Own.Step t) a a' ∧ Sim s' a' := by
  obtain ⟨s₂, hs₂, hcase⟩ := mem.localCollect (p := p) (by simp [hp]) force
  obtain ⟨hpc₂, hpages₂, hdelayed₂⟩ := miPageLocalCollect_frame hs₂
  unfold Mimalloc.collectRest at hc
  rw [hs₂] at hc
  cases hc
  have hv := k.onDone_view (T := T) p
  simp only [Pc.view, Prod.mk.injEq] at hv
  have hh : Function.update (hands s) t (k.onDone p : Pc T P).hand = hands s := by
    rw [Function.update_eq_self_iff, hv.2.1, hhand, Sim.hands_eq hpc]
  have htk : (k.onDone p : Pc T P).taken = none := hv.2.2.1
  rcases hcase with rfl | hmem
  · refine h.next hs hpc₁ (fun u _ => by rw [hpages]) ?_ thr
    rw [hh, htk]
    exact mem
  · refine h.next (hs.tail (.refill p hp)) (hpc₂.trans hpc₁)
      (fun u _ => by rw [hpages₂, hpages]) ?_ ?_
    · rw [hh, htk]
      exact hmem
    · rw [hpages₂, hdelayed₂]
      exact thr.keeps (Own.keeps_refill t a₁ p) fun _ e => e

/-- The owner has taken the thread-free list of the page. -/
theorem Thr.collected {pages : List P} {delayed : Option (MiBlock P)} {pc pc' : Pc T P}
    {a : Own T P} {t : T} {p : P} (h : Thr pages delayed pc a t) (hi : a.Inv)
    (hp : a.heap p = some t) (hcol : pc.collecting = some p)
    (hnt : ∀ b, a.loc b ≠ .list (.taken t)) (hmt : pc'.mt = pc.mt) (hheld : pc'.held = pc.held)
    (hback : pc'.back = pc.back) (hadopt : pc'.adopting = pc.adopting)
    (hvis : ∀ q, pc'.visits = some q → q = p)
    (htaken : ∀ b, a.loc b = .list (.threadFree p) → pc'.visits = some p)
    (ok : pc'.Ok pages delayed (a.Marked t) a.flag) :
    Thr pages delayed pc' ((a.moveAll (.threadFree p) (.taken t)).setPend p false) t := by
  refine ⟨?_, fun b => ?_, fun b => ?_, fun b hb => ?_, fun q hq => ?_, h.nodup, fun q => ?_,
    fun q hq hpend => ?_, ok⟩
  · rw [hmt]
    exact h.mt
  · rw [hheld]
    exact (Own.moveAll_eq_iff (by simp)).trans (h.held b)
  · rw [hback]
    exact (Own.moveAll_eq_iff (by simp)).trans (h.back b)
  · have hb : (if a.loc b = .list (.threadFree p) then Loc.list (.taken t) else a.loc b) =
        .list (.taken t) := hb
    split at hb
    · rename_i hbp
      rw [hi.listed b p (.inr (.inr hbp))]
      exact htaken b hbp
    · exact absurd hb (hnt b)
  · rw [hvis q hq]
    exact hp
  · rw [hadopt]
    exact h.queued q
  · have hpend : Function.update a.pend p false q = true := hpend
    have hqp : q ≠ p := by
      rintro rfl
      rw [Function.update_self] at hpend
      cases hpend
    rw [Function.update_of_ne hqp] at hpend
    have hc := h.pend q hq hpend
    rw [hcol] at hc
    exact absurd (Option.some.inj hc).symm hqp

theorem collect_sim {s s' : State T P} {a : Own T P} (h : Sim s a) {t : T} {weak : Bool} {p : P}
    {force : Bool} {k : CollectFor P} (hpc : s.pc t = .collect p force k)
    (hs : advance s t weak = some s') : ∃ a', ReflTransGen (Own.Step t) a a' ∧ Sim s' a' := by
  have hthr := h.thr t
  rw [hpc] at hthr
  have hp : a.heap p = some t := hthr.visits p rfl
  unfold advance at hs
  simp only [hpc] at hs
  split at hs
  · cases hs
    exact h.stutter hpc rfl rfl hthr.visits (fun q e => e) hthr.ok
  · -- nothing to take
    rename_i hf
    have hnone : (s.page p).xthreadFree.block = none := by
      by_contra e
      exact hf (.inr e)
    have hempty := h.mem.head_none (x := .threadFree p) hnone
    have hv := k.onDone_view (T := T) p
    simp only [Pc.view, Prod.mk.injEq] at hv
    obtain ⟨hmt, -, -, hheld, hback, hadopt⟩ := hv
    refine h.collectRest hpc rfl (.single (.collect p hp)) rfl rfl ?_ ?_ hp hs
    · have hmem := h.mem.collect (t := t) (p := p) (by simp [hp])
        (by show (s.pc t).taken = none; rw [hpc]; rfl)
      rw [hnone] at hmem
      refine hmem.congr rfl ?_ rfl rfl rfl rfl rfl rfl rfl
      refine (Function.update_eq_self_iff.mpr ?_).symm
      rw [← hnone]
    · exact hthr.collected h.inv hp rfl (h.not_taken hpc rfl) hmt hheld hback hadopt
        (fun q hq => k.onDone_visits hq) (fun b hb => absurd hb (hempty b)) (k.onDone_ok hthr.ok)

theorem collectCas_sim {s s' : State T P} {a : Own T P} (h : Sim s a) {t : T} {weak : Bool} {p : P}
    {force : Bool} {tfree : MiThreadFree P} {k : CollectFor P}
    (hpc : s.pc t = .collectCas p force tfree k) (hs : advance s t weak = some s') :
    ∃ a', ReflTransGen (Own.Step t) a a' ∧ Sim s' a' := by
  have hthr := h.thr t
  rw [hpc] at hthr
  have hp : a.heap p = some t := hthr.visits p rfl
  unfold advance at hs
  simp only [hpc] at hs
  split at hs
  · rename_i hnow
    obtain ⟨rfl, -⟩ := hnow
    have htk : takens s t = none := by
      show (s.pc t).taken = none
      rw [hpc]
      rfl
    have hmem := h.mem.collect (t := t) (p := p) (by simp [hp]) htk
    split at hs
    · rename_i hnone
      have hempty := h.mem.head_none (x := .threadFree p) hnone
      have hv := k.onDone_view (T := T) p
      simp only [Pc.view, Prod.mk.injEq] at hv
      obtain ⟨hmt, -, -, hheld, hback, hadopt⟩ := hv
      refine h.collectRest hpc rfl (.single (.collect p hp)) ?_ ?_ ?_ ?_ hp hs
      · rfl
      · rfl
      · rw [hnone] at hmem
        exact hmem.congr rfl rfl rfl rfl rfl rfl rfl rfl rfl
      · exact hthr.collected h.inv hp rfl (h.not_taken hpc rfl) hmt hheld hback hadopt
          (fun q hq => k.onDone_visits hq) (fun b hb => absurd hb (hempty b))
          (k.onDone_ok hthr.ok)
    · rename_i head hhead
      cases hs
      refine h.next (.single (.collect p hp)) rfl (fun _ _ => rfl) ?_ ?_
      · have hh : Function.update (hands s) t k.hand = hands s :=
          Function.update_eq_self_iff.mpr (Sim.hands_eq hpc).symm
        show Mem _ (Function.update (hands s) t k.hand) (Function.update (takens s) t (some head)) _
        rw [hh, ← hhead]
        exact hmem.congr rfl rfl rfl rfl rfl rfl rfl rfl rfl
      · exact hthr.collected h.inv hp rfl (h.not_taken hpc rfl) rfl rfl rfl rfl
          (fun q hq => (Option.some.inj hq).symm) (fun _ _ => rfl) hthr.ok
  · cases hs
    exact h.stutter hpc rfl rfl hthr.visits (fun q e => e) hthr.ok

theorem collectAppend_sim {s s' : State T P} {a : Own T P} (h : Sim s a) {t : T} {weak : Bool}
    {p : P} {force : Bool} {head : MiBlock P} {k : CollectFor P}
    (hpc : s.pc t = .collectAppend p force head k) (hs : advance s t weak = some s') :
    ∃ a', ReflTransGen (Own.Step t) a a' ∧ Sim s' a' := by
  have hthr := h.thr t
  rw [hpc] at hthr
  have hp : a.heap p = some t := hthr.visits p rfl
  have htk : takens s t = some head := by
    show (s.pc t).taken = some head
    rw [hpc]
    rfl
  have htp : ∀ b, a.loc b = .list (.taken t) → b.page = p := fun b hb =>
    (Option.some.inj (hthr.taken b hb)).symm
  have hframe : (miPageThreadFreeAppend s p head).pc = s.pc ∧
      (miPageThreadFreeAppend s p head).pages = s.pages ∧
      (miPageThreadFreeAppend s p head).delayed = s.delayed := by
    unfold miPageThreadFreeAppend
    simp only
    split <;> exact ⟨rfl, rfl, rfl⟩
  obtain ⟨hpc₁, hpages₁, hdelayed₁⟩ := hframe
  have hv := k.onDone_view (T := T) p
  simp only [Pc.view, Prod.mk.injEq] at hv
  obtain ⟨hmt, -, -, hheld, hback, hadopt⟩ := hv
  unfold advance at hs
  simp only [hpc] at hs
  refine h.collectRest hpc rfl (.single (.append p hp htp)) hpc₁ hpages₁
    (h.mem.append h.inv htk htp) ?_ hp hs
  rw [hpages₁, hdelayed₁]
  refine ⟨hmt ▸ hthr.mt, fun b => ?_, fun b => ?_, fun b hb => ?_, fun q hq => ?_, hthr.nodup,
    fun q => ?_, fun q hq hpend => ?_, k.onDone_ok hthr.ok⟩
  · rw [hheld]
    exact (Own.moveAll_eq_iff (by simp)).trans (hthr.held b)
  · rw [hback]
    exact (Own.moveAll_eq_iff (by simp)).trans (hthr.back b)
  · simp only [Own.moveAll] at hb
    split at hb <;> simp_all
  · rw [k.onDone_visits hq]
    exact hp
  · rw [hadopt]
    exact hthr.queued q
  · have hc := hthr.pend q hq hpend
    cases hc

/-! ## `mi_heap_collect_ex(MI_ABANDON)` and `mi_segment_reclaim` -/

omit [DecidableEq T] in
/-- A page leaves the heap of the thread. -/
theorem Thr.removed {pages : List P} {delayed : Option (MiBlock P)} {pc pc' : Pc T P}
    {a a' : Own T P} {t : T} {p : P} (h : Thr pages delayed pc a t) (hmt : a'.mt = a.mt)
    (hheap : a'.heap = Function.update a.heap p none)
    (hpend : ∀ q, q ≠ p → a'.pend q = a.pend q)
    (hloc : ∀ b k, k = .held t ∨ k = .back t ∨ k = .list (.taken t) → (a'.loc b = k ↔ a.loc b = k))
    (hview : (pc'.mt, pc'.held, pc'.back) = (pc.mt, pc.held, pc.back))
    (hadopt : ∀ q, q ≠ p → (pc'.adopting = some q ↔ pc.adopting = some q))
    (hvis : ∀ q, pc'.visits ≠ some q) (hcol : ∀ q, pc.collecting ≠ some q)
    (hnt : ∀ b, a.loc b ≠ .list (.taken t))
    (ok : pc'.Ok (pages.filter (· ≠ p)) delayed (a'.Marked t) a'.flag) :
    Thr (pages.filter (· ≠ p)) delayed pc' a' t := by
  simp only [Prod.mk.injEq] at hview
  obtain ⟨hpm, hph, hpb⟩ := hview
  refine ⟨?_, fun b => ?_, fun b => ?_, fun b hb => ?_, fun q hq => absurd hq (hvis q),
    h.nodup.filter _, fun q => ?_, fun q hq hqp => ?_, ok⟩
  · rw [hmt, hpm]
    exact h.mt
  · rw [hph]
    exact (hloc b _ (.inl rfl)).trans (h.held b)
  · rw [hpb]
    exact (hloc b _ (.inr (.inl rfl))).trans (h.back b)
  · exact absurd ((hloc b _ (.inr (.inr rfl))).mp hb) (hnt b)
  · rw [hheap, List.mem_filter, h.queued q]
    by_cases hqp : q = p
    · subst hqp
      simp
    · rw [Function.update_of_ne hqp]
      have hq := hadopt q hqp
      simp only [ne_eq, hqp, not_false_eq_true, decide_true, and_true, hq]
  · rw [hheap] at hq
    have hne : q ≠ p := by
      rintro rfl
      rw [Function.update_self] at hq
      cases hq
    rw [Function.update_of_ne hne] at hq
    rw [hpend q hne] at hqp
    exact absurd (h.pend q hq hqp) (hcol q)

omit [DecidableEq T] in
theorem Own.Marked.removed {a a' : Own T P} {t : T} {p : P} (h : a.Marked t)
    (hheap : a'.heap = Function.update a.heap p none)
    (hflag : ∀ q, q ≠ p → a'.flag q = a.flag q) : a'.Marked t := by
  intro q hq
  have hne : q ≠ p := by
    rintro rfl
    rw [hheap, Function.update_self] at hq
    cases hq
  rw [hheap, Function.update_of_ne hne] at hq
  rw [hflag q hne]
  exact h q hq

/-- The ownership state after a page was given back. -/
def Own.cleared (a : Own T P) (p : P) : Own T P :=
  { (((a.setHeap p none).setFlag p .useDelayedFree).setPend p false) with
    loc := fun b => if b.page = p then .unborn else a.loc b }

omit [DecidableEq T] in
/-- A page of which no block is used is given back. -/
theorem Thr.cleared {pages : List P} {delayed : Option (MiBlock P)} {pc pc' : Pc T P}
    {a : Own T P} {t : T} {p : P} (h : Thr pages delayed pc a t)
    (hall : ∀ b, b.page = p → a.loc b = .unborn ∨ a.loc b = .list (.free p) ∨
      a.loc b = .list (.localFree p))
    (hview : (pc'.mt, pc'.held, pc'.back) = (pc.mt, pc.held, pc.back))
    (hadopt : ∀ q, q ≠ p → (pc'.adopting = some q ↔ pc.adopting = some q))
    (hvis : ∀ q, pc'.visits ≠ some q) (hcol : ∀ q, pc.collecting ≠ some q)
    (hnt : ∀ b, a.loc b ≠ .list (.taken t))
    (ok : pc'.Ok (pages.filter (· ≠ p)) delayed ((a.cleared p).Marked t) (a.cleared p).flag) :
    Thr (pages.filter (· ≠ p)) delayed pc' (a.cleared p) t := by
  refine h.removed rfl rfl (fun q hq => Function.update_of_ne hq ..) ?_ hview hadopt hvis hcol hnt
    ok
  intro b k hk
  show (if b.page = p then Loc.unborn else a.loc b) = k ↔ _
  split
  · rename_i hb
    have hb := hall b hb
    grind
  · rfl

theorem abandonMark_sim {s s' : State T P} {a : Own T P} (h : Sim s a) {t : T} {weak : Bool}
    {rest : List P} (hpc : s.pc t = .abandonMark rest) (hs : advance s t weak = some s') :
    ∃ a', ReflTransGen (Own.Step t) a a' ∧ Sim s' a' := by
  have hthr := h.thr t
  rw [hpc] at hthr
  obtain ⟨hrest, hall⟩ := hthr.ok
  unfold advance at hs
  simp only [hpc] at hs
  cases rest with
  | nil =>
      cases hs
      refine h.stutter hpc rfl rfl (fun p e => by cases e) (fun p e => by cases e) fun _ =>
        ⟨fun q hq => ?_, fun e => e⟩
      exact hall q ((hthr.queued q).mpr ⟨hq, fun e => by cases e⟩) List.not_mem_nil
  | cons p rest =>
      cases hs
      have hpp := hrest (List.mem_cons_self ..)
      refine h.stutter hpc rfl rfl (fun q hq => ?_) (fun p e => by cases e)
        ⟨rfl, rfl, hpp, fun q hq => hrest (List.mem_cons_of_mem p hq), fun q hq hqp hqr => ?_⟩
      · cases hq
        exact ((hthr.queued p).mp hpp).1
      · refine hall q hq fun hmem => ?_
        rcases List.mem_cons.mp hmem with e | e
        · exact hqp e
        · exact hqr e

theorem abandonCollect_sim {s s' : State T P} {a : Own T P} (h : Sim s a) {t : T} {weak : Bool}
    {rest : List P} (hpc : s.pc t = .abandonCollect rest) (hs : advance s t weak = some s') :
    ∃ a', ReflTransGen (Own.Step t) a a' ∧ Sim s' a' := by
  have hthr := h.thr t
  rw [hpc] at hthr
  obtain ⟨hleave, hpages⟩ := hthr.ok
  unfold advance at hs
  simp only [hpc] at hs
  cases rest with
  | nil =>
      cases hs
      exact h.stutter hpc rfl rfl (fun p e => by cases e) (fun p e => by cases e) trivial
  | cons p rest =>
      cases hs
      refine h.stutter hpc rfl rfl (fun q hq => ?_) (fun p e => by cases e) ⟨hleave, hpages⟩
      cases hq
      exact ((hthr.queued p).mp (hpages ▸ List.mem_cons_self ..)).1

theorem abandonPage_sim {s s' : State T P} {a : Own T P} (h : Sim s a) {t : T} {weak : Bool}
    {p : P} {rest : List P} (hpc : s.pc t = .abandonPage p rest)
    (hs : advance s t weak = some s') : ∃ a', ReflTransGen (Own.Step t) a a' ∧ Sim s' a' := by
  have hthr := h.thr t
  rw [hpc] at hthr
  have hp : a.heap p = some t := hthr.visits p rfl
  have hi := h.inv
  obtain ⟨⟨hmarked, hdelayed⟩, hpages⟩ := hthr.ok
  have hfilter : (s.pages t).filter (· ≠ p) = rest := by
    have hn := hthr.nodup
    rw [hpages] at hn ⊢
    obtain ⟨hpr, -⟩ := List.nodup_cons.mp hn
    rw [List.filter_cons_of_neg (by simp), List.filter_eq_self]
    intro q hq
    have hqp : q ≠ p := fun e => hpr (e ▸ hq)
    simpa using hqp
  have hothers : ∀ u, u ≠ t → (miPageQueueRemove s t p).pages u = s.pages u :=
    fun u hu => Function.update_of_ne hu ..
  have hself : (miPageQueueRemove s t p).pages t = (s.pages t).filter (· ≠ p) :=
    Function.update_self ..
  unfold advance at hs
  simp only [hpc] at hs
  split at hs
  · rename_i hu
    cases hs
    have hall := fun b hb => h.mem.all_free hi hu (b := b) hb
    refine h.goto hpc rfl rfl (.single (.clear p hp hall)) rfl hothers
      ((h.mem.clear hi hu).congr rfl rfl rfl rfl rfl rfl rfl rfl rfl) ?_
    show Thr ((miPageQueueRemove s t p).pages t) (s.delayed t) _ (a.cleared p) t
    rw [hself]
    refine hthr.cleared hall rfl (fun _ _ => Iff.rfl) (fun q e => by cases e)
      (fun q e => by cases e) (h.not_taken hpc rfl) ⟨⟨?_, hdelayed⟩, hfilter⟩
    exact hmarked.removed rfl fun q hq => Function.update_of_ne hq ..
  · rename_i hu
    cases hs
    have hhand : hands s t = none := Sim.hands_eq hpc
    -- nothing of the page is on its way to the heap
    have hall : ∀ b, b.page = p → a.loc b = .unborn ∨ a.loc b = .live ∨
        (∃ u, a.loc b = .freeing u) ∨ a.loc b = .list (.free p) ∨ a.loc b = .list (.localFree p) ∨
        a.loc b = .list (.threadFree p) := by
      rintro b rfl
      have hl := fun q => hi.listed b q
      have ho := fun u => hi.owned b u
      have hheld := hthr.held b
      have hback := hthr.back b
      have h₁ := h.mem.head_none (x := .delayed t) hdelayed b
      have h₂ := h.mem.head_none (x := .hand t) hhand b
      have h₃ := h.not_taken hpc rfl b
      simp only [Pc.held, Pc.back, reduceCtorEq, iff_false] at hheld hback
      cases hb : a.loc b with
      | list x => cases x <;> grind
      | _ => grind
    have hcap : (s.page p).capacity ≠ 0 := by
      obtain ⟨L, L', -, -, hcount⟩ := h.mem.count p
      omega
    refine h.goto hpc rfl rfl (.single (.leave p hp (hmarked p hp) hall)) rfl hothers ?_ ?_
    · exact (h.mem.setHeap p none (s.page p).reserved (s.page p).xblockSize (h.mem.reserved p)
        (fun _ => hcap)).congr rfl rfl rfl rfl rfl rfl rfl rfl rfl
    · show Thr ((miPageQueueRemove s t p).pages t) (s.delayed t) _ _ t
      rw [hself]
      refine hthr.removed rfl rfl (fun _ _ => rfl) (fun _ _ _ => Iff.rfl) rfl
        (fun _ _ => Iff.rfl) (fun q e => by cases e) (fun q e => by cases e) (h.not_taken hpc rfl)
        ⟨⟨?_, hdelayed⟩, hfilter⟩
      exact hmarked.removed rfl fun _ _ => rfl

theorem reclaimPage_sim {s s' : State T P} {a : Own T P} (h : Sim s a) {t : T} {weak : Bool}
    {p : P} (hpc : s.pc t = .reclaimPage p) (hs : advance s t weak = some s') :
    ∃ a', ReflTransGen (Own.Step t) a a' ∧ Sim s' a' := by
  have hthr := h.thr t
  rw [hpc] at hthr
  have hp : a.heap p = some t := hthr.visits p rfl
  have hpp : p ∉ s.pages t := fun hq => ((hthr.queued p).mp hq).2 rfl
  unfold advance at hs
  simp only [hpc] at hs
  split at hs
  · rename_i hu
    cases hs
    have hall := fun b hb => h.mem.all_free h.inv hu (b := b) hb
    have hfilter : (s.pages t).filter (· ≠ p) = s.pages t := by
      rw [List.filter_eq_self]
      intro q hq
      have hqp : q ≠ p := fun e => hpp (e ▸ hq)
      simpa using hqp
    refine h.goto hpc rfl rfl (.single (.clear p hp hall)) rfl (fun _ _ => rfl)
      ((h.mem.clear h.inv hu).congr rfl rfl rfl rfl rfl rfl rfl rfl rfl) ?_
    have hadopt : ∀ q, q ≠ p → ((Pc.idle : Pc T P).adopting = some q ↔
        (Pc.reclaimPage p : Pc T P).adopting = some q) := fun q hq =>
       ⟨(fun e => by cases e), fun e => absurd (Option.some.inj e).symm hq⟩
    have hc : Thr _ _ Pc.idle _ t := hthr.cleared hall rfl hadopt (fun q e => by cases e)
      (fun q e => by cases e) (h.not_taken hpc rfl) trivial
    rw [hfilter] at hc
    exact hc
  · cases hs
    refine h.goto hpc rfl rfl .refl rfl (fun u hu => Function.update_of_ne hu ..)
      (h.mem.congr rfl rfl rfl rfl rfl rfl rfl rfl rfl) ?_
    show Thr (Function.update s.pages t (p :: s.pages t) t) (s.delayed t) _ a t
    rw [Function.update_self]
    refine ⟨hthr.mt, hthr.held, hthr.back, fun b hb => absurd hb (h.not_taken hpc rfl b),
      (fun q e => by cases e), List.nodup_cons.mpr ⟨hpp, hthr.nodup⟩, fun q => ?_,
      hthr.pend, trivial⟩
    rw [List.mem_cons, hthr.queued q]
    simp only [Pc.adopting, ne_eq, Option.some.injEq, reduceCtorEq, not_false_eq_true, and_true]
    constructor
    · rintro (rfl | hq)
      · exact hp
      · exact hq.1
    · intro hq
      by_cases hqp : q = p
      · exact .inl hqp
      · exact .inr ⟨hq, fun e => hqp e.symm⟩

/-- Every step of a thread. -/
theorem advance_sim {s s' : State T P} {a : Own T P} (h : Sim s a) {t : T} {weak : Bool}
    (hs : advance s t weak = some s') : ∃ a', ReflTransGen (Own.Step t) a a' ∧ Sim s' a' := by
  cases hpc : s.pc t with
  | idle =>
      unfold advance at hs
      rw [hpc] at hs
      cases hs
  | mtFree b tfree => exact mtFree_sim h hpc hs
  | mtHeap b => exact mtHeap_sim h hpc hs
  | mtDelay b u dfree => exact mtDelay_sim h hpc hs
  | mtReset p tfree => exact mtReset_sim h hpc hs
  | drainTake block abandon => exact drainTake_sim h hpc hs
  | drain d => exact drain_sim h hpc hs
  | drainInsert b d dfree => exact drainInsert_sim h hpc hs
  | drainFree b d => exact drainFree_sim h hpc hs
  | tryLoad p delay override yields k => exact tryLoad_sim h hpc hs
  | tryCas p delay override yields tfree k => exact tryCas_sim h hpc hs
  | collect p force k => exact collect_sim h hpc hs
  | collectCas p force tfree k => exact collectCas_sim h hpc hs
  | collectAppend p force head k => exact collectAppend_sim h hpc hs
  | abandonMark rest => exact abandonMark_sim h hpc hs
  | abandonRetired =>
      have hthr := h.thr t
      rw [hpc] at hthr
      unfold advance at hs
      rw [hpc] at hs
      cases hs
      exact h.stutter hpc rfl rfl (fun p e => by cases e) (fun p e => by cases e) ⟨hthr.ok, rfl⟩
  | abandonCollect rest => exact abandonCollect_sim h hpc hs
  | abandonPage p rest => exact abandonPage_sim h hpc hs
  | reclaimPage p => exact reclaimPage_sim h hpc hs

/-! ## What a thread may call -/

omit [DecidableEq P] in
theorem State.setPc_self (s : State T P) (t : T) : s.setPc t (s.pc t) = s := by
  unfold State.setPc
  rw [Function.update_eq_self]

/-- A thread stays where it is. -/
theorem Sim.stay {s s₁ : State T P} {a a' : Own T P} (h : Sim s a) {t : T} {pc : Pc T P}
    (hpc : s.pc t = pc) (hs : ReflTransGen (Own.Step t) a a') (hpc₁ : s₁.pc = s.pc)
    (hpages : ∀ u, u ≠ t → s₁.pages u = s.pages u) (mem : Mem s₁ (hands s) (takens s) a')
    (thr : Thr (s₁.pages t) (s₁.delayed t) pc a' t) :
    ∃ a', ReflTransGen (Own.Step t) a a' ∧ Sim s₁ a' := by
  have hgo := h.goto hpc rfl rfl hs hpc₁ hpages mem thr
  have hpc₂ : s₁.pc t = pc := by rw [hpc₁, hpc]
  subst hpc₂
  rwa [State.setPc_self] at hgo

theorem pageFree_sim {s s' : State T P} {a : Own T P} (h : Sim s a) {t : T} {p : P}
    (hs : call s t (.pageFree p) = some s') : ∃ a', ReflTransGen (Own.Step t) a a' ∧ Sim s' a' := by
  have hthr := h.thr t
  unfold call at hs
  simp only at hs
  split at hs
  swap
  · cases hs
  rename_i hc
  obtain ⟨hmay, hpp, hu⟩ := hc
  cases hs
  have hp : a.heap p = some t := ((hthr.queued p).mp hpp).1
  have hall := fun b hb => h.mem.all_free h.inv hu (b := b) hb
  have hplace : (s.pc t).taken = none ∧ (∀ q, (s.pc t).visits ≠ some q) ∧
      ∀ q, (s.pc t).collecting ≠ some q := by
    cases hpc : s.pc t <;> simp_all [Pc.mayFreePage, Pc.taken, Pc.visits, Pc.collecting]
  obtain ⟨htaken, hvis, hcol⟩ := hplace
  have hmarked : a.Marked t → (a.cleared p).Marked t := fun hm =>
    hm.removed rfl fun q hq => Function.update_of_ne hq ..
  have hok : (s.pc t).Ok ((s.pages t).filter (· ≠ p)) (s.delayed t) ((a.cleared p).Marked t)
      (a.cleared p).flag := by
    have hok := hthr.ok
    cases hpc : s.pc t with
    | idle => trivial
    | drain d =>
        rw [hpc] at hok
        exact fun e => ⟨hmarked (hok e).1, (hok e).2⟩
    | abandonRetired =>
        rw [hpc] at hok
        exact ⟨hmarked hok.1, hok.2⟩
    | _ =>
        rw [hpc] at hmay
        cases hmay
  refine h.stay rfl (.single (.clear p hp hall)) rfl (fun u hu => Function.update_of_ne hu ..)
    ((h.mem.clear h.inv hu).congr rfl rfl rfl rfl rfl rfl rfl rfl rfl) ?_
  show Thr ((miPageQueueRemove s t p).pages t) (s.delayed t) _ (a.cleared p) t
  rw [show (miPageQueueRemove s t p).pages t = (s.pages t).filter (· ≠ p) from
    Function.update_self ..]
  exact hthr.cleared hall rfl (fun _ _ => Iff.rfl) hvis hcol (h.not_taken rfl htaken) hok

theorem malloc_sim {s s' : State T P} {a : Own T P} (h : Sim s a) {t : T} {p : P}
    (hpc : s.pc t = .idle) (hpp : p ∈ s.pages t)
    (hs : (s.page p).free.map (miPageMalloc s p) = some s') :
    ∃ a', ReflTransGen (Own.Step t) a a' ∧ Sim s' a' := by
  have hthr := h.thr t
  rw [hpc] at hthr
  obtain ⟨b, hb, rfl⟩ := Option.map_eq_some_iff.mp hs
  have hl : a.loc b = .list (.free p) := h.mem.loc_head (x := .free p) hb
  have hbp : b.page = p := h.inv.listed b p (.inl hl)
  subst hbp
  have hp : a.heap b.page = some t := ((hthr.queued b.page).mp hpp).1
  refine h.stay hpc (.single (.malloc b hp hl)) rfl (fun _ _ => rfl) (h.mem.malloc h.inv hb)
    (hthr.remote rfl rfl hthr.mt rfl rfl fun c k hk => ?_)
  exact (Own.setLoc_eq_iff (by grind) (by grind)).mp

theorem free_sim {s s' : State T P} {a : Own T P} (h : Sim s a) {t : T} {b : MiBlock P}
    (hs : call s t (.free b) = some s') : ∃ a', ReflTransGen (Own.Step t) a a' ∧ Sim s' a' := by
  have hthr := h.thr t
  unfold call at hs
  simp only at hs
  split at hs
  · cases hs
  rename_i hidle
  have hpc : s.pc t = .idle := by simpa using hidle
  rw [hpc] at hthr
  split at hs
  swap
  · cases hs
  rename_i hlive
  have hl : a.loc b = .live := (h.mem.live b).mp hlive
  have hplace : (a.loc b).place = none := by rw [hl]; rfl
  have hu : a.loc b ≠ .unborn := by simp [hl]
  split at hs
  · -- the block is of a page of the thread
    rename_i hp
    cases hs
    have hp : a.heap b.page = some t := (h.mem.threadId b.page).symm.trans hp
    have hused : 0 < (s.page b.page).used := h.mem.used_pos h.inv hu (by simp [hl]) (by simp [hl])
    have hmem := h.mem.handBack (b := b) (l := .held t) hplace hu rfl (by simp) (by simp)
    have hself : (a.setLoc b (.held t)).loc b = .held t := Function.update_self ..
    have hmem := hmem.freeLocal (b := b) (by simp [hself]) (by simp [hself]) (by simp [hself]) hused
    refine h.stay hpc (.single (.freeLocal b hp (.inl hl))) rfl (fun _ _ => rfl)
      (hmem.congr rfl rfl rfl rfl rfl rfl ?_ rfl rfl)
      (hthr.remote rfl rfl hthr.mt rfl rfl fun c k hk => ?_)
    · show Function.update a.loc b _ = Function.update (Function.update a.loc b _) b _
      rw [Function.update_idem]
    · exact (Own.setLoc_eq_iff (by grind) (by grind)).mp
  · cases hs
    refine h.remote hpc rfl rfl (.freeRemote b hl hthr.mt) rfl rfl ?_ (Function.update_self ..) rfl
      rfl fun c k hk => ?_
    · exact (h.mem.handBack (b := b) (l := .freeing t) hplace hu rfl (by simp) (by simp)).congr
        rfl rfl rfl rfl rfl rfl rfl rfl rfl
    · exact (Own.setLoc_eq_iff (by grind) (by grind)).mp

theorem extend_sim {s : State T P} {a : Own T P} (h : Sim s a) {t : T} {p : P}
    (hpc : s.pc t = .idle) (hpp : p ∈ s.pages t) :
    ∃ a', ReflTransGen (Own.Step t) a a' ∧ Sim (miPageExtendFree s p) a' := by
  have hthr := h.thr t
  rw [hpc] at hthr
  have hp : a.heap p = some t := ((hthr.queued p).mp hpp).1
  obtain ⟨loc, hloc, hmem⟩ := h.mem.extend (p := p) (by simp [hp])
  have hframe : (miPageExtendFree s p).pc = s.pc ∧ (miPageExtendFree s p).pages = s.pages := by
    unfold miPageExtendFree
    simp only
    split
    · exact ⟨rfl, rfl⟩
    · split <;> exact ⟨rfl, rfl⟩
  refine h.stay hpc (.single (.extend p loc hp hloc)) hframe.1 (fun _ _ => by rw [hframe.2]) hmem ?_
  rw [hframe.2]
  refine hthr.remote rfl rfl hthr.mt rfl rfl fun c k hk hc => ?_
  have hc : loc c = k := hc
  have := hloc c
  grind

theorem fresh_sim {s : State T P} {a : Own T P} (h : Sim s a) {t : T} {p : P}
    {reserved blockSize : Nat} (hpc : s.pc t = .idle) (hz : s.page p = .zero) :
    ∃ a', ReflTransGen (Own.Step t) a a' ∧ Sim (miPageInit s t p reserved blockSize) a' := by
  have hthr := h.thr t
  rw [hpc] at hthr
  have hcap : (s.page p).capacity = 0 := by rw [hz]; rfl
  have hp : a.heap p = none := by
    rw [← h.mem.heap p, hz]
    rfl
  have hpp : p ∉ s.pages t := fun e => by
    have hq := ((hthr.queued p).mp e).1
    rw [hp] at hq
    cases hq
  have hall : ∀ b : MiBlock P, b.page = p → a.loc b = .unborn := by
    rintro b rfl
    exact (h.mem.born b).mpr (by omega)
  have hmem := h.mem.setHeap p (some t) reserved blockSize (by omega)
    (fun e => by cases e)
  refine h.stay hpc (.single (.fresh p hp hall)) rfl (fun u hu => Function.update_of_ne hu ..)
    (hmem.congr rfl rfl rfl rfl rfl rfl rfl rfl rfl) ?_
  show Thr (Function.update s.pages t (p :: s.pages t) t) (s.delayed t) _ _ t
  rw [Function.update_self]
  refine ⟨hthr.mt, hthr.held, hthr.back, hthr.taken, (fun q e => by cases e),
    List.nodup_cons.mpr ⟨hpp, hthr.nodup⟩, fun q => ?_, fun q hq hpend => ?_, trivial⟩
  · have hq := hthr.queued q
    simp only [Own.setPend, Own.setHeap, Function.update_apply, List.mem_cons]
    by_cases hqp : q = p
    · simp [hqp, Pc.adopting]
    · rw [if_neg hqp, ← hq]
      exact or_iff_right hqp
  · simp only [Own.setPend, Own.setHeap, Function.update_apply] at hq hpend
    by_cases hqp : q = p
    · simp [hqp] at hpend
    · rw [if_neg hqp] at hq hpend
      exact hthr.pend q hq hpend

theorem segmentReclaim_sim {s : State T P} {a : Own T P} (h : Sim s a) {t : T} {p : P}
    (hpc : s.pc t = .idle) (hid : (s.page p).threadId = none) (hcap : 0 < (s.page p).capacity) :
    ∃ a', ReflTransGen (Own.Step t) a a' ∧
      Sim ((s.setPage p { s.page p with threadId := some t, xheap := some t }).setPc t
        (.tryLoad p .useDelayedFree true 0 .reclaim)) a' := by
  have hthr := h.thr t
  rw [hpc] at hthr
  have hp : a.heap p = none := (h.mem.threadId p).symm.trans hid
  have hpp : p ∉ s.pages t := fun e => by
    have hq := ((hthr.queued p).mp e).1
    rw [hp] at hq
    cases hq
  have hf : a.flag p = .neverDelayedFree := by
    rcases h.inv.orphan p hp with hf | ⟨-, hall⟩
    · exact hf
    · have h0 : (s.page p).capacity ≤ 0 := (h.mem.born ⟨p, 0⟩).mp (hall ⟨p, 0⟩ rfl)
      omega
  have hmem := h.mem.setHeap p (some t) (s.page p).reserved (s.page p).xblockSize (h.mem.reserved p)
    (fun e => by cases e)
  refine h.goto hpc rfl rfl (.single (.adopt p hp hf)) rfl (fun _ _ => rfl)
    (hmem.congr rfl rfl rfl rfl rfl rfl rfl rfl rfl) ⟨hthr.mt, hthr.held, hthr.back,
    fun b hb => absurd hb (h.not_taken hpc rfl b), fun q hq => ?_, hthr.nodup, fun q => ?_,
    fun q hq hpend => ?_, rfl, rfl, hf⟩
  · cases hq
    exact Function.update_self ..
  · show q ∈ s.pages t ↔ Function.update a.heap p (some t) q = some t ∧ some p ≠ some q
    have hq := hthr.queued q
    by_cases hqp : q = p
    · subst hqp
      simp [hpp]
    · rw [Function.update_of_ne hqp, hq]
      exact and_congr_right fun _ => ⟨fun _ e => hqp (Option.some.inj e).symm,
        fun _ e => by cases e⟩
  · simp only [Own.setPend, Own.setHeap, Function.update_apply] at hq hpend
    by_cases hqp : q = p
    · simp [hqp] at hpend
    · rw [if_neg hqp] at hq hpend
      exact absurd (hthr.pend q hq hpend) (fun e => by cases e)

theorem call_sim {s s' : State T P} {a : Own T P} (h : Sim s a) {t : T} {op : Op P}
    (hs : call s t op = some s') : ∃ a', ReflTransGen (Own.Step t) a a' ∧ Sim s' a' := by
  have hthr := h.thr t
  by_cases hfree : ∃ p, op = .pageFree p
  · obtain ⟨p, rfl⟩ := hfree
    exact pageFree_sim h hs
  by_cases hidle : s.pc t = .idle
  swap
  · cases op with
    | pageFree p => exact absurd ⟨p, rfl⟩ hfree
    | _ =>
        unfold call at hs
        simp only [if_pos hidle] at hs
        cases hs
  have hpc := hidle
  rw [hpc] at hthr
  have hheap : ∀ p ∈ s.pages t, a.heap p = some t := fun p hp => ((hthr.queued p).mp hp).1
  cases op with
  | pageFree p => exact absurd ⟨p, rfl⟩ hfree
  | free b => exact free_sim h hs
  | malloc p =>
      simp only [call, hpc, ne_eq, not_true_eq_false, if_false] at hs
      split at hs
      · rename_i hp
        exact malloc_sim h hpc hp hs
      · cases hs
  | heapDelayedFreePartial =>
      simp only [call, hpc, ne_eq, not_true_eq_false, if_false] at hs
      cases hs
      exact h.stutter hpc rfl rfl (fun p e => by cases e) (fun p e => by cases e)
        (fun e => by cases e)
  | pageFreeCollect p force =>
      simp only [call, hpc, ne_eq, not_true_eq_false, if_false] at hs
      split at hs
      · rename_i hp
        cases hs
        refine h.stutter hpc rfl rfl (fun q hq => ?_) (fun p e => by cases e) trivial
        cases hq
        exact hheap p hp
      · cases hs
  | pageExtendFree p =>
      simp only [call, hpc, ne_eq, not_true_eq_false, if_false] at hs
      split at hs
      · rename_i hp
        cases hs
        exact extend_sim h hpc hp
      · cases hs
  | pageFresh p reserved blockSize =>
      simp only [call, hpc, ne_eq, not_true_eq_false, if_false] at hs
      split at hs
      · rename_i hz
        cases hs
        exact fresh_sim h hpc hz.1
      · cases hs
  | heapCollectAbandon =>
      simp only [call, hpc, ne_eq, not_true_eq_false, if_false] at hs
      cases hs
      exact h.stutter hpc rfl rfl (fun p e => by cases e) (fun p e => by cases e)
        ⟨fun _ hq => hq, fun q hq hqr => absurd hq hqr⟩
  | segmentReclaim p =>
      simp only [call, hpc, ne_eq, not_true_eq_false, if_false] at hs
      split at hs
      · rename_i hc
        cases hs
        exact segmentReclaim_sim h hpc hc.1 hc.2
      · cases hs

/-! ## Runs -/

def Event.thread : Event T P → T
  | .step t _ => t
  | .call t _ => t

theorem exec_sim {s s' : State T P} {a : Own T P} (h : Sim s a) {e : Event T P}
    (hs : exec s e = some s') : ∃ a', ReflTransGen (Own.Step e.thread) a a' ∧ Sim s' a' := by
  cases e with
  | step t weak => exact advance_sim h hs
  | call t op => exact call_sim h hs

omit [DecidableEq T] [DecidableEq P] in
theorem sim_init : Sim (State.init : State T P) Own.init where
  inv := Own.inv_init
  mem := by
    refine ⟨fun x => ⟨[], ?_, List.nodup_nil, fun b => ?_⟩, fun _ => rfl, fun _ => rfl, fun _ => rfl,
      fun b => ?_, fun b => ?_, fun p => ⟨[], [], .nil, .nil, rfl⟩, fun _ => le_refl 0,
      fun _ _ _ => rfl⟩
    · cases x <;> rfl
    · exact ⟨fun e => absurd e List.not_mem_nil, fun e => by cases e⟩
    · exact ⟨(fun e => by cases e), fun e => by cases e⟩
    · exact ⟨fun _ => Nat.zero_le _, fun _ => rfl⟩
  thr t := ⟨rfl, fun b => ⟨(fun e => by cases e), fun e => by cases e⟩,
    fun b => ⟨(fun e => by cases e), fun e => by cases e⟩, (fun b e => by cases e),
    (fun p e => by cases e), List.nodup_nil,
    fun p => ⟨fun e => absurd e List.not_mem_nil, fun e => by cases e.1⟩, (fun p e => by cases e),
    trivial⟩

/-- Every reachable state has an ownership state, itself reached by ownership steps. -/
theorem Reachable.sim {s : State T P} (h : Reachable s) :
    ∃ a, ReflTransGen (fun a a' => ∃ t, Own.Step t a a') Own.init a ∧ Sim s a := by
  refine h.invariant (Q := fun s => ∃ a, ReflTransGen (fun a a' => ∃ t, Own.Step t a a') Own.init a ∧
    Sim s a) ⟨Own.init, .refl, sim_init⟩ ?_
  rintro s e s' ⟨a, ha, hsim⟩ hs
  obtain ⟨a', hsteps, hsim'⟩ := exec_sim hsim hs
  refine ⟨a', ha.trans ?_, hsim'⟩
  exact hsteps.lift id fun _ _ hstep => ⟨e.thread, hstep⟩

end EflCore.Mimalloc
