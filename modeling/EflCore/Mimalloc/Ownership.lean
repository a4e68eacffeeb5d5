/-
# `EflCore.Mimalloc.Ownership` — who has a block, and who may touch a page

The free lists as what they are for: at any time a block is in one place, and each step of a
thread hands blocks from one place to another (`Own.Step`).  There are no pointers here and no
retries; a place that is a list in memory is a set of blocks.

    unborn        not yet, or no longer, a block of a page in use
    live          the program has it
    freeing t     thread t is freeing it from outside
    list x        in the list x: free, local or thread-free of a page; delayed of a heap; the
                  delayed list, or thread-free list, that a thread has taken
    held t        taken from the delayed list, to be freed by t
    back t        taken from the delayed list, to be put back by t

A thread that found `MI_USE_DELAYED_FREE` announces itself by `MI_DELAYED_FREEING`.  It alone
then touches the heap of the page, and it alone takes the flag down again.

**Proved here.**  `Own.Inv` holds at first and is kept by every step (`Own.Step.inv`).  It says

    at most one thread is announced at a page, and one is if the flag says so   (`announced`, `one`)
    the heap it read is the heap of the page until it is done                   (`heapRead`)
    MI_NO_DELAYED_FREE: a block of the page waits on a delayed list             (`waits`)
    MI_USE_DELAYED_FREE: no block is on the thread-free list, unless the owner
      is about to collect it                                                    (`collected`)
    blocks on a heap's delayed list are of pages of the heap                    (`owned`)
-/
import EflCore.Mimalloc.ThreadFree
import Mathlib.Logic.Relation

namespace EflCore.Mimalloc

variable {T P : Type}

/-- The lists in memory. -/
inductive Place (T P : Type) where
  | free (p : P)
  | localFree (p : P)
  | threadFree (p : P)
  | delayed (h : T)
  | hand (t : T)
  | taken (t : T)
  deriving DecidableEq, Repr

inductive Loc (T P : Type) where
  | unborn
  | live
  | freeing (t : T)
  | held (t : T)
  | back (t : T)
  | list (x : Place T P)
  deriving DecidableEq, Repr

/-- The list a block is in. -/
def Loc.place : Loc T P → Option (Place T P)
  | .list x => some x
  | _ => none

/-- Where a thread is that frees a block from outside. -/
inductive Mt (T P : Type) where
  | idle
  | push (b : MiBlock P)
  | heap (b : MiBlock P)
  | delay (b : MiBlock P) (h : T)
  | reset (p : P)
  deriving DecidableEq, Repr

namespace Mt

/-- The block it has. -/
def block : Mt T P → Option (MiBlock P)
  | .push b | .heap b | .delay b _ => some b
  | .idle | .reset _ => none

/-- The page it is announced at. -/
def announced : Mt T P → Option P
  | .heap b | .delay b _ => some b.page
  | .reset p => some p
  | .idle | .push _ => none

end Mt

/-- `pend`: the owner of the page took the flag back to `MI_USE_DELAYED_FREE` and has yet to
collect what other threads freed until then. -/
structure Own (T P : Type) where
  loc : MiBlock P → Loc T P
  flag : P → MiDelayed
  heap : P → Option T
  mt : T → Mt T P
  pend : P → Bool

namespace Own

/-- On its way to the owner of its page. -/
def Waiting (a : Own T P) (b : MiBlock P) : Prop :=
  ∃ h, a.loc b = .list (.delayed h) ∨ a.loc b = .list (.hand h) ∨ a.loc b = .back h

def init : Own T P :=
  ⟨fun _ => .unborn, fun _ => .useDelayedFree, fun _ => none, fun _ => .idle, fun _ => false⟩

variable [DecidableEq T] [DecidableEq P]

def setLoc (a : Own T P) (b : MiBlock P) (l : Loc T P) : Own T P :=
  { a with loc := Function.update a.loc b l }

/-- All blocks of one list go to another one. -/
def moveAll (a : Own T P) (x y : Place T P) : Own T P :=
  { a with loc := fun b => if a.loc b = .list x then .list y else a.loc b }

def setFlag (a : Own T P) (p : P) (d : MiDelayed) : Own T P :=
  { a with flag := Function.update a.flag p d }

def setHeap (a : Own T P) (p : P) (o : Option T) : Own T P :=
  { a with heap := Function.update a.heap p o }

def setMt (a : Own T P) (t : T) (m : Mt T P) : Own T P :=
  { a with mt := Function.update a.mt t m }

def setPend (a : Own T P) (p : P) (v : Bool) : Own T P :=
  { a with pend := Function.update a.pend p v }

/-- The flag after the owner tried to set it to `MI_USE_DELAYED_FREE`. -/
def reused : MiDelayed → MiDelayed
  | .neverDelayedFree => .neverDelayedFree
  | _ => .useDelayedFree

/-- A step of thread `t`. -/
inductive Step (t : T) (a : Own T P) : Own T P → Prop
  | malloc (b : MiBlock P) : a.heap b.page = some t → a.loc b = .list (.free b.page) →
      Step t a (a.setLoc b .live)
  | freeLocal (b : MiBlock P) : a.heap b.page = some t → a.loc b = .live ∨ a.loc b = .held t →
      Step t a (a.setLoc b (.list (.localFree b.page)))
  | freeRemote (b : MiBlock P) : a.loc b = .live → a.mt t = .idle →
      Step t a ((a.setLoc b (.freeing t)).setMt t (.push b))
  | push (b : MiBlock P) : a.mt t = .push b → a.flag b.page ≠ .useDelayedFree →
      Step t a ((a.setLoc b (.list (.threadFree b.page))).setMt t .idle)
  | announce (b : MiBlock P) : a.mt t = .push b → a.flag b.page = .useDelayedFree →
      Step t a ((a.setFlag b.page .delayedFreeing).setMt t (.heap b))
  | readHeap (b : MiBlock P) (h : T) : a.mt t = .heap b → a.heap b.page = some h →
      Step t a (a.setMt t (.delay b h))
  | delay (b : MiBlock P) (h : T) : a.mt t = .delay b h →
      Step t a ((a.setLoc b (.list (.delayed h))).setMt t (.reset b.page))
  | reset (p : P) : a.mt t = .reset p → Step t a ((a.setFlag p .noDelayedFree).setMt t .idle)
  | take : Step t a (a.moveAll (.delayed t) (.hand t))
  | putBack (b : MiBlock P) : a.loc b = .list (.hand t) → Step t a (a.setLoc b (.back t))
  | insert (b : MiBlock P) : a.loc b = .back t → Step t a (a.setLoc b (.list (.delayed t)))
  | reuse (b : MiBlock P) : a.loc b = .back t → a.flag b.page ≠ .delayedFreeing →
      Step t a (((a.setLoc b (.held t)).setFlag b.page (reused (a.flag b.page))).setPend
        b.page true)
  | collect (p : P) : a.heap p = some t →
      Step t a ((a.moveAll (.threadFree p) (.taken t)).setPend p false)
  | append (p : P) : a.heap p = some t → (∀ b, a.loc b = .list (.taken t) → b.page = p) →
      Step t a (a.moveAll (.taken t) (.localFree p))
  | refill (p : P) : a.heap p = some t → Step t a (a.moveAll (.localFree p) (.free p))
  | never (p : P) : a.heap p = some t → a.flag p ≠ .delayedFreeing →
      Step t a ((a.setFlag p .neverDelayedFree).setPend p false)
  | leave (p : P) : a.heap p = some t → a.flag p = .neverDelayedFree →
      (∀ b, b.page = p → a.loc b = .unborn ∨ a.loc b = .live ∨ (∃ u, a.loc b = .freeing u) ∨
        a.loc b = .list (.free p) ∨ a.loc b = .list (.localFree p) ∨
        a.loc b = .list (.threadFree p)) →
      Step t a (a.setHeap p none)
  | adopt (p : P) : a.heap p = none → a.flag p = .neverDelayedFree →
      Step t a ((a.setHeap p (some t)).setPend p false)
  | override (p : P) : a.heap p = some t → a.flag p ≠ .delayedFreeing →
      Step t a ((a.setFlag p .useDelayedFree).setPend p true)
  | fresh (p : P) : a.heap p = none → (∀ b, b.page = p → a.loc b = .unborn) →
      Step t a ((a.setHeap p (some t)).setPend p false)
  | extend (p : P) (loc : MiBlock P → Loc T P) : a.heap p = some t →
      (∀ b, loc b = a.loc b ∨ b.page = p ∧ a.loc b = .unborn ∧ loc b = .list (.free p)) →
      Step t a { a with loc := loc }
  | clear (p : P) : a.heap p = some t →
      (∀ b, b.page = p → a.loc b = .unborn ∨ a.loc b = .list (.free p) ∨
        a.loc b = .list (.localFree p)) →
      Step t a { (((a.setHeap p none).setFlag p .useDelayedFree).setPend p false) with
        loc := fun b => if b.page = p then .unborn else a.loc b }

structure Inv (a : Own T P) : Prop where
  /-- The lists of a page have blocks of the page. -/
  listed : ∀ b p, a.loc b = .list (.free p) ∨ a.loc b = .list (.localFree p) ∨
    a.loc b = .list (.threadFree p) → b.page = p
  owned : ∀ b t, a.loc b = .list (.delayed t) ∨ a.loc b = .list (.hand t) ∨ a.loc b = .back t ∨
    a.loc b = .held t ∨ a.loc b = .list (.taken t) → a.heap b.page = some t
  freeing : ∀ t b, a.loc b = .freeing t ↔ (a.mt t).block = some b
  announced : ∀ t p, (a.mt t).announced = some p → a.flag p = .delayedFreeing
  unique : ∀ t u p, (a.mt t).announced = some p → (a.mt u).announced = some p → t = u
  one : ∀ p, a.flag p = .delayedFreeing → ∃ t, (a.mt t).announced = some p
  heapRead : ∀ t b h, a.mt t = .delay b h → a.heap b.page = some h
  resets : ∀ t p, a.mt t = .reset p → ∃ b, b.page = p ∧ a.Waiting b
  waits : ∀ p, a.flag p = .noDelayedFree → ∃ b, b.page = p ∧ a.Waiting b
  collected : ∀ b p, a.loc b = .list (.threadFree p) → a.flag p = .useDelayedFree →
    a.pend p = true
  orphan : ∀ p, a.heap p = none → a.flag p = .neverDelayedFree ∨
    (a.flag p = .useDelayedFree ∧ ∀ b, b.page = p → a.loc b = .unborn)

/-! ## What an update leaves alone -/

section Frame
variable (a : Own T P) (b c : MiBlock P) (l : Loc T P) (t u : T) (m : Mt T P) (p q : P)
  (d : MiDelayed)

omit [DecidableEq T] in
theorem setLoc_loc : (a.setLoc b l).loc c = if c = b then l else a.loc c :=
  Function.update_apply ..

omit [DecidableEq P] in
theorem setMt_mt : (a.setMt t m).mt u = if u = t then m else a.mt u := Function.update_apply ..

omit [DecidableEq T] in
theorem setFlag_flag : (a.setFlag p d).flag q = if q = p then d else a.flag q :=
  Function.update_apply ..

omit [DecidableEq P] in
theorem setMt_loc : (a.setMt t m).loc = a.loc := rfl

omit [DecidableEq P] in
theorem setMt_flag : (a.setMt t m).flag = a.flag := rfl

variable {a b c l}

omit [DecidableEq T] in
theorem Waiting.setLoc (h : a.Waiting c) (hcb : c ≠ b) : (a.setLoc b l).Waiting c := by
  obtain ⟨u, hu⟩ := h
  refine ⟨u, ?_⟩
  rw [setLoc_loc, if_neg hcb]
  exact hu

end Frame

/-! ## The invariant is kept -/

omit [DecidableEq T] [DecidableEq P] in
theorem inv_init : (init : Own T P).Inv where
  listed b p h := by rcases h with h | h | h <;> cases h
  owned b t h := by rcases h with h | h | h | h | h <;> cases h
  freeing t b := ⟨(nomatch ·), (nomatch ·)⟩
  announced t p h := by cases h
  unique t u p h := by cases h
  one p h := by cases h
  heapRead t b h e := by cases e
  resets t p h := by cases h
  waits p h := by cases h
  collected b p h := by cases h
  orphan p _ := .inr ⟨rfl, fun _ _ => rfl⟩

omit [DecidableEq T] [DecidableEq P] in
/-- Blocks change hands, none of them to or from a thread that frees it from outside. -/
theorem Inv.reloc {a : Own T P} (h : a.Inv) {loc : MiBlock P → Loc T P}
    (hlisted : ∀ b p, loc b = .list (.free p) ∨ loc b = .list (.localFree p) ∨
      loc b = .list (.threadFree p) → b.page = p)
    (howned : ∀ b t, loc b = .list (.delayed t) ∨ loc b = .list (.hand t) ∨ loc b = .back t ∨
      loc b = .held t ∨ loc b = .list (.taken t) → a.heap b.page = some t)
    (hfreeing : ∀ t b, loc b = .freeing t ↔ a.loc b = .freeing t)
    (hwaiting : ∀ b, a.flag b.page = .noDelayedFree ∨ a.flag b.page = .delayedFreeing →
      a.Waiting b → ({ a with loc := loc } : Own T P).Waiting b)
    (hthread : ∀ b p, loc b = .list (.threadFree p) → a.loc b = .list (.threadFree p))
    (hborn : ∀ b, a.loc b = .unborn → loc b ≠ .unborn → a.heap b.page ≠ none) :
    ({ a with loc := loc } : Own T P).Inv where
  listed := hlisted
  owned := howned
  freeing t b := (hfreeing t b).trans (h.freeing t b)
  announced := h.announced
  unique := h.unique
  one := h.one
  heapRead := h.heapRead
  resets t p hp := by
    have hf : a.flag p = .delayedFreeing := h.announced t p (by rw [show a.mt t = _ from hp]; rfl)
    obtain ⟨b, rfl, hb⟩ := h.resets t p hp
    exact ⟨b, rfl, hwaiting b (.inr hf) hb⟩
  waits p hp := by
    obtain ⟨b, rfl, hb⟩ := h.waits p hp
    exact ⟨b, rfl, hwaiting b (.inl hp) hb⟩
  collected b p hb := h.collected b p (hthread b p hb)
  orphan p hp := by
    rcases h.orphan p hp with hn | ⟨hu, hall⟩
    · exact .inl hn
    · refine .inr ⟨hu, fun b hb => ?_⟩
      by_contra hne
      exact hborn b (hall b hb) hne (hb ▸ hp)

omit [DecidableEq T] in
/-- The owner of a page changes its flag. -/
theorem Inv.ownFlag {a : Own T P} (h : a.Inv) {t : T} {p : P} (hp : a.heap p = some t)
    (hf : a.flag p ≠ .delayedFreeing) {d : MiDelayed}
    (hd : d = .useDelayedFree ∨ d = .neverDelayedFree) {v : Bool}
    (hv : d = .useDelayedFree → v = true) : ((a.setFlag p d).setPend p v).Inv where
  listed := h.listed
  owned := h.owned
  freeing := h.freeing
  announced u q hu := by
    have hq := h.announced u q hu
    have hne : q ≠ p := fun e => hf (e ▸ hq)
    show Function.update a.flag p d q = _
    rwa [Function.update_of_ne hne]
  unique := h.unique
  one q hq := by
    have hne : q ≠ p := by
      rintro rfl
      have hq : Function.update a.flag q d q = .delayedFreeing := hq
      rw [Function.update_self] at hq
      rcases hd with rfl | rfl <;> cases hq
    have hq : Function.update a.flag p d q = .delayedFreeing := hq
    rw [Function.update_of_ne hne] at hq
    exact h.one q hq
  heapRead := h.heapRead
  resets := h.resets
  waits q hq := by
    have hne : q ≠ p := by
      rintro rfl
      have hq : Function.update a.flag q d q = .noDelayedFree := hq
      rw [Function.update_self] at hq
      rcases hd with rfl | rfl <;> cases hq
    have hq : Function.update a.flag p d q = .noDelayedFree := hq
    rw [Function.update_of_ne hne] at hq
    exact h.waits q hq
  collected b q hb hq := by
    have hb := h.collected b q hb
    simp only [setPend, setFlag, Function.update_apply] at hq ⊢
    grind
  orphan q hq := by
    have hne : q ≠ p := by
      rintro rfl
      have hq : a.heap q = none := hq
      rw [hp] at hq
      cases hq
    have hq := h.orphan q hq
    simpa only [setPend, setFlag, Function.update_of_ne hne] using hq

omit [DecidableEq T] in
/-- A page gets or loses its heap.  Nobody is announced at it and none of its blocks is on the
way to a heap. -/
theorem Inv.newHeap {a : Own T P} (h : a.Inv) {p : P} {o : Option T}
    (hf : a.flag p = .useDelayedFree ∨ a.flag p = .neverDelayedFree)
    (hown : ∀ b t, b.page = p → ¬(a.loc b = .list (.delayed t) ∨ a.loc b = .list (.hand t) ∨
      a.loc b = .back t ∨ a.loc b = .held t ∨ a.loc b = .list (.taken t)))
    (horphan : o = none → a.flag p = .neverDelayedFree) :
    (a.setHeap p o).Inv where
  listed := h.listed
  owned b t hb := by
    have hne : b.page ≠ p := fun e => hown b t e hb
    show Function.update a.heap p o b.page = some t
    rw [Function.update_of_ne hne]
    exact h.owned b t hb
  freeing := h.freeing
  announced := h.announced
  unique := h.unique
  one := h.one
  heapRead t b u hb := by
    have hm : (a.mt t).announced = some b.page := by rw [show a.mt t = _ from hb]; rfl
    have hfp := h.announced t b.page hm
    have hne : b.page ≠ p := by
      rintro e
      rw [e] at hfp
      rcases hf with hf | hf <;> rw [hf] at hfp <;> cases hfp
    show Function.update a.heap p o b.page = some u
    rw [Function.update_of_ne hne]
    exact h.heapRead t b u hb
  resets := h.resets
  waits := h.waits
  collected := h.collected
  orphan q hq := by
    by_cases hqp : q = p
    · subst hqp
      have hq : Function.update a.heap q o q = none := hq
      rw [Function.update_self] at hq
      exact .inl (horphan hq)
    · have hq : Function.update a.heap p o q = none := hq
      rw [Function.update_of_ne hqp] at hq
      exact h.orphan q hq

omit [DecidableEq T] in
/-- The owner has nothing to collect at the page. -/
theorem Inv.notPending {a : Own T P} (h : a.Inv) {p : P}
    (hp : ∀ b, a.loc b = .list (.threadFree p) → a.flag p ≠ .useDelayedFree) :
    (a.setPend p false).Inv :=
  { h with
    collected := by
      intro b q hb hq
      have hne : q ≠ p := by
        rintro rfl
        exact hp b hb hq
      show Function.update a.pend p false q = true
      rw [Function.update_of_ne hne]
      exact h.collected b q hb hq }

/-- A block goes from hand to hand, and thread `t` goes on, announced where it was. -/
theorem Inv.handOver {a : Own T P} (h : a.Inv) {t : T} {b : MiBlock P} {l : Loc T P} {m : Mt T P}
    (hsame : m.announced = (a.mt t).announced)
    (hlisted : ∀ p, l = .list (.free p) ∨ l = .list (.localFree p) ∨ l = .list (.threadFree p) →
      b.page = p)
    (howned : ∀ u, l = .list (.delayed u) ∨ l = .list (.hand u) ∨ l = .back u ∨ l = .held u ∨
      l = .list (.taken u) → a.heap b.page = some u)
    (hfreeing : ∀ u c, (a.setLoc b l).loc c = .freeing u ↔ ((a.setMt t m).mt u).block = some c)
    (hread : ∀ c u, m = .delay c u → a.heap c.page = some u)
    (hresets : ∀ p, m = .reset p → b.page = p ∧ (a.setLoc b l).Waiting b)
    (hwaiting : ¬ a.Waiting b) (hborn : a.loc b ≠ .unborn)
    (hthread : ∀ p, l = .list (.threadFree p) → a.flag p ≠ .useDelayedFree) :
    ((a.setLoc b l).setMt t m).Inv := by
  -- thread `t` is announced where it was, the others are what they were
  have hannounced : ∀ u, ((a.setMt t m).mt u).announced = (a.mt u).announced := by
    intro u
    rw [setMt_mt]
    split
    · next hu => rw [hsame, hu]
    · rfl
  have hstill : ∀ c, a.Waiting c → (a.setLoc b l).Waiting c := by
    intro c hc
    refine hc.setLoc ?_
    rintro rfl
    exact hwaiting hc
  exact
    { listed := by
        intro c p hc
        rw [setMt_loc, setLoc_loc] at hc
        split at hc
        · next hcb => exact hcb ▸ hlisted p hc
        · exact h.listed c p hc
      owned := by
        intro c u hc
        rw [setMt_loc, setLoc_loc] at hc
        split at hc
        · next hcb => exact hcb ▸ howned u hc
        · exact h.owned c u hc
      freeing := fun u c => hfreeing u c
      announced := fun u p hu => h.announced u p ((hannounced u).symm.trans hu)
      unique := by
        intro u v p hu hv
        exact h.unique u v p ((hannounced u).symm.trans hu) ((hannounced v).symm.trans hv)
      one := by
        intro p hp
        obtain ⟨u, hu⟩ := h.one p hp
        exact ⟨u, (hannounced u).trans hu⟩
      heapRead := by
        intro u c v hu
        rw [setMt_mt] at hu
        split at hu
        · exact hread c v hu
        · exact h.heapRead u c v hu
      resets := by
        intro u p hu
        rw [setMt_mt] at hu
        split at hu
        · exact ⟨b, hresets p hu⟩
        · obtain ⟨c, hcp, hc⟩ := h.resets u p hu
          exact ⟨c, hcp, hstill c hc⟩
      waits := by
        intro p hp
        obtain ⟨c, hcp, hc⟩ := h.waits p hp
        exact ⟨c, hcp, hstill c hc⟩
      collected := by
        intro c p hc hp
        rw [setMt_loc, setLoc_loc] at hc
        split at hc
        · exact absurd hp (hthread p hc)
        · exact h.collected c p hc hp
      orphan := by
        intro p hp
        rcases h.orphan p hp with hnever | ⟨huse, hall⟩
        · exact .inl hnever
        · refine .inr ⟨huse, fun c hc => ?_⟩
          rw [setMt_loc, setLoc_loc]
          split
          · next hcb => exact absurd (hall b (hcb ▸ hc)) hborn
          · exact hall c hc }

omit [DecidableEq T] [DecidableEq P] in
/-- A block that a thread frees from outside is on no list. -/
theorem Inv.not_waiting {a : Own T P} {b : MiBlock P} (hb : a.loc b = .live ∨ ∃ t, a.loc b = .freeing t) :
    ¬ a.Waiting b := by
  rintro ⟨u, hu⟩
  rcases hb with hb | ⟨t, hb⟩ <;> rw [hb] at hu <;> rcases hu with hu | hu | hu <;> cases hu

theorem Inv.freeRemote {a : Own T P} (h : a.Inv) {t : T} {b : MiBlock P} (hb : a.loc b = .live)
    (ht : a.mt t = .idle) : ((a.setLoc b (.freeing t)).setMt t (.push b)).Inv := by
  refine h.handOver (by rw [ht]; rfl) (by simp) (by simp) (fun u c => ?_) (by simp) (by simp)
    (not_waiting (.inl hb)) (by rw [hb]; simp) (by simp)
  have hc := h.freeing u c
  have hidle := h.freeing t c
  rw [setLoc_loc, setMt_mt]
  grind [Mt.block]

theorem Inv.push {a : Own T P} (h : a.Inv) {t : T} {b : MiBlock P} (ht : a.mt t = .push b)
    (hf : a.flag b.page ≠ .useDelayedFree) :
    ((a.setLoc b (.list (.threadFree b.page))).setMt t .idle).Inv := by
  have hb : a.loc b = .freeing t := (h.freeing t b).mpr (by rw [ht]; rfl)
  refine h.handOver (by rw [ht]; rfl) (by simp) (by simp) (fun u c => ?_) (by simp) (by simp)
    (not_waiting (.inr ⟨t, hb⟩)) (by rw [hb]; simp) ?_
  · have hc := h.freeing u c
    have hpush := h.freeing t c
    rw [setLoc_loc, setMt_mt]
    grind [Mt.block]
  · rintro p ⟨⟩
    exact hf

theorem Inv.delay {a : Own T P} (h : a.Inv) {t u : T} {b : MiBlock P} (ht : a.mt t = .delay b u) :
    ((a.setLoc b (.list (.delayed u))).setMt t (.reset b.page)).Inv := by
  have hb : a.loc b = .freeing t := (h.freeing t b).mpr (by rw [ht]; rfl)
  refine h.handOver (by rw [ht]; rfl) (by simp) ?_ (fun v c => ?_) (by simp) ?_
    (not_waiting (.inr ⟨t, hb⟩)) (by rw [hb]; simp) (by simp)
  · rintro v (hv | hv | hv | hv | hv) <;> cases hv
    exact h.heapRead t b u ht
  · have hc := h.freeing v c
    have hdelay := h.freeing t c
    rw [setLoc_loc, setMt_mt]
    grind [Mt.block]
  · rintro p ⟨⟩
    exact ⟨rfl, u, .inl (Function.update_self ..)⟩

omit [DecidableEq P] in
theorem Inv.readHeap {a : Own T P} (h : a.Inv) {t u : T} {b : MiBlock P} (ht : a.mt t = .heap b)
    (hu : a.heap b.page = some u) : (a.setMt t (.delay b u)).Inv := by
  have hannounced : ∀ v, ((a.setMt t (.delay b u)).mt v).announced = (a.mt v).announced := by
    intro v
    rw [setMt_mt]
    split
    · next hv => rw [hv, ht]; rfl
    · rfl
  have hblock : ∀ v, ((a.setMt t (.delay b u)).mt v).block = (a.mt v).block := by
    intro v
    rw [setMt_mt]
    split
    · next hv => rw [hv, ht]; rfl
    · rfl
  exact
    { h with
      freeing := by
        intro v c
        rw [hblock]
        exact h.freeing v c
      announced := fun v p hv => h.announced v p ((hannounced v).symm.trans hv)
      unique := by
        intro v v' p hv hv'
        exact h.unique v v' p ((hannounced v).symm.trans hv) ((hannounced v').symm.trans hv')
      one := by
        intro p hp
        obtain ⟨v, hv⟩ := h.one p hp
        exact ⟨v, (hannounced v).trans hv⟩
      heapRead := by
        intro v c u' hv
        rw [setMt_mt] at hv
        split at hv
        · cases hv
          exact hu
        · exact h.heapRead v c u' hv
      resets := by
        intro v p hv
        rw [setMt_mt] at hv
        split at hv
        · cases hv
        · exact h.resets v p hv }

theorem Inv.announce {a : Own T P} (h : a.Inv) {t : T} {b : MiBlock P} (ht : a.mt t = .push b)
    (hf : a.flag b.page = .useDelayedFree) :
    ((a.setFlag b.page .delayedFreeing).setMt t (.heap b)).Inv := by
  -- nobody is announced at the page yet
  have hfree : ∀ u, (a.mt u).announced ≠ some b.page := by
    intro u hu
    have hflag := h.announced u b.page hu
    rw [hf] at hflag
    cases hflag
  have hannounced : ∀ u p, ((a.setMt t (.heap b)).mt u).announced = some p →
      u = t ∧ p = b.page ∨ u ≠ t ∧ (a.mt u).announced = some p := by
    intro u p hu
    rw [setMt_mt] at hu
    split at hu
    · next hut =>
      cases hu
      exact .inl ⟨hut, rfl⟩
    · next hut => exact .inr ⟨hut, hu⟩
  exact
    { h with
      freeing := by
        intro u c
        rw [setMt_mt]
        split
        · next hu =>
          subst hu
          exact (h.freeing u c).trans (by rw [ht]; rfl)
        · exact h.freeing u c
      announced := by
        intro u p hu
        rw [setMt_flag, setFlag_flag]
        split
        · rfl
        · next hp =>
          rcases hannounced u p hu with ⟨-, hpage⟩ | ⟨-, hold⟩
          · exact absurd hpage hp
          · exact h.announced u p hold
      unique := by
        intro u v p hu hv
        rcases hannounced u p hu with ⟨hut, rfl⟩ | ⟨-, hold⟩ <;>
          rcases hannounced v _ hv with ⟨hvt, hp⟩ | ⟨-, hold'⟩
        · exact hut.trans hvt.symm
        · exact absurd hold' (hfree v)
        · exact absurd (hp ▸ hold) (hfree u)
        · exact h.unique u v p hold hold'
      one := by
        intro p hp
        rw [setMt_flag, setFlag_flag] at hp
        split at hp
        · next hpage => exact ⟨t, by rw [setMt_mt, if_pos rfl, hpage]; rfl⟩
        · obtain ⟨u, hu⟩ := h.one p hp
          have hut : u ≠ t := by
            rintro rfl
            rw [ht] at hu
            cases hu
          exact ⟨u, by rw [setMt_mt, if_neg hut]; exact hu⟩
      heapRead := by
        intro u c v hu
        rw [setMt_mt] at hu
        split at hu
        · cases hu
        · exact h.heapRead u c v hu
      resets := by
        intro u p hu
        rw [setMt_mt] at hu
        split at hu
        · cases hu
        · exact h.resets u p hu
      waits := by
        intro p hp
        rw [setMt_flag, setFlag_flag] at hp
        split at hp
        · cases hp
        · exact h.waits p hp
      collected := by
        intro c p hc hp
        rw [setMt_flag, setFlag_flag] at hp
        split at hp
        · cases hp
        · exact h.collected c p hc hp
      orphan := by
        intro p hp
        rw [setMt_flag, setFlag_flag]
        split
        · next hpage =>
          subst hpage
          rcases h.orphan b.page hp with hnever | ⟨-, hall⟩
          · rw [hf] at hnever
            cases hnever
          · have hb : a.loc b = .freeing t := (h.freeing t b).mpr (by rw [ht]; rfl)
            rw [hall b rfl] at hb
            cases hb
        · exact h.orphan p hp }

theorem Inv.reset {a : Own T P} (h : a.Inv) {t : T} {p : P} (ht : a.mt t = .reset p) :
    ((a.setFlag p .noDelayedFree).setMt t .idle).Inv := by
  have hf : a.flag p = .delayedFreeing := h.announced t p (by rw [ht]; rfl)
  have hannounced : ∀ u q, ((a.setMt t .idle).mt u).announced = some q →
      u ≠ t ∧ (a.mt u).announced = some q := by
    intro u q hu
    rw [setMt_mt] at hu
    split at hu
    · cases hu
    · next hut => exact ⟨hut, hu⟩
  exact
    { h with
      freeing := by
        intro u c
        rw [setMt_mt]
        split
        · next hu =>
          subst hu
          exact (h.freeing u c).trans (by rw [ht]; rfl)
        · exact h.freeing u c
      announced := by
        intro u q hu
        obtain ⟨hut, hu⟩ := hannounced u q hu
        rw [setMt_flag, setFlag_flag]
        split
        · next hq => exact absurd (h.unique u t p (hq ▸ hu) (by rw [ht]; rfl)) hut
        · exact h.announced u q hu
      unique := by
        intro u v q hu hv
        exact h.unique u v q (hannounced u q hu).2 (hannounced v q hv).2
      one := by
        intro q hq
        rw [setMt_flag, setFlag_flag] at hq
        split at hq
        · cases hq
        · next hqp =>
          obtain ⟨u, hu⟩ := h.one q hq
          have hut : u ≠ t := by
            rintro rfl
            rw [ht] at hu
            exact hqp (Option.some.inj hu).symm
          exact ⟨u, by rw [setMt_mt, if_neg hut]; exact hu⟩
      heapRead := by
        intro u c v hu
        rw [setMt_mt] at hu
        split at hu
        · cases hu
        · exact h.heapRead u c v hu
      resets := by
        intro u q hu
        rw [setMt_mt] at hu
        split at hu
        · cases hu
        · exact h.resets u q hu
      waits := by
        intro q hq
        rw [setMt_flag, setFlag_flag] at hq
        split at hq
        · next hqp => exact hqp ▸ h.resets t p ht
        · exact h.waits q hq
      collected := by
        intro c q hc hq
        rw [setMt_flag, setFlag_flag] at hq
        split at hq
        · cases hq
        · exact h.collected c q hc hq
      orphan := by
        intro q hq
        rw [setMt_flag, setFlag_flag]
        split
        · next hqp =>
          subst hqp
          rcases h.orphan q hq with hnever | ⟨huse, -⟩
          · rw [hf] at hnever
            cases hnever
          · rw [hf] at huse
            cases huse
        · exact h.orphan q hq }

omit [DecidableEq T] in
theorem Inv.clear {a : Own T P} (h : a.Inv) {p : P}
    (hall : ∀ b, b.page = p → a.loc b = .unborn ∨ a.loc b = .list (.free p) ∨
      a.loc b = .list (.localFree p)) :
    ({ (((a.setHeap p none).setFlag p .useDelayedFree).setPend p false) with
      loc := fun b => if b.page = p then .unborn else a.loc b } : Own T P).Inv := by
  -- whoever is announced at the page has, or has handed on, a block of it
  have hquiet : ∀ u, (a.mt u).announced ≠ some p := by
    intro u hu
    cases hm : a.mt u with
    | idle => rw [hm] at hu; cases hu
    | push b => rw [hm] at hu; cases hu
    | heap b | delay b v =>
        rw [hm] at hu
        have hb := (h.freeing u b).mpr (by rw [hm]; rfl)
        have := hall b (Option.some.inj hu)
        grind
    | reset q =>
        rw [hm] at hu
        cases hu
        obtain ⟨b, hbp, v, hb⟩ := h.resets u p hm
        have := hall b hbp
        grind
  have hpage : ∀ {c : Loc T P} {b}, (if b.page = p then .unborn else a.loc b) = c →
      c ≠ .unborn → b.page ≠ p ∧ a.loc b = c := by
    intro c b hb hne
    split at hb
    · exact absurd hb.symm hne
    · next hbp => exact ⟨hbp, hb⟩
  have hwaiting : ∀ q, (∃ b, b.page = q ∧ a.Waiting b) → q ≠ p →
      ∃ b, b.page = q ∧ ∃ u, (if b.page = p then .unborn else a.loc b) = .list (.delayed u) ∨
        (if b.page = p then .unborn else a.loc b) = .list (.hand u) ∨
        (if b.page = p then .unborn else a.loc b) = .back u := by
    rintro q ⟨b, rfl, u, hb⟩ hq
    refine ⟨b, rfl, u, ?_⟩
    rw [if_neg hq]
    exact hb
  exact
    { listed := by
        rintro b q (hb | hb | hb)
        · exact h.listed b q (.inl (hpage hb nofun).2)
        · exact h.listed b q (.inr (.inl (hpage hb nofun).2))
        · exact h.listed b q (.inr (.inr (hpage hb nofun).2))
      owned := by
        intro b u hb
        have hbp : b.page ≠ p ∧ (a.loc b = .list (.delayed u) ∨ a.loc b = .list (.hand u) ∨
            a.loc b = .back u ∨ a.loc b = .held u ∨ a.loc b = .list (.taken u)) := by grind
        show Function.update a.heap p none b.page = some u
        rw [Function.update_of_ne hbp.1]
        exact h.owned b u hbp.2
      freeing := by
        intro u b
        refine Iff.trans ?_ (h.freeing u b)
        constructor
        · exact fun hb => (hpage hb nofun).2
        · intro hb
          have := hall b
          grind
      announced := by
        intro u q hu
        have hqp : q ≠ p := by
          rintro rfl
          exact hquiet u hu
        show Function.update a.flag p .useDelayedFree q = _
        rw [Function.update_of_ne hqp]
        exact h.announced u q hu
      unique := h.unique
      one := by
        intro q hq
        have hq : Function.update a.flag p .useDelayedFree q = .delayedFreeing := hq
        rw [Function.update_apply] at hq
        split at hq
        · cases hq
        · exact h.one q hq
      heapRead := by
        intro u b v hu
        have hmt : a.mt u = .delay b v := hu
        have hbp : b.page ≠ p := by
          intro hbp
          exact hquiet u (by rw [hmt, ← hbp]; rfl)
        show Function.update a.heap p none b.page = some v
        rw [Function.update_of_ne hbp]
        exact h.heapRead u b v hu
      resets := by
        intro u q hu
        have hmt : a.mt u = .reset q := hu
        refine hwaiting q (h.resets u q hu) ?_
        rintro rfl
        exact hquiet u (by rw [hmt]; rfl)
      waits := by
        intro q hq
        have hq : Function.update a.flag p .useDelayedFree q = .noDelayedFree := hq
        rw [Function.update_apply] at hq
        split at hq
        · cases hq
        · next hqp => exact hwaiting q (h.waits q hq) hqp
      collected := by
        intro b q hb hq
        obtain ⟨hbp, hloc⟩ := hpage hb nofun
        have hqp : q ≠ p := h.listed b q (.inr (.inr hloc)) ▸ hbp
        have hq : Function.update a.flag p .useDelayedFree q = .useDelayedFree := hq
        rw [Function.update_of_ne hqp] at hq
        show Function.update a.pend p false q = true
        rw [Function.update_of_ne hqp]
        exact h.collected b q hloc hq
      orphan := by
        intro q hq
        have := h.orphan q
        simp only [setFlag, setHeap, setPend, Function.update_apply] at hq ⊢
        grind }

/-- Every step keeps the invariant. -/
theorem Step.inv {t : T} {a a' : Own T P} (hs : Step t a a') (h : a.Inv) : a'.Inv := by
  have hl := h.listed
  have ho := h.owned
  cases hs with
  | malloc b hp hb =>
      exact h.reloc (by grind) (by grind) (by grind) (by grind [Waiting]) (by grind) (by grind)
  | freeLocal b hp hb =>
      exact h.reloc (by grind) (by grind) (by grind) (by grind [Waiting]) (by grind) (by grind)
  | freeRemote b hb ht => exact h.freeRemote hb ht
  | push b ht hf => exact h.push ht hf
  | announce b ht hf => exact h.announce ht hf
  | readHeap b u ht hu => exact h.readHeap ht hu
  | delay b u ht => exact h.delay ht
  | reset p ht => exact h.reset ht
  | take =>
      exact h.reloc (by grind) (by grind) (by grind) (by grind [Waiting]) (by grind) (by grind)
  | putBack b hb =>
      exact h.reloc (by grind) (by grind) (by grind) (by grind [Waiting]) (by grind) (by grind)
  | insert b hb =>
      exact h.reloc (by grind) (by grind) (by grind) (by grind [Waiting]) (by grind) (by grind)
  | reuse b hb hf =>
      have hp : a.heap b.page = some t := ho b t (.inr (.inr (.inl hb)))
      have hd : reused (a.flag b.page) = .useDelayedFree ∨
          reused (a.flag b.page) = .neverDelayedFree := by
        cases a.flag b.page <;> simp [reused]
      have h' := h.ownFlag hp hf hd (v := true) (fun _ => rfl)
      have hw : reused (a.flag b.page) ≠ .noDelayedFree ∧
          reused (a.flag b.page) ≠ .delayedFreeing := by
        rcases hd with hd | hd <;> simp [hd]
      have he : ∀ c, ((a.setFlag b.page (reused (a.flag b.page))).setPend b.page true).loc c
          = a.loc c := fun _ => rfl
      have hh : ∀ q, ((a.setFlag b.page (reused (a.flag b.page))).setPend b.page true).heap q
          = a.heap q := fun _ => rfl
      refine @Inv.reloc _ _ _ h' (Function.update a.loc b (.held t)) (by grind) (by grind)
        (by grind) ?_ (by grind) (by grind)
      -- the block itself waits no more, and its page needs none that does
      rintro c hc ⟨u, hu⟩
      have hcb : c ≠ b := by
        rintro rfl
        have hf' : ((a.setFlag c.page (reused (a.flag c.page))).setPend c.page true).flag c.page
            = reused (a.flag c.page) := Function.update_self ..
        rw [hf'] at hc
        exact hc.elim hw.1 hw.2
      refine ⟨u, ?_⟩
      show Function.update a.loc b _ c = _ ∨ Function.update a.loc b _ c = _ ∨
        Function.update a.loc b _ c = _
      rwa [Function.update_of_ne hcb]
  | collect p hp =>
      have hl' : ∀ b, a.loc b = .list (.threadFree p) → b.page = p :=
        fun b hb => hl b p (.inr (.inr hb))
      have h' : (a.moveAll (.threadFree p) (.taken t)).Inv :=
        h.reloc (by grind) (by grind) (by grind) (by grind [Waiting]) (by grind) (by grind)
      exact h'.notPending (by grind [moveAll])
  | append p hp ht =>
      exact h.reloc (by grind) (by grind) (by grind) (by grind [Waiting]) (by grind) (by grind)
  | refill p hp =>
      exact h.reloc (by grind) (by grind) (by grind) (by grind [Waiting]) (by grind) (by grind)
  | never p hp hf =>
      exact h.ownFlag hp hf (.inr rfl) (fun e => by cases e)
  | leave p hp hf hall =>
      exact h.newHeap (.inr hf) (by grind) (fun _ => hf)
  | adopt p hp hf =>
      have h' : (a.setHeap p (some t)).Inv := h.newHeap (.inr hf) (by grind) (fun _ => hf)
      exact h'.notPending fun b _ e => by cases hf.symm.trans e
  | override p hp hf => exact h.ownFlag hp hf (.inl rfl) (fun _ => rfl)
  | fresh p hp hall =>
      have hf : a.flag p = .useDelayedFree ∨ a.flag p = .neverDelayedFree := by
        rcases h.orphan p hp with hf | ⟨hf, -⟩
        · exact .inr hf
        · exact .inl hf
      have h' : (a.setHeap p (some t)).Inv := h.newHeap hf (by grind) (fun e => by cases e)
      exact h'.notPending fun b hb _ => nomatch (hall b (hl b p (.inr (.inr hb)))).symm.trans hb
  | extend p loc hp hloc =>
      exact h.reloc (by grind) (by grind) (by grind) (by grind [Waiting]) (by grind) (by grind)
  | clear p hp hall => exact h.clear hall

/-! ## What a step leaves to the other threads -/

/-- Nobody puts blocks on the delayed list of thread `u` any more. -/
def Marked (a : Own T P) (u : T) : Prop := ∀ p, a.heap p = some u → a.flag p = .neverDelayedFree

/-- What thread `u` has does not change. -/
structure Keeps (u : T) (a a' : Own T P) : Prop where
  mt : a'.mt u = a.mt u
  heap : ∀ p, a'.heap p = some u ↔ a.heap p = some u
  held : ∀ b, a'.loc b = .held u ↔ a.loc b = .held u
  back : ∀ b, a'.loc b = .back u ↔ a.loc b = .back u
  taken : ∀ b, a'.loc b = .list (.taken u) ↔ a.loc b = .list (.taken u)
  pend : ∀ p, a.heap p = some u → a'.pend p = a.pend p
  never : ∀ p, a.heap p = some u → a.flag p = .neverDelayedFree → a'.flag p = .neverDelayedFree
  delayed : a.Marked u → ∀ b, a'.loc b = .list (.delayed u) → a.loc b = .list (.delayed u)

omit [DecidableEq T] [DecidableEq P] in
theorem Keeps.refl (u : T) (a : Own T P) : Keeps u a a :=
  ⟨rfl, fun _ => Iff.rfl, fun _ => Iff.rfl, fun _ => Iff.rfl, fun _ => Iff.rfl, fun _ _ => rfl,
    fun _ _ h => h, fun _ _ h => h⟩

omit [DecidableEq T] [DecidableEq P] in
theorem Keeps.marked {u : T} {a a' : Own T P} (h : Keeps u a a') (hm : a.Marked u) :
    a'.Marked u :=
  fun p hp => h.never p ((h.heap p).mp hp) (hm p ((h.heap p).mp hp))

omit [DecidableEq T] [DecidableEq P] in
theorem Keeps.trans {u : T} {a a' a'' : Own T P} (h : Keeps u a a') (h' : Keeps u a' a'') :
    Keeps u a a'' where
  mt := h'.mt.trans h.mt
  heap p := (h'.heap p).trans (h.heap p)
  held b := (h'.held b).trans (h.held b)
  back b := (h'.back b).trans (h.back b)
  taken b := (h'.taken b).trans (h.taken b)
  pend p hp := (h'.pend p ((h.heap p).mpr hp)).trans (h.pend p hp)
  never p hp hf := h'.never p ((h.heap p).mpr hp) (h.never p hp hf)
  delayed hm b hb := h.delayed hm b (h'.delayed (h.marked hm) b hb)

theorem Step.keeps {t u : T} {a a' : Own T P} (hs : Step t a a') (h : a.Inv) (hu : u ≠ t) :
    Keeps u a a' := by
  cases hs with
  | malloc b hp hb => constructor <;> simp only [setLoc, Function.update_apply] <;> grind
  | freeLocal b hp hb => constructor <;> simp only [setLoc, Function.update_apply] <;> grind
  | freeRemote b hb ht => constructor <;> simp only [setLoc, setMt, Function.update_apply] <;> grind
  | push b ht hf =>
      have hb : a.loc b = .freeing t := (h.freeing t b).mpr (by rw [ht]; rfl)
      constructor <;> simp only [setLoc, setMt, Function.update_apply] <;> grind
  | announce b ht hf => constructor <;> simp only [setFlag, setMt, Function.update_apply] <;> grind
  | readHeap b v ht hv => constructor <;> simp only [setMt, Function.update_apply] <;> grind
  | delay b v ht =>
      have hb : a.loc b = .freeing t := (h.freeing t b).mpr (by rw [ht]; rfl)
      have hv := h.heapRead t b v ht
      -- the heap is not `u`'s if `u` has marked its pages: the flag says that `t` is announced
      have hf : a.flag b.page = .delayedFreeing := h.announced t b.page (by rw [ht]; rfl)
      constructor <;> simp only [setLoc, setMt, Function.update_apply] <;> grind [Marked]
  | reset p ht =>
      have hf : a.flag p = .delayedFreeing := h.announced t p (by rw [ht]; rfl)
      constructor <;> simp only [setFlag, setMt, Function.update_apply] <;> grind
  | take => constructor <;> simp only [moveAll] <;> grind
  | putBack b hb => constructor <;> simp only [setLoc, Function.update_apply] <;> grind
  | insert b hb => constructor <;> simp only [setLoc, Function.update_apply] <;> grind
  | reuse b hb hf =>
      have hp := h.owned b t (.inr (.inr (.inl hb)))
      constructor <;> simp only [setLoc, setFlag, setPend, Function.update_apply] <;> grind
  | collect p hp => constructor <;> simp only [moveAll, setPend, Function.update_apply] <;> grind
  | append p hp ht => constructor <;> simp only [moveAll] <;> grind
  | refill p hp => constructor <;> simp only [moveAll] <;> grind
  | never p hp hf => constructor <;> simp only [setFlag, setPend, Function.update_apply] <;> grind
  | leave p hp hf hall => constructor <;> simp only [setHeap, Function.update_apply] <;> grind
  | adopt p hp hf => constructor <;> simp only [setHeap, setPend, Function.update_apply] <;> grind
  | override p hp hf => constructor <;> simp only [setFlag, setPend, Function.update_apply] <;> grind
  | fresh p hp hall => constructor <;> simp only [setHeap, setPend, Function.update_apply] <;> grind
  | extend p loc hp hloc => constructor <;> grind
  | clear p hp hall =>
      constructor <;> simp only [setHeap, setFlag, setPend, Function.update_apply] <;> grind

open Relation in
/-- The invariant, and what other threads have, over any number of steps. -/
theorem steps {t : T} {a a' : Own T P} (hs : ReflTransGen (Step t) a a') (h : a.Inv) :
    a'.Inv ∧ ∀ u, u ≠ t → Keeps u a a' := by
  induction hs with
  | refl => exact ⟨h, fun u _ => .refl u a⟩
  | tail _ hs ih =>
      obtain ⟨hi, hk⟩ := ih
      exact ⟨hs.inv hi, fun u hu => (hk u hu).trans (hs.keeps hi hu)⟩

end Own

end EflCore.Mimalloc
