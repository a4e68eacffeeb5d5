/-
# `EflCore.Mimalloc.Accounts` — the memory of the free lists, and who has what

`Mem s hand taken a` says that the memory of `s` is as the ownership state `a` has it: each list
is a chain of just the blocks that are in it, each flag and each heap is the one `a` names, the
blocks of a page are the first `capacity` ones, and `used` is what is in neither of the two lists
that only the owner has,

    used + |free| + |local_free| = capacity.

`hand t` and `taken t` are the heads of the two lists that are in a local variable of thread `t`
while it is in `_mi_heap_delayed_free_partial` or `_mi_page_thread_free_collect`.

**Proved here.**  Every change of the memory that a thread makes is a step of `Own` for `Mem`: one
lemma for each.  The two loops that look for the end of a list find it, and the count of
`_mi_page_thread_free_collect` never exceeds the capacity (`Mem.append`, `Mem.localCollect`).
-/
import EflCore.Mimalloc.Ownership

namespace EflCore.Mimalloc

open LinkedCells

variable {T P : Type}

/-- Where a list starts. -/
def head (page : P → MiPage T P) (delayed hand taken : T → Option (MiBlock P)) :
    Place T P → Option (MiBlock P)
  | .free p => (page p).free
  | .localFree p => (page p).localFree
  | .threadFree p => (page p).xthreadFree.block
  | .delayed h => delayed h
  | .hand t => hand t
  | .taken t => taken t

/-- The list a block is in. -/
def Own.place (a : Own T P) (b : MiBlock P) : Option (Place T P) := (a.loc b).place

theorem Own.place_eq_some {a : Own T P} {b : MiBlock P} {x : Place T P} :
    a.place b = some x ↔ a.loc b = .list x := by
  unfold Own.place
  cases a.loc b <;> simp [Loc.place]

theorem Own.place_eq_none {a : Own T P} {b : MiBlock P} :
    a.place b = none ↔ ∀ x, a.loc b ≠ .list x := by
  unfold Own.place
  cases a.loc b <;> simp [Loc.place]

structure Mem (s : State T P) (hand taken : T → Option (MiBlock P)) (a : Own T P) : Prop where
  lists : Lists s.next (head s.page s.delayed hand taken) a.place
  flag : ∀ p, (s.page p).xthreadFree.delayed = a.flag p
  heap : ∀ p, (s.page p).xheap = a.heap p
  threadId : ∀ p, (s.page p).threadId = a.heap p
  live : ∀ b, s.live b = true ↔ a.loc b = .live
  born : ∀ b, a.loc b = .unborn ↔ (s.page b.page).capacity ≤ b.idx
  count : ∀ p, ∃ L L', Chain s.next (s.page p).free L ∧ Chain s.next (s.page p).localFree L' ∧
    (s.page p).used + L.length + L'.length = (s.page p).capacity
  reserved : ∀ p, (s.page p).capacity ≤ (s.page p).reserved
  zero : ∀ p, a.heap p = none → (s.page p).capacity = 0 → s.page p = .zero

namespace Mem

variable {s : State T P} {hand taken : T → Option (MiBlock P)} {a : Own T P}

theorem head_none (h : Mem s hand taken a) {x : Place T P}
    (hx : head s.page s.delayed hand taken x = none) (b : MiBlock P) : a.loc b ≠ .list x :=
  fun hb => (h.lists.head_none_iff x).mp hx b (Own.place_eq_some.mpr hb)

theorem head_eq_none (h : Mem s hand taken a) {x : Place T P} (hx : ∀ b, a.loc b ≠ .list x) :
    head s.page s.delayed hand taken x = none :=
  (h.lists.head_none_iff x).mpr fun b hb => hx b (Own.place_eq_some.mp hb)

theorem loc_head (h : Mem s hand taken a) {x : Place T P} {b : MiBlock P}
    (hx : head s.page s.delayed hand taken x = some b) : a.loc b = .list x :=
  Own.place_eq_some.mp (h.lists.place_head hx)

/-- The blocks of a list. -/
theorem list (h : Mem s hand taken a) (x : Place T P) :
    ∃ L, Chain s.next (head s.page s.delayed hand taken x) L ∧ L.Nodup ∧
      ∀ b, b ∈ L ↔ a.loc b = .list x := by
  obtain ⟨L, hc, hn, hm⟩ := h.lists x
  exact ⟨L, hc, hn, fun b => (hm b).trans Own.place_eq_some⟩

/-- Where the other threads are does not matter. -/
theorem congr (h : Mem s hand taken a) {s' : State T P} {hand' taken' : T → Option (MiBlock P)}
    {a' : Own T P} (hnext : s'.next = s.next) (hpage : s'.page = s.page)
    (hdelayed : s'.delayed = s.delayed) (hlive : s'.live = s.live) (hhand : hand' = hand)
    (htaken : taken' = taken) (hloc : a'.loc = a.loc) (hflag : a'.flag = a.flag)
    (hheap : a'.heap = a.heap) : Mem s' hand' taken' a' := by
  have hplace : a'.place = a.place := by
    funext b
    show (a'.loc b).place = (a.loc b).place
    rw [hloc]
  constructor
  · rw [hnext, hpage, hdelayed, hhand, htaken, hplace]
    exact h.lists
  · rw [hpage, hflag]
    exact h.flag
  · rw [hpage, hheap]
    exact h.heap
  · rw [hpage, hheap]
    exact h.threadId
  · rw [hlive, hloc]
    exact h.live
  · rw [hpage, hloc]
    exact h.born
  · rw [hnext, hpage]
    exact h.count
  · rw [hpage]
    exact h.reserved
  · rw [hpage, hheap]
    exact h.zero

/-- Blocks that are in neither of the lists of the owner are counted by `used`. -/
theorem length_le_used (h : Mem s hand taken a) (hi : a.Inv) {p : P} {M : List (MiBlock P)}
    (hM : M.Nodup) (hp : ∀ b ∈ M, b.page = p ∧ a.loc b ≠ .unborn ∧ a.loc b ≠ .list (.free p) ∧
      a.loc b ≠ .list (.localFree p)) : M.length ≤ (s.page p).used := by
  classical
  obtain ⟨L, L', hc, hc', hcount⟩ := h.count p
  obtain ⟨K, hk, hKn, hKm⟩ := h.list (.free p)
  obtain ⟨K', hk', hKn', hKm'⟩ := h.list (.localFree p)
  cases hc.unique hk
  cases hc'.unique hk'
  have hall : (M ++ (L ++ L')).Nodup := by
    refine List.nodup_append.mpr ⟨hM, List.nodup_append.mpr ⟨hKn, hKn', ?_⟩, ?_⟩
    · rintro b hb c hc' rfl
      have e := ((hKm b).mp hb).symm.trans ((hKm' b).mp hc')
      cases e
    · rintro b hb c hcL rfl
      rcases List.mem_append.mp hcL with hcL | hcL
      · exact (hp b hb).2.2.1 ((hKm b).mp hcL)
      · exact (hp b hb).2.2.2 ((hKm' b).mp hcL)
  have hpage : ∀ b ∈ M ++ (L ++ L'), b.page = p ∧ b.idx < (s.page p).capacity := by
    intro b hb
    have hb : b.page = p ∧ a.loc b ≠ .unborn := by
      rcases List.mem_append.mp hb with hb | hb
      · exact ⟨(hp b hb).1, (hp b hb).2.1⟩
      · rcases List.mem_append.mp hb with hb | hb
        · have hl := (hKm b).mp hb
          exact ⟨hi.listed b p (.inl hl), by rw [hl]; exact (nomatch ·)⟩
        · have hl := (hKm' b).mp hb
          exact ⟨hi.listed b p (.inr (.inl hl)), by rw [hl]; exact (nomatch ·)⟩
    obtain ⟨rfl, hb⟩ := hb
    exact ⟨rfl, by simpa using mt (h.born b).mpr hb⟩
  have hle := length_le_of_bounded hall (s.page p).capacity MiBlock.idx
    (fun b hb c hc e => by
      have hbp := (hpage b hb).1
      have hcp := (hpage c hc).1
      cases b; cases c
      cases hbp; cases hcp; cases e
      rfl)
    (fun b hb => (hpage b hb).2)
  simp only [List.length_append] at hle
  omega

theorem used_pos (h : Mem s hand taken a) (hi : a.Inv) {b : MiBlock P} (hb : a.loc b ≠ .unborn)
    (hf : a.loc b ≠ .list (.free b.page)) (hl : a.loc b ≠ .list (.localFree b.page)) :
    0 < (s.page b.page).used := by
  have hM : [b].Nodup := by simp
  have hle := h.length_le_used hi hM (p := b.page) (by simp [hb, hf, hl])
  exact hle

/-- A page of which no block is used: they are all in the lists of the owner. -/
theorem all_free (h : Mem s hand taken a) (hi : a.Inv) {p : P} (hu : (s.page p).used = 0)
    {b : MiBlock P} (hb : b.page = p) :
    a.loc b = .unborn ∨ a.loc b = .list (.free p) ∨ a.loc b = .list (.localFree p) := by
  subst hb
  by_contra hne
  rw [not_or, not_or] at hne
  have hpos := h.used_pos hi hne.1 hne.2.1 hne.2.2
  omega

end Mem

/-! ## What changes -/

variable [DecidableEq T] [DecidableEq P]

namespace Own

omit [DecidableEq T] in
theorem place_setLoc (a : Own T P) (b : MiBlock P) (l : Loc T P) :
    (a.setLoc b l).place = Function.update a.place b l.place := by
  funext c
  show (Function.update a.loc b l c).place = _
  by_cases hc : c = b
  · subst hc
    rw [Function.update_self, Function.update_self]
  · rw [Function.update_of_ne hc, Function.update_of_ne hc]
    rfl

theorem place_moveAll (a : Own T P) (x y : Place T P) :
    (a.moveAll x y).place = Lists.moved a.place x (some y) := by
  funext c
  show (if a.loc c = .list x then Loc.list y else a.loc c).place = _
  unfold Lists.moved
  by_cases hc : a.loc c = .list x
  · rw [if_pos hc, if_pos (place_eq_some.mpr hc)]
    rfl
  · rw [if_neg hc, if_neg (fun e => hc (place_eq_some.mp e))]
    rfl

omit [DecidableEq T] in
theorem setLoc_eq_iff {a : Own T P} {b c : MiBlock P} {l k : Loc T P} (hb : a.loc b ≠ k)
    (hl : l ≠ k) : (a.setLoc b l).loc c = k ↔ a.loc c = k := by
  show Function.update a.loc b l c = _ ↔ _
  by_cases hc : c = b
  · subst hc
    rw [Function.update_self]
    exact ⟨fun e => absurd e hl, fun e => absurd e hb⟩
  · rw [Function.update_of_ne hc]

theorem moveAll_eq_iff {a : Own T P} {x y : Place T P} {c : MiBlock P} {k : Loc T P}
    (hk : ∀ z, k ≠ .list z) : (a.moveAll x y).loc c = k ↔ a.loc c = k := by
  show (if a.loc c = .list x then Loc.list y else a.loc c) = k ↔ _
  split
  · rename_i hc
    rw [hc]
    exact ⟨fun e => absurd e.symm (hk y), fun e => absurd e.symm (hk x)⟩
  · rfl

end Own

section Head
variable (page : P → MiPage T P) (delayed hand taken : T → Option (MiBlock P))

/-- The lists of a page whose record is replaced. -/
theorem head_page (p : P) (pg : MiPage T P) :
    head (Function.update page p pg) delayed hand taken =
      Function.update (Function.update (Function.update (head page delayed hand taken)
        (.free p) pg.free) (.localFree p) pg.localFree) (.threadFree p) pg.xthreadFree.block := by
  funext y
  cases y <;> simp only [head, Function.update_apply] <;> grind

theorem head_delayed (t : T) (o : Option (MiBlock P)) :
    head page (Function.update delayed t o) hand taken =
      Function.update (head page delayed hand taken) (.delayed t) o := by
  funext y
  cases y <;> simp only [head, Function.update_apply] <;> grind

theorem head_hand (t : T) (o : Option (MiBlock P)) :
    head page delayed (Function.update hand t o) taken =
      Function.update (head page delayed hand taken) (.hand t) o := by
  funext y
  cases y <;> simp only [head, Function.update_apply] <;> grind

theorem head_taken (t : T) (o : Option (MiBlock P)) :
    head page delayed hand (Function.update taken t o) =
      Function.update (head page delayed hand taken) (.taken t) o := by
  funext y
  cases y <;> simp only [head, Function.update_apply] <;> grind

end Head

omit [DecidableEq T] in
@[simp] theorem State.setPage_page_self (s : State T P) (p : P) (pg : MiPage T P) :
    (s.setPage p pg).page p = pg := Function.update_self ..

omit [DecidableEq T] [DecidableEq P] in
theorem miExtendCount_bounds (pg : MiPage T P) (h : pg.capacity < pg.reserved) :
    0 < miExtendCount pg ∧ pg.capacity + miExtendCount pg ≤ pg.reserved := by
  unfold miExtendCount
  simp only [miMinExtend]
  split_ifs <;> omega

theorem linkBlocks_apply (p : P) (n i : Nat) (next : MiBlock P → Option (MiBlock P))
    (b : MiBlock P) : linkBlocks p n i next b =
      if b.page = p ∧ i ≤ b.idx ∧ b.idx < i + n then some ⟨p, b.idx + 1⟩ else next b := by
  induction n generalizing i next with
  | zero =>
      show next b = _
      rw [if_neg (by omega)]
  | succ n ih =>
      show linkBlocks p n (i + 1) (Function.update next ⟨p, i⟩ (some ⟨p, i + 1⟩)) b = _
      rw [ih]
      by_cases hb : b = ⟨p, i⟩
      · subst hb
        simp
      · have hne : ¬(b.page = p ∧ b.idx = i) := by
          rintro ⟨rfl, rfl⟩
          exact hb rfl
        rw [Function.update_of_ne hb]
        congr 1
        simp only [eq_iff_iff]
        constructor
        · rintro ⟨hp, hi, hi'⟩
          exact ⟨hp, by omega, by omega⟩
        · rintro ⟨hp, hi, hi'⟩
          have hi : b.idx ≠ i := fun e => hne ⟨hp, e⟩
          exact ⟨hp, by omega, by omega⟩

omit [DecidableEq P] in
/-- Blocks that are each linked to the one behind it. -/
theorem chain_range' {next : MiBlock P → Option (MiBlock P)} (p : P) (n i : Nat) (hn : 0 < n)
    (hnext : ∀ j, i ≤ j → j + 1 < i + n → next ⟨p, j⟩ = some ⟨p, j + 1⟩)
    (hlast : next ⟨p, i + n - 1⟩ = none) :
    Chain next (some ⟨p, i⟩) ((List.range' i n).map (MiBlock.mk p)) := by
  induction n generalizing i with
  | zero => exact absurd hn (lt_irrefl 0)
  | succ n ih =>
      rw [List.range'_succ]
      refine .cons ?_
      cases n with
      | zero =>
          have hlast : next ⟨p, i⟩ = none := hlast
          rw [hlast]
          exact .nil
      | succ n =>
          rw [hnext i (le_refl i) (by omega)]
          refine ih (i + 1) (Nat.succ_pos n) (fun j hj hj' => hnext j (by omega) (by omega)) ?_
          rw [show i + 1 + (n + 1) - 1 = i + (n + 1 + 1) - 1 by omega]
          exact hlast

namespace Mem

variable {s : State T P} {hand taken : T → Option (MiBlock P)} {a : Own T P}

omit [DecidableEq T] in
/-- What one page and its blocks are left as; nothing else changes. -/
theorem page (h : Mem s hand taken a) {s' : State T P} {hand' taken' : T → Option (MiBlock P)}
    {a' : Own T P} (p : P)
    (hpage : ∀ q, q ≠ p → s'.page q = s.page q ∧ a'.flag q = a.flag q ∧ a'.heap q = a.heap q)
    (hnext : ∀ b q, q ≠ p → a.loc b = .list (.free q) ∨ a.loc b = .list (.localFree q) →
      s'.next b = s.next b)
    (hloc : ∀ b, b.page ≠ p → (a'.loc b = .unborn ↔ a.loc b = .unborn))
    (lists : Lists s'.next (head s'.page s'.delayed hand' taken') a'.place)
    (flag : (s'.page p).xthreadFree.delayed = a'.flag p)
    (heap : (s'.page p).xheap = a'.heap p)
    (threadId : (s'.page p).threadId = a'.heap p)
    (live : ∀ b, s'.live b = true ↔ a'.loc b = .live)
    (born : ∀ i, a'.loc ⟨p, i⟩ = .unborn ↔ (s'.page p).capacity ≤ i)
    (count : ∃ L L', Chain s'.next (s'.page p).free L ∧ Chain s'.next (s'.page p).localFree L' ∧
      (s'.page p).used + L.length + L'.length = (s'.page p).capacity)
    (reserved : (s'.page p).capacity ≤ (s'.page p).reserved)
    (zero : a'.heap p = none → (s'.page p).capacity = 0 → s'.page p = .zero) :
    Mem s' hand' taken' a' where
  lists := lists
  flag q := by
    by_cases hq : q = p
    · exact hq ▸ flag
    · rw [(hpage q hq).1, (hpage q hq).2.1]
      exact h.flag q
  heap q := by
    by_cases hq : q = p
    · exact hq ▸ heap
    · rw [(hpage q hq).1, (hpage q hq).2.2]
      exact h.heap q
  threadId q := by
    by_cases hq : q = p
    · exact hq ▸ threadId
    · rw [(hpage q hq).1, (hpage q hq).2.2]
      exact h.threadId q
  live := live
  born b := by
    by_cases hq : b.page = p
    · subst hq
      exact born b.idx
    · rw [(hpage _ hq).1, hloc b hq]
      exact h.born b
  count q := by
    by_cases hq : q = p
    · exact hq ▸ count
    · obtain ⟨L, L', hc, hc', hcount⟩ := h.count q
      rw [(hpage q hq).1]
      refine ⟨L, L', hc.congr fun b hb => hnext b q hq (.inl ?_),
        hc'.congr fun b hb => hnext b q hq (.inr ?_), hcount⟩
      · exact Own.place_eq_some.mp ((h.lists.mem_iff (x := .free q) hc b).mp hb)
      · exact Own.place_eq_some.mp ((h.lists.mem_iff (x := .localFree q) hc' b).mp hb)
  reserved q := by
    by_cases hq : q = p
    · exact hq ▸ reserved
    · rw [(hpage q hq).1]
      exact h.reserved q
  zero q := by
    by_cases hq : q = p
    · exact hq ▸ zero
    · rw [(hpage q hq).1, (hpage q hq).2.2]
      exact h.zero q

omit [DecidableEq T] in
/-- The lists of a page change, and what they leave to `used`. -/
theorem pageLists (h : Mem s hand taken a) {s' : State T P}
    {hand' taken' : T → Option (MiBlock P)} {a' : Own T P} {p : P} {pg : MiPage T P}
    (hs : s'.page = Function.update s.page p pg)
    (hpg : pg = { s.page p with
      free := pg.free, localFree := pg.localFree, used := pg.used, xthreadFree := pg.xthreadFree })
    (hflag : pg.xthreadFree.delayed = a'.flag p) (hflags : ∀ q, q ≠ p → a'.flag q = a.flag q)
    (hheap : a'.heap = a.heap) (hpos : a.heap p = none → (s.page p).capacity ≠ 0)
    (hnext : ∀ b q, q ≠ p → a.loc b = .list (.free q) ∨ a.loc b = .list (.localFree q) →
      s'.next b = s.next b)
    (hborn : ∀ b, a'.loc b = .unborn ↔ a.loc b = .unborn)
    (lists : Lists s'.next (head s'.page s'.delayed hand' taken') a'.place)
    (live : ∀ b, s'.live b = true ↔ a'.loc b = .live)
    (count : ∃ L L', Chain s'.next pg.free L ∧ Chain s'.next pg.localFree L' ∧
      pg.used + L.length + L'.length = pg.capacity) : Mem s' hand' taken' a' := by
  have hself : s'.page p = pg := by rw [hs, Function.update_self]
  have hne : ∀ q, q ≠ p → s'.page q = s.page q := fun q hq => by rw [hs, Function.update_of_ne hq]
  have hcap : pg.capacity = (s.page p).capacity := by rw [hpg]
  refine h.page p (fun q hq => ⟨hne q hq, hflags q hq, by rw [hheap]⟩) hnext
    (fun b _ => hborn b) lists ?_ ?_ ?_ live ?_ ?_ ?_ ?_
  · rw [hself, hflag]
  · rw [hself, hpg, hheap]
    exact h.heap p
  · rw [hself, hpg, hheap]
    exact h.threadId p
  · intro i
    rw [hborn, hself, hcap]
    exact h.born ⟨p, i⟩
  · rw [hself]
    exact count
  · rw [hself, hpg]
    exact h.reserved p
  · intro hn hc
    rw [hheap] at hn
    rw [hself, hcap] at hc
    exact absurd hc (hpos hn)

omit [DecidableEq T] [DecidableEq P] in
theorem capacity_ne_zero (h : Mem s hand taken a) {b : MiBlock P} (hb : a.loc b ≠ .unborn) :
    (s.page b.page).capacity ≠ 0 := by
  have hlt := mt (h.born b).mpr hb
  omega

omit [DecidableEq T] [DecidableEq P] in
theorem not_mem_chain (h : Mem s hand taken a) {x : Place T P} {L : List (MiBlock P)}
    (hc : Chain s.next (head s.page s.delayed hand taken x) L) {b : MiBlock P}
    (hb : a.loc b ≠ .list x) : b ∉ L :=
  fun hL => hb (Own.place_eq_some.mp ((h.lists.mem_iff hc b).mp hL))

omit [DecidableEq T] in
/-- A thread writes to a block that it has, which is in no list. -/
theorem write (h : Mem s hand taken a) {b : MiBlock P} (hb : ∀ x, a.loc b ≠ .list x)
    (v : Option (MiBlock P)) : Mem (s.setNext b v) hand taken a :=
  { h with
    lists := h.lists.write (Own.place_eq_none.mpr hb) v
    count := by
      intro p
      obtain ⟨L, L', hc, hc', hcount⟩ := h.count p
      refine ⟨L, L', hc.write ?_ v, hc'.write ?_ v, hcount⟩
      · exact h.not_mem_chain (x := .free p) hc (hb _)
      · exact h.not_mem_chain (x := .localFree p) hc' (hb _) }

/-- The flag of a page changes. -/
theorem setFlag (h : Mem s hand taken a) (p : P) (d : MiDelayed) (hp : a.heap p ≠ none) :
    Mem (s.setTfree p { (s.page p).xthreadFree with delayed := d }) hand taken
      (a.setFlag p d) := by
  refine h.pageLists rfl rfl ?_ ?_ rfl (fun hn => absurd hn hp) (fun _ _ _ _ => rfl)
    (fun _ => Iff.rfl) ?_ h.live (h.count p)
  · show d = Function.update a.flag p d p
    rw [Function.update_self]
  · exact fun q hq => Function.update_of_ne hq ..
  · refine h.lists.congr (fun x => ?_) (fun _ => rfl)
    show head (Function.update s.page p _) s.delayed _ _ x = _
    rw [head_page]
    cases x <;> simp only [head, Function.update_apply] <;> grind

omit [DecidableEq T] in
/-- A block that is in no list goes to another place that is none.  If the program had it, it has
handed it back. -/
theorem handBack (h : Mem s hand taken a) {b : MiBlock P} {l : Loc T P} (hb : (a.loc b).place = none)
    (hu : a.loc b ≠ .unborn) (hl : l.place = none) (hlive : l ≠ .live) (hborn : l ≠ .unborn) :
    Mem (s.setLive b false) hand taken (a.setLoc b l) :=
  { h with
    lists := by
      refine h.lists.congr (fun _ => rfl) fun c => ?_
      rw [Own.place_setLoc, hl]
      by_cases hc : c = b
      · subst hc
        rw [Function.update_self]
        exact hb.symm
      · rw [Function.update_of_ne hc]
    live := by
      intro c
      show Function.update s.live b false c = true ↔ Function.update a.loc b _ c = _
      by_cases hc : c = b
      · subst hc
        simp [hlive]
      · rw [Function.update_of_ne hc, Function.update_of_ne hc]
        exact h.live c
    born := fun c => (Own.setLoc_eq_iff hu hborn).trans (h.born c) }

omit [DecidableEq T] in
theorem setLoc (h : Mem s hand taken a) {b : MiBlock P} {l : Loc T P} (hb : (a.loc b).place = none)
    (hbl : a.loc b ≠ .live) (hu : a.loc b ≠ .unborn) (hl : l.place = none) (hlive : l ≠ .live)
    (hborn : l ≠ .unborn) : Mem s hand taken (a.setLoc b l) := by
  have hf : s.live b = false := by simpa using mt (h.live b).mp hbl
  refine (h.handBack hb hu hl hlive hborn).congr rfl rfl rfl ?_ rfl rfl rfl rfl rfl
  exact (Function.update_eq_self_iff.mpr hf.symm).symm

/-- A thread puts a block that it has on the delayed list of a heap. -/
theorem delayedPush (h : Mem s hand taken a) {b : MiBlock P} (hb : ∀ x, a.loc b ≠ .list x)
    (hl : a.loc b ≠ .live) (hu : a.loc b ≠ .unborn) (t : T) :
    Mem ((s.setNext b (s.delayed t)).setDelayed t (some b)) hand taken
      (a.setLoc b (.list (.delayed t))) :=
  { h.write hb (s.delayed t) with
    lists := by
      have hpush := h.lists.push (Own.place_eq_none.mpr hb) (.delayed t)
      rw [show (some (Place.delayed t) : Option (Place T P)) = (Loc.list (.delayed t)).place from
        rfl, ← Own.place_setLoc, ← head_delayed] at hpush
      exact hpush
    live := fun c => (h.live c).trans (Own.setLoc_eq_iff hl (by simp)).symm
    born := fun c => (Own.setLoc_eq_iff hu (by simp)).trans (h.born c) }

/-- A thread goes on to the block behind the one it took from the delayed list. -/
theorem handPop (h : Mem s hand taken a) {b : MiBlock P} {t : T} (ht : hand t = some b)
    {l : Loc T P} (hl : l.place = none) (hlive : l ≠ .live) (hborn : l ≠ .unborn) :
    Mem s (Function.update hand t (s.next b)) taken (a.setLoc b l) :=
  have hb : a.loc b = .list (.hand t) := h.loc_head (x := .hand t) ht
  { h with
    lists := by
      have hpop := h.lists.pop (x := .hand t) ht
      rw [← hl, ← Own.place_setLoc, ← head_hand] at hpop
      exact hpop
    live := fun c => (h.live c).trans (Own.setLoc_eq_iff (by simp [hb]) hlive).symm
    born := fun c => (Own.setLoc_eq_iff (by simp [hb]) hborn).trans (h.born c) }

/-- A thread takes over the delayed list of its heap. -/
theorem take (h : Mem s hand taken a) {t : T} (ht : hand t = none) :
    Mem (s.setDelayed t none) (Function.update hand t (s.delayed t)) taken
      (a.moveAll (.delayed t) (.hand t)) :=
  { h with
    lists := by
      have hmove := h.lists.move (x := .delayed t) (y := .hand t) (by simp) ht
      rw [← Own.place_moveAll, ← head_delayed, ← head_hand] at hmove
      exact hmove
    live := fun b => (h.live b).trans (Own.moveAll_eq_iff (by simp)).symm
    born := fun b => (Own.moveAll_eq_iff (by simp)).trans (h.born b) }

/-- `malloc` pops a block. -/
theorem malloc (h : Mem s hand taken a) (hi : a.Inv) {p : P} {b : MiBlock P}
    (hf : (s.page p).free = some b) :
    Mem (miPageMalloc s p b) hand taken (a.setLoc b .live) := by
  have hb : a.loc b = .list (.free p) := h.loc_head (x := .free p) hf
  have hp : b.page = p := hi.listed b p (.inl hb)
  refine h.pageLists rfl rfl (h.flag p) (fun _ _ => rfl) rfl
    (fun _ => hp ▸ h.capacity_ne_zero (by simp [hb])) (fun _ _ _ _ => rfl)
    (fun c => Own.setLoc_eq_iff (by simp [hb]) (by simp)) ?_ ?_ ?_
  · have hpop := h.lists.pop (x := .free p) hf
    rw [show (none : Option (Place T P)) = Loc.place (.live : Loc T P) from rfl,
      ← Own.place_setLoc] at hpop
    refine hpop.congr (fun x => ?_) (fun _ => rfl)
    show head (Function.update s.page p _) s.delayed _ _ x = _
    rw [head_page]
    cases x <;> simp only [head, Function.update_apply] <;> grind
  · intro c
    show Function.update s.live b true c = true ↔ Function.update a.loc b _ c = _
    by_cases hc : c = b
    · subst hc
      simp
    · rw [Function.update_of_ne hc, Function.update_of_ne hc]
      exact h.live c
  · obtain ⟨L, L', hc, hc', hcount⟩ := h.count p
    rw [hf] at hc
    obtain ⟨M, rfl, hM⟩ := hc.exists_cons
    refine ⟨M, L', hM, hc', ?_⟩
    show (s.page p).used + 1 + M.length + L'.length = (s.page p).capacity
    simp only [List.length_cons] at hcount
    omega

/-- The owner of its page frees a block that it has. -/
theorem freeLocal (h : Mem s hand taken a) {b : MiBlock P} (hb : ∀ x, a.loc b ≠ .list x)
    (hl : a.loc b ≠ .live) (hu : a.loc b ≠ .unborn) (hused : 0 < (s.page b.page).used) :
    Mem (miFreeBlockLocal s b) hand taken (a.setLoc b (.list (.localFree b.page))) := by
  refine h.pageLists rfl rfl (h.flag b.page) (fun _ _ => rfl) rfl
    (fun _ => h.capacity_ne_zero hu) ?_ (fun c => Own.setLoc_eq_iff hu (by simp)) ?_
    (fun c => (h.live c).trans (Own.setLoc_eq_iff hl (by simp)).symm) ?_
  · intro c q _ hc
    refine Function.update_of_ne ?_ ..
    rintro rfl
    exact hc.elim (hb _) (hb _)
  · have hpush := h.lists.push (Own.place_eq_none.mpr hb) (.localFree b.page)
    rw [show (some (Place.localFree b.page) : Option (Place T P)) =
      (Loc.list (.localFree b.page)).place from rfl, ← Own.place_setLoc] at hpush
    refine hpush.congr (fun x => ?_) (fun _ => rfl)
    show head (Function.update s.page b.page _) s.delayed _ _ x = _
    rw [head_page]
    cases x <;> simp only [head, Function.update_apply] <;> grind
  · obtain ⟨L, L', hc, hc', hcount⟩ := h.count b.page
    have hL := h.not_mem_chain (x := .free b.page) hc (hb _)
    have hL' := h.not_mem_chain (x := .localFree b.page) hc' (hb _)
    refine ⟨L, b :: L', hc.write hL _, .cons ?_, ?_⟩
    · show Chain (Function.update s.next b _) (Function.update s.next b _ b) L'
      rw [Function.update_self]
      exact hc'.write hL' _
    · show (s.page b.page).used - 1 + L.length + (L'.length + 1) = (s.page b.page).capacity
      omega

/-- Another thread frees a block that it has. -/
theorem threadPush (h : Mem s hand taken a) {b : MiBlock P} (hb : ∀ x, a.loc b ≠ .list x)
    (hl : a.loc b ≠ .live) (hu : a.loc b ≠ .unborn) :
    Mem ((s.setNext b (s.page b.page).xthreadFree.block).setTfree b.page
        { (s.page b.page).xthreadFree with block := some b }) hand taken
      (a.setLoc b (.list (.threadFree b.page))) := by
  refine h.pageLists rfl rfl (h.flag b.page) (fun _ _ => rfl) rfl
    (fun _ => h.capacity_ne_zero hu) ?_ (fun c => Own.setLoc_eq_iff hu (by simp)) ?_
    (fun c => (h.live c).trans (Own.setLoc_eq_iff hl (by simp)).symm) ((h.write hb _).count b.page)
  · intro c q _ hc
    refine Function.update_of_ne ?_ ..
    rintro rfl
    exact hc.elim (hb _) (hb _)
  · have hpush := h.lists.push (Own.place_eq_none.mpr hb) (.threadFree b.page)
    rw [show (some (Place.threadFree b.page) : Option (Place T P)) =
      (Loc.list (.threadFree b.page)).place from rfl, ← Own.place_setLoc] at hpush
    refine hpush.congr (fun x => ?_) (fun _ => rfl)
    show head (Function.update s.page b.page _) s.delayed _ _ x = _
    rw [head_page]
    cases x <;> simp only [head, State.setNext, Function.update_apply] <;> grind

/-- The owner of a page takes over its thread-free list. -/
theorem collect (h : Mem s hand taken a) {t : T} {p : P} (hp : a.heap p ≠ none)
    (ht : taken t = none) :
    Mem (s.setTfree p { (s.page p).xthreadFree with block := none }) hand
      (Function.update taken t (s.page p).xthreadFree.block)
      (a.moveAll (.threadFree p) (.taken t)) := by
  refine h.pageLists rfl rfl (h.flag p) (fun _ _ => rfl) rfl (fun hn => absurd hn hp)
    (fun _ _ _ _ => rfl) (fun b => Own.moveAll_eq_iff (by simp)) ?_
    (fun b => (h.live b).trans (Own.moveAll_eq_iff (by simp)).symm) (h.count p)
  have hmove := h.lists.move (x := .threadFree p) (y := .taken t) (by simp) ht
  rw [← Own.place_moveAll] at hmove
  refine hmove.congr (fun x => ?_) (fun _ => rfl)
  show head (Function.update s.page p _) s.delayed _ (Function.update taken t _) x = _
  rw [head_taken, head_page]
  cases x <;> simp only [head, Function.update_apply] <;> grind

/-- The owner puts the list that it took over before its own. -/
theorem append (h : Mem s hand taken a) (hi : a.Inv) {t : T} {p : P} {b : MiBlock P}
    (ht : taken t = some b) (hp : ∀ c, a.loc c = .list (.taken t) → c.page = p) :
    Mem (miPageThreadFreeAppend s p b) hand (Function.update taken t none)
      (a.moveAll (.taken t) (.localFree p)) := by
  obtain ⟨M, hM, hMn, hMm⟩ := h.list (.taken t)
  have hM : Chain s.next (some b) M := ht ▸ hM
  have hle : M.length ≤ (s.page p).used := h.length_le_used hi hMn fun c hc => by
    have hc := (hMm c).mp hc
    exact ⟨hp c hc, by simp [hc]⟩
  obtain ⟨L, L', hc, hc', hcount⟩ := h.count p
  obtain ⟨last, hlast, hw⟩ := walk_chain hM (s.page p).capacity 1 (by omega)
  have hpos : 0 < M.length := by
    obtain ⟨M', rfl, -⟩ := hM.exists_cons
    simp
  have hlastM : a.loc last = .list (.taken t) := (hMm last).mp (List.mem_of_getLast? hlast)
  have happ := h.lists.append (x := .taken t) (y := .localFree p) (by simp) ht hM hlast
  have hs : miPageThreadFreeAppend s p b = (s.setNext last (s.page p).localFree).setPage p
      { s.page p with localFree := some b, used := (s.page p).used - M.length } := by
    unfold miPageThreadFreeAppend
    simp only [hw]
    rw [if_neg (by omega), show 1 + (M.length - 1) = M.length by omega]
  rw [hs]
  refine h.pageLists rfl rfl (h.flag p) (fun _ _ => rfl) rfl (fun _ => by omega) ?_
    (fun b => Own.moveAll_eq_iff (by simp)) ?_
    (fun b => (h.live b).trans (Own.moveAll_eq_iff (by simp)).symm) ?_
  · intro c q _ hcq
    refine Function.update_of_ne ?_ ..
    rintro rfl
    simp [hlastM] at hcq
  · rw [← Own.place_moveAll] at happ
    refine happ.congr (fun x => ?_) (fun _ => rfl)
    show head (Function.update s.page p _) s.delayed _ (Function.update taken t _) x = _
    rw [head_taken, head_page]
    cases x <;> simp only [head, Function.update_apply] <;> grind
  · have hL := h.not_mem_chain (x := .free p) hc (b := last) (by simp [hlastM])
    have hL' := h.not_mem_chain (x := .localFree p) hc' (b := last) (by simp [hlastM])
    refine ⟨L, M ++ L', hc.write hL _, hM.append hMn hlast hc' hL', ?_⟩
    show (s.page p).used - M.length + L.length + (M ++ L').length = (s.page p).capacity
    rw [List.length_append]
    omega

/-- What is behind the thread-free list in `_mi_page_free_collect` comes to an end, and leaves the
blocks that the owner freed where they are or hands them all to `malloc`. -/
theorem localCollect (h : Mem s hand taken a) {p : P} (hp : a.heap p ≠ none) (force : Bool) :
    ∃ s', miPageLocalCollect s p force = some s' ∧
      (s' = s ∨ Mem s' hand taken (a.moveAll (.localFree p) (.free p))) := by
  unfold miPageLocalCollect
  cases hl : (s.page p).localFree with
  | none => exact ⟨s, by simp only [hl], .inl rfl⟩
  | some b =>
      simp only [hl]
      obtain ⟨L, L', hc, hc', hcount⟩ := h.count p
      have hL' := hl ▸ hc'
      have hlive := fun c => (h.live c).trans (Own.moveAll_eq_iff (x := .localFree p)
        (y := .free p) (by simp)).symm
      by_cases hf : (s.page p).free = none
      · -- the list for `malloc` is empty: the other one takes its place
        simp only [if_pos hf]
        refine ⟨_, rfl, .inr ?_⟩
        refine h.pageLists rfl rfl (h.flag p) (fun _ _ => rfl) rfl (fun hn => absurd hn hp)
          (fun _ _ _ _ => rfl) (fun b => Own.moveAll_eq_iff (by simp)) ?_ hlive
          ⟨L', [], hL', .nil, ?_⟩
        · have hmove := h.lists.move (x := .localFree p) (y := .free p) (by simp) hf
          rw [← Own.place_moveAll] at hmove
          refine hmove.congr (fun x => ?_) (fun _ => rfl)
          show head (Function.update s.page p _) s.delayed _ _ x = _
          rw [head_page]
          cases x <;> simp only [head, Function.update_apply] <;> grind
        · rw [hf] at hc
          rw [hc.eq_nil] at hcount
          show (s.page p).used + L'.length + 0 = (s.page p).capacity
          simpa using hcount
      · rw [if_neg hf]
        cases force with
        | false => exact ⟨s, rfl, .inl rfl⟩
        | true =>
            obtain ⟨last, hlast, hw⟩ := lastOf_chain hL' (s.page p).capacity (by omega)
            have hlastL := (h.lists.mem_iff (x := .localFree p) hc' last).mp
              (List.mem_of_getLast? hlast)
            have hlastl : a.loc last = .list (.localFree p) := Own.place_eq_some.mp hlastL
            simp only [if_true, hw]
            refine ⟨_, rfl, .inr ?_⟩
            refine h.pageLists rfl rfl (h.flag p) (fun _ _ => rfl) rfl (fun hn => absurd hn hp) ?_
              (fun b => Own.moveAll_eq_iff (by simp)) ?_ hlive ⟨L' ++ L, [], ?_, .nil, ?_⟩
            · intro c q hq hcq
              refine Function.update_of_ne ?_ ..
              rintro rfl
              simp only [hlastl, Loc.list.injEq, Place.localFree.injEq, reduceCtorEq,
                false_or] at hcq
              exact hq hcq.symm
            · have happ := h.lists.append (x := .localFree p) (y := .free p) (by simp) hl hL' hlast
              rw [← Own.place_moveAll] at happ
              refine happ.congr (fun x => ?_) (fun _ => rfl)
              show head (Function.update s.page p _) s.delayed _ _ x = _
              rw [head_page]
              cases x <;> simp only [head, Function.update_apply] <;> grind
            · exact hL'.append (h.lists.nodup (x := .localFree p) hc') hlast hc
                (h.not_mem_chain (x := .free p) hc (by simp [hlastl]))
            · show (s.page p).used + (L' ++ L).length + 0 = (s.page p).capacity
              rw [List.length_append]
              omega

/-- A page is given to a thread, or taken from it. -/
theorem setHeap (h : Mem s hand taken a) (p : P) (o : Option T) (reserved blockSize : Nat)
    (hr : (s.page p).capacity ≤ reserved) (ho : o = none → (s.page p).capacity ≠ 0) :
    Mem (s.setPage p { s.page p with
      xheap := o, threadId := o, xblockSize := blockSize, reserved := reserved }) hand taken
      (a.setHeap p o) := by
  have hself : (s.setPage p { s.page p with
      xheap := o, threadId := o, xblockSize := blockSize, reserved := reserved }).page p =
      { s.page p with
        xheap := o, threadId := o, xblockSize := blockSize, reserved := reserved } :=
    Function.update_self ..
  have hheap : (a.setHeap p o).heap p = o := Function.update_self ..
  refine h.page p (fun q hq => ⟨Function.update_of_ne hq .., rfl, Function.update_of_ne hq ..⟩)
    (fun _ _ _ _ => rfl) (fun _ _ => Iff.rfl) ?_ ?_ ?_ ?_ h.live ?_ ?_ ?_ ?_
  · refine h.lists.congr (fun x => ?_) (fun _ => rfl)
    show head (Function.update s.page p _) s.delayed _ _ x = _
    rw [head_page]
    cases x <;> simp only [head, Function.update_apply] <;> grind
  · rw [hself]
    exact h.flag p
  · rw [hself, hheap]
  · rw [hself, hheap]
  · intro i
    rw [hself]
    exact h.born ⟨p, i⟩
  · rw [hself]
    exact h.count p
  · rw [hself]
    exact hr
  · intro hn hc
    rw [hheap] at hn
    rw [hself] at hc
    exact absurd hc (ho hn)

/-- The blocks that `mi_page_extend_free` adds are the ones behind those that there were, and are
all in the list for `malloc`. -/
theorem extend (h : Mem s hand taken a) {p : P} (hp : a.heap p ≠ none) :
    ∃ loc, (∀ b, loc b = a.loc b ∨ b.page = p ∧ a.loc b = .unborn ∧ loc b = .list (.free p)) ∧
      Mem (miPageExtendFree s p) hand taken { a with loc := loc } := by
  unfold miPageExtendFree
  by_cases hf : (s.page p).free = none
  swap
  · simp only [if_pos hf]
    exact ⟨a.loc, fun b => .inl rfl, h⟩
  by_cases hr : (s.page p).reserved ≤ (s.page p).capacity
  · simp only [hf, ne_eq, not_true_eq_false, if_false, if_pos hr]
    exact ⟨a.loc, fun b => .inl rfl, h⟩
  simp only [hf, ne_eq, not_true_eq_false, if_false, if_neg hr]
  obtain ⟨hn, hle⟩ := miExtendCount_bounds (s.page p) (by omega)
  generalize miExtendCount (s.page p) = n at hn hle
  generalize hcap : (s.page p).capacity = c at hle hr
  -- the new blocks, and what they are linked to
  have hnext := linkBlocks_apply p n c s.next
  have hunborn : ∀ b : MiBlock P, b.page = p → c ≤ b.idx → a.loc b = .unborn := by
    rintro b rfl hb
    exact (h.born b).mpr (hcap ▸ hb)
  let new : List (MiBlock P) := (List.range' c n).map (MiBlock.mk p)
  have hnew : ∀ b, b ∈ new ↔ b.page = p ∧ c ≤ b.idx ∧ b.idx < c + n := by
    intro b
    simp only [new, List.mem_map, List.mem_range'_1]
    constructor
    · rintro ⟨i, hi, rfl⟩
      exact ⟨rfl, hi⟩
    · rintro ⟨rfl, hi⟩
      exact ⟨b.idx, hi, rfl⟩
  have hnodup : new.Nodup := by
    refine List.Nodup.map (fun i j e => ?_) List.nodup_range'
    cases e
    rfl
  have hfill : ∀ b, b ∉ new → Function.update (linkBlocks p n c s.next) ⟨p, c + n - 1⟩ none b =
      s.next b := by
    intro b hb
    have hb : ¬(b.page = p ∧ c ≤ b.idx ∧ b.idx < c + n) := fun e => hb ((hnew b).mpr e)
    rw [Function.update_of_ne, hnext, if_neg hb]
    rintro rfl
    exact hb ⟨rfl, by show c ≤ c + n - 1; omega, by show c + n - 1 < c + n; omega⟩
  have hchain : Chain (Function.update (linkBlocks p n c s.next) ⟨p, c + n - 1⟩ none)
      (some ⟨p, c⟩) new := by
    refine chain_range' p n c hn (fun i hi hi' => ?_) (Function.update_self ..)
    rw [Function.update_of_ne, hnext, if_pos ⟨rfl, hi, by show i < c + n; omega⟩]
    intro e
    have e : i = c + n - 1 := congrArg MiBlock.idx e
    omega
  have hnone : ∀ b ∈ new, a.place b = none := fun b hb => by
    obtain ⟨hbp, hb, -⟩ := (hnew b).mp hb
    exact Own.place_eq_none.mpr (by simp [hunborn b hbp hb])
  refine ⟨fun b => if b ∈ new then .list (.free p) else a.loc b, fun b => ?_, ?_⟩
  · by_cases hb : b ∈ new
    · obtain ⟨hbp, hb', -⟩ := (hnew b).mp hb
      exact .inr ⟨hbp, hunborn b hbp hb', if_pos hb⟩
    · exact .inl (if_neg hb)
  have hloc : ∀ b, ∀ k : Loc T P, k ≠ .unborn → k ≠ .list (.free p) →
      ((if b ∈ new then Loc.list (.free p) else a.loc b) = k ↔ a.loc b = k) := by
    intro b k hk hk'
    split
    · rename_i hb
      obtain ⟨hbp, hb', -⟩ := (hnew b).mp hb
      rw [hunborn b hbp hb']
      exact ⟨fun e => absurd e.symm hk', fun e => absurd e.symm hk⟩
    · rfl
  refine h.page p (fun q hq => ⟨Function.update_of_ne hq .., rfl, rfl⟩) (fun b q _ hb => ?_)
    (fun b hb => ?_) ?_ ?_ ?_ ?_ (fun b => (h.live b).trans (hloc b _ (by simp) (by simp)).symm)
    ?_ ?_ ?_ (fun hn => absurd hn hp)
  · exact hfill b fun hb' => by
      obtain ⟨hbp, hb', -⟩ := (hnew b).mp hb'
      simp [hunborn b hbp hb'] at hb
  · show (if b ∈ new then Loc.list (.free p) else a.loc b) = _ ↔ _
    rw [if_neg fun hb' => hb ((hnew b).mp hb').1]
  · refine (h.lists.fill (x := .free p) hf hchain hnodup hnone hfill).congr (fun x => ?_)
      (fun b => ?_)
    · show head (Function.update s.page p _) s.delayed _ _ x = _
      rw [head_page]
      cases x <;> simp only [head, Function.update_apply] <;> grind
    · show Loc.place (if b ∈ new then _ else a.loc b) = if b ∈ new then _ else _
      split <;> rfl
  · rw [State.setPage_page_self]
    exact h.flag p
  · rw [State.setPage_page_self]
    exact h.heap p
  · rw [State.setPage_page_self]
    exact h.threadId p
  · intro i
    rw [State.setPage_page_self]
    show (if (⟨p, i⟩ : MiBlock P) ∈ new then Loc.list (.free p) else a.loc ⟨p, i⟩) = _ ↔ c + n ≤ i
    have hi := h.born ⟨p, i⟩
    rw [hcap] at hi
    split
    · rename_i hb
      obtain ⟨-, -, hlt⟩ := (hnew _).mp hb
      simp only [reduceCtorEq, false_iff]
      exact not_le.mpr hlt
    · rename_i hb
      rw [hi]
      have hb : ¬(c ≤ i ∧ i < c + n) := fun e => hb ((hnew _).mpr ⟨rfl, e⟩)
      show c ≤ i ↔ _
      omega
  · rw [State.setPage_page_self]
    obtain ⟨L, L', hc, hc', hcount⟩ := h.count p
    rw [hf] at hc
    rw [hc.eq_nil] at hcount
    refine ⟨new, L', hchain, hc'.congr fun b hb => hfill b fun hb' => ?_, ?_⟩
    · have hl := Own.place_eq_some.mp ((h.lists.mem_iff (x := .localFree p) hc' b).mp hb)
      obtain ⟨hbp, hb', -⟩ := (hnew b).mp hb'
      simp [hunborn b hbp hb'] at hl
    · show (s.page p).used + new.length + L'.length = c + n
      simp only [new, List.length_map, List.length_range', List.length_nil] at hcount ⊢
      omega
  · rw [State.setPage_page_self]
    exact hle

/-- A page of which no block is used is given back. -/
theorem clear (h : Mem s hand taken a) (hi : a.Inv) {p : P} (hu : (s.page p).used = 0) :
    Mem (s.setPage p .zero) hand taken
      { (((a.setHeap p none).setFlag p .useDelayedFree).setPend p false) with
        loc := fun b => if b.page = p then .unborn else a.loc b } := by
  have hall := fun b hb => h.all_free hi hu (b := b) hb
  have hheap : (a.setHeap p none).heap p = none := Function.update_self ..
  refine h.page p (fun q hq => ⟨Function.update_of_ne hq .., Function.update_of_ne hq ..,
    Function.update_of_ne hq ..⟩) (fun _ _ _ _ => rfl) (fun b hb => ?_) ?_ ?_ ?_ ?_ ?_ ?_ ?_ ?_ ?_
  · show (if b.page = p then Loc.unborn else a.loc b) = _ ↔ _
    rw [if_neg hb]
  · have ht : (s.page p).xthreadFree.block = none :=
      h.head_eq_none (x := .threadFree p) fun b hb => by
        have hbp := hi.listed b p (.inr (.inr hb))
        simpa [hb] using hall b hbp
    refine ((h.lists.drop (.free p)).drop (.localFree p)).congr (fun x => ?_) (fun b => ?_)
    · show head (Function.update s.page p _) s.delayed _ _ x = _
      rw [head_page]
      cases x <;> simp only [head, MiPage.zero, Function.update_apply] <;> grind
    · show Loc.place (if b.page = p then .unborn else a.loc b) = _
      have hl := hi.listed b p
      simp only [Lists.moved, Own.place_eq_some]
      by_cases hb : b.page = p
      · rw [if_pos hb]
        rcases hall b hb with hb | hb | hb <;> simp [hb, Own.place, Loc.place]
      · rw [if_neg hb, if_neg (fun e => hb (hl (.inl e))), if_neg]
        · rfl
        · rw [Own.place_eq_some]
          exact fun e => hb (hl (.inr (.inl e)))
  · rw [State.setPage_page_self]
    show MiDelayed.useDelayedFree = Function.update a.flag p _ p
    rw [Function.update_self]
  · rw [State.setPage_page_self]
    exact hheap.symm
  · rw [State.setPage_page_self]
    exact hheap.symm
  · intro b
    show s.live b = true ↔ (if b.page = p then Loc.unborn else a.loc b) = _
    split
    · rename_i hb
      rw [h.live b]
      rcases hall b hb with hb | hb | hb <;> simp [hb]
    · exact h.live b
  · intro i
    rw [State.setPage_page_self]
    show (if p = p then Loc.unborn else a.loc ⟨p, i⟩) = _ ↔ 0 ≤ i
    simp
  · rw [State.setPage_page_self]
    exact ⟨[], [], .nil, .nil, rfl⟩
  · rw [State.setPage_page_self]
    exact le_refl 0
  · intro _ _
    rw [State.setPage_page_self]

end Mem

end EflCore.Mimalloc
