/-
# `EflCore.Lib.LinkedCells` — a family of disjoint linked lists in one store

Cells are linked by one `next` field.  A list is a cell to start from, or none; there is one for
each place of `π`, and `head` says where it starts.  `place` says of each cell which list it is
in, if any.  `Lists next head place` says that the pointers agree with `place`: what is met from
`head x` on is a finite list without repetition, of exactly the cells whose place is `x`.  So no
cell is in two lists, or twice in one, and none is lost on the way.

    operation              next                    head                 place
    push b on x            b ↦ head x              x ↦ b                b ↦ x
    pop b from x           —                       x ↦ next b           b ↦ none
    move x to y (empty)    —                       x ↦ none, y ↦ x's    x's ↦ y
    append x before y      last of x ↦ head y      x ↦ none, y ↦ x's    x's ↦ y
    drop x                 —                       x ↦ none             x's ↦ none
    fill x (empty) by L    as L has it             x ↦ first of L       L's ↦ x
    write at a free cell   b ↦ anything            —                    —

**Proved here.**  Each row keeps `Lists`.  The two loops that look for the end of a list find it
(`walk_chain`, `lastOf_chain`), and the cells of a bounded pool that are in lists are counted
(`length_le_of_bounded`).
-/
import Mathlib.Data.List.Nodup
import Mathlib.Data.List.Range
import Mathlib.Logic.Function.Basic
import Mathlib.Data.List.Perm.Subperm

namespace LinkedCells

variable {β π : Type}

/-- `L` is what is met from `o` on. -/
def Chain (next : β → Option β) : Option β → List β → Prop
  | o, [] => o = none
  | o, b :: L => o = some b ∧ Chain next (next b) L

theorem Chain.nil {next : β → Option β} : Chain next none [] := rfl

theorem Chain.cons {next : β → Option β} {b : β} {L : List β} (h : Chain next (next b) L) :
    Chain next (some b) (b :: L) := ⟨rfl, h⟩

theorem Chain.eq_nil {next : β → Option β} : ∀ {L : List β}, Chain next none L → L = []
  | [], _ => rfl
  | _ :: _, h => by cases h.1

theorem Chain.exists_cons {next : β → Option β} {b : β} :
    ∀ {L : List β}, Chain next (some b) L → ∃ L', L = b :: L' ∧ Chain next (next b) L'
  | [], h => by cases h
  | c :: L, h => by
      have hc : b = c := Option.some.inj h.1
      subst hc
      exact ⟨L, rfl, h.2⟩

theorem Chain.unique {next : β → Option β} {o : Option β} {L L' : List β}
    (h : Chain next o L) (h' : Chain next o L') : L = L' := by
  induction L generalizing o L' with
  | nil =>
      have ho : o = none := h
      subst ho
      exact h'.eq_nil.symm
  | cons b L ih =>
      obtain ⟨rfl, h⟩ := h
      obtain ⟨L'', rfl, ht⟩ := h'.exists_cons
      rw [ih h ht]

/-- Only the cells that are met matter. -/
theorem Chain.congr {next next' : β → Option β} {o : Option β} {L : List β} (h : Chain next o L)
    (hn : ∀ b ∈ L, next' b = next b) : Chain next' o L := by
  induction L generalizing o with
  | nil => exact h
  | cons c L ih =>
      refine ⟨h.1, ?_⟩
      rw [hn c (List.mem_cons_self ..)]
      exact ih h.2 fun b hb => hn b (List.mem_cons_of_mem c hb)

section Write
variable [DecidableEq β]

/-- A write to a cell that is not met changes nothing. -/
theorem Chain.write {next : β → Option β} {o : Option β} {L : List β} (h : Chain next o L) {b : β}
    (hb : b ∉ L) (v : Option β) : Chain (Function.update next b v) o L := by
  refine h.congr fun c hc => Function.update_of_ne ?_ ..
  rintro rfl
  exact hb hc

/-- The last cell is linked to another list. -/
theorem Chain.append {next : β → Option β} {b : β} {L L' : List β} {o : Option β} {last : β}
    (h : Chain next (some b) L) (hL : L.Nodup) (hlast : last ∈ L.getLast?) (h' : Chain next o L')
    (hd : last ∉ L') : Chain (Function.update next last o) (some b) (L ++ L') := by
  induction L generalizing b with
  | nil => cases h
  | cons c L ih =>
      obtain ⟨hc, h⟩ := h
      obtain ⟨hcL, hL⟩ := List.nodup_cons.mp hL
      refine ⟨hc, ?_⟩
      cases L with
      | nil =>
          have hlast : c = last := by simpa using hlast
          subst hlast
          rw [Function.update_self]
          exact h'.write hd o
      | cons d L =>
          have hlast : last ∈ (d :: L).getLast? := by simpa using hlast
          have hne : c ≠ last := by
            rintro rfl
            exact hcL (List.mem_of_getLast? hlast)
          rw [Function.update_of_ne hne, h.1]
          exact ih (h.1 ▸ h) hL hlast

end Write

/-! ## The loops that look for the end -/

/-- `while ((next = next(tail)) != NULL && count <= max) { count++; tail = next; }`, where the
first argument is how often the bound lets it run. -/
def walk (next : β → Option β) : Nat → Nat → β → Nat × β
  | 0, count, tail => (count, tail)
  | fuel + 1, count, tail =>
      match next tail with
      | none => (count, tail)
      | some b => walk next fuel (count + 1) b

theorem walk_chain {next : β → Option β} {b : β} {L : List β} (h : Chain next (some b) L)
    (fuel count : Nat) (hf : L.length ≤ fuel + 1) :
    ∃ last, last ∈ L.getLast? ∧ walk next fuel count b = (count + (L.length - 1), last) := by
  induction fuel generalizing b L count with
  | zero =>
      obtain ⟨L, rfl, -⟩ := h.exists_cons
      have hL : L = [] := List.length_eq_zero_iff.mp (by simpa using hf)
      subst hL
      exact ⟨b, rfl, rfl⟩
  | succ fuel ih =>
      obtain ⟨L', rfl, ht⟩ := h.exists_cons
      unfold walk
      cases hb : next b with
      | none =>
          rw [hb] at ht
          rw [ht.eq_nil]
          exact ⟨b, rfl, rfl⟩
      | some c =>
          rw [hb] at ht
          obtain ⟨last, hlast, hw⟩ := ih ht (count + 1) (by simpa using hf)
          obtain ⟨L'', rfl, -⟩ := ht.exists_cons
          refine ⟨last, by simpa using hlast, ?_⟩
          show walk next fuel (count + 1) c = _
          rw [hw]
          have e : count + 1 + ((c :: L'').length - 1) = count + ((b :: c :: L'').length - 1) := by
            simp only [List.length_cons]
            omega
          rw [e]

/-- `while ((next = next(tail)) != NULL) { tail = next; }`; `none` if it is still running. -/
def lastOf (next : β → Option β) : Nat → β → Option β
  | 0, _ => none
  | fuel + 1, tail =>
      match next tail with
      | none => some tail
      | some b => lastOf next fuel b

theorem lastOf_chain {next : β → Option β} {b : β} {L : List β} (h : Chain next (some b) L)
    (fuel : Nat) (hf : L.length ≤ fuel) : ∃ last, last ∈ L.getLast? ∧ lastOf next fuel b = some last := by
  induction fuel generalizing b L with
  | zero =>
      obtain ⟨L, rfl, -⟩ := h.exists_cons
      exact absurd hf (by simp)
  | succ fuel ih =>
      obtain ⟨L', rfl, ht⟩ := h.exists_cons
      unfold lastOf
      cases hb : next b with
      | none =>
          rw [hb] at ht
          rw [ht.eq_nil]
          exact ⟨b, rfl, rfl⟩
      | some c =>
          rw [hb] at ht
          obtain ⟨last, hlast, hw⟩ := ih ht (by simpa using hf)
          obtain ⟨L'', rfl, -⟩ := ht.exists_cons
          exact ⟨last, by simpa using hlast, hw⟩

/-! ## All lists of a store -/

/-- Each list is finite, without repetition, and made of the cells that are at its place. -/
def Lists (next : β → Option β) (head : π → Option β) (place : β → Option π) : Prop :=
  ∀ x, ∃ L, Chain next (head x) L ∧ L.Nodup ∧ ∀ b, b ∈ L ↔ place b = some x

namespace Lists

variable {next : β → Option β} {head : π → Option β} {place : β → Option π}

theorem nodup (h : Lists next head place) {x : π} {L : List β} (hc : Chain next (head x) L) :
    L.Nodup := by
  obtain ⟨L', hc', hn, -⟩ := h x
  rw [hc.unique hc']
  exact hn

theorem mem_iff (h : Lists next head place) {x : π} {L : List β} (hc : Chain next (head x) L)
    (b : β) : b ∈ L ↔ place b = some x := by
  obtain ⟨L', hc', -, hm⟩ := h x
  rw [hc.unique hc']
  exact hm b

theorem place_head (h : Lists next head place) {x : π} {b : β} (hx : head x = some b) :
    place b = some x := by
  obtain ⟨L, hc, -, hm⟩ := h x
  rw [hx] at hc
  obtain ⟨L', rfl, -⟩ := hc.exists_cons
  exact (hm b).mp (List.mem_cons_self ..)

theorem head_none_iff (h : Lists next head place) (x : π) :
    head x = none ↔ ∀ b, place b ≠ some x := by
  obtain ⟨L, hc, -, hm⟩ := h x
  constructor
  · intro hx b hb
    rw [hx] at hc
    rw [hc.eq_nil] at hm
    exact absurd ((hm b).mpr hb) List.not_mem_nil
  · intro hx
    cases L with
    | nil => exact hc
    | cons b L => exact absurd ((hm b).mp (List.mem_cons_self ..)) (hx b)

theorem congr (h : Lists next head place) {head' : π → Option β} {place' : β → Option π}
    (hh : ∀ x, head' x = head x) (hp : ∀ b, place' b = place b) : Lists next head' place' := by
  intro x
  obtain ⟨L, hc, hn, hm⟩ := h x
  exact ⟨L, (hh x).symm ▸ hc, hn, fun b => (hp b).symm ▸ hm b⟩

/-- What is left of a list behind its first cell. -/
theorem tail (h : Lists next head place) {x : π} {b : β} (hx : head x = some b) :
    ∃ L, Chain next (next b) L ∧ b ∉ L ∧ L.Nodup ∧ ∀ c, c ∈ L ↔ place c = some x ∧ c ≠ b := by
  obtain ⟨L, hc, hn, hm⟩ := h x
  rw [hx] at hc
  obtain ⟨L', rfl, ht⟩ := hc.exists_cons
  obtain ⟨hb, hn⟩ := List.nodup_cons.mp hn
  refine ⟨L', ht, hb, hn, fun c => ?_⟩
  rw [← hm c, List.mem_cons]
  constructor
  · intro hcL
    exact ⟨.inr hcL, fun e => hb (e ▸ hcL)⟩
  · rintro ⟨rfl | hcL, hne⟩
    · exact absurd rfl hne
    · exact hcL

section Write
variable [DecidableEq β]

theorem write (h : Lists next head place) {b : β} (hb : place b = none) (v : Option β) :
    Lists (Function.update next b v) head place := by
  intro x
  obtain ⟨L, hc, hn, hm⟩ := h x
  refine ⟨L, hc.write (fun hL => ?_) v, hn, hm⟩
  rw [(hm b).mp hL] at hb
  cases hb

variable [DecidableEq π]

theorem push (h : Lists next head place) {b : β} (hb : place b = none) (x : π) :
    Lists (Function.update next b (head x)) (Function.update head x (some b))
      (Function.update place b (some x)) := by
  intro y
  obtain ⟨L, hc, hn, hm⟩ := h y
  have hbL : b ∉ L := by
    intro hL
    rw [(hm b).mp hL] at hb
    cases hb
  have hc' := hc.write hbL (head x)
  by_cases hy : y = x
  · subst hy
    refine ⟨b :: L, ?_, List.nodup_cons.mpr ⟨hbL, hn⟩, fun c => ?_⟩
    · rw [Function.update_self]
      exact .cons (by rw [Function.update_self]; exact hc')
    · by_cases hcb : c = b
      · subst hcb
        simp
      · rw [Function.update_of_ne hcb, ← hm c, List.mem_cons]
        simp [hcb]
  · refine ⟨L, by rwa [Function.update_of_ne hy], hn, fun c => ?_⟩
    by_cases hcb : c = b
    · subst hcb
      rw [Function.update_self]
      exact ⟨fun hL => absurd hL hbL, fun e => absurd (Option.some.inj e).symm hy⟩
    · rw [Function.update_of_ne hcb]
      exact hm c

theorem pop (h : Lists next head place) {x : π} {b : β} (hx : head x = some b) :
    Lists next (Function.update head x (next b)) (Function.update place b none) := by
  have hb := h.place_head hx
  intro y
  by_cases hy : y = x
  · subst hy
    obtain ⟨L, hc, hbL, hn, hm⟩ := h.tail hx
    refine ⟨L, by rwa [Function.update_self], hn, fun c => ?_⟩
    by_cases hcb : c = b
    · subst hcb
      simp [hbL]
    · rw [Function.update_of_ne hcb, hm c]
      exact and_iff_left hcb
  · obtain ⟨L, hc, hn, hm⟩ := h y
    refine ⟨L, by rwa [Function.update_of_ne hy], hn, fun c => ?_⟩
    by_cases hcb : c = b
    · subst hcb
      rw [Function.update_self, hm c, hb]
      exact ⟨fun e => absurd (Option.some.inj e).symm hy, fun e => by cases e⟩
    · rw [Function.update_of_ne hcb]
      exact hm c

end Write

section Move
variable [DecidableEq π]

/-- The places after the cells of `x` went to `y`. -/
def moved (place : β → Option π) (x : π) (y : Option π) : β → Option π :=
  fun b => if place b = some x then y else place b

theorem moved_eq_some {x y z : π} {b : β} (hz : z ≠ x) (hzy : z ≠ y) :
    moved place x (some y) b = some z ↔ place b = some z := by
  unfold moved
  split
  · rename_i hb
    rw [hb]
    exact ⟨fun e => absurd (Option.some.inj e).symm hzy,
      fun e => absurd (Option.some.inj e).symm hz⟩
  · rfl

theorem moved_ne {x y : π} {b : β} (hxy : x ≠ y) : moved place x (some y) b ≠ some x := by
  unfold moved
  split
  · exact fun e => hxy (Option.some.inj e).symm
  · assumption

theorem moved_self {x y : π} {b : β} :
    moved place x (some y) b = some y ↔ place b = some x ∨ place b = some y := by
  unfold moved
  split
  · simp [*]
  · simp [*]

/-- A list is taken over by a place that had none. -/
theorem move (h : Lists next head place) {x y : π} (hxy : x ≠ y) (hy : head y = none) :
    Lists next (Function.update (Function.update head x none) y (head x))
      (moved place x (some y)) := by
  intro z
  by_cases hz : z = y
  · subst hz
    obtain ⟨L, hc, hn, hm⟩ := h x
    refine ⟨L, by rwa [Function.update_self], hn, fun b => ?_⟩
    rw [moved_self, hm b]
    exact (or_iff_left ((h.head_none_iff z).mp hy b)).symm
  · by_cases hzx : z = x
    · subst hzx
      refine ⟨[], ?_, List.nodup_nil, fun b => ?_⟩
      · rw [Function.update_of_ne hz, Function.update_self]
        exact .nil
      · exact ⟨fun hb => absurd hb List.not_mem_nil, fun hb => absurd hb (moved_ne hxy)⟩
    · obtain ⟨L, hc, hn, hm⟩ := h z
      refine ⟨L, ?_, hn, fun b => ?_⟩
      · rwa [Function.update_of_ne hz, Function.update_of_ne hzx]
      · rw [moved_eq_some hzx hz]
        exact hm b

/-- A list is forgotten, and its cells are in none. -/
theorem drop (h : Lists next head place) (x : π) :
    Lists next (Function.update head x none) (moved place x none) := by
  intro z
  by_cases hz : z = x
  · subst hz
    refine ⟨[], by rw [Function.update_self]; exact .nil, List.nodup_nil, fun b => ?_⟩
    refine ⟨fun hb => absurd hb List.not_mem_nil, fun hb => ?_⟩
    unfold moved at hb
    split at hb
    · cases hb
    · contradiction
  · obtain ⟨L, hc, hn, hm⟩ := h z
    refine ⟨L, by rwa [Function.update_of_ne hz], hn, fun b => ?_⟩
    rw [hm b]
    unfold moved
    split
    · rename_i hb
      rw [hb]
      exact ⟨fun e => absurd (Option.some.inj e).symm hz, fun e => by cases e⟩
    · rfl

/-- A list is put before another one, by its last cell. -/
theorem append [DecidableEq β] (h : Lists next head place) {x y : π} (hxy : x ≠ y) {b last : β} {L : List β}
    (hx : head x = some b) (hc : Chain next (some b) L) (hlast : last ∈ L.getLast?) :
    Lists (Function.update next last (head y))
      (Function.update (Function.update head x none) y (some b)) (moved place x (some y)) := by
  have hL := h.nodup (hx.symm ▸ hc)
  have hm := h.mem_iff (hx.symm ▸ hc)
  have hlastx := (hm last).mp (List.mem_of_getLast? hlast)
  intro z
  obtain ⟨Lz, hcz, hnz, hmz⟩ := h z
  by_cases hz : z = y
  · subst hz
    have hd : ∀ c ∈ L, c ∉ Lz := by
      intro c hcL hcz
      have e := ((hm c).mp hcL).symm.trans ((hmz c).mp hcz)
      exact hxy (Option.some.inj e)
    refine ⟨L ++ Lz, ?_, ?_, fun c => ?_⟩
    · rw [Function.update_self]
      exact hc.append hL hlast hcz (hd last (List.mem_of_getLast? hlast))
    · exact List.nodup_append.mpr ⟨hL, hnz, fun c hcL d hdz e => hd c hcL (e ▸ hdz)⟩
    · rw [List.mem_append, moved_self, hm c, hmz c]
  · by_cases hzx : z = x
    · subst hzx
      refine ⟨[], ?_, List.nodup_nil, fun c => ?_⟩
      · rw [Function.update_of_ne hz, Function.update_self]
        exact .nil
      · exact ⟨fun hb => absurd hb List.not_mem_nil, fun hb => absurd hb (moved_ne hxy)⟩
    · refine ⟨Lz, ?_, hnz, fun c => ?_⟩
      · rw [Function.update_of_ne hz, Function.update_of_ne hzx]
        refine hcz.write (fun hl => ?_) _
        have e := ((hmz last).mp hl).symm.trans hlastx
        exact hzx (Option.some.inj e)
      · rw [moved_eq_some hzx hz]
        exact hmz c

end Move

/-- A list that was empty is made of cells that were in none. -/
theorem fill [DecidableEq π] [DecidableEq β] (h : Lists next head place) {x : π}
    (hx : head x = none) {next' : β → Option β} {o : Option β} {L : List β}
    (hc : Chain next' o L) (hL : L.Nodup) (hfree : ∀ b ∈ L, place b = none)
    (hnext : ∀ b, b ∉ L → next' b = next b) :
    Lists next' (Function.update head x o) (fun b => if b ∈ L then some x else place b) := by
  intro y
  by_cases hy : y = x
  · subst hy
    refine ⟨L, by rwa [Function.update_self], hL, fun b => ?_⟩
    show b ∈ L ↔ (if b ∈ L then some y else place b) = some y
    split
    · simp [*]
    · rename_i hb
      simp [hb, (h.head_none_iff y).mp hx b]
  · obtain ⟨M, hM, hMn, hMm⟩ := h y
    have hd : ∀ b ∈ M, b ∉ L := by
      intro b hbM hbL
      have e := (hfree b hbL).symm.trans ((hMm b).mp hbM)
      cases e
    refine ⟨M, ?_, hMn, fun b => ?_⟩
    · rw [Function.update_of_ne hy]
      exact hM.congr fun b hb => hnext b (hd b hb)
    · show b ∈ M ↔ (if b ∈ L then some x else place b) = some y
      split
      · rename_i hb
        exact ⟨fun hbM => absurd hb (hd b hbM), fun e => absurd (Option.some.inj e).symm hy⟩
      · exact hMm b

end Lists

/-! ## Counting -/

/-- Cells that are numbered below `n` are at most `n`. -/
theorem length_le_of_bounded {L : List β} (hL : L.Nodup) (n : Nat) (number : β → Nat)
    (hinj : ∀ b ∈ L, ∀ c ∈ L, number b = number c → b = c) (hlt : ∀ b ∈ L, number b < n) :
    L.length ≤ n := by
  have hN : (L.map number).Nodup := by
    refine List.Nodup.map_on (fun b hb c hc e => hinj b hb c hc e) hL
  have hs : (L.map number) ⊆ List.range n := by
    intro i hi
    obtain ⟨b, hb, rfl⟩ := List.mem_map.mp hi
    exact List.mem_range.mpr (hlt b hb)
  have hle := (hN.subperm hs).length_le
  simpa using hle

end LinkedCells
