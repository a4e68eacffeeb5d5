/-
# `EflCore.Lib.DoublyLinked` — queues linked through their cells, both ways

A family of queues in one store: `first x` and `last x` are the ends of queue `x`, `next` and `prev`
link its cells.  `Rep s q` says that the store `s` holds the lists `q x`: each linked in order, no
cell twice or in two of them, and the cells that are in none have no links.

    operation           what it does to the lists
    push x b            q x := b :: q x                  b in none
    pushBack x b        q x := q x ++ [b]                b in none
    delete x b          q x := (q x).erase b             b in q x, or in none: then nothing happens

The code of an operation is the usual one: a few assignments and tests for the ends.

**Proved here.**  Each row keeps `Rep`, and a queue is what is met from its first cell on
(`Rep.chain`).  `Placed` says only which queue a cell is in, for users whose queues have no order.
-/
import EflCore.Lib.LinkedCells

namespace DoublyLinked

variable {β π : Type}

structure Store (β π : Type) where
  next : β → Option β
  prev : β → Option β
  first : π → Option β
  last : π → Option β

/-- The links of the cells of a list are its order. -/
def Linked (next prev : β → Option β) (L : List β) : Prop :=
  ∀ A b C, L = A ++ b :: C → prev b = A.getLast? ∧ next b = C.head?

structure Rep (s : Store β π) (q : π → List β) : Prop where
  first : ∀ x, s.first x = (q x).head?
  last : ∀ x, s.last x = (q x).getLast?
  linked : ∀ x, Linked s.next s.prev (q x)
  nodup : ∀ x, (q x).Nodup
  disjoint : ∀ x y b, b ∈ q x → b ∈ q y → x = y
  loose : ∀ b, (∀ x, b ∉ q x) → s.next b = none ∧ s.prev b = none

def Store.empty : Store β π := ⟨fun _ => none, fun _ => none, fun _ => none, fun _ => none⟩

theorem Rep.empty : Rep (Store.empty : Store β π) fun _ => [] where
  first _ := rfl
  last _ := rfl
  linked _ A b C h := by simp at h
  nodup _ := List.nodup_nil
  disjoint _ _ b hb := absurd hb List.not_mem_nil
  loose _ _ := ⟨rfl, rfl⟩

theorem Linked.congr {next prev next' prev' : β → Option β} {L : List β} (h : Linked next prev L)
    (hn : ∀ b ∈ L, next' b = next b) (hp : ∀ b ∈ L, prev' b = prev b) : Linked next' prev' L := by
  intro A b C hL
  have hb : b ∈ L := by simp [hL]
  rw [hn b hb, hp b hb]
  exact h A b C hL

/-- What is met from some cell on is the rest of the list. -/
theorem Linked.chain {next prev : β → Option β} {L : List β} (h : Linked next prev L) {A B : List β}
    (hL : L = A ++ B) : LinkedCells.Chain next B.head? B := by
  induction B generalizing A with
  | nil => rfl
  | cons b B ih =>
      refine ⟨rfl, ?_⟩
      rw [(h A b B hL).2]
      exact ih (A := A ++ [b]) (by simp [hL])

/-- A list without one of its cells, when the two beside it are linked to each other. -/
theorem Linked.erase [DecidableEq β] {next prev next' prev' : β → Option β} {L A C : List β} {b : β}
    (h : Linked next prev L) (hL : L = A ++ b :: C) (hnd : L.Nodup)
    (hnext : ∀ c, c ≠ b → next' c = if A.getLast? = some c then C.head? else next c)
    (hprev : ∀ c, c ≠ b → prev' c = if C.head? = some c then A.getLast? else prev c) :
    Linked next' prev' (A ++ C) := by
  intro A' c C' hAC'
  rw [hL] at hnd
  have hcb : c ≠ b := by
    have hc : c ∈ A ++ C := by simp [hAC']
    rintro rfl
    grind
  rw [hnext c hcb, hprev c hcb]
  rcases List.append_eq_append_iff.mp hAC' with ⟨B, hA', hC'⟩ | ⟨B, hA', hC'⟩
  · -- behind the cell that is gone
    obtain ⟨hp, hn⟩ := h (A ++ b :: B) c C' (by rw [hL, hC']; simp)
    have hcA : A.getLast? ≠ some c := by
      intro hcA
      have := List.mem_of_getLast? hcA
      grind
    rw [if_neg hcA]
    refine ⟨?_, hn⟩
    cases B with
    | nil => simp [hA', hC']
    | cons d B =>
        have hdc : d ≠ c := by
          rintro rfl
          grind
        rw [if_neg (by simp [hC', hdc]), hp, hA']
        simp
  · cases B with
    | nil =>
        -- the first one behind it
        simp only [List.nil_append, List.append_nil] at hA' hC'
        subst hA'
        obtain ⟨-, hn⟩ := h (A ++ [b]) c C' (by rw [hL, ← hC']; simp)
        have hcA : A.getLast? ≠ some c := by
          intro hcA
          have := List.mem_of_getLast? hcA
          grind
        rw [if_neg hcA, if_pos (by simp [← hC'])]
        exact ⟨rfl, hn⟩
    | cons d B =>
        -- before it
        obtain ⟨rfl, rfl⟩ := List.cons.inj hC'
        obtain ⟨hp, hn⟩ := h A' c (B ++ b :: C) (by rw [hL, hA']; simp)
        have hcC : C.head? ≠ some c := by
          intro hcC
          have := List.mem_of_head? hcC
          grind
        rw [if_neg hcC]
        refine ⟨hp, ?_⟩
        cases B using List.reverseRecOn with
        | nil => simp [hA']
        | append_singleton B e _ =>
            have hec : e ≠ c := by
              rintro rfl
              grind
            have hlast : A.getLast? = some e := by
              rw [hA', ← List.cons_append, ← List.append_assoc, List.getLast?_concat]
            rw [if_neg (by simp [hlast, hec]), hn]
            cases B <;> simp

namespace Rep

variable {s : Store β π} {q : π → List β}

theorem chain (h : Rep s q) (x : π) : LinkedCells.Chain s.next (s.first x) (q x) := by
  rw [h.first x]
  exact (h.linked x).chain (A := []) rfl

theorem head_mem (h : Rep s q) {x : π} {b : β} (hb : s.first x = some b) : b ∈ q x := by
  rw [h.first x] at hb
  exact List.mem_of_head? hb

theorem last_mem (h : Rep s q) {x : π} {b : β} (hb : s.last x = some b) : b ∈ q x := by
  rw [h.last x] at hb
  exact List.mem_of_getLast? hb

end Rep

/-! ## Operations -/

variable [DecidableEq β] [DecidableEq π]

/-- `f` at the cell `o`, if it is one, becomes `v`. -/
def setAt (f : β → Option β) (o v : Option β) : β → Option β :=
  match o with
  | some a => Function.update f a v
  | none => f

theorem setAt_apply (f : β → Option β) (o v : Option β) (c : β) :
    setAt f o v c = if o = some c then v else f c := by
  cases o with
  | none => simp [setAt]
  | some a => simp [setAt, Function.update_apply, eq_comm]

def Store.push (s : Store β π) (x : π) (b : β) : Store β π where
  next := Function.update s.next b (s.first x)
  prev := setAt (Function.update s.prev b none) (s.first x) (some b)
  first := Function.update s.first x (some b)
  last := if s.first x = none then Function.update s.last x (some b) else s.last

def Store.pushBack (s : Store β π) (x : π) (b : β) : Store β π where
  next := setAt (Function.update s.next b none) (s.last x) (some b)
  prev := Function.update s.prev b (s.last x)
  first := if s.last x = none then Function.update s.first x (some b) else s.first
  last := Function.update s.last x (some b)

def Store.delete (s : Store β π) (x : π) (b : β) : Store β π :=
  let next := setAt s.next (s.prev b) (s.next b)
  let prev := setAt s.prev (next b) (s.prev b)
  { next := Function.update next b none
    prev := Function.update prev b none
    first := if s.first x = some b then Function.update s.first x (next b) else s.first
    last := if s.last x = some b then Function.update s.last x (prev b) else s.last }

/-- The same queues from their other ends. -/
def Store.reverse (s : Store β π) : Store β π := ⟨s.prev, s.next, s.last, s.first⟩

theorem Store.reverse_push (s : Store β π) (x : π) (b : β) :
    (s.reverse.push x b).reverse = s.pushBack x b := rfl

namespace Rep

variable {s : Store β π} {q : π → List β}

omit [DecidableEq β] [DecidableEq π] in
theorem reverse (h : Rep s q) : Rep s.reverse fun x => (q x).reverse where
  first x := by rw [List.head?_reverse]; exact h.last x
  last x := by rw [List.getLast?_reverse]; exact h.first x
  linked x A b C hL := by
    have hq : q x = C.reverse ++ b :: A.reverse := by
      rw [← List.reverse_reverse (q x), hL]
      simp
    obtain ⟨hp, hn⟩ := h.linked x _ b _ hq
    refine ⟨?_, ?_⟩
    · simpa [Store.reverse] using hn
    · simpa [Store.reverse] using hp
  nodup x := List.nodup_reverse.mpr (h.nodup x)
  disjoint x y b hx hy := h.disjoint x y b (List.mem_reverse.mp hx) (List.mem_reverse.mp hy)
  loose b hb := (h.loose b fun x hx => hb x (List.mem_reverse.mpr hx)).symm

omit [DecidableEq β] in
/-- All but the order of the cells: it is the same for each of the operations. -/
theorem of_linked (h : Rep s q) {s' : Store β π} {x : π} {L : List β} (hx : L.Nodup)
    (hnew : ∀ c ∈ L, ∀ y, y ≠ x → c ∉ q y) (first : s'.first x = L.head?)
    (last : s'.last x = L.getLast?) (linked : Linked s'.next s'.prev L)
    (hothers : ∀ y, y ≠ x → s'.first y = s.first y ∧ s'.last y = s.last y)
    (hsame : ∀ y c, y ≠ x → c ∈ q y → s'.next c = s.next c ∧ s'.prev c = s.prev c)
    (loose : ∀ c, c ∉ L → (∀ y, y ≠ x → c ∉ q y) → s'.next c = none ∧ s'.prev c = none) :
    Rep s' (Function.update q x L) where
  first y := by
    by_cases hy : y = x
    · subst hy
      rw [Function.update_self, first]
    · rw [Function.update_of_ne hy, (hothers y hy).1, h.first y]
  last y := by
    by_cases hy : y = x
    · subst hy
      rw [Function.update_self, last]
    · rw [Function.update_of_ne hy, (hothers y hy).2, h.last y]
  linked y := by
    by_cases hy : y = x
    · subst hy
      rwa [Function.update_self]
    · rw [Function.update_of_ne hy]
      exact (h.linked y).congr (fun c hc => (hsame y c hy hc).1) fun c hc => (hsame y c hy hc).2
  nodup y := by
    by_cases hy : y = x
    · subst hy
      rwa [Function.update_self]
    · rw [Function.update_of_ne hy]
      exact h.nodup y
  disjoint y z c hcy hcz := by
    by_cases hy : y = x <;> by_cases hz : z = x
    · rw [hy, hz]
    · rw [hy, Function.update_self] at hcy
      rw [Function.update_of_ne hz] at hcz
      exact absurd hcz (hnew c hcy z hz)
    · rw [Function.update_of_ne hy] at hcy
      rw [hz, Function.update_self] at hcz
      exact absurd hcy (hnew c hcz y hy)
    · rw [Function.update_of_ne hy] at hcy
      rw [Function.update_of_ne hz] at hcz
      exact h.disjoint y z c hcy hcz
  loose c hc := by
    refine loose c ?_ fun y hy => ?_
    · have hx := hc x
      rwa [Function.update_self] at hx
    · have hy' := hc y
      rwa [Function.update_of_ne hy] at hy'

theorem push (h : Rep s q) {b : β} (hb : ∀ y, b ∉ q y) (x : π) :
    Rep (s.push x b) (Function.update q x (b :: q x)) := by
  have hbx := hb x
  have hfirst := h.first x
  have hhead : ∀ {c}, (q x).head? = some c → c ∈ q x := fun e => List.mem_of_head? e
  refine h.of_linked (List.nodup_cons.mpr ⟨hbx, h.nodup x⟩) ?_ (Function.update_self ..) ?_ ?_ ?_ ?_
    ?_
  · intro c hc y hy
    rcases List.mem_cons.mp hc with rfl | hc
    · exact hb y
    · exact fun hcy => hy (h.disjoint y x c hcy hc)
  · have hl := h.last x
    simp only [Store.push, hfirst]
    cases hq : q x with
    | nil => simp
    | cons d L =>
        rw [hq] at hl
        simp [hl, List.getLast?_cons_cons]
  · intro A c C hL
    simp only [Store.push, setAt_apply, hfirst]
    cases A with
    | nil =>
        obtain ⟨rfl, hC⟩ := List.cons.inj hL
        have hne : (q x).head? ≠ some b := fun e => hbx (hhead e)
        simp [hne, ← hC]
    | cons e A =>
        obtain ⟨rfl, hqx⟩ := List.cons.inj hL
        have hcb : c ≠ b := by
          rintro rfl
          simp [hqx] at hbx
        obtain ⟨hp, hn⟩ := h.linked x A c C hqx
        refine ⟨?_, by rw [Function.update_of_ne hcb, hn]⟩
        have hnd := h.nodup x
        rw [hqx] at hnd ⊢
        cases A with
        | nil => simp
        | cons d A =>
            have hdc : d ≠ c := by
              rintro rfl
              simp at hnd
            simp [hdc, hcb, hp, List.getLast?_cons_cons]
  · intro y hy
    refine ⟨Function.update_of_ne hy .., ?_⟩
    simp only [Store.push]
    split
    · exact Function.update_of_ne hy ..
    · rfl
  · intro y c hy hc
    have hcb : c ≠ b := fun e => hb y (e ▸ hc)
    have hne : (q x).head? ≠ some c := fun e => hy (h.disjoint y x c hc (hhead e))
    simp [Store.push, setAt_apply, hfirst, hcb, hne]
  · intro c hc hcy
    have hcb : c ≠ b := fun e => hc (by simp [e])
    have hcx : c ∉ q x := fun e => hc (List.mem_cons_of_mem b e)
    have hne : (q x).head? ≠ some c := fun e => hcx (hhead e)
    obtain ⟨hn, hp⟩ := h.loose c fun y => by
      by_cases hy : y = x
      · exact hy ▸ hcx
      · exact hcy y hy
    simp [Store.push, setAt_apply, hfirst, hcb, hne, hn, hp]

theorem pushBack (h : Rep s q) {b : β} (hb : ∀ y, b ∉ q y) (x : π) :
    Rep (s.pushBack x b) (Function.update q x (q x ++ [b])) := by
  have hr := (h.reverse.push (b := b) (fun y hy => hb y (List.mem_reverse.mp hy)) x).reverse
  rw [Store.reverse_push] at hr
  refine cast (congrArg (Rep (s.pushBack x b)) (funext fun y => ?_)) hr
  by_cases hy : y = x
  · subst hy
    simp
  · simp [Function.update_of_ne hy]

/-- A cell that is in no queue may be deleted from any. -/
theorem delete_loose (h : Rep s q) {b : β} (hb : ∀ y, b ∉ q y) (x : π) : s.delete x b = s := by
  obtain ⟨hn, hp⟩ := h.loose b hb
  have hf : s.first x ≠ some b := fun e => hb x (h.head_mem e)
  have hl : s.last x ≠ some b := fun e => hb x (h.last_mem e)
  have hn' : s.next = Function.update s.next b none := (Function.update_eq_self_iff.mpr hn.symm).symm
  have hp' : s.prev = Function.update s.prev b none := (Function.update_eq_self_iff.mpr hp.symm).symm
  unfold Store.delete
  simp only [hp, hn, setAt, if_neg hf, if_neg hl, ← hn', ← hp']

theorem delete (h : Rep s q) {x : π} {b : β} (hb : b ∈ q x) :
    Rep (s.delete x b) (Function.update q x ((q x).erase b)) := by
  obtain ⟨A, C, hL⟩ := List.append_of_mem hb
  have hnd := h.nodup x
  rw [hL] at hnd
  obtain ⟨hp, hn⟩ := h.linked x A b C hL
  have hbA : b ∉ A := fun hbA =>
    (List.nodup_append.mp hnd).2.2 b hbA b List.mem_cons_self rfl
  have hbC : b ∉ C := (List.nodup_cons.mp (List.nodup_append.mp hnd).2.1).1
  have hAC : (A ++ C).Nodup := hnd.sublist ((List.sublist_cons_self b C).append_left A)
  have herase : (q x).erase b = A ++ C := by
    rw [hL, List.erase_append_right _ hbA, List.erase_cons_head]
  have hlastA : ∀ {a}, A.getLast? = some a → a ∈ A := fun e => List.mem_of_getLast? e
  have hheadC : ∀ {c}, C.head? = some c → c ∈ C := fun e => List.mem_of_head? e
  have hAb : A.getLast? ≠ some b := fun e => hbA (hlastA e)
  have hCb : C.head? ≠ some b := fun e => hbC (hheadC e)
  -- what the cell links to is read before it changes
  have hnext : ∀ c, (s.delete x b).next c =
      if c = b then none else if A.getLast? = some c then C.head? else s.next c := by
    intro c
    simp [Store.delete, setAt_apply, Function.update_apply, hp, hn]
  have hprev : ∀ c, (s.delete x b).prev c =
      if c = b then none else if C.head? = some c then A.getLast? else s.prev c := by
    intro c
    simp [Store.delete, setAt_apply, Function.update_apply, hp, hn, hAb]
  have hfirst : (s.delete x b).first =
      if s.first x = some b then Function.update s.first x C.head? else s.first := by
    simp [Store.delete, setAt_apply, hp, hn, hAb]
  have hlast : (s.delete x b).last =
      if s.last x = some b then Function.update s.last x A.getLast? else s.last := by
    simp [Store.delete, setAt_apply, hp, hn, hAb, hCb]
  have hmem : ∀ c, c ∈ q x ↔ c ∈ A ∨ c = b ∨ c ∈ C := fun c => by
    rw [hL, List.mem_append, List.mem_cons]
  rw [herase]
  refine h.of_linked hAC ?_ ?_ ?_ ?_ ?_ ?_ ?_
  · intro c hc y hy hcy
    refine hy (h.disjoint y x c hcy ((hmem c).mpr ?_))
    rcases List.mem_append.mp hc with hc | hc
    · exact .inl hc
    · exact .inr (.inr hc)
  · have hf := h.first x
    rw [hL] at hf
    rw [hfirst]
    cases A with
    | nil => simp [hf]
    | cons a A =>
        have hab : a ≠ b := fun e => hbA (by simp [e])
        simp [hf, hab]
  · have hl := h.last x
    rw [hL] at hl
    rw [hlast]
    cases C using List.reverseRecOn with
    | nil => simp [hl]
    | append_singleton C c _ =>
        have hcb : c ≠ b := fun e => hbC (by simp [e])
        have hl' : s.last x = some c := by
          rw [hl, ← List.cons_append, ← List.append_assoc, List.getLast?_concat]
        rw [if_neg (by simp [hl', hcb]), hl', ← List.append_assoc, List.getLast?_concat]
  · exact (h.linked x).erase hL (h.nodup x) (fun c hc => by rw [hnext, if_neg hc]) fun c hc => by
      rw [hprev, if_neg hc]
  · intro y hy
    rw [hfirst, hlast]
    refine ⟨?_, ?_⟩
    · split
      · exact Function.update_of_ne hy ..
      · rfl
    · split
      · exact Function.update_of_ne hy ..
      · rfl
  · intro y c hy hcy
    have hcx := mt (hmem c).mpr fun e => hy (h.disjoint y x c hcy e)
    rw [hnext, hprev, if_neg fun e => hcx (.inr (.inl e)), if_neg fun e => hcx (.inl (hlastA e)),
      if_neg fun e => hcx (.inr (.inl e)), if_neg fun e => hcx (.inr (.inr (hheadC e)))]
    exact ⟨rfl, rfl⟩
  · intro c hc hcy
    rw [hnext, hprev]
    by_cases hcb : c = b
    · simp [hcb]
    · have hcA : c ∉ A := fun e => hc (List.mem_append_left C e)
      have hcC : c ∉ C := fun e => hc (List.mem_append_right A e)
      rw [if_neg hcb, if_neg hcb, if_neg fun e => hcA (hlastA e), if_neg fun e => hcC (hheadC e)]
      refine h.loose c fun y => ?_
      by_cases hy : y = x
      · rw [hy, hmem]
        tauto
      · exact hcy y hy

end Rep

/-! ## Which queue a cell is in -/

/-- `m b` is the queue that `b` is in, in whatever place of it. -/
def Placed (s : Store β π) (m : β → Option π) : Prop :=
  ∃ q, Rep s q ∧ ∀ x b, b ∈ q x ↔ m b = some x

namespace Placed

variable {s : Store β π} {m : β → Option π}

theorem push (h : Placed s m) {b : β} (hb : m b = none) (x : π) :
    Placed (s.push x b) (Function.update m b (some x)) := by
  obtain ⟨q, hrep, hq⟩ := h
  have hnone : ∀ y, b ∉ q y := by
    intro y hy
    rw [hq, hb] at hy
    cases hy
  refine ⟨_, hrep.push hnone x, fun y c => ?_⟩
  by_cases hc : c = b
  · subst hc
    rw [Function.update_self]
    by_cases hy : y = x
    · simp [hy]
    · rw [Function.update_of_ne hy]
      exact iff_of_false (hnone y) fun e => hy (Option.some.inj e).symm
  · rw [Function.update_of_ne hc, ← hq]
    by_cases hy : y = x
    · subst hy
      simp [hc]
    · rw [Function.update_of_ne hy]

theorem delete (h : Placed s m) {b : β} {x : π} (hb : ∀ y, m b = some y → y = x) :
    Placed (s.delete x b) (Function.update m b none) := by
  obtain ⟨q, hrep, hq⟩ := h
  by_cases hbx : b ∈ q x
  · refine ⟨_, hrep.delete hbx, fun y c => ?_⟩
    by_cases hy : y = x
    · subst hy
      rw [Function.update_self, (hrep.nodup y).mem_erase_iff, hq]
      by_cases hc : c = b <;> simp [hc]
    · rw [Function.update_of_ne hy, hq]
      by_cases hc : c = b
      · subst hc
        rw [Function.update_self]
        exact iff_of_false (fun e => hy (hb y e)) (by simp)
      · rw [Function.update_of_ne hc]
  · have hnone : m b = none := by
      cases hm : m b with
      | none => rfl
      | some y => exact absurd ((hq x b).mpr (hb y hm ▸ hm)) hbx
    rw [hrep.delete_loose (fun y hy => by rw [hq, hnone] at hy; cases hy),
      Function.update_eq_self_iff.mpr hnone.symm]
    exact ⟨q, hrep, hq⟩

omit [DecidableEq β] [DecidableEq π] in
theorem loose (h : Placed s m) {b : β} (hb : m b = none) : s.next b = none ∧ s.prev b = none := by
  obtain ⟨q, hrep, hq⟩ := h
  refine hrep.loose b fun x hx => ?_
  rw [hq, hb] at hx
  cases hx

end Placed

end DoublyLinked
