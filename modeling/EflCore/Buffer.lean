/-
# `EflCore.Buffer` — elements in a row, and loops over them

An address is an integer and a memory holds something at each of them; a pointer is an
address or null.  Nothing is to be read through the null pointer, but no elements are there
as anywhere else.

    elements m a n      the n elements from a on
    write m a l         l, from a on
    walk next deref     for (; it != last; ++it) visit(*it);

Rows are cut and joined as the lists of their elements are (`elements_add`,
`drop_elements`, `take_elements`).  What a loop visits is known when it is known how many
steps lead from its first iterator to its last (`walk_of_iterate`).
-/
import Mathlib.Data.List.Basic
import Mathlib.Logic.Function.Iterate

namespace Buffer

section
variable {α : Type}

abbrev Memory (α : Type) : Type := Int → α

/-- `none` is the null pointer. -/
abbrev Ptr : Type := Option Int

namespace Ptr

def add (p : Ptr) (n : Nat) : Ptr := p.map (· + (n : Int))

def succ (p : Ptr) : Ptr := p.map (· + 1)

def pred (p : Ptr) : Ptr := p.map (· - 1)

@[simp] theorem add_some (a : Int) (n : Nat) : Ptr.add (some a) n = some (a + n) := rfl

@[simp] theorem add_none (n : Nat) : Ptr.add none n = none := rfl

theorem add_zero (p : Ptr) : p.add 0 = p := by
  cases p with
  | none => rfl
  | some a => exact congrArg some (Int.add_zero a)

theorem add_add (p : Ptr) (i j : Nat) : (p.add i).add j = p.add (i + j) := by
  cases p with
  | none => rfl
  | some a =>
      show some (a + i + j) = some (a + (i + j : Nat))
      rw [Int.natCast_add, Int.add_assoc]

theorem iterate_succ (a : Int) (n : Nat) : succ^[n] (some a) = some (a + n) := by
  induction n with
  | zero => exact congrArg some (Int.add_zero a).symm
  | succ n ih =>
      rw [Function.iterate_succ_apply', ih]
      exact congrArg some (Int.add_assoc a n 1)

theorem iterate_pred (a : Int) (n : Nat) : pred^[n] (some a) = some (a - n) := by
  induction n with
  | zero => exact congrArg some (Int.sub_zero a).symm
  | succ n ih =>
      rw [Function.iterate_succ_apply', ih]
      exact congrArg some (Int.sub_sub a n 1)

end Ptr

/-! ## Rows of elements -/

def elements (m : Memory α) (a : Int) : Nat → List α
  | 0 => []
  | n + 1 => m a :: elements m (a + 1) n

variable {m : Memory α} {a : Int}

@[simp] theorem length_elements (m : Memory α) (a : Int) (n : Nat) :
    (elements m a n).length = n := by
  induction n generalizing a with
  | zero => rfl
  | succ n ih => exact congrArg Nat.succ (ih (a + 1))

theorem elements_add (m : Memory α) (a : Int) (i j : Nat) :
    elements m a (i + j) = elements m a i ++ elements m (a + i) j := by
  induction i generalizing a with
  | zero =>
      rw [Nat.zero_add, Int.natCast_zero, Int.add_zero]
      rfl
  | succ i ih =>
      have hnext : a + 1 + (i : Int) = a + (i + 1 : Nat) := by omega
      rw [Nat.succ_add, elements, ih, hnext]
      rfl

theorem take_elements (m : Memory α) (a : Int) {k n : Nat} (hk : k ≤ n) :
    (elements m a n).take k = elements m a k := by
  obtain ⟨j, rfl⟩ := Nat.exists_eq_add_of_le hk
  rw [elements_add]
  exact List.take_left' (length_elements m a k)

theorem drop_elements (m : Memory α) (a : Int) {k n : Nat} (hk : k ≤ n) :
    (elements m a n).drop k = elements m (a + k) (n - k) := by
  obtain ⟨j, rfl⟩ := Nat.exists_eq_add_of_le hk
  rw [elements_add, Nat.add_sub_cancel_left]
  exact List.drop_left' (length_elements m a k)

/-- The row of `n` elements that `p` points to. -/
def Ptr.elements (m : Memory α) (p : Ptr) (n : Nat) : Option (List α) :=
  match p with
  | some a => some (Buffer.elements m a n)
  | none => if n = 0 then some [] else none

theorem length_of_elements {p : Ptr} {n : Nat} {l : List α} (h : p.elements m n = some l) :
    l.length = n := by
  cases p with
  | some a =>
      obtain rfl := Option.some.inj h
      exact length_elements m a n
  | none =>
      simp only [Ptr.elements] at h
      split at h
      next hn =>
          obtain rfl := Option.some.inj h
          exact hn.symm
      next => cases h

theorem mem_elements {m : Memory α} {a : Int} {n : Nat} {x : α} :
    x ∈ elements m a n ↔ ∃ i < n, m (a + i) = x := by
  induction n generalizing a with
  | zero => simp [elements]
  | succ n ih =>
      rw [elements, List.mem_cons, ih]
      constructor
      · rintro (rfl | ⟨i, hi, rfl⟩)
        · exact ⟨0, Nat.succ_pos n, congrArg m (Int.add_zero a)⟩
        · exact ⟨i + 1, Nat.succ_lt_succ hi, congrArg m (by omega)⟩
      · rintro ⟨i, hi, rfl⟩
        cases i with
        | zero => exact .inl (congrArg m (Int.add_zero a))
        | succ i => exact .inr ⟨i, Nat.lt_of_succ_lt_succ hi, congrArg m (by omega)⟩

theorem take_drop_elements (m : Memory α) (a : Int) {k n size : Nat} (h : k + n ≤ size) :
    ((elements m a size).drop k).take n = elements m (a + k) n := by
  rw [drop_elements m a (by omega), take_elements m _ (by omega)]

/-- A row of addresses lies in another if it is empty or ends in time. -/
theorem addresses_within_iff {k n size : Nat} :
    (∀ x ∈ elements id (a + k) n, ∃ i < size, a + (i : Nat) = x) ↔ n = 0 ∨ k + n ≤ size := by
  constructor
  · intro h
    by_cases hn : n = 0
    · exact .inl hn
    · have hlast : a + k + (n - 1 : Nat) ∈ elements id (a + k) n :=
        mem_elements.mpr ⟨n - 1, by omega, rfl⟩
      obtain ⟨i, hi, hx⟩ := h _ hlast
      exact .inr (by omega)
  · intro h x hx
    obtain ⟨i, hi, rfl⟩ := mem_elements.mp hx
    refine ⟨k + i, by omega, ?_⟩
    show a + (k + i : Nat) = a + k + i
    omega

theorem elements_none {n : Nat} {l : List α} (h : Ptr.elements m none n = some l) : n = 0 := by
  simp only [Ptr.elements] at h
  split at h
  next hn => exact hn
  next => cases h

/-! ## Writing -/

def write (m : Memory α) (a : Int) : List α → Memory α
  | [] => m
  | c :: cs => write (Function.update m a c) (a + 1) cs

theorem write_of_lt (m : Memory α) {a x : Int} (hx : x < a) (l : List α) :
    write m a l x = m x := by
  induction l generalizing m a with
  | nil => rfl
  | cons c cs ih =>
      rw [write, ih _ (by omega)]
      exact Function.update_of_ne (by omega) ..

/-- What is beyond what is written stays. -/
theorem write_of_le (m : Memory α) {a x : Int} {l : List α} (hx : a + l.length ≤ x) :
    write m a l x = m x := by
  induction l generalizing m a with
  | nil => rfl
  | cons c cs ih =>
      rw [List.length_cons] at hx
      rw [write, ih _ (by omega)]
      exact Function.update_of_ne (by omega) ..

/-- What is written is there. -/
theorem elements_write (m : Memory α) (a : Int) (l : List α) :
    elements (write m a l) a l.length = l := by
  induction l generalizing m a with
  | nil => rfl
  | cons c cs ih =>
      show write (Function.update m a c) (a + 1) cs a :: _ = c :: cs
      rw [write_of_lt _ (Int.lt_succ a), Function.update_self]
      exact congrArg _ (ih ..)

end

/-! ## Loops -/

section
variable {ι β : Type} [DecidableEq ι] (next : ι → ι) (deref : ι → β)

/-- What the loop from `it` to `last` visits, if it is over after `fuel` steps. -/
def walk : Nat → ι → ι → Option (List β)
  | 0, it, last => if it = last then some [] else none
  | fuel + 1, it, last =>
      if it = last then some []
      else (walk fuel (next it) last).map (deref it :: ·)

variable {next deref}

theorem walk_self (fuel : Nat) (it : ι) : walk next deref fuel it it = some [] := by
  cases fuel with
  | zero => rw [walk, if_pos rfl]
  | succ fuel => rw [walk, if_pos rfl]

/-- A loop is over when it gets to `last` for the first time. -/
theorem walk_of_iterate {n fuel : Nat} {it last : ι} (hn : next^[n] it = last)
    (hfirst : ∀ k < n, next^[k] it ≠ last) (hfuel : n ≤ fuel) :
    walk next deref fuel it last = some ((List.range n).map fun k => deref (next^[k] it)) := by
  induction n generalizing fuel it with
  | zero =>
      obtain rfl : it = last := hn
      exact walk_self fuel it
  | succ n ih =>
      obtain ⟨fuel, rfl⟩ := Nat.exists_eq_add_of_le' hfuel
      have hne : it ≠ last := hfirst 0 (Nat.succ_pos n)
      have hrest : ∀ k < n, next^[k] (next it) ≠ last := by
        intro k hk
        exact hfirst (k + 1) (Nat.succ_lt_succ hk)
      rw [← Nat.add_assoc, walk, if_neg hne, ih hn hrest (Nat.le_add_left ..),
        List.range_succ_eq_map, List.map_cons, List.map_map]
      rfl

/-- A loop that is over has got to `last` in as many steps as it has visited elements. -/
theorem iterate_of_walk {fuel : Nat} {it last : ι} {l : List β}
    (h : walk next deref fuel it last = some l) : next^[l.length] it = last := by
  induction fuel generalizing it l with
  | zero =>
      rw [walk] at h
      split at h
      next hit =>
          obtain rfl := Option.some.inj h
          exact hit
      next => cases h
  | succ fuel ih =>
      rw [walk] at h
      split at h
      next hit =>
          obtain rfl := Option.some.inj h
          exact hit
      next =>
          obtain ⟨l', hl', rfl⟩ := Option.map_eq_some_iff.mp h
          show next^[l'.length] (next it) = last
          exact ih hl'

end

end Buffer
