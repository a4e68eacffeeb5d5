/-
# `EflCore.View.Reverse` — the reverse iterators of a view

A `std::reverse_iterator` made of `p` stands for the element before `p`, and goes towards the
front.  A loop over the elements in reverse begins with the one made of `end()` and ends with
the one made of `begin()`.  All three views have it the other way round:

    rbegin()    reverse_iterator(begin())     stands for what is before the first element
    rend()      reverse_iterator(end())       is behind, and the loop goes away from it

The loop from the first to the second visits nothing in an empty view; in any other it does
not end (`reversed_iff`).  The same loop between the same two iterators, exchanged, is right
(`reverses_exchanged`).
-/
import EflCore.View.Slice

namespace EflCore

open Layout Buffer

namespace ViewClass
variable {t : Target}

def begin_ : ViewClass → View t → Ptr
  | arrayRef, v => ArrayRef.begin_ v
  | immutArrayRef, v => ImmutArrayRef.begin_ v
  | strRef, v => StrRef.begin_ v

def end_ : ViewClass → View t → Ptr
  | arrayRef, v => ArrayRef.end_ v
  | immutArrayRef, v => ImmutArrayRef.end_ v
  | strRef, v => StrRef.end_ v

def rbegin : ViewClass → View t → ReverseIterator
  | arrayRef, v => ArrayRef.rbegin v
  | immutArrayRef, v => ImmutArrayRef.rbegin v
  | strRef, v => StrRef.rbegin v

def rend : ViewClass → View t → ReverseIterator
  | arrayRef, v => ArrayRef.rend v
  | immutArrayRef, v => ImmutArrayRef.rend v
  | strRef, v => StrRef.rend v

end ViewClass

section
variable {t : Target} {C : ViewClass} {v : View t}

/-- `[first, last)` are the elements of `v` in reverse: the loop over them is over after as many
steps as there are elements, and visits these, in the order opposite to that of
`[v.begin(), v.end())`. -/
def Reverses (C : ViewClass) (v : View t) (first last : ReverseIterator) : Prop :=
  ∃ fuel visited forward,
    walk ReverseIterator.next ReverseIterator.deref fuel first last = some visited ∧
      visited.length = v.size_.toNat ∧
      (∀ p ∈ visited, ∃ i < v.size_.toNat, p = v.data_.add i) ∧
      walk Ptr.succ id fuel (C.begin_ v) (C.end_ v) = some forward ∧ visited = forward.reverse

theorem begin_eq : C.begin_ v = v.data_ := by
  cases C <;> rfl

theorem end_eq : C.end_ v = v.data_.add v.size_.toNat := by
  cases C <;> rfl

/-- The ends of the reverse loop are those of the loop, in the order they have there. -/
theorem rbegin_eq : C.rbegin v = ⟨v.data_⟩ ∧ C.rend v = ⟨v.data_.add v.size_.toNat⟩ := by
  cases C <;> exact ⟨rfl, rfl⟩

theorem iterate_next (p : Ptr) (n : Nat) : ReverseIterator.next^[n] ⟨p⟩ = ⟨Ptr.pred^[n] p⟩ := by
  induction n generalizing p with
  | zero => rfl
  | succ n ih =>
      rw [Function.iterate_succ_apply, Function.iterate_succ_apply]
      exact ih p.pred

/-- A loop from the front towards the front gets to the end only where there is nothing
between them. -/
theorem reversed_iff : Reverses C v (C.rbegin v) (C.rend v) ↔ v.size_ = 0#_ := by
  obtain ⟨hrbegin, hrend⟩ := rbegin_eq (C := C) (v := v)
  have hzero : v.size_ = 0#_ ↔ v.size_.toNat = 0 := BitVec.toNat_eq
  rw [hrbegin, hrend, hzero]
  constructor
  · rintro ⟨fuel, visited, forward, hwalk, hlen, -, -, -⟩
    have hend := iterate_of_walk hwalk
    rw [hlen, iterate_next] at hend
    have hend : Ptr.pred^[v.size_.toNat] v.data_ = v.data_.add v.size_.toNat :=
      congrArg ReverseIterator.current hend
    cases hdata : v.data_ with
    | some a =>
        rw [hdata, Ptr.iterate_pred, Ptr.add_some, Option.some.injEq] at hend
        omega
    | none =>
        rw [hdata, Ptr.add_none, walk_self] at hwalk
        obtain rfl := Option.some.inj hwalk
        exact hlen.symm
  · intro hsize
    refine ⟨0, [], [], ?_, hsize.symm, nofun, ?_, rfl⟩
    · rw [hsize, Ptr.add_zero, walk_self]
    · rw [begin_eq, end_eq, hsize, Ptr.add_zero, walk_self]

/-- Exchanged, the two iterators are the ends of the reverse loop. -/
theorem reverses_exchanged (hdata : v.data_ ≠ none) :
    Reverses C v (C.rend v) (C.rbegin v) := by
  obtain ⟨a, ha⟩ := Option.ne_none_iff_exists'.mp hdata
  obtain ⟨hrbegin, hrend⟩ := rbegin_eq (C := C) (v := v)
  rw [hrbegin, hrend]
  unfold Reverses
  rw [begin_eq, end_eq, ha, Ptr.add_some]
  generalize v.size_.toNat = n
  have hback : ∀ k, ReverseIterator.next^[k] ⟨some (a + n)⟩ = ⟨some (a + n - k)⟩ := by
    intro k
    rw [iterate_next, Ptr.iterate_pred]
  have hreverse : walk ReverseIterator.next ReverseIterator.deref n ⟨some (a + n)⟩ ⟨some a⟩ =
      some ((List.range n).map fun k =>
        ReverseIterator.deref (ReverseIterator.next^[k] ⟨some (a + n)⟩)) := by
    refine walk_of_iterate ?_ ?_ le_rfl
    · rw [hback, Int.add_sub_cancel]
    · intro k hk heq
      rw [hback, ReverseIterator.mk.injEq, Option.some.injEq] at heq
      omega
  have hforward : walk Ptr.succ id n (some a) (some (a + n)) =
      some ((List.range n).map fun k => id (Ptr.succ^[k] (some a))) := by
    refine walk_of_iterate (Ptr.iterate_succ a n) ?_ le_rfl
    intro k hk heq
    rw [Ptr.iterate_succ, Option.some.injEq] at heq
    omega
  refine ⟨n, _, _, hreverse, ?_, ?_, hforward, ?_⟩
  · rw [List.length_map, List.length_range]
  · intro p hp
    obtain ⟨k, hk, rfl⟩ := List.mem_map.mp hp
    have hk : k < n := List.mem_range.mp hk
    refine ⟨n - 1 - k, by omega, ?_⟩
    rw [hback]
    show some (a + n - k - 1) = some (a + (n - 1 - k : Nat))
    rw [Option.some.injEq]
    omega
  · refine List.ext_getElem (by simp) ?_
    intro k hk _
    have hk : k < n := by simpa using hk
    simp only [List.getElem_reverse, List.getElem_map, List.getElem_range, List.length_map,
      List.length_range, hback, Ptr.iterate_succ]
    show some (a + n - k - 1) = some (a + (n - 1 - k : Nat))
    rw [Option.some.injEq]
    omega

end

/-- `for (auto it = str.rbegin(); it != str.rend(); ++it)`, where `str` is one character long: it
begins in front of the character. -/
theorem one_not_reversed :
    let str : View x64 := ⟨some 0, 1#_⟩
    (ViewClass.strRef.rbegin str).deref = some (-1) ∧
      ¬ Reverses .strRef str (ViewClass.strRef.rbegin str) (ViewClass.strRef.rend str) := by
  refine ⟨rfl, ?_⟩
  rintro ⟨fuel, visited, forward, hwalk, hlen, -, -, -⟩
  have hend := iterate_of_walk hwalk
  rw [hlen] at hend
  cases hend

end EflCore
