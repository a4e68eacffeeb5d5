/-
# `EflCore.ArrayRef` — views of a buffer that somebody else owns

`ArrayRef<T>` and `ImmutArrayRef<T>` of `ArrayRef.hpp`.  A view is a pointer and a number of
elements; the second class is derived from `ArrayRef<const T>` and has every function again.
`StrRef` (`EflCore.StrRef`) has the same two members, so all three are a `View`, and what they
do alike is written once, in its namespace.

    slice(pos, n)     data_ && (pos + n) <= size_      data_ + pos, n
    slice(n)          data_ && n <= size_              data_ + n, size_ - n
    dropFront(n)                                       slice(n)
    dropBack(n)       n <= size_                       slice(0, size_ - n)
    takeFront(n)                                       *this, or dropBack(size_ - n)
    takeBack(n)                                        *this, or dropFront(size_ - n)

In the middle is what is asserted, with `EFLI_CXPR11ASSERT_`; sizes are `size_t`s, and `+`
and `-` are those of `size_t`.
-/
import EflCore.Buffer
import EflCore.Checked
import EflCore.Layout

namespace EflCore

open Layout Buffer

/-- `data_` and `size_`; nothing says that so many elements are there. -/
structure View (t : Target) where
  data_ : Ptr
  size_ : t.SzType
  deriving DecidableEq

/-- `std::reverse_iterator` of a pointer. -/
structure ReverseIterator where
  current : Ptr
  deriving DecidableEq

namespace ReverseIterator

/-- The element that `operator*` gives: `*(p - 1)`. -/
def deref (it : ReverseIterator) : Ptr := it.current.pred

/-- `operator++`. -/
def next (it : ReverseIterator) : ReverseIterator := ⟨it.current.pred⟩

end ReverseIterator

namespace View
variable {t : Target} (v : View t)

/-- Default constructed. -/
def default (t : Target) : View t := ⟨none, 0#_⟩

/-! ### Iterators -/

def begin_ : Ptr := v.data_

def end_ : Ptr := v.data_.add v.size_.toNat

def rbegin : ReverseIterator := ⟨v.begin_⟩

def rend : ReverseIterator := ⟨v.end_⟩

/-! ### Elements -/

/-- What is seen through the view, if there is anything to be seen. -/
def elements {α : Type} (m : Memory α) : Option (List α) := v.data_.elements m v.size_.toNat

section
variable {α : Type} {m : Memory α} {L : List α} {v}

theorem length_elements (h : v.elements m = some L) : L.length = v.size_.toNat :=
  length_of_elements h

theorem size_eq {v' : View t} (h : v.elements m = some L) (h' : v'.elements m = some L) :
    v.size_ = v'.size_ := by
  refine BitVec.eq_of_toNat_eq ?_
  rw [← length_elements h, ← length_elements h']

theorem elements_of_size_zero (h : v.size_ = 0#_) : v.elements m = some [] := by
  obtain ⟨p, n⟩ := v
  obtain rfl : n = 0#_ := h
  rw [elements, BitVec.toNat_zero]
  cases p with
  | some a => rfl
  | none => rfl

end

/-! ### Operations -/

/-- `slice(pos, n)`. -/
def sliceAt (pos n : t.SzType) : Checked (View t) := do
  Checked.dbgAssert (v.data_.isSome && pos + n ≤ v.size_)
  pure ⟨v.data_.add pos.toNat, n⟩

/-- `slice(n)`. -/
def slice (n : t.SzType) : Checked (View t) := do
  Checked.dbgAssert (v.data_.isSome && n ≤ v.size_)
  pure ⟨v.data_.add n.toNat, v.size_ - n⟩

def dropFront (n : t.SzType) : Checked (View t) := v.slice n

def dropBack (n : t.SzType) : Checked (View t) := do
  Checked.dbgAssert (n ≤ v.size_)
  v.sliceAt 0#_ (v.size_ - n)

def takeFront (n : t.SzType) : Checked (View t) :=
  if n ≥ v.size_ then pure v else v.dropBack (v.size_ - n)

def takeBack (n : t.SzType) : Checked (View t) :=
  if n ≥ v.size_ then pure v else v.dropFront (v.size_ - n)

end View

/-! ## The two classes

`data()` and `size()`, which `ImmutArrayRef` calls where `ArrayRef` names its members, return
these members. -/

abbrev ArrayRef (t : Target) : Type := View t

namespace ArrayRef
variable {t : Target} (v : ArrayRef t)

def begin_ : Ptr := View.begin_ v

def end_ : Ptr := View.end_ v

def rbegin : ReverseIterator := View.rbegin v

def rend : ReverseIterator := View.rend v

def sliceAt (pos n : t.SzType) : Checked (ArrayRef t) := View.sliceAt v pos n

def slice (n : t.SzType) : Checked (ArrayRef t) := View.slice v n

def dropFront (n : t.SzType) : Checked (ArrayRef t) := View.dropFront v n

def dropBack (n : t.SzType) : Checked (ArrayRef t) := View.dropBack v n

def takeFront (n : t.SzType) : Checked (ArrayRef t) := View.takeFront v n

def takeBack (n : t.SzType) : Checked (ArrayRef t) := View.takeBack v n

end ArrayRef

abbrev ImmutArrayRef (t : Target) : Type := View t

namespace ImmutArrayRef
variable {t : Target} (v : ImmutArrayRef t)

def begin_ : Ptr := ArrayRef.begin_ v

def end_ : Ptr := ArrayRef.end_ v

def rbegin : ReverseIterator := ⟨begin_ v⟩

def rend : ReverseIterator := ⟨end_ v⟩

def sliceAt (pos n : t.SzType) : Checked (ImmutArrayRef t) := View.sliceAt v pos n

def slice (n : t.SzType) : Checked (ImmutArrayRef t) := View.slice v n

def dropFront (n : t.SzType) : Checked (ImmutArrayRef t) := View.dropFront v n

def dropBack (n : t.SzType) : Checked (ImmutArrayRef t) := View.dropBack v n

def takeFront (n : t.SzType) : Checked (ImmutArrayRef t) := View.takeFront v n

def takeBack (n : t.SzType) : Checked (ImmutArrayRef t) := View.takeBack v n

end ImmutArrayRef

end EflCore
