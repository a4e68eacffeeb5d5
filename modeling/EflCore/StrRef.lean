/-
# `EflCore.StrRef` — a view of characters

`StrRef.hpp`.  It repeats what the two array views have, and adds `removePrefix` and
`removeSuffix`, which change the view they are called on, and two functions that read the
characters.

`isEqual` compares them one way at run time and another way while the compiler evaluates a
constant.  Between equal lengths it comes to

    length 0, either way         false
    at run time, memcmp          memcmp(..) != 0
    in a constant, std::equal    std::equal(..)

so both ways are wrong about empty strings, the first is wrong about all others too, and the
two never agree except where both are wrong (`isEqual_right_iff`).

`copy` begins to read `count` characters behind the start where it should begin `pos`
behind it, and returns how far `Traits::copy` has moved its first argument, which is not at
all (`copy_right_iff`).
-/
import EflCore.ArrayRef

namespace EflCore

open Layout Buffer

/-- `std::memcmp` on two rows of the same length.  Only its zeros are asked for. -/
structure StdMemcmp (α : Type) where
  run : List α → List α → Int
  eq_zero : ∀ l r, l.length = r.length → (run l r = 0 ↔ l = r)

/-- What `std::char_traits<char>::copy` leaves: the memory, the pointer it returns and the
addresses it has read. -/
structure Copied (α : Type) where
  memory : Memory α
  result : Int
  reads : List Int

/-- `Traits::copy(s1, s2, n)`: it returns `s1`.  The two rows must not overlap, so all is read
before anything is written. -/
def traitsCopy {α : Type} (m : Memory α) (s1 : Int) (s2 : Ptr) (n : Nat) : Option (Copied α) := do
  let row ← s2.elements m n
  let reads ← s2.elements id n
  some ⟨write m s1 row, s1, reads⟩

abbrev StrRef (t : Target) : Type := View t

namespace StrRef
variable {α : Type} {t : Target}

section
variable (v : StrRef t)

def begin_ : Ptr := View.begin_ v

def end_ : Ptr := View.end_ v

def rbegin : ReverseIterator := View.rbegin v

def rend : ReverseIterator := View.rend v

/-! ### Modifiers -/

def removePrefix (n : t.SzType) : Checked (StrRef t) := do
  Checked.dbgAssert (v.data_.isSome && n ≤ v.size_)
  pure ⟨v.data_.add n.toNat, v.size_ - n⟩

def removeSuffix (n : t.SzType) : Checked (StrRef t) := do
  Checked.dbgAssert (n ≤ v.size_)
  pure ⟨v.data_, v.size_ - n⟩

/-! ### Operations -/

def sliceAt (pos n : t.SzType) : Checked (StrRef t) := View.sliceAt v pos n

def slice (n : t.SzType) : Checked (StrRef t) := View.slice v n

def dropFront (n : t.SzType) : Checked (StrRef t) := View.dropFront v n

def dropBack (n : t.SzType) : Checked (StrRef t) := View.dropBack v n

def takeFront (n : t.SzType) : Checked (StrRef t) := View.takeFront v n

def takeBack (n : t.SzType) : Checked (StrRef t) := View.takeBack v n

end

/-! ### Reading characters -/

section
variable [DecidableEq α] (memcmp : StdMemcmp α) (m : Memory α)

/-- `StrRef::Memcmp`. -/
def Memcmp (l r : Ptr) (len : t.SzType) : Option Int := do
  if unlikely (len == 0#_) then some 0
  else some (memcmp.run (← l.elements m len.toNat) (← r.elements m len.toNat))

/-- `StrRef::CxprMemcmp`; `cxpreval` is `EFL_RT_CXPREVAL()`, and false before C++20.  It returns
a `bool`, so its `return 0` is `return false`. -/
def CxprMemcmp (cxpreval : Bool) (l r : Ptr) (len : t.SzType) : Option Bool := do
  if unlikely cxpreval then
    if len == 0#_ then some false
    -- `std::equal(l, l + len, r)`
    else some ((← l.elements m len.toNat) == (← r.elements m len.toNat))
  else
    some (!!((← Memcmp memcmp m l r len) != 0))

def isEqual (cxpreval : Bool) (a str : StrRef t) : Option Bool :=
  if a.size_ ≠ str.size_ then some false
  else CxprMemcmp memcmp m cxpreval (begin_ a) (begin_ str) a.size_

/-- What the comparison should be: right about the strings, whichever way it goes, and on rows
of one length the same both ways. -/
structure EqualityRight (a b : StrRef t) (L R : List α) : Prop where
  right : ∀ cxpreval, isEqual memcmp m cxpreval a b = some (decide (L = R))
  agree : a.size_ = b.size_ →
    CxprMemcmp memcmp m true (begin_ a) (begin_ b) a.size_ =
      CxprMemcmp memcmp m false (begin_ a) (begin_ b) a.size_

variable {memcmp m} {a b : StrRef t} {L R : List α} {cxpreval : Bool}

/-- Strings of different lengths are told apart. -/
theorem isEqual_of_ne (ha : a.elements m = some L) (hb : b.elements m = some R)
    (hne : a.size_ ≠ b.size_) : isEqual memcmp m cxpreval a b = some (decide (L = R)) := by
  have hlen : L ≠ R := by
    rintro rfl
    exact hne (View.size_eq ha hb)
  rw [isEqual, if_pos hne, decide_eq_false hlen]

/-- Empty ranges compare as different, both ways. -/
theorem cxprMemcmp_empty (l r : Ptr) :
    CxprMemcmp memcmp m cxpreval l r (0#t.szBits) = some false := by
  cases cxpreval with
  | true => rfl
  | false => rfl

theorem cxprMemcmp_constant {l r : Ptr} {len : t.SzType} (hl : l.elements m len.toNat = some L)
    (hr : r.elements m len.toNat = some R) (hlen : len ≠ 0#_) :
    CxprMemcmp memcmp m true l r len = some (decide (L = R)) := by
  have hlen : (len == 0#_) = false := beq_eq_false_iff_ne.mpr hlen
  simp [CxprMemcmp, hl, hr, hlen, beq_eq_decide]

/-- `!!` of a comparison that is zero for equal rows. -/
theorem cxprMemcmp_runTime {l r : Ptr} {len : t.SzType} (hl : l.elements m len.toNat = some L)
    (hr : r.elements m len.toNat = some R) (hlen : len ≠ 0#_) :
    CxprMemcmp memcmp m false l r len = some (decide (L ≠ R)) := by
  have hlen : (len == 0#_) = false := beq_eq_false_iff_ne.mpr hlen
  have hzero := memcmp.eq_zero L R ((length_of_elements hl).trans (length_of_elements hr).symm)
  have hbool : (memcmp.run L R != 0) = decide (L ≠ R) := by
    rw [bne, beq_eq_decide, ← decide_not, decide_eq_decide, not_congr hzero]
  simp [CxprMemcmp, Memcmp, hl, hr, hlen, hbool]

theorem isEqual_of_eq (hsize : a.size_ = b.size_) :
    isEqual memcmp m cxpreval a b =
      CxprMemcmp memcmp m cxpreval (begin_ a) (begin_ b) a.size_ := by
  rw [isEqual, if_neg (not_not.mpr hsize)]

omit [DecidableEq α] in
/-- Two empty strings are equal. -/
theorem eq_of_size_zero (ha : a.elements m = some L) (hb : b.elements m = some R)
    (hsize : a.size_ = b.size_) (hzero : a.size_ = 0#_) : L = R := by
  rw [View.elements_of_size_zero hzero] at ha
  rw [View.elements_of_size_zero (hsize.symm.trans hzero), ha] at hb
  exact Option.some.inj hb

/-! ### Which of it is right -/

/-- At run time: what is different in length. -/
theorem right_runTime_iff (ha : a.elements m = some L) (hb : b.elements m = some R) :
    isEqual memcmp m false a b = some (decide (L = R)) ↔ a.size_ ≠ b.size_ := by
  constructor
  · intro h hsize
    rw [isEqual_of_eq hsize] at h
    by_cases hzero : a.size_ = 0#_
    · rw [hzero, cxprMemcmp_empty, decide_eq_true (eq_of_size_zero ha hb hsize hzero)] at h
      cases h
    · have hb' : (begin_ b).elements m a.size_.toNat = some R := by
        rw [hsize]
        exact hb
      rw [cxprMemcmp_runTime (l := begin_ a) ha hb' hzero, Option.some.injEq, decide_eq_decide] at h
      exact not_iff_self h
  · exact isEqual_of_ne ha hb

/-- In a constant: that, and what is not empty. -/
theorem right_constant_iff (ha : a.elements m = some L) (hb : b.elements m = some R) :
    isEqual memcmp m true a b = some (decide (L = R)) ↔ (a.size_ = b.size_ → a.size_ ≠ 0#_) := by
  constructor
  · intro h hsize hzero
    rw [isEqual_of_eq hsize, hzero, cxprMemcmp_empty,
      decide_eq_true (eq_of_size_zero ha hb hsize hzero)] at h
    cases h
  · intro h
    by_cases hsize : a.size_ = b.size_
    · have hb' : (begin_ b).elements m a.size_.toNat = some R := by
        rw [hsize]
        exact hb
      rw [isEqual_of_eq hsize]
      exact cxprMemcmp_constant ha hb' (h hsize)
    · exact isEqual_of_ne ha hb hsize

/-- Rows of one length are given the same answer if there is nothing in them, and no other. -/
theorem agree_iff {l r : Ptr} {len : t.SzType} (hl : l.elements m len.toNat = some L)
    (hr : r.elements m len.toNat = some R) :
    CxprMemcmp memcmp m true l r len = CxprMemcmp memcmp m false l r len ↔ len = 0#_ := by
  constructor
  · intro h
    by_contra hlen
    rw [cxprMemcmp_constant hl hr hlen, cxprMemcmp_runTime hl hr hlen, Option.some.injEq,
      decide_eq_decide] at h
    exact iff_not_self h
  · rintro rfl
    rw [cxprMemcmp_empty, cxprMemcmp_empty]

/-- The comparison is what it should be for strings of different lengths, and for no others. -/
theorem isEqual_right_iff (ha : a.elements m = some L) (hb : b.elements m = some R) :
    EqualityRight memcmp m a b L R ↔ a.size_ ≠ b.size_ := by
  constructor
  · intro h
    exact (right_runTime_iff ha hb).mp (h.right false)
  · intro hne
    refine ⟨fun cxpreval => ?_, fun hsize => absurd hsize hne⟩
    cases cxpreval with
    | true => exact (right_constant_iff ha hb).mpr fun hsize => absurd hsize hne
    | false => exact (right_runTime_iff ha hb).mpr hne

end

/-! ### Copying characters -/

/-- What `copy` reports. -/
structure CopyResult (α : Type) (t : Target) where
  memory : Memory α
  returned : t.SzType
  reads : List Int

section
variable (m : Memory α) (s : StrRef t) (dst : Int) (count pos : t.SzType)

/-- `rcount`. -/
def rcount : t.SzType := if count > s.size_ - pos then s.size_ - pos else count

def copy : Checked (Option (CopyResult α t)) := do
  Checked.cxprAssert (pos ≤ s.size_)
  pure ((traitsCopy m dst (s.data_.add count.toNat) (rcount s count pos).toNat).map fun odst =>
    ⟨odst.memory, BitVec.ofInt t.szBits (odst.result - dst), odst.reads⟩)

/-- What `copy` should leave: the characters of `s` from `pos` on, at most `count` of them, in
the destination, all else as it was, the number of them returned, and nothing read that is not
of `s`. -/
structure CopyRight (L : List α) (r : CopyResult α t) : Prop where
  written : elements r.memory dst (min count.toNat (L.length - pos.toNat)) =
    (L.drop pos.toNat).take count.toNat
  rest : ∀ x, x < dst ∨ dst + (min count.toNat (L.length - pos.toNat) : Nat) ≤ x →
    r.memory x = m x
  returned : r.returned.toNat = min count.toNat (L.length - pos.toNat)
  inside : ∀ x ∈ r.reads, ∃ i < s.size_.toNat, s.data_.add i = some x

variable {m s dst count pos} {L : List α}

theorem toNat_rcount (hpos : pos ≤ s.size_) :
    (rcount s count pos).toNat = min count.toNat (s.size_.toNat - pos.toNat) := by
  have hsub : (s.size_ - pos).toNat = s.size_.toNat - pos.toNat := BitVec.toNat_sub_of_le hpos
  rw [rcount]
  split
  next h =>
      have hlt : (s.size_ - pos).toNat < count.toNat := h
      omega
  next h =>
      have hle : ¬ (s.size_ - pos).toNat < count.toNat := h
      omega

theorem passes_copy (hpos : pos ≤ s.size_) {b : Build} :
    (copy m s dst count pos).Passes b ↔ b.dialect ≠ .cxx14 := by
  simp only [copy, Checked.passes_bind, Checked.passes_cxprAssert, Checked.passes_pure, and_true,
    decide_eq_true hpos, cxprAssert_true]

variable (dst count) in
/-- `copy` begins to read `count` characters behind the start, and returns zero. -/
theorem copy_value (hL : s.elements m = some L) (hpos : pos ≤ s.size_) :
    ∃ row reads, (copy m s dst count pos).value = some ⟨write m dst row, 0#_, reads⟩ ∧
      (s.data_.add count.toNat).elements m (rcount s count pos).toNat = some row ∧
      (s.data_.add count.toNat).elements id (rcount s count pos).toNat = some reads := by
  have hrow : ∃ row reads,
      (s.data_.add count.toNat).elements m (rcount s count pos).toNat = some row ∧
      (s.data_.add count.toNat).elements id (rcount s count pos).toNat = some reads := by
    obtain ⟨p, size⟩ := s
    cases p with
    | some a => exact ⟨_, _, rfl, rfl⟩
    | none =>
        have hsize : size.toNat = 0 := elements_none hL
        have hzero : (rcount (⟨none, size⟩ : StrRef t) count pos).toNat = 0 := by
          rw [toNat_rcount hpos, hsize, Nat.zero_sub, Nat.min_zero]
        rw [hzero]
        exact ⟨[], [], rfl, rfl⟩
  obtain ⟨row, reads, hrow, hreads⟩ := hrow
  have hmoved : BitVec.ofInt t.szBits (dst - dst) = 0#_ := by
    rw [Int.sub_self]
    exact BitVec.ofInt_natCast _ 0
  refine ⟨row, reads, ?_, hrow, hreads⟩
  simp only [copy, Checked.value_bind, Checked.value_pure, traitsCopy, hrow, hreads,
    Option.bind_eq_bind, Option.bind_some, Option.map_some, hmoved]

/-- The characters are right where none are copied, or where those behind `count` are there and
are those behind `pos`. -/
theorem copy_characters_iff (hL : s.elements m = some L) (hpos : pos ≤ s.size_) {r : CopyResult α t}
    (hr : (copy m s dst count pos).value = some r) :
    (elements r.memory dst (rcount s count pos).toNat =
        (L.drop pos.toNat).take (rcount s count pos).toNat ∧
      ∀ x ∈ r.reads, ∃ i < s.size_.toNat, s.data_.add i = some x) ↔
    rcount s count pos = 0#_ ∨
      count.toNat + (rcount s count pos).toNat ≤ s.size_.toNat ∧
        (L.drop count.toNat).take (rcount s count pos).toNat =
          (L.drop pos.toNat).take (rcount s count pos).toNat := by
  obtain ⟨row, reads, hvalue, hrow, hreads⟩ := copy_value dst count hL hpos
  obtain rfl : r = _ := Option.some.inj (hr.symm.trans hvalue)
  have hzero : rcount s count pos = 0#_ ↔ (rcount s count pos).toNat = 0 := BitVec.toNat_eq
  rw [hzero]
  generalize (rcount s count pos).toNat = n at *
  have hwritten : elements (write m dst row) dst n = row := by
    rw [← length_of_elements hrow]
    exact elements_write m dst row
  rw [hwritten]
  obtain ⟨p, size⟩ := s
  cases p with
  | none =>
      obtain rfl : n = 0 := elements_none hrow
      obtain rfl : row = [] := List.eq_nil_of_length_eq_zero (length_of_elements hrow)
      obtain rfl : reads = [] := List.eq_nil_of_length_eq_zero (length_of_elements hreads)
      simp
  | some a =>
      obtain rfl := Option.some.inj hL
      obtain rfl := Option.some.inj hrow
      obtain rfl := Option.some.inj hreads
      simp only [Ptr.add_some, Option.some.injEq, addresses_within_iff]
      constructor
      · rintro ⟨hsame, hn | hle⟩
        · exact .inl hn
        · refine .inr ⟨hle, ?_⟩
          rw [take_drop_elements m a hle, hsame]
      · rintro (rfl | ⟨hle, hsame⟩)
        · exact ⟨rfl, .inl rfl⟩
        · rw [take_drop_elements m a hle] at hsame
          exact ⟨hsame, .inr hle⟩

/-- Whatever is copied, nothing else is written over. -/
theorem copy_rest (hL : s.elements m = some L) (hpos : pos ≤ s.size_) {r : CopyResult α t}
    (hr : (copy m s dst count pos).value = some r) {x : Int}
    (hx : x < dst ∨ dst + (rcount s count pos).toNat ≤ x) : r.memory x = m x := by
  obtain ⟨row, reads, hvalue, hrow, -⟩ := copy_value dst count hL hpos
  obtain rfl : r = _ := Option.some.inj (hr.symm.trans hvalue)
  rcases hx with hlt | hle
  · exact write_of_lt m hlt row
  · rw [← length_of_elements hrow] at hle
    exact write_of_le m hle

/-- Nothing is left to copy behind the end, and nothing is copied if nothing is asked for. -/
theorem nothing_iff (hlen : L.length = s.size_.toNat) (hpos : pos ≤ s.size_) :
    min count.toNat (L.length - pos.toNat) = 0 ↔ count = 0#_ ∨ pos = s.size_ := by
  have hle : pos.toNat ≤ s.size_.toNat := hpos
  have hcount : count = 0#_ ↔ count.toNat = 0 := BitVec.toNat_eq
  have hpos : pos = s.size_ ↔ pos.toNat = s.size_.toNat := BitVec.toNat_eq
  rw [hcount, hpos, hlen]
  omega

/-- `copy` is what it should be where there is nothing to copy, unless its assertion aborts. -/
theorem copy_right_iff (hL : s.elements m = some L) (hpos : pos ≤ s.size_) {b : Build} :
    (∃ r, (copy m s dst count pos).run b = .ok (some r) ∧ CopyRight m s dst count pos L r) ↔
      b.dialect ≠ .cxx14 ∧ (count = 0#_ ∨ pos = s.size_) := by
  have hlen : L.length = s.size_.toNat := View.length_elements hL
  obtain ⟨row, reads, hvalue, hrow, hreads⟩ := copy_value dst count hL hpos
  rw [← nothing_iff hlen hpos]
  constructor
  · rintro ⟨r, hrun, hright⟩
    have hr := Checked.value_of_run hrun
    rw [hr, Checked.run_eq_ok_iff] at hrun
    obtain rfl : r = _ := Option.some.inj (hr.trans hvalue)
    have hzero : 0 = min count.toNat (L.length - pos.toNat) := by
      rw [← hright.returned, BitVec.toNat_zero]
    exact ⟨(passes_copy hpos).mp hrun, hzero.symm⟩
  · rintro ⟨hb, hzero⟩
    have hnone : (rcount s count pos).toNat = 0 := by rw [toNat_rcount hpos, ← hlen, hzero]
    rw [hnone] at hrow hreads
    obtain rfl : row = [] := List.eq_nil_of_length_eq_zero (length_of_elements hrow)
    obtain rfl : reads = [] := List.eq_nil_of_length_eq_zero (length_of_elements hreads)
    refine ⟨⟨m, 0#_, []⟩, ?_, ?_⟩
    · have hpass : (copy m s dst count pos).Passes b := (passes_copy hpos).mpr hb
      rw [← Checked.run_eq_ok_iff, hvalue] at hpass
      exact hpass
    · refine ⟨?_, fun x _ => rfl, ?_, fun x hx => absurd hx List.not_mem_nil⟩
      · have hnil : ((L.drop pos.toNat).take count.toNat).length = 0 := by
          rw [List.length_take, List.length_drop, hzero]
        rw [hzero, List.eq_nil_of_length_eq_zero hnil]
        rfl
      · rw [hzero, BitVec.toNat_zero]

end

end StrRef

/-- The sign of a difference, in the order of `unsigned char`s. -/
def StdMemcmp.lexicographic : StdMemcmp Nat where
  run l r := if l = r then 0 else if l < r then -1 else 1
  eq_zero l r _ := by
    split
    next h => simp [h]
    next h => split <;> simp [h]

/-- The characters `h`, `i`, `j` and so on, from address 0 on. -/
def alphabet : Memory Nat := fun x => (104 + x).toNat

/-- `StrRef("hi", 2)` and `StrRef("h", 1)`. -/
theorem prefix_told_apart :
    StrRef.EqualityRight .lexicographic alphabet (⟨some 0, 2#_⟩ : StrRef x64) ⟨some 0, 1#_⟩
      [104, 105] [104] :=
  (StrRef.isEqual_right_iff rfl rfl).mpr (by decide)

/-- At run time `"hi"` differs from itself and equals `"ij"`, and an empty string differs from
itself either way. -/
theorem hi_not_itself :
    let hi : StrRef x64 := ⟨some 0, 2#_⟩
    let ij : StrRef x64 := ⟨some 1, 2#_⟩
    let empty : StrRef x64 := View.default x64
    hi.elements alphabet = some [104, 105] ∧ ij.elements alphabet = some [105, 106] ∧
      StrRef.isEqual .lexicographic alphabet false hi hi = some false ∧
      StrRef.isEqual .lexicographic alphabet false hi ij = some true ∧
      StrRef.isEqual .lexicographic alphabet true hi hi = some true ∧
      (∀ cxpreval, StrRef.isEqual .lexicographic alphabet cxpreval empty empty = some false) ∧
      ¬ StrRef.EqualityRight .lexicographic alphabet hi hi [104, 105] [104, 105] := by
  refine ⟨rfl, rfl, rfl, rfl, rfl, ?_, ?_⟩
  · intro cxpreval
    cases cxpreval with
    | true => rfl
    | false => rfl
  · intro h
    cases h.right false

/-- `StrRef("hi", 2).copy(dst, 3, 2)` has nothing to copy. -/
theorem end_of_hi_copied :
    ∃ r, (StrRef.copy alphabet (⟨some 0, 2#_⟩ : StrRef x64) 10 3#_ 2#_).run ⟨.cxx14CxprEval, true⟩ =
        .ok (some r) ∧
      StrRef.CopyRight alphabet (⟨some 0, 2#_⟩ : StrRef x64) 10 3#_ 2#_ [104, 105] r :=
  (StrRef.copy_right_iff rfl (by decide)).mpr ⟨by decide, .inr rfl⟩

/-- `StrRef("hi", 2).copy(dst, 2)` copies what comes after `"hi"`. -/
theorem hi_not_copied :
    ∃ r, (StrRef.copy alphabet (⟨some 0, 2#_⟩ : StrRef x64) 10 2#_ 0#_).run ⟨.cxx14CxprEval, true⟩ =
        .ok (some r) ∧
      elements r.memory 10 2 = [106, 107] ∧ r.returned = 0#_ ∧ r.reads = [2, 3] ∧
      ¬ StrRef.CopyRight alphabet (⟨some 0, 2#_⟩ : StrRef x64) 10 2#_ 0#_ [104, 105] r := by
  refine ⟨_, rfl, rfl, by decide, rfl, ?_⟩
  intro h
  exact absurd h.returned (by decide)

end EflCore
