/-
# `EflCore.View.Slice` — parts of a view

Of a view one can ask for a part, and of the part for a part of that.  All three classes have
the same six functions for it; `StrRef` has two more, that cut the view they are called on.
Each of them gives a view `⟨data_ + k, n⟩` where `k + n` is at most the size (`Cuts`), and what
is seen through that is `(L.drop k).take n`.

What is asserted is that the part is there, and that `data_` is not null.  So even an empty
view has no part if it is a null view, unless the part is the view itself or is what
`removeSuffix` leaves of it.

    slice(pos, n)           pos + n <= size      the sum is that of size_t
    slice(n)  dropFront(n)  n <= size
    dropBack(n)             n <= size
    takeFront(n)            always               data_ is not tested if n >= size
    takeBack(n)             always               the same
    removePrefix(n)         n <= size
    removeSuffix(n)         n <= size            data_ is not tested

What the assertions say is one thing, and what becomes of the call in a build another: there is
a build whose macros abort on what is true, and in it hardly any part can be had
(`view_partLaws_iff`).
-/
import EflCore.StrRef
import Mathlib.Data.List.DropRight

namespace EflCore

open Layout Buffer Lifetime

inductive ViewClass where
  | arrayRef
  | immutArrayRef
  | strRef
  deriving DecidableEq, Repr

/-- The calls that give a part of a view, by the classes that have them. -/
inductive ViewOp (t : Target) : ViewClass → Type where
  /-- `slice(pos, n)` -/
  | sliceAt {C : ViewClass} (pos n : t.SzType) : ViewOp t C
  /-- `slice(n)` -/
  | slice {C : ViewClass} (n : t.SzType) : ViewOp t C
  | dropFront {C : ViewClass} (n : t.SzType) : ViewOp t C
  | dropBack {C : ViewClass} (n : t.SzType) : ViewOp t C
  | takeFront {C : ViewClass} (n : t.SzType) : ViewOp t C
  | takeBack {C : ViewClass} (n : t.SzType) : ViewOp t C
  | removePrefix (n : t.SzType) : ViewOp t .strRef
  | removeSuffix (n : t.SzType) : ViewOp t .strRef

namespace ViewOp
variable {t : Target} {C : ViewClass}

/-- The part that the call gives, or, for the last two, leaves. -/
def run : {C : ViewClass} → ViewOp t C → View t → Checked (View t)
  | .arrayRef, sliceAt pos n, v => ArrayRef.sliceAt v pos n
  | .arrayRef, slice n, v => ArrayRef.slice v n
  | .arrayRef, dropFront n, v => ArrayRef.dropFront v n
  | .arrayRef, dropBack n, v => ArrayRef.dropBack v n
  | .arrayRef, takeFront n, v => ArrayRef.takeFront v n
  | .arrayRef, takeBack n, v => ArrayRef.takeBack v n
  | .immutArrayRef, sliceAt pos n, v => ImmutArrayRef.sliceAt v pos n
  | .immutArrayRef, slice n, v => ImmutArrayRef.slice v n
  | .immutArrayRef, dropFront n, v => ImmutArrayRef.dropFront v n
  | .immutArrayRef, dropBack n, v => ImmutArrayRef.dropBack v n
  | .immutArrayRef, takeFront n, v => ImmutArrayRef.takeFront v n
  | .immutArrayRef, takeBack n, v => ImmutArrayRef.takeBack v n
  | .strRef, sliceAt pos n, v => StrRef.sliceAt v pos n
  | .strRef, slice n, v => StrRef.slice v n
  | .strRef, dropFront n, v => StrRef.dropFront v n
  | .strRef, dropBack n, v => StrRef.dropBack v n
  | .strRef, takeFront n, v => StrRef.takeFront v n
  | .strRef, takeBack n, v => StrRef.takeBack v n
  | .strRef, removePrefix n, v => StrRef.removePrefix v n
  | .strRef, removeSuffix n, v => StrRef.removeSuffix v n

/-- Whichever class the call is of. -/
def generic (v : View t) : ViewOp t C → Checked (View t)
  | sliceAt pos n => v.sliceAt pos n
  | slice n => v.slice n
  | dropFront n => v.dropFront n
  | dropBack n => v.dropBack n
  | takeFront n => v.takeFront n
  | takeBack n => v.takeBack n
  | removePrefix n => StrRef.removePrefix v n
  | removeSuffix n => StrRef.removeSuffix v n

theorem run_eq (op : ViewOp t C) (v : View t) : op.run v = op.generic v := by
  cases C with
  | arrayRef => cases op <;> rfl
  | immutArrayRef => cases op <;> rfl
  | strRef => cases op <;> rfl

/-- The part that is asked for is in `[0, size)`. -/
def Inside (v : View t) : ViewOp t C → Prop
  | sliceAt pos n => pos.toNat + n.toNat ≤ v.size_.toNat
  | slice n | dropFront n | dropBack n | removePrefix n | removeSuffix n =>
      n.toNat ≤ v.size_.toNat
  | takeFront _ | takeBack _ => True

/-- The call tests `data_`. -/
def TestsData (v : View t) : ViewOp t C → Prop
  | sliceAt _ _ | slice _ | dropFront _ | dropBack _ | removePrefix _ => True
  | takeFront n | takeBack n => n < v.size_
  | removeSuffix _ => False

/-- No sum of two arguments is too large for a `size_t`. -/
def NoWrap : ViewOp t C → Prop
  | sliceAt pos n => pos.toNat + n.toNat < 2 ^ t.szBits
  | _ => True

instance (v : View t) (op : ViewOp t C) : Decidable (op.Inside v) :=
  match op with
  | sliceAt _ _ | slice _ | dropFront _ | dropBack _ | removePrefix _ | removeSuffix _ =>
      inferInstanceAs (Decidable (_ ≤ v.size_.toNat))
  | takeFront _ | takeBack _ => .isTrue trivial

instance (op : ViewOp t C) : Decidable op.NoWrap :=
  match op with
  | sliceAt _ _ => inferInstanceAs (Decidable (_ < 2 ^ t.szBits))
  | slice _ | dropFront _ | dropBack _ | takeFront _ | takeBack _ | removePrefix _
  | removeSuffix _ => .isTrue trivial

/-- What becomes of the elements. -/
def onList {α : Type} : ViewOp t C → List α → List α
  | sliceAt pos n, l => (l.drop pos.toNat).take n.toNat
  | slice n, l | dropFront n, l | removePrefix n, l => l.drop n.toNat
  | dropBack n, l | removeSuffix n, l => l.rdrop n.toNat
  | takeFront n, l => l.take n.toNat
  | takeBack n, l => l.rtake n.toNat

end ViewOp

/-! ## Parts -/

namespace View
variable {α : Type} {t : Target} {v v' v'' : View t} {m : Memory α} {L : List α} {k : Nat}

/-- `v'` is what is seen of `v` from `k` on. -/
def Cuts (k : Nat) (v v' : View t) : Prop :=
  v'.data_ = v.data_.add k ∧ k + v'.size_.toNat ≤ v.size_.toNat

/-- `v'` is a contiguous part of `v`. -/
def Within (v' v : View t) : Prop := ∃ k, v.Cuts k v'

/-- The first elements of `v`. -/
theorem cuts_front {n : t.SzType} (hn : n.toNat ≤ v.size_.toNat) : v.Cuts 0 ⟨v.data_, n⟩ :=
  ⟨(Ptr.add_zero v.data_).symm, (Nat.zero_add _).trans_le hn⟩

theorem Within.refl (v : View t) : v.Within v := ⟨0, cuts_front le_rfl⟩

theorem Within.trans (h : v''.Within v') (h' : v'.Within v) : v''.Within v := by
  obtain ⟨i, hdata, hle⟩ := h
  obtain ⟨j, hdata', hle'⟩ := h'
  refine ⟨j + i, ?_, by omega⟩
  rw [hdata, hdata', Ptr.add_add]

theorem Cuts.data_ne_none (h : v.Cuts k v') (hdata : v.data_ ≠ none) : v'.data_ ≠ none := by
  obtain ⟨a, ha⟩ := Option.ne_none_iff_exists'.mp hdata
  rw [h.1, ha]
  exact nofun

/-- What is seen through a part. -/
theorem Cuts.elements (h : v.Cuts k v') (hdata : v.data_ ≠ none) (hL : v.elements m = some L) :
    v'.elements m = some ((L.drop k).take v'.size_.toNat) := by
  obtain ⟨a, ha⟩ := Option.ne_none_iff_exists'.mp hdata
  obtain ⟨hpart, hle⟩ := h
  rw [View.elements, ha] at hL
  rw [View.elements, hpart, ha]
  obtain rfl := Option.some.inj hL
  exact congrArg some (take_drop_elements m a hle).symm

/-! ### Guards -/

section
variable {pos n : t.SzType}

/-- The sum is that of `size_t`. -/
theorem holds_sliceAt :
    (v.sliceAt pos n).Holds ↔
      v.data_ ≠ none ∧ (pos.toNat + n.toNat) % 2 ^ t.szBits ≤ v.size_.toNat := by
  simp [sliceAt, BitVec.le_def, Option.isSome_iff_ne_none]

theorem holds_slice : (v.slice n).Holds ↔ v.data_ ≠ none ∧ n.toNat ≤ v.size_.toNat := by
  simp [slice, BitVec.le_def, Option.isSome_iff_ne_none]

theorem toNat_size_sub (hn : n.toNat ≤ v.size_.toNat) :
    (v.size_ - n).toNat = v.size_.toNat - n.toNat := BitVec.toNat_sub_of_le hn

theorem toNat_size_sub_le (hn : n.toNat ≤ v.size_.toNat) :
    (v.size_ - n).toNat ≤ v.size_.toNat := by
  rw [toNat_size_sub hn]
  exact Nat.sub_le ..

/-- The guard of the slice that `dropBack` makes adds nothing but the test of `data_`. -/
theorem holds_dropBack : (v.dropBack n).Holds ↔ v.data_ ≠ none ∧ n.toNat ≤ v.size_.toNat := by
  simp only [dropBack, Checked.holds_bind, Checked.holds_dbgAssert, decide_eq_true_eq,
    BitVec.le_def, holds_sliceAt, BitVec.toNat_zero, Nat.zero_add]
  constructor
  · rintro ⟨hn, hdata, -⟩
    exact ⟨hdata, hn⟩
  · rintro ⟨hdata, hn⟩
    exact ⟨hn, hdata, (Nat.mod_le _ _).trans (toNat_size_sub_le hn)⟩

theorem holds_takeFront : (v.takeFront n).Holds ↔ (n < v.size_ → v.data_ ≠ none) := by
  rw [takeFront]
  split
  next h => simp [BitVec.not_lt.mpr h]
  next h =>
      have hn : n < v.size_ := BitVec.not_le.mp h
      rw [holds_dropBack]
      constructor
      · intro hdata _
        exact hdata.1
      · intro hdata
        exact ⟨hdata hn, toNat_size_sub_le (BitVec.le_of_lt hn)⟩

theorem holds_takeBack : (v.takeBack n).Holds ↔ (n < v.size_ → v.data_ ≠ none) := by
  rw [takeBack]
  split
  next h => simp [BitVec.not_lt.mpr h]
  next h =>
      have hn : n < v.size_ := BitVec.not_le.mp h
      rw [dropFront, holds_slice]
      constructor
      · intro hdata _
        exact hdata.1
      · intro hdata
        exact ⟨hdata hn, toNat_size_sub_le (BitVec.le_of_lt hn)⟩

/-! ### What the calls give -/

theorem cuts_sliceAt (h : pos.toNat + n.toNat ≤ v.size_.toNat) :
    v.Cuts pos.toNat (v.sliceAt pos n).value := ⟨rfl, h⟩

theorem cuts_slice (h : n.toNat ≤ v.size_.toNat) : v.Cuts n.toNat (v.slice n).value := by
  refine ⟨rfl, ?_⟩
  show n.toNat + (v.size_ - n).toNat ≤ v.size_.toNat
  rw [toNat_size_sub h]
  omega

theorem cuts_dropBack (h : n.toNat ≤ v.size_.toNat) : v.Cuts 0 (v.dropBack n).value := by
  refine ⟨rfl, ?_⟩
  show 0 + (v.size_ - n).toNat ≤ v.size_.toNat
  rw [toNat_size_sub h]
  omega

/-! ### The first and the last of them -/

theorem takeFront_of_le (h : v.size_ ≤ n) : v.takeFront n = pure v := by rw [takeFront, if_pos h]

theorem takeBack_of_le (h : v.size_ ≤ n) : v.takeBack n = pure v := by rw [takeBack, if_pos h]

/-- The complement of the complement. -/
theorem size_sub_sub (v : View t) (n : t.SzType) : v.size_ - (v.size_ - n) = n := by
  rw [BitVec.sub_eq_iff_eq_add, BitVec.add_comm, BitVec.sub_add_cancel]

theorem value_takeFront (h : n.toNat ≤ v.size_.toNat) :
    (v.takeFront n).value = ⟨v.data_, n⟩ := by
  rw [takeFront]
  split
  next hle =>
      obtain rfl : n = v.size_ := BitVec.le_antisymm h hle
      rfl
  next =>
      show (⟨v.data_.add 0, v.size_ - (v.size_ - n)⟩ : View t) = _
      rw [Ptr.add_zero, size_sub_sub]

theorem value_takeBack (h : n.toNat ≤ v.size_.toNat) :
    (v.takeBack n).value = ⟨v.data_.add (v.size_.toNat - n.toNat), n⟩ := by
  rw [takeBack]
  split
  next hle =>
      obtain rfl : n = v.size_ := BitVec.le_antisymm h hle
      rw [Nat.sub_self, Ptr.add_zero]
      rfl
  next =>
      show (⟨v.data_.add (v.size_ - n).toNat, v.size_ - (v.size_ - n)⟩ : View t) = _
      rw [size_sub_sub, toNat_size_sub h]

end

end View

namespace ViewOp
variable {α : Type} {t : Target} {C : ViewClass} {op : ViewOp t C} {v : View t}

/-- The guards say that the part is there, and that `data_` is not null where it is tested. -/
theorem holds_iff (hop : op.NoWrap) :
    (op.run v).Holds ↔ op.Inside v ∧ (op.TestsData v → v.data_ ≠ none) := by
  rw [run_eq]
  cases op with
  | sliceAt pos n =>
      have hop : pos.toNat + n.toNat < 2 ^ t.szBits := hop
      rw [generic, View.holds_sliceAt, Nat.mod_eq_of_lt hop]
      simp [Inside, TestsData, and_comm]
  | slice n | dropFront n =>
      rw [generic]
      refine View.holds_slice.trans ?_
      simp [Inside, TestsData, and_comm]
  | dropBack n =>
      rw [generic, View.holds_dropBack]
      simp [Inside, TestsData, and_comm]
  | takeFront n =>
      rw [generic, View.holds_takeFront]
      simp [Inside, TestsData]
  | takeBack n =>
      rw [generic, View.holds_takeBack]
      simp [Inside, TestsData]
  | removePrefix n =>
      simp [generic, StrRef.removePrefix, Inside, TestsData, BitVec.le_def,
        Option.isSome_iff_ne_none, and_comm]
  | removeSuffix n => simp [generic, StrRef.removeSuffix, Inside, TestsData, BitVec.le_def]

theorem holds_of_data (hop : op.NoWrap) (hin : op.Inside v) (hdata : v.data_ ≠ none) :
    (op.run v).Holds := (op.holds_iff hop).mpr ⟨hin, fun _ => hdata⟩

/-- A call for a part that is there gives it. -/
theorem cuts_of_inside (hop : op.Inside v) :
    ∃ k, v.Cuts k (op.run v).value ∧ ∀ l : List α, l.length = v.size_.toNat →
      op.onList l = (l.drop k).take (op.run v).value.size_.toNat := by
  rw [run_eq]
  have rest : ∀ {n : t.SzType}, n.toNat ≤ v.size_.toNat → ∀ l : List α,
      l.length = v.size_.toNat → l.drop n.toNat = (l.drop n.toNat).take (v.size_ - n).toNat := by
    intro n hn l hl
    rw [View.toNat_size_sub hn, ← hl, List.take_of_length_le (List.length_drop ..).le]
  have start : ∀ {n : t.SzType}, n.toNat ≤ v.size_.toNat → ∀ l : List α,
      l.length = v.size_.toNat → l.rdrop n.toNat = (l.drop 0).take (v.size_ - n).toNat := by
    intro n hn l hl
    rw [View.toNat_size_sub hn, ← hl, List.drop_zero, List.rdrop]
  cases op with
  | sliceAt pos n => exact ⟨_, View.cuts_sliceAt hop, fun l _ => rfl⟩
  | slice n | dropFront n | removePrefix n => exact ⟨_, View.cuts_slice hop, rest hop⟩
  | dropBack n => exact ⟨_, View.cuts_dropBack hop, start hop⟩
  | removeSuffix n => exact ⟨0, View.cuts_front (View.toNat_size_sub_le hop), start hop⟩
  | takeFront n =>
      rcases Nat.le_total n.toNat v.size_.toNat with hle | hle
      · rw [generic, View.value_takeFront hle]
        exact ⟨0, View.cuts_front hle, fun l _ => rfl⟩
      · rw [generic, View.takeFront_of_le hle]
        refine ⟨0, View.cuts_front le_rfl, fun l hl => ?_⟩
        show l.take n.toNat = (l.drop 0).take v.size_.toNat
        rw [List.drop_zero, List.take_of_length_le (hl.trans_le hle), List.take_of_length_le hl.le]
  | takeBack n =>
      rcases Nat.le_total n.toNat v.size_.toNat with hle | hle
      · rw [generic, View.value_takeBack hle]
        refine ⟨v.size_.toNat - n.toNat, ⟨rfl, (Nat.sub_add_cancel hle).le⟩, fun l hl => ?_⟩
        have hlast : (l.drop (v.size_.toNat - n.toNat)).length ≤ n.toNat := by
          rw [List.length_drop, hl]
          exact (Nat.sub_sub_self hle).le
        show l.rtake n.toNat = (l.drop (v.size_.toNat - n.toNat)).take n.toNat
        rw [List.take_of_length_le hlast, ← hl, List.rtake]
      · rw [generic, View.takeBack_of_le hle]
        refine ⟨0, View.cuts_front le_rfl, fun l hl => ?_⟩
        show l.rtake n.toNat = (l.drop 0).take v.size_.toNat
        rw [List.rtake, hl, Nat.sub_eq_zero_of_le hle, List.drop_zero, List.take_of_length_le hl.le]

/-- A call that may be made gives a contiguous part. -/
theorem within_of_inside (hop : op.Inside v) : (op.run v).value.Within v := by
  obtain ⟨k, hcuts, -⟩ := op.cuts_of_inside (α := Unit) hop
  exact ⟨k, hcuts⟩

/-- Where no sum of arguments wraps, the guards of a call hold exactly when its part is there and
`data_` is not null where it is tested, and then it does not reach outside.  A call whose guards
do not hold is rejected; what comes of that, the build decides. -/
theorem guards_iff_inside (op : ViewOp t C) (v : View t) (hop : op.NoWrap) :
    ((op.run v).Holds ↔ op.Inside v ∧ (op.TestsData v → v.data_ ≠ none)) ∧
      ((op.run v).Holds → (op.run v).value.Within v) := by
  refine ⟨op.holds_iff hop, fun h => ?_⟩
  exact op.within_of_inside ((op.holds_iff hop).mp h).1

/-- In a build whose macros check, that is when it returns. -/
theorem returns_iff (op : ViewOp t C) (v : View t) (hop : op.NoWrap) {b : Build}
    (hb : b.checks = true) :
    (op.run v).run b = .ok (op.run v).value ↔
      op.Inside v ∧ (op.TestsData v → v.data_ ≠ none) := by
  rw [Checked.run_eq_ok_iff, Checked.passes_iff hb, op.holds_iff hop]

/-- What is asserted is asserted by the macros of debug builds. -/
theorem asserts_dbg (op : ViewOp t C) (v : View t) : ∀ c ∈ (op.run v).asserts, c = .dbg c.expr := by
  rw [run_eq]
  have none_ : ∀ c ∈ (pure v : Checked (View t)).asserts, c = .dbg c.expr := nofun
  have one : ∀ (e : Bool) (u : View t),
      ∀ c ∈ (do Checked.dbgAssert e; pure u : Checked (View t)).asserts, c = .dbg c.expr := by
    intro e u c hc
    obtain rfl : c = .dbg e := List.mem_singleton.mp hc
    rfl
  have back : ∀ n, ∀ c ∈ (v.dropBack n).asserts, c = .dbg c.expr := by
    intro n c hc
    rcases List.mem_append.mp hc with hfirst | hslice
    · exact one _ v c hfirst
    · exact one _ _ c hslice
  cases op with
  | sliceAt pos n => exact one _ _
  | slice n | dropFront n | removePrefix n | removeSuffix n => exact one _ _
  | dropBack n => exact back n
  | takeFront n =>
      rw [generic, View.takeFront]
      split
      · exact none_
      · exact back _
  | takeBack n =>
      rw [generic, View.takeBack]
      split
      · exact none_
      · exact one _ _

/-- Where these let a true condition pass, a call whose guards hold returns. -/
theorem returns_of_holds {b : Build} (hb : b.dialect = .cxx14 → b.debug = false)
    (h : (op.run v).Holds) : (op.run v).run b = .ok (op.run v).value := by
  rw [Checked.run_eq_ok_iff]
  intro c hc
  have htrue : dbgAssert b c.expr = false := by
    rw [h c hc]
    exact (dbgAssert_true b).mpr hb
  rw [op.asserts_dbg v c hc]
  exact htrue

end ViewOp

/-- `slice(2, 3)` of six elements. -/
theorem three_of_six :
    let op : ViewOp x64 .arrayRef := .sliceAt 2#_ 3#_
    let v : View x64 := ⟨some 0, 6#_⟩
    ((op.run v).Holds ↔ op.Inside v ∧ (op.TestsData v → v.data_ ≠ none)) ∧
      ((op.run v).Holds → (op.run v).value.Within v) :=
  ViewOp.guards_iff_inside _ _ (by decide)

/-- `StrRef().dropFront(0)` is rejected, and `slice(1, 2^64 - 1)` of six characters is not. -/
theorem empty_dropFront_rejected :
    ((ViewOp.dropFront 0#_ : ViewOp x64 .strRef).Inside (View.default x64) ∧
      ¬ ((ViewOp.dropFront 0#_ : ViewOp x64 .strRef).run (View.default x64)).Holds) ∧
    ((ViewOp.sliceAt 1#_ (BitVec.allOnes _) : ViewOp x64 .strRef).run ⟨some 0, 6#_⟩).Holds ∧
      ¬ (ViewOp.sliceAt 1#_ (BitVec.allOnes _) : ViewOp x64 .strRef).Inside ⟨some 0, 6#_⟩ := by
  decide

/-! ## Chains -/

section
variable {α : Type} {t : Target} {C : ViewClass} {m : Memory α} {v v' : View t} {L : List α}

/-- One call whose guards hold. -/
def viewStep (v : View t) (op : ViewOp t C) (v' : View t) : Prop :=
  (op.run v).Holds ∧ (op.run v).value = v'

/-- What is seen through a part of a view is what the list operation makes of what is seen
through the view. -/
theorem step_elements {op : ViewOp t C} (hdata : v.data_ ≠ none) (hL : v.elements m = some L)
    (h : viewStep v op v') (hop : op.NoWrap) :
    v'.elements m = some (op.onList L) ∧ v'.Within v ∧ v'.data_ ≠ none := by
  obtain ⟨hholds, rfl⟩ := h
  obtain ⟨k, hcuts, hlist⟩ := op.cuts_of_inside (α := α) ((op.holds_iff hop).mp hholds).1
  refine ⟨?_, ⟨k, hcuts⟩, hcuts.data_ne_none hdata⟩
  rw [hlist L (View.length_elements hL)]
  exact hcuts.elements hdata hL

/-- The same for any number of parts of parts. -/
theorem run_elements {ops : List (ViewOp t C)} (hdata : v.data_ ≠ none)
    (hL : v.elements m = some L) (h : Run (guarded (fun _ op => op.NoWrap) viewStep) v ops v') :
    v'.elements m = some (ops.foldl (fun l op => op.onList l) L) ∧ v'.Within v ∧
      v'.data_ ≠ none := by
  induction h with
  | nil => exact ⟨hL, .refl v, hdata⟩
  | snoc _ hstep ih =>
      obtain ⟨hlist, hwithin, hne⟩ := ih
      obtain ⟨hlist', hwithin', hne'⟩ := step_elements hne hlist hstep.2 hstep.1
      rw [List.foldl_append]
      exact ⟨hlist', hwithin'.trans hwithin, hne'⟩

/-- `a` and `b`, one after the other, are `v`. -/
structure Joins (m : Memory α) (a b v : View t) : Prop where
  first : a.data_ = v.data_
  second : b.data_ = a.data_.add a.size_.toNat
  sizes : a.size_.toNat + b.size_.toNat = v.size_.toNat
  elements : ∃ La Lb, a.elements m = some La ∧ b.elements m = some Lb ∧
    v.elements m = some (La ++ Lb)

/-- What becomes of the calls in a build. -/
def runChain (b : Build) (v : View t) (ops : List (ViewOp t C)) : Except Stop (View t) :=
  ops.foldlM (fun v op => (op.run v).run b) v

/-- The laws of the parts of a view that sees `L`, in a build. -/
structure PartLaws (b : Build) (C : ViewClass) (m : Memory α) (v : View t) (L : List α) : Prop where
  chain : ∀ (ops : List (ViewOp t C)) v',
    Run (guarded (fun _ op => op.NoWrap) viewStep) v ops v' → runChain b v ops = .ok v' ∧
      v'.elements m = some (ops.foldl (fun l op => op.onList l) L) ∧ v'.Within v
  front : ∀ n, n ≤ v.size_ → ∃ first rest,
    ((.takeFront n : ViewOp t C).run v).run b = .ok first ∧
    ((.dropFront n : ViewOp t C).run v).run b = .ok rest ∧ Joins m first rest v
  back : ∀ n, n ≤ v.size_ → ∃ rest last,
    ((.dropBack n : ViewOp t C).run v).run b = .ok rest ∧
    ((.takeBack n : ViewOp t C).run v).run b = .ok last ∧ Joins m rest last v
  whole : ∀ n, v.size_ ≤ n → ((.takeFront n : ViewOp t C).run v).run b = .ok v ∧
    ((.takeBack n : ViewOp t C).run v).run b = .ok v

variable {b : Build}

/-- Where a true condition passes, a chain of calls whose guards hold returns what it gives. -/
theorem runChain_of_guards (hb : b.dialect = .cxx14 → b.debug = false) {ops : List (ViewOp t C)}
    (h : Run (guarded (fun _ op => op.NoWrap) viewStep) v ops v') : runChain b v ops = .ok v' := by
  induction h with
  | nil => rfl
  | snoc _ hstep ih =>
      obtain ⟨hholds, rfl⟩ := hstep.2
      have hlast := ViewOp.returns_of_holds hb hholds
      rw [runChain, List.foldlM_append, ← runChain, ih]
      simp only [bind, Except.bind, List.foldlM_cons, List.foldlM_nil, hlast]
      rfl

theorem joins_front {n : t.SzType} {a b : View t} (hdata : v.data_ ≠ none)
    (hL : v.elements m = some L) (hn : n ≤ v.size_) (ha : viewStep v (.takeFront n : ViewOp t C) a)
    (hb : viewStep v (.dropFront n : ViewOp t C) b) : Joins m a b v := by
  have hfirst := step_elements hdata hL ha trivial
  have hsecond := step_elements hdata hL hb trivial
  obtain ⟨-, rfl⟩ := ha
  obtain ⟨-, rfl⟩ := hb
  rw [ViewOp.run_eq, ViewOp.generic, View.value_takeFront hn] at hfirst ⊢
  rw [ViewOp.run_eq] at hsecond ⊢
  refine ⟨rfl, rfl, ?_, _, _, hfirst.1, hsecond.1, ?_⟩
  · show n.toNat + (v.size_ - n).toNat = v.size_.toNat
    rw [View.toNat_size_sub hn]
    exact Nat.add_sub_of_le hn
  · exact hL.trans (congrArg some (List.take_append_drop ..).symm)

theorem joins_back {n : t.SzType} {a b : View t} (hdata : v.data_ ≠ none)
    (hL : v.elements m = some L) (hn : n ≤ v.size_) (ha : viewStep v (.dropBack n : ViewOp t C) a)
    (hb : viewStep v (.takeBack n : ViewOp t C) b) : Joins m a b v := by
  have hfirst := step_elements hdata hL ha trivial
  have hsecond := step_elements hdata hL hb trivial
  obtain ⟨-, rfl⟩ := ha
  obtain ⟨-, rfl⟩ := hb
  rw [ViewOp.run_eq] at hfirst ⊢
  rw [ViewOp.run_eq, ViewOp.generic, View.value_takeBack hn] at hsecond ⊢
  have hsize : ((ViewOp.dropBack n : ViewOp t C).generic v).value.size_.toNat =
      v.size_.toNat - n.toNat := View.toNat_size_sub hn
  have hdata' : ((ViewOp.dropBack n : ViewOp t C).generic v).value.data_ = v.data_ :=
    Ptr.add_zero v.data_
  refine ⟨hdata', ?_, ?_, _, _, hfirst.1, hsecond.1, ?_⟩
  · rw [hdata', hsize]
  · rw [hsize]
    exact Nat.sub_add_cancel hn
  · exact hL.trans (congrArg some (List.take_append_drop ..).symm)

/-- Parts of views of all classes follow the laws of lists exactly in the builds whose assertions
let a true condition pass. -/
theorem view_partLaws_iff (hdata : v.data_ ≠ none) (hL : v.elements m = some L) :
    PartLaws b C m v L ↔ (b.dialect = .cxx14 → b.debug = false) := by
  constructor
  · intro hlaws
    -- `dropFront(0)` asserts that `data_` is not null
    have hle : (0#_ : t.SzType) ≤ v.size_ := Nat.zero_le _
    obtain ⟨first, rest, -, hrest, -⟩ := hlaws.front 0#_ hle
    obtain rfl := Checked.value_of_run hrest
    have hpasses : ((ViewOp.dropFront 0#_ : ViewOp t C).run v).Passes b :=
      (Checked.run_eq_ok_iff _).mp hrest
    rw [ViewOp.run_eq, ViewOp.generic, View.dropFront, View.slice, Checked.passes_bind,
      Checked.passes_dbgAssert, Option.isSome_iff_ne_none.mpr hdata, decide_eq_true hle] at hpasses
    exact (dbgAssert_true b).mp hpasses.1
  · intro hb
    have hreturns : ∀ op : ViewOp t C, op.NoWrap → op.Inside v →
        (op.run v).run b = .ok (op.run v).value := fun op hop hin =>
      ViewOp.returns_of_holds hb (ViewOp.holds_of_data hop hin hdata)
    have hstep : ∀ op : ViewOp t C, op.NoWrap → op.Inside v → viewStep v op (op.run v).value :=
      fun op hop hin => ⟨ViewOp.holds_of_data hop hin hdata, rfl⟩
    refine ⟨?_, ?_, ?_, ?_⟩
    · intro ops v' h
      obtain ⟨hlist, hwithin, -⟩ := run_elements hdata hL h
      exact ⟨runChain_of_guards hb h, hlist, hwithin⟩
    · intro n hn
      exact ⟨_, _, hreturns (.takeFront n) trivial trivial, hreturns (.dropFront n) trivial hn,
        joins_front hdata hL hn (hstep _ trivial trivial) (hstep _ trivial hn)⟩
    · intro n hn
      exact ⟨_, _, hreturns (.dropBack n) trivial hn, hreturns (.takeBack n) trivial trivial,
        joins_back hdata hL hn (hstep _ trivial hn) (hstep _ trivial trivial)⟩
    · intro n hn
      have hfront : ((.takeFront n : ViewOp t C).run v).value = v := by
        rw [ViewOp.run_eq, ViewOp.generic, View.takeFront_of_le hn]
        rfl
      have hback : ((.takeBack n : ViewOp t C).run v).value = v := by
        rw [ViewOp.run_eq, ViewOp.generic, View.takeBack_of_le hn]
        rfl
      exact ⟨(hreturns (.takeFront n) trivial trivial).trans (congrArg Except.ok hfront),
        (hreturns (.takeBack n) trivial trivial).trans (congrArg Except.ok hback)⟩

end

/-- The characters of `"Hello!"`, one for each address. -/
def hello : Memory Char := fun x => ("Hello!".toList).getD x.toNat '\x00'

/-- `str.dropFront(2).dropBack(2)`, where `str` is all of `"Hello!"` and its null character. -/
theorem hello_sliced :
    ∃ v' : View x64, runChain ⟨.cxx14CxprEval, true⟩ ⟨some 0, 7#_⟩
        ([.dropFront 2#_, .dropBack 2#_] : List (ViewOp x64 .strRef)) = .ok v' ∧
      v'.elements hello = some ['l', 'l', 'o'] ∧ v'.Within ⟨some 0, 7#_⟩ := by
  let str : View x64 := ⟨some 0, 7#_⟩
  let op₁ : ViewOp x64 .strRef := .dropFront 2#_
  let op₂ : ViewOp x64 .strRef := .dropBack 2#_
  let step := guarded (fun _ op => op.NoWrap) (viewStep (t := x64) (C := .strRef))
  have front : Run step str ([] ++ [op₁]) _ := .snoc .nil ⟨trivial, by decide, rfl⟩
  have both := Run.snoc (i := op₂) front ⟨trivial, by decide, rfl⟩
  have hdata : str.data_ ≠ none := nofun
  have hbuild : Dialect.cxx14CxprEval = .cxx14 → true = false := nofun
  have hlaws : PartLaws ⟨.cxx14CxprEval, true⟩ .strRef hello str
      ['H', 'e', 'l', 'l', 'o', '!', '\x00'] := (view_partLaws_iff hdata rfl).mpr hbuild
  exact ⟨_, hlaws.chain _ _ both⟩

/-- `str.dropFront(2)` in the debug build of C++14 that does not detect constant evaluation. -/
theorem hello_dropFront_aborts :
    ((.dropFront 2#_ : ViewOp x64 .strRef).run ⟨some 0, 7#_⟩).Holds ∧
    ((.dropFront 2#_ : ViewOp x64 .strRef).run ⟨some 0, 7#_⟩).run ⟨.cxx14, true⟩ = .error .aborted ∧
    ¬ PartLaws ⟨.cxx14, true⟩ .strRef hello (⟨some 0, 7#_⟩ : View x64)
      ['H', 'e', 'l', 'l', 'o', '!', '\x00'] := by
  have haborts : ((.dropFront 2#_ : ViewOp x64 .strRef).run ⟨some 0, 7#_⟩).run ⟨.cxx14, true⟩
      = .error .aborted := rfl
  refine ⟨by decide, haborts, fun hlaws => ?_⟩
  obtain ⟨first, rest, -, hrest, -⟩ := hlaws.front 2#_ (by decide)
  cases haborts.symm.trans hrest

end EflCore
