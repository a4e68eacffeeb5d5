/-
# `EflCore.AlignedStorage` — storage for one of several types, and what follows it

`AlignedStorage.hpp`, and the two data members of `Poly.hpp` that use it.

`std::aligned_union<0, T, TT...>` is a class with a nested type: the nested type
is the storage, the class itself is empty.  `AlignedUnion` takes the size and the
alignment of the class.

    StdAlignedUnion.self   size 1, alignment 1, like every empty class
    StdAlignedUnion.type   the largest size, the largest alignment

A `Poly` is laid out as any class is: `data_` at its beginning, `id_` at the next
offset that suits a `size_t`.  Constructing an alternative in `data_` may write
each byte of the alternative, which begins where `data_` begins.
-/
import EflCore.Layout

namespace EflCore

open Layout

variable {t : Target}

/-- `BasicAlignedStorage<Bytes, Align>`: `alignas(Align) ubyte data[Bytes]`. -/
structure BasicAlignedStorage where
  bytes : Nat
  align : Nat
  deriving DecidableEq, Repr

def alignedStorage (T : CType t) : BasicAlignedStorage := ⟨T.size, T.align⟩

/-- `std::aligned_union`: the class, and its member `type`. -/
structure StdAlignedUnion where
  self : BasicAlignedStorage
  type : BasicAlignedStorage

def stdAlignedUnion (Ts : List (CType t)) : StdAlignedUnion where
  self := ⟨1, 1⟩
  type := ⟨roundUp (largest CType.size Ts) (largest CType.align Ts), largest CType.align Ts⟩

/-- `AlignedUnion<T, TT...>::data`. -/
def alignedUnion (T : CType t) (TT : List (CType t)) : BasicAlignedStorage :=
  let baseType := (stdAlignedUnion (T :: TT)).self
  ⟨baseType.bytes, baseType.align⟩

/-- The storage has room for an object of type `X`. -/
def BasicAlignedStorage.Fits (s : BasicAlignedStorage) (X : CType t) : Prop :=
  X.size ≤ s.bytes ∧ X.align ≤ s.align

theorem alignedStorage_fits (T : CType t) : (alignedStorage T).Fits T :=
  ⟨Nat.le_refl _, Nat.le_refl _⟩

/-- The member `type` would have been large enough. -/
theorem stdAlignedUnion_type_fits {Ts : List (CType t)} {X : CType t} (hX : X ∈ Ts) :
    (stdAlignedUnion Ts).type.Fits X := by
  have hsize := le_largest CType.size hX
  have halign := le_largest CType.align hX
  have hpos : 0 < largest CType.align Ts := X.align_pos.trans_le halign
  exact ⟨hsize.trans (le_roundUp hpos), halign⟩

/-! ## The bytes of a `Poly` -/

namespace Poly

/-- The bytes of one `Poly`, by their offset from its beginning. -/
abbrev Bytes : Type := Nat → UInt8

def storageType (Base : CType t) (Derived : List (CType t)) : BasicAlignedStorage :=
  alignedUnion Base Derived

def idOffset (Base : CType t) (Derived : List (CType t)) : Nat :=
  roundUp (storageType Base Derived).bytes (CType.size_t t).align

def idBytes (Base : CType t) (Derived : List (CType t)) (m : Bytes) : List UInt8 :=
  (List.range (CType.size_t t).size).map fun i => m (idOffset Base Derived + i)

/-- `new (data_.data) X(...)`: the object's bytes are those of `obj`. -/
def constructBytes (X : CType t) (obj m : Bytes) : Bytes :=
  fun i => if i < X.size then obj i else m i

/-- Constructing an `X` in `data_` writes nothing else, and leaves `id_` alone. -/
def StaysInside (Base : CType t) (Derived : List (CType t)) (X : CType t) : Prop :=
  ∀ obj m : Bytes,
    (∀ i, (storageType Base Derived).bytes ≤ i → constructBytes X obj m i = m i) ∧
    idBytes Base Derived (constructBytes X obj m) = idBytes Base Derived m

/-- An object that fits its storage stays inside. -/
theorem staysInside_of_fits {Base X : CType t} {Derived : List (CType t)}
    (h : (storageType Base Derived).Fits X) : StaysInside Base Derived X := by
  intro obj m
  have outside : ∀ i, (storageType Base Derived).bytes ≤ i → constructBytes X obj m i = m i := by
    intro i hi
    exact if_neg (by have := h.1; omega)
  refine ⟨outside, List.map_congr_left fun i _ => ?_⟩
  have hid := le_roundUp (n := (storageType Base Derived).bytes) (CType.size_t t).align_pos
  exact outside _ (hid.trans (Nat.le_add_right ..))

end Poly

/-- Every alternative fits `AlignedUnion`, and is constructed in a `Poly` without
writing past `data_` or to `id_`, exactly when every alternative is one byte. -/
theorem alignedUnion_fits_iff (T : CType t) (TT : List (CType t)) :
    (∀ X ∈ T :: TT, (alignedUnion T TT).Fits X ∧ Poly.StaysInside T TT X) ↔
      ∀ X ∈ T :: TT, X.size = 1 := by
  constructor
  · intro h X hX
    exact Nat.le_antisymm (h X hX).1.1 X.size_pos
  · intro h X hX
    have hfits : (alignedUnion T TT).Fits X :=
      ⟨(h X hX).le, X.align_le_size.trans (h X hX).le⟩
    exact ⟨hfits, Poly.staysInside_of_fits hfits⟩

/-- Constructed in a `Poly` of which it is the only alternative, it overwrites `id_`. -/
theorem polymorphicNode_overwrites_id :
    ¬ (alignedUnion twoPointers []).Fits twoPointers ∧
    Poly.idBytes twoPointers [] (fun _ => 255) = List.replicate 8 255 ∧
    Poly.idBytes twoPointers []
      (Poly.constructBytes twoPointers (fun _ => 0) fun _ => 255) = List.replicate 8 0 :=
  ⟨by unfold BasicAlignedStorage.Fits; decide, by decide, by decide⟩

end EflCore
