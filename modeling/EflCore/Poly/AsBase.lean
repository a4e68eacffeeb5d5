/-
# `EflCore.Poly.AsBase` — the start of the storage, taken for the base

A poly converts a pointer to its storage in two ways.

    downcast<T>()       reinterpret_cast<T*>(data_.data), if the number is that of T
    asBase(), get()     reinterpret_cast<Base*>(data_.data), whatever is in there

Neither cast changes the address.  For the first that is right, because the `T` was constructed
at the start of the storage.  The second skips the step from the `T` to its `Base`, which is not
at the start of a `T` that has another base in front of it.

    data_.data      data_.data + offset T
    |               |
    [ other base ]  [ Base ]  [ members of T ]

`operator->` is `asBase()` behind an assertion.  Each of the three has an overload for a poly
that is const, where `data_.data` is a `const ubyte*`; `launder_cast` has none for that.

**Proved here**, for a poly that holds a `T`: the three are the `T*` of the downcast, converted,
exactly if the poly is not const, `Base` is at the start of `T` and the assertion lets what is
true pass (`asBase_iff`).  It is at the start of itself, so the destructor that `clear_` calls
through `asBase()` is called on a `Base` (`asBase_of_base`).
-/
import EflCore.Checked
import EflCore.Poly.Lifetime

namespace EflCore

open Layout Lifetime PolyTypes

section
variable {C V : Type} {t : Target} [DecidableEq C] {L : PolyTypes t C} {P : Payload V C}

/-- How many bytes into an object of each class its `Base` begins. -/
structure BaseLayout (L : PolyTypes t C) where
  offset : C → Nat
  offset_base : offset L.Base = 0

/-- The implicit conversion of a `T*` to a `Base*`; the null pointer stays null. -/
def BaseLayout.upcast (O : BaseLayout L) (T : C) (p : Option Nat) : Option Nat :=
  p.map fun address => address + O.offset T

/-- A pointer to bytes, as an argument. -/
inductive BytePointer where
  | ubyte (raw : Nat)
  | constUbyte (raw : Nat)

/-- `launder_cast<T>(raw)`, if that compiles: the overloads take a `T*`, a `void*`, an `ubyte*`
and an `uintptr_t`, and a `const ubyte*` converts to none of these. -/
def launderCast : BytePointer → Option (Option Nat)
  | .ubyte raw => some (some raw)
  | .constUbyte _ => none

namespace Poly

/-- `data_.data`, of a poly whose storage begins at `data`. -/
def bytes (isConst : Bool) (data : Nat) : BytePointer :=
  if isConst then .constUbyte data else .ubyte data

def asBase (isConst : Bool) (data : Nat) : Option (Option Nat) := launderCast (bytes isConst data)

def get (isConst : Bool) (data : Nat) : Option (Option Nat) := launderCast (bytes isConst data)

def arrow (isConst : Bool) (data : Nat) (s : Poly t V) : Option (Checked (Option Nat)) := do
  let base ← asBase isConst data
  pure do
    Checked.dbgAssert s.holdsAny
    pure base

end Poly

variable {O : BaseLayout L} {b : Build} {isConst : Bool} {data : Nat} {s : Poly t V} {v : V}
  {T : L.Listed}

/-- The three accessors compile, and point to the `Base` of the `T` that `downcast<T>()` points
to. -/
structure PointsToBase (O : BaseLayout L) (b : Build) (isConst : Bool) (data : Nat) (s : Poly t V)
    (T : L.Listed) : Prop where
  asBase : Poly.asBase isConst data = some (O.upcast T.1 (s.downcast T data))
  get : Poly.get isConst data = some (O.upcast T.1 (s.downcast T data))
  arrow : (Poly.arrow isConst data s).map (Checked.run b) =
    some (.ok (O.upcast T.1 (s.downcast T data)))

theorem downcast_held (data : Nat) (h : (polyFlag L P).holds s) (hd : s.data_ = some v) (hT : P.kind v = T.1) :
    s.downcast T data = some data := by
  have hid : s.id_ = L.idValue T.named := (number_iff_held h T).mpr ⟨v, hd, hT⟩
  rw [PolyInv.downcast_eq, if_pos hid]

theorem holdsAny_held (h : (polyFlag L P).holds s) (hd : s.data_ = some v) :
    s.holdsAny = true := by
  obtain ⟨U, -, hid⟩ := number_of_held h hd
  rw [Poly.holdsAny, Bool.not_eq_true', beq_eq_false_iff_ne, hid]
  exact idValue_ne_emptyState U

omit [DecidableEq C] in
/-- The start of the storage is the `Base` exactly when that is at the start of the object. -/
theorem start_eq_upcast {X : C} : some data = O.upcast X (some data) ↔ O.offset X = 0 := by
  rw [BaseLayout.upcast, Option.map_some, Option.some.injEq]
  omega

/-- A poly that holds a `T` points to its `Base`, through each of the three, exactly when it is
not const, the `Base` is at the start of a `T` and the assertion of `operator->` does not abort. -/
theorem asBase_iff (h : (polyFlag L P).holds s) (hd : s.data_ = some v) (hT : P.kind v = T.1) :
    PointsToBase O b isConst data s T ↔
      isConst = false ∧ O.offset T.1 = 0 ∧ (b.dialect = .cxx14 → b.debug = false) := by
  cases isConst with
  | true =>
      refine iff_of_false ?_ fun hcond => Bool.true_eq_false_eq_False hcond.1
      intro hpoints
      cases hpoints.asBase
  | false =>
      rw [and_iff_right rfl]
      -- what is left is a pointer, and what is asserted on the way
      have harrow : Poly.arrow false data s = some (do
          Checked.dbgAssert s.holdsAny
          pure (some data)) := rfl
      have hpasses : (do Checked.dbgAssert s.holdsAny; pure (some data) :
          Checked (Option Nat)).Passes b ↔ (b.dialect = .cxx14 → b.debug = false) := by
        rw [← dbgAssert_true, Checked.passes_bind, Checked.passes_dbgAssert, holdsAny_held h hd]
        exact and_iff_left (Checked.passes_pure _)
      have hrun := Checked.run_eq_ok_iff (b := b) (do Checked.dbgAssert s.holdsAny; pure (some data))
      have hdowncast := downcast_held data h hd hT
      constructor
      · rintro ⟨hbase, -, hreturns⟩
        rw [hdowncast] at hbase hreturns
        have hstart : some data = O.upcast T.1 (some data) := Option.some.inj hbase
        rw [harrow, Option.map_some, ← hstart] at hreturns
        exact ⟨start_eq_upcast.mp hstart, hpasses.mp (hrun.mp (Option.some.inj hreturns))⟩
      · rintro ⟨hoffset, hbuild⟩
        have hstart : some data = O.upcast T.1 (s.downcast T data) := by
          rw [hdowncast]
          exact start_eq_upcast.mpr hoffset
        refine ⟨congrArg some hstart, congrArg some hstart, ?_⟩
        rw [harrow, Option.map_some, ← hstart]
        exact congrArg some (hrun.mpr (hpasses.mpr hbuild))

/-- The pointer through which `clear_` calls `~Base` is right. -/
theorem asBase_of_base (h : (polyFlag L P).holds s) (hd : s.data_ = some v)
    (hT : P.kind v = L.Base) :
    Poly.asBase false data = some (O.upcast L.Base (s.downcast L.base data)) := by
  rw [downcast_held (T := L.base) data h hd hT]
  exact congrArg some (start_eq_upcast.mpr O.offset_base)

end

/-- A `Meower` has its `MyBase` first, a `Woofer` has another base of 8 bytes before it. -/
def secondBase : BaseLayout testPoly where
  offset
    | .Woofer => 8
    | _ => 0
  offset_base := rfl

theorem meower_pointed_to :
    PointsToBase secondBase ⟨.cxx14CxprEval, false⟩ false 64
      (⟨some (.Meower, 7), 1#_⟩ : Poly x64 (TestClass × Nat)) ⟨.Meower, by decide⟩ :=
  have hholds : (polyFlag testPoly testPayload).holds ⟨some (.Meower, 7), 1#_⟩ :=
    ⟨⟨.Meower, by decide⟩, rfl, by decide⟩
  (asBase_iff hholds rfl rfl).mpr ⟨rfl, rfl, nofun⟩

/-- For a `Woofer` the pointer is to what comes before its `MyBase`. -/
theorem woofer_missed :
    ∃ s : Poly x64 (TestClass × Nat), ∃ T : testPoly.Listed,
      (polyFlag testPoly testPayload).holds s ∧ s.data_ = some (.Woofer, 9) ∧ T.1 = .Woofer ∧
      Poly.asBase false 64 = some (some 64) ∧ secondBase.upcast T.1 (s.downcast T 64) = some 72 ∧
      ¬ PointsToBase secondBase ⟨.cxx14CxprEval, false⟩ false 64 s T := by
  refine ⟨⟨some (.Woofer, 9), 2#_⟩, ⟨.Woofer, by decide⟩, ⟨⟨.Woofer, by decide⟩, rfl, by decide⟩,
    rfl, rfl, rfl, by decide, ?_⟩
  intro hpoints
  have haddress := hpoints.asBase
  revert haddress
  decide

end EflCore
