/-
# `EflCore.Enum` — flags and their operators

`Enum/EnumsAndFlags.hpp` and `Enum/Overloads.hpp`, for an enumeration whose largest flag
is declared.  Every operator reads its operands through `underlying`, which asserts that
there is no bit above the largest flag, and makes an enumerator of the result without
another look at it.

    flag_mask     the bits up to the largest flag
    underlying    asserts uval <= flag_mask
    a | b         E(underlying(a) | underlying(b)),   and so for & and ^
    ~a            E(~underlying(a))

The last line is the odd one: what it complements are all bits of the underlying type, and
those above the largest flag come out set.  The next operator stops at them.

Integers are promoted, converted back and converted to `umax` as the language has it:
what is narrower than `int` is computed in `int`, which is signed, and a conversion to
`bool` asks whether there is anything but zero.

**Proved here.**  Expressions without a complement never fail an assertion
(`runs_of_complementFree`).  With it, the operators are the Boolean algebra they look like
exactly when the largest flag is the top bit of the underlying type, which is not `bool`
(`flagAlgebra_iff`); with an assertion macro that aborts on what is true, of course, none
of them returns.
-/
import EflCore.Checked
import Mathlib

namespace EflCore

open Lifetime

/-! ## Integer types -/

/-- The widths of `int` and of `umax`. -/
structure IntTypes where
  intBits : Nat
  sixteen_le : 16 ≤ intBits
  umaxBits : Nat
  intBits_le : intBits ≤ umaxBits

/-- An unsigned integer type, `bool` among them. -/
structure UndType (I : IntTypes) where
  bits : Nat
  bits_pos : 0 < bits
  isBool : Bool
  bits_bool : isBool = true → bits = 1
  narrow : bits < I.intBits → 2 * bits ≤ I.intBits

namespace UndType
variable {I : IntTypes} (U : UndType I)

abbrev Value : Type := BitVec U.bits

/-- `int` for what is narrower, and else the type itself. -/
def promotedBits : Nat := max U.bits I.intBits

def promotesToInt : Bool := U.bits < I.intBits

abbrev Promoted : Type := BitVec U.promotedBits

def promote (u : U.Value) : U.Promoted := u.setWidth _

/-- `UndType(x)`. -/
def convert {n : Nat} (x : BitVec n) : U.Value :=
  if U.isBool then (if x = 0 then 0 else 1) else x.setWidth _

/-- `umax(x)`. -/
def toUmax (x : U.Promoted) : BitVec I.umaxBits :=
  if U.promotesToInt then x.signExtend _ else x.setWidth _

/-- `x >> 1`. -/
def shiftRight (x : U.Promoted) : U.Promoted :=
  if U.promotesToInt then x.sshiftRight 1 else x >>> 1

end UndType

/-! ## Flags -/

/-- An enumeration with the largest flag `2 ^ k`. -/
structure FlagEnum (I : IntTypes) extends UndType I where
  k : Nat
  k_lt : k < bits

namespace FlagEnum
variable {I : IntTypes} (F : FlagEnum I)

/-- The enumeration itself: all values of the underlying type are values of it. -/
abbrev Flag : Type := F.Value

/-- `largest_flag_bit<E>::value`. -/
def value : F.Value := BitVec.twoPow _ F.k

/-- `EnumBitInfo<E>::allSet_`. -/
def allSet_ : F.Promoted := ~~~F.promote 0

/-- `EnumBitInfo<E>::topBit_`. -/
def topBit_ : F.Value := F.convert (F.allSet_ ^^^ F.shiftRight F.allSet_)

def flag_mask : F.Value :=
  F.convert (F.toUmax (if F.value = F.topBit_ then F.promote 0 else F.promote F.value <<< 1) - 1)

def underlying (e : F.Flag) : Checked F.Value := do
  let uval := e
  Checked.dbgAssert (0 ≤ uval)
  Checked.dbgAssert (uval ≤ F.flag_mask)
  pure uval

/-- `operator~`. -/
def compl (r : F.Flag) : Checked F.Flag := do
  pure (F.convert (~~~F.promote (← F.underlying r)))

/-- What the binary operators have in common. -/
def binary (op : F.Promoted → F.Promoted → F.Promoted) (l r : F.Flag) : Checked F.Flag := do
  pure (F.convert (op (F.promote (← F.underlying l)) (F.promote (← F.underlying r))))

/-- `operator|`. -/
def or (l r : F.Flag) : Checked F.Flag := F.binary (· ||| ·) l r

/-- `operator&`. -/
def and (l r : F.Flag) : Checked F.Flag := F.binary (· &&& ·) l r

/-- `operator^`. -/
def xor (l r : F.Flag) : Checked F.Flag := F.binary (· ^^^ ·) l r

/-- `operator|=`: what `l` is afterwards. -/
def orAssign (l r : F.Flag) : Checked F.Flag := F.binary (· ||| ·) l r

/-- `operator&=`. -/
def andAssign (l r : F.Flag) : Checked F.Flag := F.binary (· &&& ·) l r

/-- `operator^=`. -/
def xorAssign (l r : F.Flag) : Checked F.Flag := F.binary (· ^^^ ·) l r

end FlagEnum

/-! ## What is written with the operators -/

inductive FlagOp where
  | or
  | and
  | xor
  deriving DecidableEq, Repr

inductive FlagExpr (ι : Type) where
  | var (i : ι)
  | compl (r : FlagExpr ι)
  | bin (op : FlagOp) (l r : FlagExpr ι)

inductive FlagStmt (ι : Type) where
  /-- `i = r` -/
  | assign (i : ι) (r : FlagExpr ι)
  /-- `i op= r` -/
  | opAssign (op : FlagOp) (i : ι) (r : FlagExpr ι)

section
variable {I : IntTypes} (F : FlagEnum I) {ι : Type}

def FlagOp.apply : FlagOp → F.Flag → F.Flag → Checked F.Flag
  | or => F.or
  | and => F.and
  | xor => F.xor

def FlagOp.applyAssign : FlagOp → F.Flag → F.Flag → Checked F.Flag
  | or => F.orAssign
  | and => F.andAssign
  | xor => F.xorAssign

def FlagExpr.eval (vars : ι → F.Flag) : FlagExpr ι → Checked F.Flag
  | var i => pure (vars i)
  | compl r => do F.compl (← r.eval vars)
  | bin op l r => do op.apply F (← l.eval vars) (← r.eval vars)

variable [DecidableEq ι]

def FlagStmt.exec (vars : ι → F.Flag) : FlagStmt ι → Checked (ι → F.Flag)
  | assign i r => do pure (Function.update vars i (← r.eval F vars))
  | opAssign op i r => do
      pure (Function.update vars i (← op.applyAssign F (vars i) (← r.eval F vars)))

/-- The statements, one after another. -/
def execAll (prog : List (FlagStmt ι)) (vars : ι → F.Flag) : Checked (ι → F.Flag) :=
  prog.foldlM (FlagStmt.exec F) vars

end

/-! ## What the operators should be -/

/-- The flags that are set in a value: the subset of the declared bits it stands for. -/
def FlagEnum.flags {I : IntTypes} (F : FlagEnum I) (e : F.Flag) : Set (Fin (F.k + 1)) :=
  {i | e.getLsbD i = true}

/-- The operation on sets of flags. -/
def FlagOp.onSets {α : Type} : FlagOp → Set α → Set α → Set α
  | or, s, t => s ∪ t
  | and, s, t => s ∩ t
  | xor, s, t => symmDiff s t

section
variable {I : IntTypes} (F : FlagEnum I)

/-- The value passes the range check of `underlying`. -/
def FlagEnum.InRange (e : F.Flag) : Prop := (F.underlying e).Holds

/-- In this build, the operators are the Boolean algebra of the subsets of the declared
bits, and whatever is written with them returns. -/
structure FlagAlgebra (b : Build) : Prop where
  closed : ∀ op l r, F.InRange l → F.InRange r → F.InRange (FlagOp.apply F op l r).value
  closed_assign : ∀ op l r, F.InRange l → F.InRange r →
    F.InRange (FlagOp.applyAssign F op l r).value
  closed_compl : ∀ r, F.InRange r → F.InRange (F.compl r).value
  runs : ∀ (ι : Type) [DecidableEq ι] (prog : List (FlagStmt ι)) vars,
    (∀ i, F.InRange (vars i)) →
      ∃ vars', (execAll F prog vars).run b = .ok vars' ∧ ∀ i, F.InRange (vars' i)
  bijective : Set.BijOn F.flags {e | F.InRange e} Set.univ
  flags_apply : ∀ op l r, F.InRange l → F.InRange r →
    F.flags (FlagOp.apply F op l r).value = op.onSets (F.flags l) (F.flags r)
  flags_applyAssign : ∀ op l r, F.InRange l → F.InRange r →
    F.flags (FlagOp.applyAssign F op l r).value = op.onSets (F.flags l) (F.flags r)
  flags_compl : ∀ r, F.InRange r → F.flags (F.compl r).value = (F.flags r)ᶜ
  removes : ∀ l r, F.InRange l → F.InRange r →
    F.flags (F.and l (F.compl r).value).value = F.flags l \ F.flags r
  deMorgan : ∀ l r, F.InRange l → F.InRange r →
    (F.compl (F.or l r).value).value = (F.and (F.compl l).value (F.compl r).value).value

end

/-! ## Conversions -/

namespace UndType
variable {I : IntTypes} (U : UndType I)

theorem bits_le_promotedBits : U.bits ≤ U.promotedBits := Nat.le_max_left ..

@[simp] theorem toNat_promote (u : U.Value) : (U.promote u).toNat = u.toNat := by
  have := u.isLt
  have := Nat.pow_le_pow_right Nat.two_pos U.bits_le_promotedBits
  rw [promote, BitVec.toNat_setWidth, Nat.mod_eq_of_lt (by omega)]

/-- What fits is converted to itself, to `bool` as well. -/
theorem toNat_convert_of_lt {n : Nat} {x : BitVec n} (h : x.toNat < 2 ^ U.bits) :
    (U.convert x).toNat = x.toNat := by
  cases hbool : U.isBool with
  | false =>
      rw [convert, hbool, if_neg nofun, BitVec.toNat_setWidth, Nat.mod_eq_of_lt h]
  | true =>
      rw [U.bits_bool hbool] at h
      rw [convert, hbool, if_pos rfl]
      by_cases hx : x = 0
      · simp [hx]
      · have hne : x.toNat ≠ 0 := fun h₀ => hx (BitVec.eq_of_toNat_eq (by simp [h₀]))
        have hone : (1 : U.Value).toNat = 1 := BitVec.toNat_one U.bits_pos
        rw [if_neg hx, hone]
        omega

/-- The complement of what is not a `bool`. -/
theorem convert_not_promote (h : U.isBool = false) (u : U.Value) :
    U.convert (~~~U.promote u) = ~~~u := by
  rw [convert, h, if_neg nofun, BitVec.setWidth_not U.bits_le_promotedBits, promote,
    BitVec.setWidth_setWidth_of_le _ U.bits_le_promotedBits, BitVec.setWidth_eq]

/-- The complement of a `bool` is taken in `int`, where it is never zero. -/
theorem convert_not_promote_bool (h : U.isBool = true) (u : U.Value) :
    U.convert (~~~U.promote u) = 1 := by
  have hne : ~~~U.promote u ≠ 0 := by
    intro h₀
    have hall : U.promote u = BitVec.allOnes _ := by
      rw [← BitVec.not_not (b := U.promote u), h₀]
      exact BitVec.not_zero
    have hu := u.isLt
    rw [← U.toNat_promote, hall, BitVec.toNat_allOnes, U.bits_bool h] at hu
    have hint : 2 ^ 16 ≤ 2 ^ U.promotedBits :=
      Nat.pow_le_pow_right Nat.two_pos (I.sixteen_le.trans (Nat.le_max_right ..))
    omega
  rw [convert, h, if_pos rfl, if_neg hne]

end UndType

/-! ## The mask -/

namespace FlagEnum
variable {I : IntTypes} (F : FlagEnum I)

/-- How many bits the mask has: all the declared ones, if `umax` is as wide. -/
def maskBits : Nat := min (F.k + 1) I.umaxBits

@[simp] theorem toNat_value : F.value.toNat = 2 ^ F.k := BitVec.toNat_twoPow_of_lt F.k_lt

theorem allSet_eq : F.allSet_ = BitVec.allOnes _ := by
  rw [allSet_, show F.promote 0 = 0 from BitVec.setWidth_zero ..]
  exact BitVec.not_zero

/-- In `int` shifting the sign in changes nothing, and there is no top bit. -/
theorem topBit_of_int (h : F.promotesToInt = true) : F.topBit_ = 0 := by
  have hpos : 0 < F.promotedBits := F.bits_pos.trans_le F.bits_le_promotedBits
  have hshift : F.shiftRight F.allSet_ = F.allSet_ := by
    rw [UndType.shiftRight, h, if_pos rfl, allSet_eq]
    ext i hi
    simp [BitVec.getElem_sshiftRight, BitVec.msb_allOnes hpos]
  apply BitVec.eq_of_toNat_eq
  rw [topBit_, hshift, BitVec.xor_self, F.toNat_convert_of_lt (by simp)]
  simp

theorem unsigned_of (h : F.promotesToInt = false) :
    F.isBool = false ∧ F.promotedBits = F.bits := by
  have hle : I.intBits ≤ F.bits := by simpa [UndType.promotesToInt] using h
  have := I.sixteen_le
  constructor
  · by_contra hbool
    have := F.bits_bool (by simpa using hbool)
    omega
  · exact Nat.max_eq_left hle

/-- Elsewhere it is what its name says. -/
theorem toNat_topBit_ (h : F.promotesToInt = false) : F.topBit_.toNat = 2 ^ (F.bits - 1) := by
  obtain ⟨-, hbits⟩ := F.unsigned_of h
  have hpos := F.bits_pos
  have hhalf : 2 ^ F.promotedBits = 2 ^ (F.bits - 1) * 2 := by
    rw [hbits, ← Nat.pow_succ, Nat.succ_eq_add_one, Nat.sub_add_cancel hpos]
  have hx : (F.allSet_ ^^^ F.shiftRight F.allSet_).toNat = 2 ^ (F.bits - 1) := by
    rw [UndType.shiftRight, h, if_neg nofun, allSet_eq, BitVec.allOnes_xor, BitVec.toNat_not,
      BitVec.toNat_ushiftRight, BitVec.toNat_allOnes, Nat.shiftRight_eq_div_pow, Nat.pow_one, hhalf]
    omega
  have hlt : 2 ^ (F.bits - 1) < 2 ^ F.bits := Nat.pow_lt_pow_right Nat.one_lt_two (by omega)
  rw [topBit_, F.toNat_convert_of_lt (by rw [hx]; exact hlt), hx]

/-- The largest flag is the top bit only if there is none above it. -/
theorem value_eq_topBit_iff :
    F.value = F.topBit_ ↔ F.promotesToInt = false ∧ F.k + 1 = F.bits := by
  rw [← BitVec.toNat_inj, toNat_value]
  cases h : F.promotesToInt with
  | true =>
      rw [F.topBit_of_int h]
      simp
  | false =>
      have := F.k_lt
      rw [F.toNat_topBit_ h, Nat.pow_right_inj (by decide)]
      simp only [true_and]
      omega

/-- One less than a power of two, wrapped around. -/
theorem toNat_two_pow_sub_one {w n : Nat} {y : BitVec w} (h : y.toNat = 2 ^ n % 2 ^ w) :
    (y - 1).toNat = 2 ^ min n w - 1 := by
  have hpos := Nat.two_pow_pos n
  rcases Nat.lt_or_ge n w with hlt | hge
  · have hpow := Nat.pow_lt_pow_right Nat.one_lt_two hlt
    have hone : (1 : BitVec w).toNat = 1 := BitVec.toNat_one (by omega)
    rw [Nat.mod_eq_of_lt hpow] at h
    have hle : (1 : BitVec w) ≤ y := by rw [BitVec.le_def, h, hone]; exact hpos
    rw [BitVec.toNat_sub_of_le hle, h, hone, Nat.min_eq_left hlt.le]
  · have hzero : y = 0 := by
      apply BitVec.eq_of_toNat_eq
      rw [h, Nat.mod_eq_zero_of_dvd (Nat.pow_dvd_pow 2 hge)]
      rfl
    have hall : (0 : BitVec w) - 1 = BitVec.allOnes w :=
      (BitVec.zero_sub 1#w).trans BitVec.neg_one_eq_allOnes
    rw [hzero, hall, BitVec.toNat_allOnes, Nat.min_eq_right hge]

theorem toNat_shifted (h : F.value ≠ F.topBit_) :
    (F.toUmax (F.promote F.value <<< 1)).toNat = 2 ^ (F.k + 1) % 2 ^ I.umaxBits := by
  have hk := F.k_lt
  have hshift : (F.promote F.value).toNat <<< 1 = 2 ^ (F.k + 1) := by
    rw [F.toNat_promote, toNat_value, Nat.shiftLeft_eq, Nat.pow_one, Nat.pow_succ]
  have hfit : ∀ n, F.k + 1 < n → n ≤ F.promotedBits →
      (F.promote F.value <<< 1).toNat = 2 ^ (F.k + 1) := by
    intro n hlt hle
    rw [BitVec.toNat_shiftLeft, hshift, Nat.mod_eq_of_lt]
    exact Nat.pow_lt_pow_right Nat.one_lt_two (by omega)
  cases hint : F.promotesToInt with
  | true =>
      have hnarrow : F.bits < I.intBits := by simpa [UndType.promotesToInt] using hint
      have hhalf := F.narrow hnarrow
      have hwide : I.intBits ≤ F.promotedBits := Nat.le_max_right ..
      have hx := hfit (F.k + 2) (by omega) (by have := I.sixteen_le; omega)
      have hmsb : (F.promote F.value <<< 1).msb = false := by
        rw [BitVec.msb_eq_false_iff_two_mul_lt, hx, ← Nat.pow_succ']
        exact Nat.pow_lt_pow_right Nat.one_lt_two (by have := I.sixteen_le; omega)
      rw [UndType.toUmax, hint, if_pos rfl, BitVec.signExtend_eq_setWidth_of_msb_false hmsb,
        BitVec.toNat_setWidth, hx]
  | false =>
      have hne : F.k + 1 ≠ F.bits := fun hk => h (F.value_eq_topBit_iff.mpr ⟨hint, hk⟩)
      rw [UndType.toUmax, hint, if_neg nofun, BitVec.toNat_setWidth,
        hfit F.bits (by omega) F.bits_le_promotedBits]

theorem toNat_flag_mask : F.flag_mask.toNat = 2 ^ F.maskBits - 1 := by
  have hpos := Nat.two_pow_pos F.maskBits
  by_cases htop : F.value = F.topBit_
  · obtain ⟨hint, hk⟩ := F.value_eq_topBit_iff.mp htop
    have hzero : F.toUmax (F.promote 0) = 0 := by
      rw [UndType.toUmax, hint, if_neg nofun, UndType.promote]
      simp
    have hones := toNat_two_pow_sub_one (y := (0 : BitVec I.umaxBits)) (n := I.umaxBits) (by simp)
    rw [flag_mask, if_pos htop, hzero, UndType.convert, (F.unsigned_of hint).1, if_neg nofun,
      BitVec.toNat_setWidth, hones, Nat.min_self, maskBits, hk]
    -- both sides have the bits that are below both bounds
    apply Nat.eq_of_testBit_eq
    intro i
    rw [Nat.testBit_mod_two_pow, Nat.testBit_two_pow_sub_one, Nat.testBit_two_pow_sub_one]
    simp
  · have hmask := toNat_two_pow_sub_one (F.toNat_shifted htop)
    have hle : 2 ^ F.maskBits ≤ 2 ^ F.bits :=
      Nat.pow_le_pow_right Nat.two_pos ((Nat.min_le_left ..).trans F.k_lt)
    rw [flag_mask, if_neg htop, F.toNat_convert_of_lt, hmask, maskBits]
    rw [hmask, ← maskBits]
    omega

/-- If `umax` is wide enough the mask has the bits up to the largest flag, and no others. -/
theorem flag_mask_exact (h : F.bits ≤ I.umaxBits) :
    F.flag_mask.toNat = 2 ^ (F.k + 1) - 1 ∧
      ∀ i, F.flag_mask.getLsbD i = decide (i ≤ F.k) := by
  have hall : F.maskBits = F.k + 1 := Nat.min_eq_left (Nat.succ_le_of_lt (F.k_lt.trans_le h))
  have hmask : F.flag_mask.toNat = 2 ^ (F.k + 1) - 1 := by rw [toNat_flag_mask, hall]
  refine ⟨hmask, ?_⟩
  intro i
  rw [BitVec.getLsbD, hmask, Nat.testBit_two_pow_sub_one, decide_eq_decide]
  exact Nat.lt_succ_iff

/-! ## The range check -/

theorem inRange_iff (e : F.Flag) : F.InRange e ↔ e.toNat < 2 ^ F.maskBits := by
  have hpos := Nat.two_pow_pos F.maskBits
  have hle : e ≤ F.flag_mask ↔ e.toNat < 2 ^ F.maskBits := by
    rw [BitVec.le_def, toNat_flag_mask]
    omega
  have hzero : (0 : F.Value) ≤ e := BitVec.le_def.mpr (by simp)
  simp only [InRange, underlying, Checked.holds_bind, Checked.holds_dbgAssert, Checked.holds_pure,
    decide_eq_true_eq, hzero, hle, true_and, and_true]

@[simp] theorem value_underlying (e : F.Flag) : (F.underlying e).value = e := rfl

/-- What is in range can be read wherever a true assertion can be passed. -/
theorem passes_underlying {b : Build} (hb : dbgAssert b true = false) {e : F.Flag}
    (he : F.InRange e) : (F.underlying e).Passes b := by
  simp only [InRange, underlying, Checked.holds_bind, Checked.holds_dbgAssert] at he
  simp only [underlying, Checked.passes_bind, Checked.passes_dbgAssert, Checked.passes_pure, he,
    hb, true_and]

theorem assert_of_passes {F : FlagEnum I} {b : Build} {e : F.Flag}
    (h : (F.underlying e).Passes b) : dbgAssert b true = false := by
  have hzero : (0 : F.Value) ≤ e := BitVec.le_def.mpr (by simp)
  have hfirst := ((Checked.passes_bind ..).mp h).1
  rw [Checked.passes_dbgAssert, decide_eq_true hzero] at hfirst
  exact hfirst

/-! ## The operators -/

end FlagEnum

namespace FlagOp
variable {I : IntTypes} (F : FlagEnum I)

/-- The operation on bits. -/
def onBits {n : Nat} : FlagOp → BitVec n → BitVec n → BitVec n
  | or, x, y => x ||| y
  | and, x, y => x &&& y
  | xor, x, y => x ^^^ y

theorem onBits_lt {n m : Nat} (op : FlagOp) {x y : BitVec n} (hx : x.toNat < 2 ^ m)
    (hy : y.toNat < 2 ^ m) : (op.onBits x y).toNat < 2 ^ m := by
  cases op with
  | or => exact Nat.or_lt_two_pow hx hy
  | and => exact Nat.and_lt_two_pow _ hy
  | xor => exact Nat.xor_lt_two_pow hx hy

theorem toNat_onBits_promote (op : FlagOp) (U : UndType I) (l r : U.Value) :
    (op.onBits (U.promote l) (U.promote r)).toNat = (op.onBits l r).toNat := by
  cases op <;> simp [onBits]

theorem apply_eq (op : FlagOp) (l r : F.Flag) : op.apply F l r = F.binary op.onBits l r := by
  cases op <;> rfl

/-- An operator with an assignment computes what the operator does. -/
theorem applyAssign_eq (op : FlagOp) : op.applyAssign F = op.apply F := by
  cases op <;> rfl

/-- Back in the underlying type nothing has been lost. -/
@[simp] theorem value_apply (op : FlagOp) (l r : F.Flag) :
    (op.apply F l r).value = op.onBits l r := by
  have hx := op.toNat_onBits_promote F.toUndType l r
  have hlt : (op.onBits l r).toNat < 2 ^ F.bits := (op.onBits l r).isLt
  rw [apply_eq]
  apply BitVec.eq_of_toNat_eq
  exact (F.toNat_convert_of_lt (hx.trans_lt hlt)).trans hx

theorem closed (op : FlagOp) {l r : F.Flag} (hl : F.InRange l) (hr : F.InRange r) :
    F.InRange (op.apply F l r).value := by
  rw [F.inRange_iff] at *
  rw [value_apply]
  exact op.onBits_lt hl hr

theorem passes_apply {b : Build} (hb : dbgAssert b true = false) (op : FlagOp) {l r : F.Flag}
    (hl : F.InRange l) (hr : F.InRange r) : (op.apply F l r).Passes b := by
  rw [apply_eq]
  simp only [FlagEnum.binary, Checked.passes_bind, Checked.passes_pure, and_true]
  exact ⟨F.passes_underlying hb hl, F.passes_underlying hb hr⟩

theorem flags_apply (op : FlagOp) (l r : F.Flag) :
    F.flags (op.apply F l r).value = op.onSets (F.flags l) (F.flags r) := by
  rw [value_apply]
  ext i
  cases op with
  | or => simp [onBits, onSets, FlagEnum.flags]
  | and => simp [onBits, onSets, FlagEnum.flags]
  | xor =>
      simp only [onBits, onSets, FlagEnum.flags, Set.mem_ofPred_eq, Set.mem_symmDiff,
        BitVec.getLsbD_xor]
      cases l.getLsbD i <;> cases r.getLsbD i <;> simp

end FlagOp

/-! ## Expressions and statements -/

/-- `~` is not used. -/
def FlagExpr.ComplementFree {ι : Type} : FlagExpr ι → Prop
  | var _ => True
  | compl _ => False
  | bin _ l r => l.ComplementFree ∧ r.ComplementFree

def FlagStmt.ComplementFree {ι : Type} : FlagStmt ι → Prop
  | assign _ r | opAssign _ _ r => r.ComplementFree

section
variable {I : IntTypes} {F : FlagEnum I} {b : Build} {ι : Type}

/-- The call returns a value in range. -/
def ReturnsInRange (b : Build) (x : Checked F.Flag) : Prop := x.Passes b ∧ F.InRange x.value

/-- Either `~` keeps to the range, or it must not be used. -/
def ComplementOk (F : FlagEnum I) (free : Prop) : Prop :=
  (∀ r, F.InRange r → F.InRange (F.compl r).value) ∨ free

theorem FlagExpr.eval_inRange (hb : dbgAssert b true = false) {vars : ι → F.Flag}
    (hvars : ∀ i, F.InRange (vars i)) {r : FlagExpr ι} (hr : ComplementOk F r.ComplementFree) :
    ReturnsInRange b (r.eval F vars) := by
  induction r with
  | var i => exact ⟨Checked.passes_pure _, hvars i⟩
  | compl r ih =>
      rcases hr with hclosed | hfree
      · obtain ⟨hpass, hrange⟩ := ih (.inl hclosed)
        have hread := F.passes_underlying hb hrange
        refine ⟨?_, hclosed _ hrange⟩
        simp only [eval, FlagEnum.compl, Checked.passes_bind, Checked.passes_pure, and_true]
        exact ⟨hpass, hread⟩
      · exact hfree.elim
  | bin op l r ihl ihr =>
      obtain ⟨hl, hlr⟩ := ihl (hr.imp id And.left)
      obtain ⟨hr, hrr⟩ := ihr (hr.imp id And.right)
      refine ⟨?_, op.closed F hlr hrr⟩
      simp only [eval, Checked.passes_bind]
      exact ⟨hl, hr, op.passes_apply F hb hlr hrr⟩

variable [DecidableEq ι]

theorem FlagStmt.exec_inRange (hb : dbgAssert b true = false) {vars : ι → F.Flag}
    (hvars : ∀ i, F.InRange (vars i)) {st : FlagStmt ι} (hst : ComplementOk F st.ComplementFree) :
    (st.exec F vars).Passes b ∧ ∀ i, F.InRange ((st.exec F vars).value i) := by
  have updated : ∀ i e, F.InRange e → ∀ j, F.InRange (Function.update vars i e j) := by
    intro i e he j
    rcases eq_or_ne j i with rfl | hj
    · rwa [Function.update_self]
    · rw [Function.update_of_ne hj]
      exact hvars j
  cases st with
  | assign i r =>
      obtain ⟨hpass, hrange⟩ := FlagExpr.eval_inRange hb hvars hst
      simp only [exec, Checked.passes_bind, Checked.passes_pure, and_true]
      exact ⟨hpass, updated i _ hrange⟩
  | opAssign op i r =>
      obtain ⟨hpass, hrange⟩ := FlagExpr.eval_inRange hb hvars hst
      simp only [exec, FlagOp.applyAssign_eq, Checked.passes_bind, Checked.passes_pure, and_true]
      exact ⟨⟨hpass, op.passes_apply F hb (hvars i) hrange⟩,
        updated i _ (op.closed F (hvars i) hrange)⟩

/-- What is written with the operators returns, and leaves everything in range. -/
theorem execAll_inRange (hb : dbgAssert b true = false) {prog : List (FlagStmt ι)}
    {vars : ι → F.Flag} (hvars : ∀ i, F.InRange (vars i))
    (hprog : ComplementOk F (∀ st ∈ prog, st.ComplementFree)) :
    (execAll F prog vars).Passes b ∧ ∀ i, F.InRange ((execAll F prog vars).value i) := by
  induction prog generalizing vars with
  | nil => exact ⟨Checked.passes_pure _, hvars⟩
  | cons st prog ih =>
      have hst := FlagStmt.exec_inRange hb hvars
        (hprog.imp id fun h => h st List.mem_cons_self)
      have hrest := ih hst.2 (hprog.imp id fun h st' hst' => h st' (List.mem_cons_of_mem st hst'))
      simp only [execAll, List.foldlM_cons, Checked.passes_bind]
      exact ⟨⟨hst.1, hrest.1⟩, hrest.2⟩

/-- Without a complement nothing goes wrong, whatever the largest flag is. -/
theorem runs_of_complementFree (hb : dbgAssert b true = false) {prog : List (FlagStmt ι)}
    {vars : ι → F.Flag} (hvars : ∀ i, F.InRange (vars i))
    (hprog : ∀ st ∈ prog, st.ComplementFree) :
    ∃ vars', (execAll F prog vars).run b = .ok vars' ∧ ∀ i, F.InRange (vars' i) := by
  obtain ⟨hpass, hrange⟩ := execAll_inRange hb hvars (.inr hprog)
  exact ⟨_, (Checked.run_eq_ok_iff _).mpr hpass, hrange⟩

end

/-! ## The complement -/

section
variable {I : IntTypes} {F : FlagEnum I}

theorem FlagEnum.value_compl (h : F.isBool = false) (r : F.Flag) : (F.compl r).value = ~~~r :=
  F.convert_not_promote h r

theorem FlagEnum.value_compl_bool (h : F.isBool = true) (r : F.Flag) : (F.compl r).value = 1 :=
  F.convert_not_promote_bool h r

theorem FlagEnum.inRange_zero : F.InRange 0 := by
  rw [inRange_iff]
  simp

/-- Where every bit is declared, every value is in range. -/
theorem FlagEnum.inRange_all (h : F.bits ≤ F.maskBits) (e : F.Flag) : F.InRange e := by
  rw [inRange_iff]
  exact e.isLt.trans_le (Nat.pow_le_pow_right Nat.two_pos h)

/-- A complement that keeps to the range has no bits outside it. -/
theorem FlagEnum.bits_le_maskBits (hbool : F.isBool = false)
    (h : F.InRange (F.compl 0).value) : F.bits ≤ F.maskBits := by
  rw [inRange_iff, value_compl hbool] at h
  have hall : (~~~(0 : F.Value)).toNat = 2 ^ F.bits - 1 :=
    (congrArg BitVec.toNat BitVec.not_zero).trans BitVec.toNat_allOnes
  rw [hall] at h
  have hpos := Nat.two_pow_pos F.bits
  exact (Nat.pow_le_pow_iff_right Nat.one_lt_two).mp (by omega)

theorem FlagEnum.flags_compl (hbool : F.isBool = false) (r : F.Flag) :
    F.flags (F.compl r).value = (F.flags r)ᶜ := by
  rw [value_compl hbool]
  ext i
  have hi : i.1 < F.bits := by have := F.k_lt; omega
  simp [flags, hi]

/-- For a `bool`, `~true` is `true`. -/
theorem FlagEnum.flags_compl_bool (hbool : F.isBool = true) :
    F.flags (F.compl 1).value ≠ (F.flags 1)ᶜ := by
  rw [value_compl_bool hbool]
  intro h
  have hmem : (0 : Fin (F.k + 1)) ∈ F.flags 1 := by simp [flags, F.bits_pos]
  have hmem' := hmem
  rw [h] at hmem'
  exact hmem' hmem

theorem FlagEnum.bijOn_flags (h : F.k + 1 = F.bits) (hle : F.bits ≤ F.maskBits) :
    Set.BijOn F.flags {e | F.InRange e} Set.univ := by
  refine ⟨Set.mapsTo_univ .., ?_, ?_⟩
  · intro e _ e' _ heq
    apply BitVec.eq_of_getLsbD_eq
    intro i hi
    have hiff : (⟨i, h ▸ hi⟩ : Fin (F.k + 1)) ∈ F.flags e ↔ ⟨i, h ▸ hi⟩ ∈ F.flags e' := by rw [heq]
    exact Bool.eq_iff_iff.mpr hiff
  · intro s _
    classical
    refine ⟨(BitVec.ofBoolListLE (List.ofFn fun i => decide (i ∈ s))).setWidth F.bits,
      F.inRange_all hle _, ?_⟩
    ext i
    have hi : i.1 < F.bits := h ▸ i.2
    have hbit : (List.ofFn fun i => decide (i ∈ s)).getD i.1 false = decide (i ∈ s) := by
      rw [List.getD_eq_getElem?_getD, List.getElem?_ofFn, dif_pos i.2, Option.getD_some]
    simp only [flags, Set.mem_ofPred_eq, BitVec.getLsbD_setWidth, hi, decide_true, Bool.true_and,
      BitVec.getLsbD_ofBoolListLE, hbit, decide_eq_true_eq]

end

/-- The operators are the Boolean algebra of the declared flags exactly when all bits of the
underlying type are declared, it is not `bool`, and the build lets true assertions pass. -/
theorem flagAlgebra_iff {I : IntTypes} (F : FlagEnum I) (b : Build) :
    FlagAlgebra F b ↔
      F.isBool = false ∧ F.k + 1 = F.bits ∧ F.bits ≤ I.umaxBits ∧
        (b.dialect = .cxx14 → b.debug = false) := by
  rw [← dbgAssert_true]
  constructor
  · intro h
    have hbool : F.isBool = false := by
      by_contra hne
      have htrue : F.isBool = true := by simpa using hne
      have hone : F.InRange 1 := by
        rw [← FlagEnum.value_compl_bool htrue 0]
        exact h.closed_compl 0 F.inRange_zero
      exact FlagEnum.flags_compl_bool htrue (h.flags_compl 1 hone)
    have hle := FlagEnum.bits_le_maskBits hbool (h.closed_compl 0 F.inRange_zero)
    obtain ⟨hk, humax⟩ := Nat.le_min.mp hle
    refine ⟨hbool, le_antisymm F.k_lt hk, humax, ?_⟩
    -- `i = ~i`, where `i` is zero
    obtain ⟨vars', hrun, -⟩ := h.runs Unit [.assign () (.compl (.var ()))] (fun _ => 0)
      fun _ => F.inRange_zero
    obtain rfl := Checked.value_of_run hrun
    have hpass := (Checked.run_eq_ok_iff _).mp hrun
    simp only [execAll, List.foldlM_cons, FlagStmt.exec, FlagExpr.eval, FlagEnum.compl,
      Checked.passes_bind] at hpass
    exact FlagEnum.assert_of_passes hpass.1.1.2.1
  · rintro ⟨hbool, hk, humax, hb⟩
    have hle : F.bits ≤ F.maskBits := Nat.le_min.mpr ⟨hk.ge, humax⟩
    have hall := F.inRange_all hle
    exact {
      closed := fun op l r _ _ => hall _
      closed_assign := fun op l r _ _ => hall _
      closed_compl := fun r _ => hall _
      runs := by
        intro ι _ prog vars hvars
        obtain ⟨hpass, hrange⟩ := execAll_inRange hb hvars (.inl fun r _ => hall _)
        exact ⟨_, (Checked.run_eq_ok_iff _).mpr hpass, hrange⟩
      bijective := F.bijOn_flags hk hle
      flags_apply := fun op l r _ _ => op.flags_apply F l r
      flags_applyAssign := fun op l r _ _ => by
        rw [op.applyAssign_eq]
        exact op.flags_apply F l r
      flags_compl := fun r _ => F.flags_compl hbool r
      removes := fun l r _ _ => by
        rw [show F.and = FlagOp.and.apply F from rfl, FlagOp.flags_apply, F.flags_compl hbool]
        rfl
      deMorgan := fun l r _ _ => by
        rw [show F.and = FlagOp.and.apply F from rfl, show F.or = FlagOp.or.apply F from rfl]
        simp only [F.value_compl hbool, FlagOp.value_apply]
        exact BitVec.not_or }

/-- A machine with a 32-bit `int`. -/
def int32 : IntTypes := ⟨32, by decide, 64, by decide⟩

/-- `enum FlagEnum : unsigned` with the flags `E1 = 1`, `E2 = 2`, `E3 = 4` and `E4 = 8`. -/
def testFlags : FlagEnum int32 where
  bits := 32
  bits_pos := by decide
  isBool := false
  bits_bool := nofun
  narrow := by decide
  k := 3
  k_lt := by decide

/-- `enum : unsigned char` whose largest flag is the top bit, `0x80`. -/
def topFlag : FlagEnum int32 where
  bits := 8
  bits_pos := by decide
  isBool := false
  bits_bool := nofun
  narrow := by decide
  k := 7
  k_lt := by decide

theorem topFlag_mask :
    topFlag.flag_mask.toNat = 255 ∧ ∀ i, topFlag.flag_mask.getLsbD i = decide (i ≤ 7) :=
  topFlag.flag_mask_exact (by decide)

/-- `(E1 | E2 | E3) & ~E4`. -/
def e123_without_e4 : FlagExpr (Fin 4) :=
  .bin .and (.bin .or (.bin .or (.var 0) (.var 1)) (.var 2)) (.compl (.var 3))

/-- The flags are in range, `&` gets `0xFFFFFFF7`, and its assertion fails. -/
theorem e4_not_removed :
    let vars : Fin 4 → testFlags.Flag := fun i => BitVec.twoPow 32 i.1
    (∀ i, testFlags.InRange (vars i)) ∧ testFlags.flag_mask.toNat = 15 ∧
      (testFlags.compl (vars 3)).value.toNat = 0xFFFFFFF7 ∧
      (e123_without_e4.eval testFlags vars).run ⟨.cxx14CxprEval, true⟩ = .error .aborted ∧
      ¬ FlagAlgebra testFlags ⟨.cxx14CxprEval, true⟩ := by
  refine ⟨?_, by decide +kernel, by decide +kernel, by decide +kernel, ?_⟩
  · unfold FlagEnum.InRange
    decide +kernel
  · intro h
    have hbad := h.closed_compl 0 FlagEnum.inRange_zero
    rw [FlagEnum.inRange_iff] at hbad
    revert hbad
    decide +kernel

end EflCore
