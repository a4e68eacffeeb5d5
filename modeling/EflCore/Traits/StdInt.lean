/-
# `EflCore.Traits.StdInt` — counting at compile time

`Traits/StdInt.hpp` before C++14, where the compiler has no builtin for it.  `MkSeq<N>` is a
class template whose member `type` is the sequence `0, 1, …, N - 1`.  Up to 16 it is specialised,
one row of `StdInt.seq.mac` each; everything else is the primary template, which cuts `N` in two.

    MkSeq<N>                     seq_cat<mk_seq<N / 2>, mk_seq<N - N / 2>>
    SeqCat<<II1...>, <II2...>>   II1..., (sizeof...(II1) + II2)...

A template that has no specialisation for 1 would never be done: `1 - 1 / 2` is 1.  With the
rows there, what is left to instantiate is halved each time, so that a compiler which allows
templates to be nested as deep as a `size_t` has bits can instantiate all of them
(`mkSeq_eq_some`).

**Proved here**: `mk_seq<N>` counts from zero to `N - 1` in order, and so does `MkIntSeq<T, N>`
in every integral type that has the value `N` (`mkSeq_counts`).
-/
import EflCore.Layout

namespace EflCore

open Layout

/-- `MkSzSeq<N>`: `0, 1, …, N - 1`. -/
def mkSzSeq (t : Target) (N : Nat) : List t.SzType := (List.range N).map (BitVec.ofNat _)

namespace Xx11

/-! ## Sequences of `size_t` -/

section
variable {t : Target}

abbrev SzSeq (t : Target) : Type := List t.SzType

/-- `SeqCat<SzSeq<II1...>, SzSeq<II2...>>::type`. -/
def seqCat (II1 II2 : SzSeq t) : SzSeq t := II1 ++ II2.map (BitVec.ofNat _ II1.length + ·)

/-- The rows of `StdInt.seq.mac`. -/
def seqRows : List (Nat × List Nat) :=
  [(0, []),
   (1, [0]),
   (2, [0, 1]),
   (3, [0, 1, 2]),
   (4, [0, 1, 2, 3]),
   (5, [0, 1, 2, 3, 4]),
   (6, [0, 1, 2, 3, 4, 5]),
   (7, [0, 1, 2, 3, 4, 5, 6]),
   (8, [0, 1, 2, 3, 4, 5, 6, 7]),
   (9, [0, 1, 2, 3, 4, 5, 6, 7, 8]),
   (10, [0, 1, 2, 3, 4, 5, 6, 7, 8, 9]),
   (11, [0, 1, 2, 3, 4, 5, 6, 7, 8, 9, 10]),
   (12, [0, 1, 2, 3, 4, 5, 6, 7, 8, 9, 10, 11]),
   (13, [0, 1, 2, 3, 4, 5, 6, 7, 8, 9, 10, 11, 12]),
   (14, [0, 1, 2, 3, 4, 5, 6, 7, 8, 9, 10, 11, 12, 13]),
   (15, [0, 1, 2, 3, 4, 5, 6, 7, 8, 9, 10, 11, 12, 13, 14]),
   (16, [0, 1, 2, 3, 4, 5, 6, 7, 8, 9, 10, 11, 12, 13, 14, 15])]

/-- The explicit specialisation of `MkSeq` for `N`, if there is one. -/
def MkSeq.specialization (N : t.SzType) : Option (SzSeq t) :=
  (seqRows.lookup N.toNat).map (List.map (BitVec.ofNat _))

/-- `mk_seq<N>`, with templates nested `depth` deep at most. -/
def mkSeq : (depth : Nat) → t.SzType → Option (SzSeq t)
  | 0, _ => none
  | depth + 1, N =>
      match MkSeq.specialization N with
      | some type => some type
      | none => do
          let left ← mkSeq depth (N / 2)
          let right ← mkSeq depth (N - N / 2)
          pure (seqCat left right)

theorem length_mkSzSeq (n : Nat) : (mkSzSeq t n).length = n := by
  rw [mkSzSeq, List.length_map, List.length_range]

/-- The second half is shifted by the length of the first. -/
theorem seqCat_mkSzSeq (m n : Nat) : seqCat (mkSzSeq t m) (mkSzSeq t n) = mkSzSeq t (m + n) := by
  rw [seqCat, length_mkSzSeq, mkSzSeq, mkSzSeq, mkSzSeq, List.range_add, List.map_append,
    List.map_map, List.map_map]
  congr 2
  funext i
  exact BitVec.ofNat_add_ofNat ..

theorem specialization_of_le {N : t.SzType} (h : N.toNat ≤ 16) :
    MkSeq.specialization N = some (mkSzSeq t N.toNat) := by
  have hrows : ∀ n ≤ 16, seqRows.lookup n = some (List.range n) := by decide
  rw [MkSeq.specialization, hrows _ h]
  rfl

theorem specialization_of_lt {N : t.SzType} (h : 16 < N.toNat) :
    MkSeq.specialization N = none := by
  have hrows : ∀ row ∈ seqRows, row.1 ≤ 16 := by decide
  rw [MkSeq.specialization, Option.map_eq_none_iff, List.lookup_eq_none_iff]
  intro row hrow
  have hle := hrows row hrow
  exact bne_iff_ne.mpr (by omega)

/-- Each half is in reach of one template less. -/
theorem toNat_halves (N : t.SzType) :
    (N / 2).toNat = N.toNat / 2 ∧ (N - N / 2).toNat = N.toNat - N.toNat / 2 := by
  have htwo : (2 : t.SzType).toNat = 2 := t.toNat_ofNat (by decide)
  have hhalf : (N / 2).toNat = N.toNat / 2 := by rw [BitVec.toNat_udiv, htwo]
  refine ⟨hhalf, ?_⟩
  rw [BitVec.toNat_sub_of_le, hhalf]
  rw [BitVec.le_def, hhalf]
  exact Nat.div_le_self ..

/-- Induction on the depth: the rows reach up to 16, and every template doubles that. -/
theorem mkSeq_eq_some (depth : Nat) (N : t.SzType) (h : N.toNat ≤ 16 * 2 ^ depth) :
    mkSeq (depth + 1) N = some (mkSzSeq t N.toNat) := by
  induction depth generalizing N with
  | zero => rw [mkSeq, specialization_of_le (by omega)]
  | succ depth ih =>
      rw [mkSeq]
      rcases Nat.lt_or_ge 16 N.toNat with hlt | hle
      · obtain ⟨hleft, hright⟩ := toNat_halves N
        rw [Nat.pow_succ] at h
        have ihleft := ih (N / 2) (by omega)
        have ihright := ih (N - N / 2) (by omega)
        have hsum : N.toNat / 2 + (N.toNat - N.toNat / 2) = N.toNat := by omega
        rw [hleft] at ihleft
        rw [hright] at ihright
        rw [specialization_of_lt hlt, ihleft, ihright]
        show some (seqCat _ _) = _
        rw [seqCat_mkSzSeq, hsum]
      · rw [specialization_of_le hle]

/-- As many templates as a `size_t` has bits are enough. -/
theorem mkSeq_of_szBits_le {depth : Nat} (h : t.szBits ≤ depth) (N : t.SzType) :
    mkSeq depth N = some (mkSzSeq t N.toNat) := by
  have hpos := t.two_le
  obtain ⟨d, rfl⟩ : ∃ d, depth = d + 1 := ⟨depth - 1, by rw [Target.szBits] at h; omega⟩
  refine mkSeq_eq_some d N ?_
  have hpow : 2 ^ t.szBits ≤ 2 ^ (d + 1) := Nat.pow_le_pow_right Nat.two_pos h
  have hlt := N.isLt
  rw [Nat.pow_succ] at hpow
  omega

end

/-! ## Sequences of other integers -/

/-- An integral type; `bool` has one bit. -/
structure IntegralType where
  bits : Nat
  bits_pos : 0 < bits
  isSigned : Bool
  isBool : Bool
  bits_bool : isBool = true → bits = 1 ∧ isSigned = false

namespace IntegralType
variable (T : IntegralType)

/-- The value can be represented in the type. -/
def Represents (x : Int) : Prop :=
  if T.isSigned then -2 ^ (T.bits - 1) ≤ x ∧ x < 2 ^ (T.bits - 1) else 0 ≤ x ∧ x < 2 ^ T.bits

instance (x : Int) : Decidable (T.Represents x) := by
  unfold Represents
  infer_instance

def convert (x : Int) : Int :=
  if T.isBool then (if x = 0 then 0 else 1)
  else if T.isSigned then x.bmod (2 ^ T.bits)
  else x % 2 ^ T.bits

/-- Between zero and what is represented everything is. -/
theorem represents_of_le {T : IntegralType} {m n : Nat} (h : T.Represents n) (hmn : m ≤ n) :
    T.Represents m := by
  have hpow : (0 : Int) ≤ 2 ^ (T.bits - 1) := Int.pow_nonneg (by decide)
  unfold Represents at h ⊢
  split
  next hsigned =>
      rw [if_pos hsigned] at h
      exact ⟨by omega, by omega⟩
  next hunsigned =>
      rw [if_neg hunsigned] at h
      exact ⟨by omega, by omega⟩

/-- What can be represented is converted to itself. -/
theorem convert_eq {T : IntegralType} {x : Int} (h : T.Represents x) : T.convert x = x := by
  unfold Represents at h
  unfold convert
  have hpow : (2 : Int) ^ T.bits = 2 ^ (T.bits - 1) * 2 := by
    rw [← pow_succ, Nat.sub_add_cancel T.bits_pos]
  by_cases hbool : T.isBool = true
  · obtain ⟨hbits, hsigned⟩ := T.bits_bool hbool
    rw [hsigned, if_neg Bool.false_ne_true, hbits] at h
    rw [if_pos hbool]
    split
    · omega
    · omega
  · rw [if_neg hbool]
    split
    next hsigned =>
        rw [if_pos hsigned] at h
        refine Int.bmod_eq_of_le_mul_two ?_ ?_
        · push_cast
          omega
        · push_cast
          omega
    next hunsigned =>
        rw [if_neg hunsigned] at h
        exact Int.emod_eq_of_lt h.1 h.2

end IntegralType

section
variable {t : Target}

def mkSeqCast (T : IntegralType) (II : SzSeq t) : List Int := II.map fun i => T.convert i.toNat

/-- `MkIntSeq<T, N>`, by its arguments; `MkSzSeq` is `mk_seq` here. -/
def mkIntSeq (t : Target) (depth : Nat) (T : IntegralType) (N : Int) : Option (List Int) :=
  (mkSeq depth (BitVec.ofInt t.szBits N)).map (mkSeqCast T)

theorem toNat_mkSzSeq (N : t.SzType) :
    (mkSzSeq t N.toNat).map BitVec.toNat = List.range N.toNat := by
  rw [mkSzSeq, List.map_map]
  refine (List.map_congr_left ?_).trans (List.map_id _)
  intro i hi
  have hlt : i < 2 ^ t.szBits := (List.mem_range.mp hi).trans N.isLt
  exact (BitVec.toNat_ofNat ..).trans (Nat.mod_eq_of_lt hlt)

/-- Every element is less than `N`, which the type has. -/
theorem mkSeqCast_mkSzSeq {T : IntegralType} {N : t.SzType} (h : T.Represents N.toNat) :
    mkSeqCast T (mkSzSeq t N.toNat) = (List.range N.toNat).map Nat.cast := by
  rw [← toNat_mkSzSeq, List.map_map, mkSeqCast]
  refine List.map_congr_left ?_
  intro i hi
  have hlt : i.toNat < N.toNat := by
    rw [← List.mem_range, ← toNat_mkSzSeq]
    exact List.mem_map_of_mem hi
  exact IntegralType.convert_eq (IntegralType.represents_of_le h hlt.le)

/-- With templates nested as deep as a `size_t` has bits, `mk_seq<N>` is done and counts up to
`N`, and so is and does `MkIntSeq<T, N>`. -/
theorem mkSeq_counts {depth : Nat} (hdepth : t.szBits ≤ depth) (N : t.SzType) :
    (mkSeq depth N).map (List.map BitVec.toNat) = some (List.range N.toNat) ∧
      ∀ T : IntegralType, T.Represents N.toNat →
        mkIntSeq t depth T N.toNat = some ((List.range N.toNat).map Nat.cast) := by
  have hseq := mkSeq_of_szBits_le hdepth N
  constructor
  · rw [hseq, Option.map_some, toNat_mkSzSeq]
  · intro T hT
    have hN : BitVec.ofInt t.szBits N.toNat = N := by
      rw [BitVec.ofInt_natCast, BitVec.ofNat_toNat, BitVec.setWidth_eq]
    rw [mkIntSeq, hN, hseq, Option.map_some, mkSeqCast_mkSzSeq hT]

end

def signedChar : IntegralType where
  bits := 8
  bits_pos := Nat.succ_pos 7
  isSigned := true
  isBool := false
  bits_bool h := by cases h

/-- Forty needs the primary template twice. -/
theorem mkSeq_forty :
    (mkSeq 64 (40 : x64.SzType)).map (List.map BitVec.toNat) = some (List.range 40) ∧
      mkIntSeq x64 64 signedChar 40 = some ((List.range 40).map Nat.cast) :=
  have h := @mkSeq_counts x64 64 le_rfl 40
  ⟨h.1, h.2 signedChar (by decide)⟩

end Xx11
end EflCore
