/-
# `EflCore.Box.New` — two steps that can fail, and nobody who looks

`Box::New` goes through four layers.

    Box::New               SelfType(A::New(args...))
    BoxAllocator::New      construct(Allocator::Allocate(), args...)
    Allocate(1)            MimAllocator::allocate(1), behind an assertion that 1 is not 0
    allocate(1)            SmartAllocate(1), which is mi_malloc_small, mi_malloc or
                           mi_aligned_alloc, the last behind an assertion about Align

mimalloc answers with null where it fails, and no layer asks.  `construct` is a placement `new`
at whatever comes back.

| the request | the constructor | |
| :-- | :-- | :-- |
| is answered by a block | returns | the box owns an object |
| is answered by a block | throws  | the block is nobody's, and stays allocated |
| is answered by null    |         | the constructor is called at null |

The sibling on the other side asks at every layer: `~Box`, `Box::Delete`, `BoxAllocator::Delete`
and `Deallocate` all look at the pointer first.

**Proved here.**  `New` returns a box with one object in it or stops with nothing left behind
exactly if a debug build rejects the alignment before anything is requested, or the request is
answered and the constructor does not throw (`new_reports_iff`).
-/
import EflCore.Box
import EflCore.PowerOf2

namespace EflCore

open Layout Lifetime

section
variable {B : Type} [DecidableEq B] {t : Target}

/-! ## The calls, from the allocator up -/

/-- `BoxAllocator<T, Align>::New`; `throws` is what the constructor of `T` does. -/
def BoxAllocator.newFrom (A : MimAllocator t) (b : Build) (mi : MimallocApi t) (throws : Bool) :
    Prog (BoxWorld B Nat) (Option Nat) :=
  match A.statelessAllocate b mi false 1 with
  | .ok request => BoxAllocator.new (mi.answer request) throws
  | .error e => throw e

/-- `Box::New`, and `Box::NewIn` with a `BoxAllocator`, at run time. -/
def Box.newFrom (A : MimAllocator t) (b : Build) (mi : MimallocApi t) (box : B) (throws : Bool) :
    Prog (BoxWorld B Nat) Unit := do
  let p ← BoxAllocator.newFrom A b mi throws
  initBoxData box p

/-- The box owns one block, and there is an object in it. -/
def OwnsNew (w : BoxWorld B Nat) (box : B) (w' : BoxWorld B Nat) : Prop :=
  ∃ p, w'.boxes box = some (some p) ∧
    w'.log = w.log ++ [.acquire (some p), .construct (some p) ()]

/-- The call stopped, and gave back every block it had acquired. -/
def StopsClean (w : BoxWorld B Nat) (e : Stop) (w' : BoxWorld B Nat) : Prop :=
  (e = .exception ∨ e = .aborted) ∧
    ∃ es, w'.log = w.log ++ es ∧ ∀ p, es.count (.acquire p) = es.count (.release p)

/-! ## The request for one object -/

namespace MimAllocator

/-- What `allocate(1)` asks of the allocator underneath. -/
def requestOne (A : MimAllocator t) : Request t :=
  if notOveraligned A.type then
    if A.type.sizeof ≤ smallAllocMax t then .mallocSmall A.type.sizeof else .malloc A.type.sizeof
  else .alignedAlloc A.align A.type.sizeof

/-- `AllocateAligned` asserts that the alignment is not too large. -/
def AlignTooLarge (A : MimAllocator t) (b : Build) (mi : MimallocApi t) : Prop :=
  b.debug = true ∧ notOveraligned A.type = false ∧ mi.alignmentMax < A.align

variable {A : MimAllocator t} {b : Build} {mi : MimallocApi t}

/-- The other half of that assertion always holds. -/
theorem isPowerOf2_align (A : MimAllocator t) : isPowerOf2 A.align = true := by
  have hpower : IsPower A.align := isPower_iff.mpr A.align_pow
  have hne : A.align ≠ 0 := by
    intro h
    rw [h] at hpower
    exact not_isPower_zero hpower
  exact (isPowerOf2_iff hne).mpr hpower

/-- `Allocate` has nothing against one object. -/
theorem statelessAllocate_one :
    A.statelessAllocate b mi false 1
      = smartAllocate b mi A.type A.align (notOveraligned A.type) 1 := by
  have hne : ((1 : t.SzType) != 0) = true := bne_iff_ne.mpr (BitVec.ne_of_lt t.zero_lt_one).symm
  rw [← allocate_runTime, statelessAllocate, hne, rawAssert_true]
  rfl

theorem smartAllocate_overaligned :
    smartAllocate b mi A.type A.align false 1
      = if b.debug ∧ mi.alignmentMax < A.align then .error .aborted
        else .ok (.alignedAlloc A.align A.type.sizeof) := by
  have hsize : A.type.sizeof * 1 = A.type.sizeof := BitVec.mul_one _
  simp only [smartAllocate, MimAllocatorBase.allocateAligned, hsize, isPowerOf2_align,
    Bool.and_true]
  by_cases hle : A.align ≤ mi.alignmentMax
  · have hnot : ¬ (b.debug = true ∧ mi.alignmentMax < A.align) :=
      fun h => BitVec.not_lt.mpr hle h.2
    rw [decide_eq_true hle, rawAssert_true, if_neg hnot]
    rfl
  · have hlt : mi.alignmentMax < A.align := BitVec.not_le.mp hle
    rw [decide_eq_false hle, rawAssert_false]
    cases b.debug with
    | true => rw [if_pos (⟨rfl, hlt⟩ : true = true ∧ _)]; rfl
    | false => rfl

theorem statelessAllocate_one_aborts (h : A.AlignTooLarge b mi) :
    A.statelessAllocate b mi false 1 = .error .aborted := by
  obtain ⟨hdebug, hover, hlt⟩ := h
  rw [statelessAllocate_one, hover, smartAllocate_overaligned, if_pos ⟨hdebug, hlt⟩]

theorem statelessAllocate_one_ok (h : ¬ A.AlignTooLarge b mi) :
    A.statelessAllocate b mi false 1 = .ok A.requestOne := by
  rw [statelessAllocate_one, requestOne]
  cases hover : notOveraligned A.type with
  | false =>
      rw [smartAllocate_overaligned, if_neg (fun hbad => h ⟨hbad.1, hover, hbad.2⟩)]
      rfl
  | true =>
      have hsize : A.type.sizeof * 1 = A.type.sizeof := BitVec.mul_one _
      have hone : (1 : t.SzType).toNat = 1 := t.toNat_ofNat (by decide)
      have hsmall : isSmallAlloc A.type 1 = true ↔ A.type.sizeof ≤ smallAllocMax t := by
        have htwo := t.two_le
        rw [isSmallAlloc_iff, hone, BitVec.le_def, CType.toNat_sizeof, toNat_smallAllocMax]
        exact and_iff_left (by omega)
      rw [if_pos rfl]
      by_cases hs : isSmallAlloc A.type 1 = true
      · have hle := hsmall.mp hs
        rw [BitVec.le_def, CType.toNat_sizeof] at hle
        rw [smartAllocate_of_small hs, hone, if_neg (by omega), hsize, if_pos (hsmall.mp hs)]
      · rw [smartAllocate_of_not_small hs, hsize, if_neg (mt hsmall.mpr hs)]

end MimAllocator

variable {A : MimAllocator t} {b : Build} {mi : MimallocApi t} {box : B} {throws : Bool}
  {w : BoxWorld B Nat} {p : Nat}

/-! ## What becomes of the block -/

omit [DecidableEq B] in
/-- A block that is acquired and nothing else is left behind. -/
theorem not_stopsClean_acquired {e : Stop} : ¬ StopsClean w e (w.emit [.acquire (some p)]) := by
  rintro ⟨-, es, hlog, hcount⟩
  have hes : [.acquire (some p)] = es := List.append_cancel_left hlog
  subst hes
  have hp := hcount (some p)
  rw [List.count_singleton_self, List.count_singleton] at hp
  cases hp

omit [DecidableEq B] in
theorem not_stopsClean_undefined {w' : BoxWorld B Nat} : ¬ StopsClean w .undefined w' := by
  rintro ⟨hstop | hstop, -⟩
  · cases hstop
  · cases hstop

variable {Q : Unit → BoxWorld B Nat → Prop} {E : Stop → BoxWorld B Nat → Prop}

theorem ends_newFrom_aborts (h : A.AlignTooLarge b mi) :
    Ends (Box.newFrom A b mi box throws) w Q E ↔ E .aborted w := by
  rw [Box.newFrom, ends_bind, BoxAllocator.newFrom, MimAllocator.statelessAllocate_one_aborts h]
  rfl

/-- Past the assertion all that is left of the allocator is its answer. -/
theorem newFrom_eq (h : ¬ A.AlignTooLarge b mi) :
    Box.newFrom A b mi box throws = Box.new box (mi.answer A.requestOne) throws := by
  rw [Box.newFrom, BoxAllocator.newFrom, MimAllocator.statelessAllocate_one_ok h, Box.new]

/-- With a block there are two ways to end, and the constructor decides. -/
theorem ends_newFrom_some (h : ¬ A.AlignTooLarge b mi) (hp : mi.answer A.requestOne = some p) :
    Ends (Box.newFrom A b mi box throws) w Q E ↔
      if throws then E .exception (w.emit [.acquire (some p)])
      else Q () ((w.emit [.acquire (some p), .construct (some p) ()]).setBox box (some (some p))) := by
  rw [newFrom_eq h, hp, Box.new, ends_bind, ends_new]
  rfl

theorem ends_newFrom_none (h : ¬ A.AlignTooLarge b mi) (hp : mi.answer A.requestOne = none) :
    Ends (Box.newFrom A b mi box throws) w Q E ↔ E .undefined w := by
  rw [newFrom_eq h, hp]
  rfl

/-- `New` returns a box that owns one object, or stops and leaves nothing allocated, exactly when
a debug build rejects the alignment, or there is a block and the constructor does not throw. -/
theorem new_reports_iff (A : MimAllocator t) (b : Build) (mi : MimallocApi t) (box : B)
    (throws : Bool) (w : BoxWorld B Nat) :
    Ends (Box.newFrom A b mi box throws) w (fun _ => OwnsNew w box) (StopsClean w) ↔
      A.AlignTooLarge b mi ∨ mi.answer A.requestOne ≠ none ∧ throws = false := by
  by_cases hlarge : A.AlignTooLarge b mi
  · rw [ends_newFrom_aborts hlarge]
    refine iff_of_true ⟨.inr rfl, [], ?_, fun _ => rfl⟩ (.inl hlarge)
    rw [List.append_nil]
  · rw [or_iff_right hlarge]
    cases hanswer : mi.answer A.requestOne with
    | none =>
        rw [ends_newFrom_none hlarge hanswer]
        exact iff_of_false not_stopsClean_undefined fun h => h.1 rfl
    | some p =>
        rw [ends_newFrom_some hlarge hanswer]
        cases throws with
        | true =>
            refine iff_of_false not_stopsClean_acquired ?_
            rintro ⟨-, hthrows⟩
            cases hthrows
        | false =>
            refine iff_of_true ⟨p, ?_, rfl⟩ ⟨Option.some_ne_none p, rfl⟩
            rw [BoxWorld.setBox_boxes, if_pos rfl]

end

def MimallocApi.failing (t : Target) : MimallocApi t := { MimallocApi.exact t with answer := fun _ => none }

/-- Where the allocator fails the constructor is called at null, and where the constructor throws
the block is left behind. -/
theorem failures_not_reported :
    (∃ w', Box.newFrom (.of twoPointers) ⟨.cxx14CxprEval, false⟩ (.failing x64) (0 : Nat) false
        BoxWorld.init = .error .undefined w') ∧
    (∃ w', Box.newFrom (.of twoPointers) ⟨.cxx14CxprEval, false⟩ (.exact x64) (0 : Nat) true
        BoxWorld.init = .error .exception w' ∧ ∃ p, w'.log = [.acquire (some p)] ∧
          w'.boxes = BoxWorld.init.boxes) ∧
    ¬ Ends (Box.newFrom (.of twoPointers) ⟨.cxx14CxprEval, false⟩ (.failing x64) (0 : Nat) false)
      BoxWorld.init (fun _ => OwnsNew BoxWorld.init 0) (StopsClean BoxWorld.init) ∧
    ¬ Ends (Box.newFrom (.of twoPointers) ⟨.cxx14CxprEval, false⟩ (.exact x64) (0 : Nat) true)
      BoxWorld.init (fun _ => OwnsNew BoxWorld.init 0) (StopsClean BoxWorld.init) :=
  ⟨⟨_, rfl⟩, ⟨_, rfl, _, rfl, rfl⟩, not_stopsClean_undefined, not_stopsClean_acquired⟩

end EflCore
