/-
# `EflCore.Box` — owning pointers, and who destroys what

`Box.hpp` with `BoxAllocator`, down to the events on the heap: which block is
acquired, built in, destroyed and given back.  A box is its `data_`; a location
is a pointer, the null pointer (`none`) among them, so that a destructor called
on null is an event like any other.

The null checks on the way from `reset` to a destructor are not all of one kind.

    ~Box, Box::Delete        if(data_)                          a plain condition
    Box::reset               if(EFL_SOFT_LIKELY(data_))         always taken
    BoxAllocator::Delete     if(EFL_SOFT_UNLIKELY(!data))       never taken
    X11::destruct            EFL_SOFT_LIKELY(!!t) ? ~T : void   always destroys
    Allocator::Deallocate    if(EFL_UNLIKELY(!data || n == 0))  a plain condition

An object may have boxes in it, as a node of a list has the box of the next one
(`BoxEnv.members`).  They end with it: `~T` calls `~Box`, which may call `~T` again.
So `Delete` takes along all that is `Under` a block, and every box `Inside` it.  A
box that has ended is not there any more, and to use it is `undefined`.
-/
import EflCore.Builtins
import EflCore.Lifetime.Ownership
import Mathlib.Logic.Relation

namespace EflCore

open Lifetime

/-- Boxes `B` by name, heap pointers `Option A`, `none` the null pointer.
`boxes b` is `data_` of `b`, if `b` is alive; `released` marks what `release` has
returned and the client still has to do something about. -/
structure BoxWorld (B A : Type) where
  boxes : B → Option (Option A)
  released : Option A → Bool
  log : List (Event (Option A) Unit)

/-- What the operations are compiled with, and what `T` is like.  `members a` are the
boxes that are part of the object at `a`, or of what it keeps: those that are there
when its destructor runs end in it. -/
structure BoxEnv (B A : Type) where
  build : Build
  isInHeapRegion : Option A → Bool
  trivialDtor : Bool
  members : A → List B
  no_members : trivialDtor = true → ∀ a, members a = []

section
variable {B A : Type}

namespace BoxWorld

def init : BoxWorld B A := ⟨fun _ => none, fun _ => false, []⟩

def emit (w : BoxWorld B A) (es : List (Event (Option A) Unit)) : BoxWorld B A :=
  { w with log := w.log ++ es }

def setBox [DecidableEq B] (w : BoxWorld B A) (b : B) (d : Option (Option A)) : BoxWorld B A :=
  { w with boxes := Function.update w.boxes b d }

def setReleased [DecidableEq A] (w : BoxWorld B A) (p : Option A) (r : Bool) : BoxWorld B A :=
  { w with released := Function.update w.released p r }

@[simp] theorem emit_log (w : BoxWorld B A) (es : List (Event (Option A) Unit)) :
    (w.emit es).log = w.log ++ es := rfl

@[simp] theorem emit_nil (w : BoxWorld B A) : w.emit [] = w := by
  simp only [emit, List.append_nil]

@[simp] theorem emit_emit (w : BoxWorld B A) (es es' : List (Event (Option A) Unit)) :
    (w.emit es).emit es' = w.emit (es ++ es') := by
  simp only [emit, List.append_assoc]

@[simp] theorem setReleased_boxes [DecidableEq A] (w : BoxWorld B A) (p : Option A) (r : Bool) :
    (w.setReleased p r).boxes = w.boxes := rfl

theorem setBox_boxes [DecidableEq B] (w : BoxWorld B A) (b c : B) (d : Option (Option A)) :
    (w.setBox b d).boxes c = if c = b then d else w.boxes c := Function.update_apply ..

/-- A box in the object at `x` owns `y`. -/
def Next (env : BoxEnv B A) (w : BoxWorld B A) (x y : A) : Prop :=
  ∃ c ∈ env.members x, w.boxes c = some (some y)

/-- The object at `y` is the one at `x`, or ends with it. -/
abbrev Under (env : BoxEnv B A) (w : BoxWorld B A) : A → A → Prop :=
  Relation.ReflTransGen (w.Next env)

/-- The box `c` ends with the object at `x`. -/
def Inside (env : BoxEnv B A) (w : BoxWorld B A) (c : B) (x : A) : Prop :=
  ∃ y, w.Under env x y ∧ c ∈ env.members y

end BoxWorld

/-! ## The functions of `Box.hpp` -/

section Functions
variable [DecidableEq B] [DecidableEq A] (env : BoxEnv B A)

/-- What `~T` leaves in the log by itself. -/
def BoxEnv.ending (p : Option A) : List (Event (Option A) Unit) :=
  if env.trivialDtor then [] else [.destroy p ()]

/-- `data_` of the box `b`. -/
def boxData (b : B) : Prog (BoxWorld B A) (Option A) := fun w =>
  match w.boxes b with
  | some p => .ok p w
  | none => .error .undefined w

/-- `data_(p)` of a constructor. -/
def initBoxData (b : B) (p : Option A) : Prog (BoxWorld B A) Unit :=
  modify fun w => w.setBox b (some p)

/-- `data_ = p`. -/
def setBoxData (b : B) (p : Option A) : Prog (BoxWorld B A) Unit := do
  let _ ← boxData b
  initBoxData b p

def emit (es : List (Event (Option A) Unit)) : Prog (BoxWorld B A) Unit :=
  modify fun w => w.emit es

/-- `X11::destruct`; `endBox` is what a destructor does to a box. -/
def destruct (endBox : B → Prog (BoxWorld B A) Unit) (t : Option A) : Prog (BoxWorld B A) Unit :=
  if env.trivialDtor then pure ()
  else if softLikely t.isSome then do
    emit [.destroy t ()]
    forM (t.elim [] env.members) endBox
  else pure ()

/-- `X11::construct`; no constructor can run at the null pointer. -/
def constructAt (t : Option A) (throws : Bool) : Prog (BoxWorld B A) (Option A) :=
  match t with
  | none => throw .undefined
  | some a => if throws then throw .exception else do
      emit [.construct (some a) ()]
      pure (some a)

/-- `StatelessAllocator::Allocate`, answered by the allocator with `answer`. -/
def allocateBlock (answer : Option A) : Prog (BoxWorld B A) (Option A) :=
  match answer with
  | none => pure none
  | some a => do
      emit [.acquire (some a)]
      pure (some a)

/-- `StatelessAllocator::Deallocate`, and `MimAllocator::deallocate` under it. -/
def deallocateBlock (data : Option A) (n : Nat) : Prog (BoxWorld B A) Unit :=
  if unlikely (!data.isSome || n == 0) then pure () else do
    Prog.abortIf (dbgAssert env.build (env.isInHeapRegion data))
    emit [.release data]

/-- `~Box`, with `A::Delete` for `deleteBlock`.  The box has ended when its destructor begins. -/
def destroyBox (deleteBlock : Option A → Prog (BoxWorld B A) Unit) (b : B) :
    Prog (BoxWorld B A) Unit := do
  let data_ ← boxData b
  modify fun w => w.setBox b none
  if data_.isSome then deleteBlock data_

/-- What the destructor of an object does to a box in it. -/
def endBox (deleteBlock : Option A → Prog (BoxWorld B A) Unit) (b : B) :
    Prog (BoxWorld B A) Unit := do
  let w ← get
  if (w.boxes b).isSome then destroyBox deleteBlock b

namespace BoxAllocator

/-- `BoxAllocator::New`. -/
def new (answer : Option A) (throws : Bool) : Prog (BoxWorld B A) (Option A) := do
  let data ← allocateBlock answer
  constructAt data throws

/-- `BoxAllocator::Delete`.  Destructors may call it again, as long as the stack lasts. -/
def delete : Nat → Option A → Prog (BoxWorld B A) Unit
  | 0, _ => throw .aborted
  | depth + 1, data =>
      if softUnlikely (!data.isSome) then pure () else do
        destruct env (endBox (delete depth)) data
        deallocateBlock env data 1

end BoxAllocator

namespace Box
variable (depth : Nat)

/-- `Box()`. -/
def default (b : B) : Prog (BoxWorld B A) Unit := initBoxData b none

/-- `Box::New`. -/
def new (b : B) (answer : Option A) (throws : Bool) : Prog (BoxWorld B A) Unit := do
  let p ← BoxAllocator.new answer throws
  initBoxData b p

/-- `Box::NewFromPtr`. -/
def newFromPtr (b : B) (p : Option A) : Prog (BoxWorld B A) Unit := initBoxData b p

/-- `Box(Box&& box)`. -/
def moveConstruct (b box : B) : Prog (BoxWorld B A) Unit := do
  initBoxData b (← boxData box)
  setBoxData box none

/-- `Box::reset`. -/
def reset (b : B) : Prog (BoxWorld B A) Unit := do
  if softLikely (← boxData b).isSome then
    BoxAllocator.delete env depth (← boxData b)
  setBoxData b none

/-- `operator=(Box&& box)`. -/
def moveAssign (b box : B) : Prog (BoxWorld B A) Unit := do
  reset env depth b
  setBoxData b (← boxData box)
  setBoxData box none

/-- `Box::release`. -/
def release (b : B) : Prog (BoxWorld B A) (Option A) := do
  let released_ptr ← boxData b
  setBoxData b none
  pure released_ptr

/-- `Box::swap`. -/
def swap (b box : B) : Prog (BoxWorld B A) Unit := do
  let old_ptr ← boxData b
  setBoxData b (← boxData box)
  setBoxData box old_ptr

/-- `Box::Delete`. -/
def delete (p : Option A) : Prog (BoxWorld B A) Unit :=
  if p.isSome then BoxAllocator.delete env depth p else pure ()

/-- `~Box`. -/
def destroy (b : B) : Prog (BoxWorld B A) Unit := destroyBox (BoxAllocator.delete env depth) b

end Box
end Functions

/-! ## How the functions end -/

section Ends
variable {w : BoxWorld B A} {E : Stop → BoxWorld B A → Prop}

@[simp] theorem ends_boxData {Q : Option A → BoxWorld B A → Prop} (b : B) :
    Ends (boxData b) w Q E ↔
      match w.boxes b with
      | some p => Q p w
      | none => E .undefined w := by
  simp only [Ends, boxData]
  cases w.boxes b <;> rfl

variable {Q : Unit → BoxWorld B A → Prop}

@[simp] theorem ends_emit (es : List (Event (Option A) Unit)) :
    Ends (emit es) w Q E ↔ Q () (w.emit es) := Iff.rfl

theorem ends_new {Q : Option A → BoxWorld B A → Prop} (a : A) (throws : Bool) :
    Ends (BoxAllocator.new (some a) throws) w Q E ↔
      if throws then E .exception (w.emit [.acquire (some a)])
      else Q (some a) (w.emit [.acquire (some a), .construct (some a) ()]) := by
  cases throws with
  | true => rfl
  | false => simp [BoxAllocator.new, allocateBlock, constructAt]

theorem ends_deallocate_some (env : BoxEnv B A) (a : A) :
    Ends (deallocateBlock env (some a) 1) w Q E ↔
      if dbgAssert env.build (env.isInHeapRegion (some a)) then E .aborted w
      else Q () (w.emit [.release (some a)]) := by
  simp [deallocateBlock]

variable [DecidableEq B]

@[simp] theorem ends_initBoxData (b : B) (p : Option A) :
    Ends (initBoxData b p) w Q E ↔ Q () (w.setBox b (some p)) := Iff.rfl

@[simp] theorem ends_setBoxData (b : B) (p : Option A) :
    Ends (setBoxData b p) w Q E ↔
      match w.boxes b with
      | some _ => Q () (w.setBox b (some p))
      | none => E .undefined w := by
  simp only [setBoxData, ends_bind, ends_boxData, ends_initBoxData]

theorem ends_setBoxData_of {b : B} {d p : Option A} (hb : w.boxes b = some d) :
    Ends (setBoxData b p) w Q E ↔ Q () (w.setBox b (some p)) := by
  rw [ends_setBoxData, hb]

/-- Whatever a box in an object owns is deleted with it. -/
theorem ends_endBox (deleteBlock : Option A → Prog (BoxWorld B A) Unit) (b : B) :
    Ends (endBox deleteBlock b) w Q E ↔
      match w.boxes b with
      | none => Q () w
      | some none => Q () (w.setBox b none)
      | some (some y) => Ends (deleteBlock (some y)) (w.setBox b none) Q E := by
  have hget : Ends (endBox deleteBlock b) w Q E ↔
      Ends (if (w.boxes b).isSome then destroyBox deleteBlock b else pure () : Prog _ Unit) w Q E :=
    Iff.rfl
  rw [hget]
  cases hb : w.boxes b with
  | none => rfl
  | some d =>
      simp only [Option.isSome_some, if_true, destroyBox, ends_bind, ends_boxData, hb, ends_modify]
      cases d with
      | none => rfl
      | some y => rfl

/-- On a block, `Delete` is a destruction, the end of the boxes in the object, and a release with an
assertion before it. -/
theorem ends_delete_some (env : BoxEnv B A) (depth : Nat) (a : A) :
    Ends (BoxAllocator.delete env (depth + 1) (some a)) w Q E ↔
      Ends (forM (env.members a) (endBox (BoxAllocator.delete env depth)))
        (w.emit (env.ending (some a)))
        (fun _ w' => if dbgAssert env.build (env.isInHeapRegion (some a)) then E .aborted w'
          else Q () (w'.emit [.release (some a)])) E := by
  have hdelete : BoxAllocator.delete env (depth + 1) (some a) = (do
      destruct env (endBox (BoxAllocator.delete env depth)) (some a)
      deallocateBlock env (some a) 1) := rfl
  rw [hdelete, ends_bind]
  simp only [ends_deallocate_some]
  cases htrivial : env.trivialDtor with
  | true =>
      rw [destruct, BoxEnv.ending, htrivial, env.no_members htrivial a, if_pos rfl, if_pos rfl,
        BoxWorld.emit_nil]
      rfl
  | false =>
      rw [destruct, BoxEnv.ending, htrivial]
      simp

/-- On null it is a destruction and nothing else: the hints do not read their condition. -/
theorem ends_delete_none (env : BoxEnv B A) (depth : Nat) :
    Ends (BoxAllocator.delete env (depth + 1) none) w Q E ↔
      Q () (w.emit (env.ending none)) := by
  cases htrivial : env.trivialDtor with
  | true => simp [BoxAllocator.delete, destruct, deallocateBlock, BoxEnv.ending, htrivial]
  | false => simp [BoxAllocator.delete, destruct, deallocateBlock, BoxEnv.ending, htrivial]

/-- `reset` deletes whatever is there, null as well. -/
theorem ends_reset (env : BoxEnv B A) (depth : Nat) {b : B} {p : Option A}
    (hb : w.boxes b = some p) :
    Ends (Box.reset env depth b) w Q E ↔
      Ends (BoxAllocator.delete env depth p) w (fun _ w₁ => Ends (setBoxData b none) w₁ Q E) E := by
  simp only [Box.reset, ends_bind, ends_boxData, hb, softLikely_eq, if_true]

/-- What follows the reset reads the source, and writes to both. -/
theorem ends_take {a b : B} {p q : Option A} (ha : w.boxes a = some p) (hb : w.boxes b = some q) :
    Ends (do setBoxData a (← boxData b); setBoxData b none) w Q E ↔
      Q () ((w.setBox a (some q)).setBox b (some none)) := by
  have hread : (w.setBox a (some q)).boxes b = some q := by
    rw [BoxWorld.setBox_boxes, hb, ite_self]
  simp only [ends_bind, ends_boxData, hb, ends_setBoxData, ha, hread]

end Ends

end
end EflCore
