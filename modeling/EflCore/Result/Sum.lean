/-
# `EflCore.Result.Sum` — `Result` as a sum type

`Result<T, E>` is `T + E`, and `Result<void, E>`, which has its own class in `Result.hpp`, is
`1 + E`.

    Result<T, E>       initialize_data   destroy, construct data_, active_ = true
    Result<void, E>    initialize_data   destroy, active_ = true

In the second class the member `data_` is a `Dummy`.  Nobody reads it, and only the default
constructor makes one.

What can be seen of a pool of results is what each of them holds, on one side or the other
(`ResultClass.shown`); which side is the kind of the value.  `ResultOp.after` is what a sum
type makes of each call, and `ResultOp.Meant` which calls it makes it of: those that compile, that
are not taken by a template, that do not destroy what they have to read, and whose assertions let
what is true pass.
-/
import EflCore.Checked
import EflCore.Result

namespace EflCore

open Lifetime
open ResultBase (setActive)

section
variable {A V : Type} [DecidableEq A]

/-! ## `Result<T, E>` -/

namespace Result
variable (b : Build)

def has_value (a : A) : Prog (ResultWorld A V) Bool := hasValue a

def starConst (a : A) : Prog (ResultWorld A V) Unit := do
  Prog.abortIf (dbgAssert b (← hasValue a))
  unwrapConst b a

/-- `operator->()`, const or not. -/
def arrow (a : A) : Prog (ResultWorld A V) Unit := do
  Prog.abortIf (dbgAssert b (← hasValue a))

end Result

/-! ## `Result<void, E>` -/

/-- `Dummy` and `E`: there is only one `Dummy`. -/
structure VoidTypes (V : Type) extends ResultTypes V where
  dummy : V
  dflt_eq : dflt = some dummy
  only_dummy : ∀ v, kind v = .data_ → v = dummy

theorem VoidTypes.kind_dummy (T : VoidTypes V) : T.kind T.dummy = .data_ :=
  T.kind_dflt T.dummy T.dflt_eq

namespace ResultVoid
variable (trivial : Bool) (b : Build) (T : VoidTypes V)

def initialize_data (a : A) : Prog (ResultWorld A V) Unit :=
  Prog.noexcept do
    Result.clear trivial T.toResultTypes a
    setActive a true

def initialize_err (a : A) (args : Source A V) (owned : Bool) : Prog (ResultWorld A V) Unit :=
  Result.initialize_ trivial T.toResultTypes false a args owned

/-- The body of the copying and the moving constructors. -/
def ctorBody (a res : A) (arg : Source A V) : Prog (ResultWorld A V) Unit := do
  setActive a (← Result.hasValue res)
  if !(← Result.hasValue res) then
    constructFrom T.toPayload a .err_ arg

def ofCopy (a res : A) : Prog (ResultWorld A V) Unit := do
  ResultBase.ctor T.toResultTypes a
  (ctorBody T a res (.copy res id)).unwinding (Result.unwind trivial T.toResultTypes a)

def ofMove (a res : A) : Prog (ResultWorld A V) Unit := do
  ResultBase.ctor T.toResultTypes a
  (ctorBody T a res (.move res id)).unwinding (Result.unwind trivial T.toResultTypes a)

/-- `Result(const Error<Err>&)` and `Result(Error<Err>&&)`: `noexcept` if an `Err` is copied or
moved without throwing, whatever making an `E` of it does. -/
def ofError (nothrow : Bool) (a : A) (err : Source A V) : Prog (ResultWorld A V) Unit :=
  if nothrow then
    Prog.noexcept (ResultBase.ctorUnexpect T.toResultTypes a err)
  else
    ResultBase.ctorUnexpect T.toResultTypes a err

def assignCopy (a res : A) (owned : Bool) : Prog (ResultWorld A V) Unit := do
  if (← Result.hasValue res) then
    initialize_data trivial T a
  else
    Result.errorConst b res
    initialize_err trivial T a (.copy res id) owned

def assignMove (a res : A) (owned : Bool) : Prog (ResultWorld A V) Unit := do
  if (← Result.hasValue res) then
    initialize_data trivial T a
  else
    Result.error b res
    initialize_err trivial T a (.move res id) owned

def assignDummy (a : A) : Prog (ResultWorld A V) Unit := initialize_data trivial T a

def emplace (a : A) : Prog (ResultWorld A V) Unit := Prog.noexcept (initialize_data trivial T a)

/-- `unwrap()`, `operator*()`. -/
def unwrap (a : A) : Prog (ResultWorld A V) Unit := do
  Prog.abortIf (dbgAssert b (← Result.hasValue a))

end ResultVoid

inductive VoidOp (A V : Type) where
  | default (a : A)
  | ofCopy (a res : A)
  | ofMove (a res : A)
  | ofErrorCopy (nothrowCopy : Bool) (a : A) (err : Source A V)
  | ofErrorMove (nothrowMove : Bool) (a : A) (err : Source A V)
  | ofUnexpect (a : A) (args : Source A V)
  | assignCopy (a res : A) (owned : Bool)
  | assignMove (a res : A) (owned : Bool)
  | assignDummy (a : A)
  | emplace (a : A)
  | destroy (a : A)

namespace VoidOp

/-- Nothing converts to `void`, so there is no template to take a copy. -/
def run (trivial : Bool) (b : Build) (T : VoidTypes V) : VoidOp A V → Prog (ResultWorld A V) Unit
  | default a => Result.ctor T.toResultTypes a
  | ofCopy a res => ResultVoid.ofCopy trivial T a res
  | ofMove a res => ResultVoid.ofMove trivial T a res
  | ofErrorCopy nothrowCopy a err => ResultVoid.ofError T nothrowCopy a err
  | ofErrorMove nothrowMove a err => ResultVoid.ofError T nothrowMove a err
  | ofUnexpect a args => Result.ofUnexpect T.toResultTypes a args
  | assignCopy a res owned => ResultVoid.assignCopy trivial b T a res owned
  | assignMove a res owned => ResultVoid.assignMove trivial b T a res owned
  | assignDummy a => ResultVoid.assignDummy trivial T a
  | emplace a => ResultVoid.emplace trivial T a
  | destroy a => Result.dtor trivial T.toResultTypes a

/-- The same call of a class that has the `Dummy` for its value. -/
def toResultOp (T : VoidTypes V) : VoidOp A V → ResultOp A V
  | default a => .default a
  | ofCopy a res => .ofCopy a res true
  | ofMove a res => .ofMove a res
  | ofErrorCopy nothrowCopy a err => .ofErrorCopy nothrowCopy a err true
  | ofErrorMove _ a err => .ofErrorMove a err
  | ofUnexpect a args => .ofUnexpect a args
  | assignCopy a res owned => .assignCopy a res owned
  | assignMove a res owned => .assignMove a res owned
  | assignDummy a => .assignValue a (.value T.dummy) false
  | emplace a => .emplace a (.value T.dummy) false
  | destroy a => .destroy a

end VoidOp

/-! ## The two classes -/

/-- `Result<T, E>` for an object type `T`, and `Result<void, E>`. -/
inductive ResultClass (V : Type) where
  | object (T : ResultTypes V)
  | void (T : VoidTypes V)

namespace ResultClass
variable (c : ResultClass V)

def types : ResultClass V → ResultTypes V
  | object T => T
  | void T => T.toResultTypes

def Op (A : Type) : ResultClass V → Type
  | object _ => ResultOp A V
  | void _ => VoidOp A V

def run (trivial : Bool) (b : Build) (c : ResultClass V) (op : c.Op A) :
    Prog (ResultWorld A V) Unit :=
  match c, op with
  | object T, op => ResultOp.run trivial b T op
  | void T, op => VoidOp.run trivial b T op

/-- What the call is for a sum type. -/
def toResultOp (c : ResultClass V) (op : c.Op A) : ResultOp A V :=
  match c, op with
  | object _, op => op
  | void T, op => VoidOp.toResultOp T op

/-- What can be seen of a result.  On the value side of `Result<void, E>` there is only one
thing to see. -/
def seen (s : ResultBase V) : ResultClass V → Option V
  | object _ => s.data_
  | void T => if s.active_ then some T.dummy else s.data_

def shown (w : ResultWorld A V) : A → Option V := fun a => (w.mem a).bind fun s => c.seen s

end ResultClass

/-! ## The sum type -/

namespace ResultOp
variable (T : ResultTypes V) (st : A → Option V)

open Function (update)

/-- What may be called: results are constructed where there is none and used where there is
one, and what is assigned from is another object. -/
def Allowed : ResultOp A V → Prop
  | default a => st a = none
  | ofCopy a res _ | ofMove a res => st a = none ∧ st res ≠ none
  | ofValue a u | ofInPlace a u => st a = none ∧ u.OfKind T.kind st .data_
  | ofErrorCopy _ a err _ | ofErrorMove a err | ofUnexpect a err =>
      st a = none ∧ err.OfKind T.kind st .err_
  | assignCopy a res _ | assignMove a res _ => st a ≠ none ∧ st res ≠ none ∧ res ≠ a
  | assignValue a u _ => st a ≠ none ∧ u.OfKind T.kind st .data_ ∧ u.Apart a
  | emplace a u _ => st a ≠ none ∧ u.OfKind T.kind st .data_
  | destroy a => st a ≠ none

/-- What the sums are after a call that returns. -/
def after : ResultOp A V → A → Option V
  | default a => update st a T.dflt
  | ofCopy a res _ | assignCopy a res _ => update st a (st res)
  | ofMove a res | assignMove a res _ =>
      update (update st res ((st res).map (T.after .movedFrom))) a (st res)
  | ofValue a u | ofInPlace a u | ofErrorCopy _ a u _ | ofErrorMove a u | ofUnexpect a u
  | assignValue a u _ | emplace a u _ => update (u.left T.toPayload st) a (u.taken st)
  | destroy a => update st a none

/-- What they are after one that an exception leaves: no constructor throws, and the one
assignment of a payload leaves something behind on both sides. -/
def afterThrow : ResultOp A V → A → Option V
  | assignValue a u _ =>
      update (u.leftBy T.toPayload .threw st) a ((st a).map (T.after .threw))
  | _ => st

/-- What a legal call asserts, all of it true. -/
def asserts (c : ResultClass V) : ResultOp A V → List Assertion
  | assignCopy _ res _ =>
      if (st res).map c.types.kind = some .err_ then [.dbg true]
      else match c with
        | .object _ => [.dbg true]
        | .void _ => []
  | assignMove _ res _ =>
      if (st res).map c.types.kind = some .err_ then [.cxpr true]
      else match c with
        | .object _ => [.cxpr true]
        | .void _ => []
  | assignValue a _ _ =>
      if (st a).map c.types.kind = some .err_ then []
      else match c with
        | .object _ => [.dbg true, .cxpr true]
        | .void _ => []
  | _ => []

def Quiet (b : Build) (c : ResultClass V) (op : ResultOp A V) : Prop :=
  ∀ x ∈ op.asserts st c, x.aborts b = false

/-- No template takes the copy. -/
def Special : ResultOp A V → Prop
  | ofCopy _ _ isConst => T.ofResult.Special isConst
  | ofErrorCopy _ _ _ isConst => T.ofError.Special isConst
  | _ => True

/-- What is read belongs to nothing that is destroyed before. -/
def Outlives (c : ResultClass V) : ResultOp A V → Prop
  | assignCopy _ res owned | assignMove _ res owned =>
      owned = true → (st res).map c.types.kind = some .data_ ∧ ∃ T, c = .void T
  | assignValue a _ owned => owned = true → (st a).map c.types.kind = some .data_
  | emplace a args owned => owned = false ∧ args.Apart a
  | _ => True

/-- The calls that do what a sum type does. -/
structure Meant (trivial : Bool) (b : Build) (c : ResultClass V) (op : ResultOp A V) : Prop where
  compiles : op.Compiles trivial c.types
  special : op.Special c.types
  outlives : op.Outlives st c
  quiet : op.Quiet st b c

/-- What a sum type makes of a call. -/
def next (st : A → Option V) (op : ResultOp A V × Bool) : A → Option V :=
  if op.2 then op.1.afterThrow T st else op.1.after T st

end ResultOp

/-! ## Accessors -/

/-- The functions that return a reference to a member, by what they assert. -/
inductive Accessor where
  /-- `unwrap()&`, `unwrap()&&` -/
  | unwrap
  /-- `unwrap() const&`, `unwrap() const&&` -/
  | unwrapConst
  /-- `operator*()&`, `operator*()&&` -/
  | star
  /-- `operator*() const&`, `operator*() const&&` -/
  | starConst
  /-- `operator->()`, const or not -/
  | arrow
  /-- `error()&`, `error()&&` -/
  | error
  /-- `error() const&`, `error() const&&` -/
  | errorConst
  deriving DecidableEq, Repr

namespace Accessor

def member : Accessor → Member
  | unwrap | unwrapConst | star | starConst | arrow => .data_
  | error | errorConst => .err_

/-- What is asserted on the way, if `x` says whether there is a value. -/
def asserts (c : ResultClass V) (x : Bool) : Accessor → List Assertion
  | unwrap => match c with
    | .object _ => [.cxpr x]
    | .void _ => [.dbg x]
  | star => match c with
    | .object _ => [.dbg x, .cxpr x]
    | .void _ => [.dbg x]
  | starConst => match c with
    | .object _ => [.dbg x, .dbg x]
    | .void _ => [.dbg x]
  | unwrapConst | arrow => [.dbg x]
  | error => [.cxpr !x]
  | errorConst => [.dbg !x]

/-- The accessor; `Result<void, E>` has no `operator->`, and one `operator*`. -/
def run (b : Build) (c : ResultClass V) (a : A) : Accessor → Prog (ResultWorld A V) Unit
  | unwrap => match c with
    | .object _ => Result.unwrap b a
    | .void _ => ResultVoid.unwrap b a
  | unwrapConst => match c with
    | .object _ => Result.unwrapConst b a
    | .void _ => ResultVoid.unwrap b a
  | star => match c with
    | .object _ => Result.star b a
    | .void _ => ResultVoid.unwrap b a
  | starConst => match c with
    | .object _ => Result.starConst b a
    | .void _ => ResultVoid.unwrap b a
  | arrow => Result.arrow b a
  | error => Result.error b a
  | errorConst => Result.errorConst b a

/-- What is read through the reference. -/
def read (b : Build) (c : ResultClass V) (a : A) (x : Accessor) : Prog (ResultWorld A V) V := do
  x.run b c a
  deref c.types.toPayload a x.member

end Accessor

/-! ## What a run should show -/

section
variable (trivial : Bool) (b : Build) (c : ResultClass V)

/-- One call that returns, or that an exception of the payload leaves. -/
def sumStep (w : ResultWorld A V) (op : c.Op A × Bool) (w' : ResultWorld A V) : Prop :=
  (c.toResultOp op.1).Allowed c.types (c.shown w) ∧
    c.run trivial b op.1 w = if op.2 then .error .exception w' else .ok () w'

end

end

end EflCore
