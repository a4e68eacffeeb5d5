/-
# `EflCore.Result` — a value or an error, and the lives of both

`Result.hpp` and the non-trivial half of `Result/Base.hpp`.  A result is a union of a
`T` and an `E` and a flag (`active_`) that names the member in it; one of the two is
always there, so there is no empty state to fall back on.

    ResultStorage()         constructs data_
    ResultBase()            ResultStorage(), then active_ = true
    Result(const Result&)   ResultBase(), active_ = res.active_, construct that member
    initialize_data         destroy what active_ names, construct data_, active_ = true
    initialize_err          destroy what active_ names, construct err_, active_ = false

The third line is the odd one.  A copying or moving constructor names no base in its
initializer list, so the base is default constructed and `data_` is alive when the
body runs; `initialize_data` and `initialize_err` clear the union first, the body of
a constructor does not.

There are two bases; in that for a trivially destructible `T` and `E` (`trivial`) `destroy` does
nothing, and the union is simply written over.  In the other one `destroy` passes `&data_.data_` or
`&data_.err_` to the destructor, and what that is a type with an `operator&` of its own decides
(`ownAddress`).

An argument may belong to the member that is destroyed first, as a node of a list belongs to the
node before it (`owned`).  It has ended then, when it is to be read.  Otherwise a result that some
member owns dies with it in a step of its own.

The conditional `noexcept`s are left out where they name the constructor that runs,
since they then forbid only what cannot happen.

**Proved here.**  With no constructor throwing, after a run the log is good and names
the member `active_` names, and every object of a result that is gone was destroyed
once, exactly when no step of the run was a copying or a moving construction, destroyed a member
through another address, or read what it had destroyed
(`result_run_sound_iff` in `EflCore.Result.Lifetime`).
-/
import EflCore.Builtins
import EflCore.Forwarded
import EflCore.Lifetime.Object

namespace EflCore

open Lifetime

/-- The members of `ResultStorage`. -/
inductive Member where
  | data_
  | err_
  deriving DecidableEq, Repr

/-- The member that `active_` names. -/
def memberOf : Bool → Member
  | true => .data_
  | false => .err_

structure ResultBase (V : Type) where
  data_ : Option V
  active_ : Bool
  deriving DecidableEq

instance {V : Type} : Holder (ResultBase V) V where
  cell := ResultBase.data_
  setCell s c := { s with data_ := c }
  cell_setCell _ _ := rfl
  setCell_setCell _ _ _ := rfl

/-- `T` and `E`. -/
structure ResultTypes (V : Type) extends Payload V Member where
  /-- `T()`, if there is one -/
  dflt : Option V
  kind_dflt : ∀ v, dflt = some v → kind v = .data_
  /-- `&m` is the address of the member `m` -/
  ownAddress : Member → Bool
  /-- what `Result(U&&)` makes of a result, and of an `Error` -/
  ofResult : Forwarded V
  ofError : Forwarded V
  kind_made : ∀ f, ofResult = .converts f ∨ ofError = .converts f → ∀ c, kind (f c) = .data_

abbrev ResultWorld (A V : Type) : Type := World A (ResultBase V) Member

section
variable {A V : Type} [DecidableEq A] (trivial : Bool) (b : Build) (T : ResultTypes V)

/-! ## `ResultBase` -/

namespace ResultBase

def setActive (a : A) (x : Bool) : Prog (ResultWorld A V) Unit :=
  perform [] a fun s => { s with active_ := x }

/-- `ResultBase()`: `ResultStorage()` is `noexcept`.  Where `T` has no default constructor it
does not compile. -/
def ctor (a : A) : Prog (ResultWorld A V) Unit :=
  match T.dflt with
  | none => throw .undefined
  | some v => do
      acquire a ⟨none, false⟩
      Prog.noexcept (constructFrom T.toPayload a .data_ (.value v))
      setActive a true

/-- The member `x` names is built, and `active_(x)`. -/
def ctorFrom (x : Bool) (a : A) (tt : Source A V) : Prog (ResultWorld A V) Unit := do
  acquire a ⟨none, false⟩
  (constructFrom T.toPayload a (memberOf x) tt).unwinding (release a)
  setActive a x

def ctorInPlace (a : A) (tt : Source A V) : Prog (ResultWorld A V) Unit := ctorFrom T true a tt

def ctorUnexpect (a : A) (tt : Source A V) : Prog (ResultWorld A V) Unit := ctorFrom T false a tt

/-- `xx11::destruct(&data_.data_)` and `xx11::destruct(&data_.err_)`. -/
def destruct (a : A) (m : Member) : Prog (ResultWorld A V) Unit :=
  if T.ownAddress m then Lifetime.destroy a m else pure ()

def destroy (a : A) : Prog (ResultWorld A V) Unit :=
  if trivial then
    pure ()
  else do
    if (← load a).active_ then
      destruct T a .data_
    else
      destruct T a .err_

def dtor (a : A) : Prog (ResultWorld A V) Unit := destroy trivial T a

end ResultBase

/-! ## `Result`

A function that returns a reference to a member is what it asserts on the way. -/

namespace Result

open ResultBase (setActive)

def hasValue (a : A) : Prog (ResultWorld A V) Bool := do
  pure (← load a).active_

def clear (a : A) : Prog (ResultWorld A V) Unit := ResultBase.destroy trivial T a

/-- What `initialize_data` and `initialize_err` have in common.  A constructor that is called on
the storage ends what still is in it. -/
def initialize_ (x : Bool) (a : A) (args : Source A V) (owned : Bool) :
    Prog (ResultWorld A V) Unit := do
  let held := (← load a).data_.isSome
  clear trivial T a
  let destroyed := held && (← load a).data_.isNone
  if owned && (trivial || destroyed) then throw .undefined
  perform [] a fun s => { s with data_ := none }
  constructFrom T.toPayload a (memberOf x) args
  setActive a x

def initialize_data (a : A) (args : Source A V) (owned : Bool) : Prog (ResultWorld A V) Unit :=
  initialize_ trivial T true a args owned

def initialize_err (a : A) (args : Source A V) (owned : Bool) : Prog (ResultWorld A V) Unit :=
  initialize_ trivial T false a args owned

/-- `unwrap()&` and `unwrap()&&`. -/
def unwrap (a : A) : Prog (ResultWorld A V) Unit := do
  Prog.abortIf (cxprAssert b (← hasValue a))

/-- `unwrap() const&`. -/
def unwrapConst (a : A) : Prog (ResultWorld A V) Unit := do
  Prog.abortIf (dbgAssert b (← hasValue a))

/-- `operator*()&`. -/
def star (a : A) : Prog (ResultWorld A V) Unit := do
  Prog.abortIf (dbgAssert b (← hasValue a))
  unwrap b a

/-- `error()&` and `error()&&`. -/
def error (a : A) : Prog (ResultWorld A V) Unit := do
  Prog.abortIf (cxprAssert b (!(← hasValue a)))

/-- `error() const&`. -/
def errorConst (a : A) : Prog (ResultWorld A V) Unit := do
  Prog.abortIf (dbgAssert b (!(← hasValue a)))

def ctor (a : A) : Prog (ResultWorld A V) Unit := ResultBase.ctor T a

/-- What is left of a result whose constructor body throws, and `~Result()`. -/
def unwind (a : A) : Prog (ResultWorld A V) Unit := do
  ResultBase.dtor trivial T a
  release a

/-- The body of the copying and the moving constructors; `arg` is how they pass on the
member of `res`. -/
def ctorBody (a res : A) (arg : Source A V) : Prog (ResultWorld A V) Unit := do
  setActive a (← hasValue res)
  if (← hasValue res) then
    constructFrom T.toPayload a .data_ arg
  else
    constructFrom T.toPayload a .err_ arg

def ofCopy (a res : A) : Prog (ResultWorld A V) Unit := do
  ResultBase.ctor T a
  (ctorBody T a res (.copy res id)).unwinding (unwind trivial T a)

def ofMove (a res : A) : Prog (ResultWorld A V) Unit :=
  Prog.noexcept do
    ResultBase.ctor T a
    (ctorBody T a res (.move res id)).unwinding (unwind trivial T a)

/-- `Result(U&& u)`. -/
def ofValue (a : A) (u : Source A V) : Prog (ResultWorld A V) Unit := ResultBase.ctorInPlace T a u

/-- `Result(const Error<Err>&)`: `noexcept` if an `Err` is copied without throwing,
whatever making an `E` of it does. -/
def ofErrorCopy (nothrowCopy : Bool) (a : A) (err : Source A V) : Prog (ResultWorld A V) Unit :=
  if nothrowCopy then
    Prog.noexcept (ResultBase.ctorUnexpect T a err)
  else
    ResultBase.ctorUnexpect T a err

/-- `Result(Error<Err>&&)`. -/
def ofErrorMove (a : A) (err : Source A V) : Prog (ResultWorld A V) Unit :=
  Prog.noexcept (ResultBase.ctorUnexpect T a err)

def ofInPlace (a : A) (args : Source A V) : Prog (ResultWorld A V) Unit :=
  ResultBase.ctorInPlace T a args

/-- `Result(unexpect_t, Args&&...)`. -/
def ofUnexpect (a : A) (args : Source A V) : Prog (ResultWorld A V) Unit :=
  ResultBase.ctorUnexpect T a args

def assignCopy (a res : A) (owned : Bool) : Prog (ResultWorld A V) Unit := do
  if (← hasValue res) then
    unwrapConst b res
    initialize_data trivial T a (.copy res id) owned
  else
    errorConst b res
    initialize_err trivial T a (.copy res id) owned

def assignMove (a res : A) (owned : Bool) : Prog (ResultWorld A V) Unit :=
  Prog.noexcept do
    if (← hasValue res) then
      unwrap b res
      initialize_data trivial T a (.move res id) owned
    else
      error b res
      initialize_err trivial T a (.move res id) owned

/-- `operator=(U&&)`. -/
def assignValue (a : A) (u : Source A V) (owned : Bool) : Prog (ResultWorld A V) Unit := do
  if (← hasValue a) then
    star b a
    assignFrom T.toPayload a .data_ u
  else
    initialize_data trivial T a u owned

def emplace (a : A) (args : Source A V) (owned : Bool) : Prog (ResultWorld A V) Unit :=
  Prog.noexcept (initialize_data trivial T a args owned)

def dtor (a : A) : Prog (ResultWorld A V) Unit := unwind trivial T a

/-! ### A result as a `U&&` -/

/-- What `T` sees of the result at `res`. -/
def look (res : A) : Prog (ResultWorld A V) (Option V) := do
  pure (← load res).data_

/-- What it sees of an `Error`. -/
def lookError : Source A V → Prog (ResultWorld A V) (Option V)
  | .value v => pure (some v)
  | .copy src f | .move src f => do pure (some (f (← deref T.toPayload src .err_)))

end Result

/-! ## Runs

An argument is a value from outside the results, or a member of one of them, and it may belong to
what the result holds (`owned`).  A result or an `Error` that is copied is a const lvalue, or it is
not. -/

inductive ResultOp (A V : Type) where
  | default (a : A)
  | ofCopy (a res : A) (isConst : Bool)
  | ofMove (a res : A)
  | ofValue (a : A) (u : Source A V)
  | ofErrorCopy (nothrowCopy : Bool) (a : A) (err : Source A V) (isConst : Bool)
  | ofErrorMove (a : A) (err : Source A V)
  | ofInPlace (a : A) (args : Source A V)
  | ofUnexpect (a : A) (args : Source A V)
  | assignCopy (a res : A) (owned : Bool)
  | assignMove (a res : A) (owned : Bool)
  | assignValue (a : A) (u : Source A V) (owned : Bool)
  | emplace (a : A) (args : Source A V) (owned : Bool)
  | destroy (a : A)

namespace ResultOp

def run : ResultOp A V → Prog (ResultWorld A V) Unit
  | default a => Result.ctor T a
  | ofCopy a res isConst =>
      T.ofResult.copy isConst (Result.look res) (Result.ofCopy trivial T a res)
        fun v => Result.ofValue T a (.value v)
  | ofMove a res => Result.ofMove trivial T a res
  | ofValue a u => Result.ofValue T a u
  | ofErrorCopy nothrowCopy a err isConst =>
      T.ofError.copy isConst (Result.lookError T err) (Result.ofErrorCopy T nothrowCopy a err)
        fun v => Result.ofValue T a (.value v)
  | ofErrorMove a err => Result.ofErrorMove T a err
  | ofInPlace a args => Result.ofInPlace T a args
  | ofUnexpect a args => Result.ofUnexpect T a args
  | assignCopy a res owned => Result.assignCopy trivial b T a res owned
  | assignMove a res owned => Result.assignMove trivial b T a res owned
  | assignValue a u owned => Result.assignValue trivial b T a u owned
  | emplace a args owned => Result.emplace trivial T a args owned
  | destroy a => Result.dtor trivial T a

/-- The base is default constructed. -/
def CallsDefault : ResultOp A V → Prop
  | default _ | ofMove _ _ => True
  | ofCopy _ _ isConst => T.ofResult.Special isConst
  | _ => False

/-- The class compiles, and the call does.  The default constructor of the storage that is not
trivial asks whether `T` has one as soon as the class is used. -/
def Compiles (op : ResultOp A V) : Prop :=
  (trivial = false ∨ op.CallsDefault T → T.dflt ≠ none) ∧
    match op with
    | ofCopy _ _ isConst => T.ofResult.Compiles isConst
    | ofErrorCopy _ _ _ isConst => T.ofError.Compiles isConst
    | _ => True

/-- Results are constructed where there is none and used where there is one, no result is assigned
to itself, and arguments are there to be read. -/
def Legal (w : ResultWorld A V) : ResultOp A V → Prop
  | default a => w.mem a = none
  | ofCopy a res _ | ofMove a res => w.mem a = none ∧ w.mem res ≠ none
  | ofValue a u | ofInPlace a u => w.mem a = none ∧ u.Readable T.toPayload w .data_
  | ofErrorCopy _ a err _ | ofErrorMove a err | ofUnexpect a err =>
      w.mem a = none ∧ err.Readable T.toPayload w .err_
  | assignCopy a res _ | assignMove a res _ => w.mem a ≠ none ∧ w.mem res ≠ none ∧ res ≠ a
  | assignValue a u _ | emplace a u _ => w.mem a ≠ none ∧ u.Readable T.toPayload w .data_
  | destroy a => w.mem a ≠ none

/-- The destructor of the member at `a` runs on that member. -/
def Reaches (w : ResultWorld A V) (a : A) : Prop :=
  ∀ s, w.mem a = some s → T.ownAddress (memberOf s.active_) = true

/-- Not a copy or a move by the special member, and what is destroyed is the member, and nothing
that is still to be read. -/
def Clean (w : ResultWorld A V) : ResultOp A V → Prop
  | ofCopy _ _ isConst => ¬ T.ofResult.Special isConst
  | ofMove _ _ => False
  | assignCopy a _ owned | assignMove a _ owned => owned = false ∧ Reaches T w a
  | assignValue a _ owned =>
      ∀ s, w.mem a = some s → s.active_ = false → owned = false ∧ Reaches T w a
  | emplace a args owned => owned = false ∧ args.Apart a ∧ Reaches T w a
  | destroy a => Reaches T w a
  | _ => True

end ResultOp

/-- The calls of a run, on the base that is not trivial; an exception that leaves one does not end
the run. -/
def resultStep : Option (ResultWorld A V) → ResultOp A V → Option (ResultWorld A V) → Prop :=
  going (fun w op => op.Compiles false T ∧ op.Legal T w) (ResultOp.run false b T)

/-- What a run should keep. -/
structure ResultSound (w : ResultWorld A V) : Prop where
  tracks : ∃ φ, monitor start w.log = some φ ∧
    ∀ a, φ a = (w.mem a).elim .absent fun s => .live (memberOf s.active_)
  once : ∀ a, w.mem a = none → DestroyedOnce a w.log

end
end EflCore
