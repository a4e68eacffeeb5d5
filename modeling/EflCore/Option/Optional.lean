/-
# `EflCore.Option.Optional` — the C++11/14 `Option` as a `std::optional`

From C++17 on `Option` is a wrapper around `std::optional`; before that it is the class of
`EflCore.Option.Cxx14`, and nobody who uses it is to notice.  What can be noticed of a pool
of options is which are there, which are engaged, and with what (`shown`).  What
`std::optional` makes of that is written down call by call, for a call that returns
(`OptionOp.after`) and for one that an exception of the payload leaves
(`OptionOp.afterThrow`).

    a = O                 update st a (st O)
    a = std::move(O)      the same, and the payload of O is moved from
    a.swap(O)             a has what O had, and O what a had
    a.emplace(x)          update st a (some x)

`Shows w st` says that the options of `w` look like `st`.  Every call keeps the two
together (`Shows.follows`), whichever base the payload's destructor selects, and
so does every run (`option_refines_optional`): as long as the assertions on the way let
true conditions pass, which those of one dialect do not, and no template that takes a `U&&`
is a better match for a copy (`OptionOp.Special`).
-/
import EflCore.Checked
import EflCore.Option.Lifetime

namespace EflCore

open Lifetime
open OptionBase (setActive)

section
variable {A V : Type} [DecidableEq A]

/-! ## `std::optional` -/

/-- A pool of `std::optional`s: which are there, and what each of them contains. -/
abbrev Optionals (A V : Type) : Type := A → Option (Option V)

namespace Optionals
variable (P : Payload V Unit) (st : Optionals A V)

/-- What the engaged ones contain. -/
def payloads : A → Option V := fun a => (st a).join

/-- The payload's code leaves something else in `b`, if anything is there. -/
def touch (t : Touch) (b : A) : Optionals A V :=
  Function.update st b ((st b).map (Option.map (P.after t)))

/-- What reading an argument leaves. -/
def read (t : Touch) : Source A V → Optionals A V
  | .value _ | .copy _ _ => st
  | .move b _ => st.touch P t b

end Optionals

namespace OptionOp
variable (P : Payload V Unit) (st : Optionals A V)

open Function (update)

/-- What may be called: optionals are constructed where there is none and used where there is
one, arguments are there to be read, and `emplace` takes them from elsewhere. -/
def Allowed : OptionOp A V → Prop
  | ofNull a => st a = none
  | ofValue a u | ofInPlace a u | ofInPlaceList a u =>
      st a = none ∧ u.taken st.payloads ≠ none
  | ofCopy a O _ | ofMove a O | ofConvertCopy a O _ _ | ofConvertMove a O _ =>
      st a = none ∧ st O ≠ none
  | assignNull a | reset a | destroy a => st a ≠ none
  | assignValue a u => st a ≠ none ∧ u.taken st.payloads ≠ none ∧ u.Plain a
  | assignCopy a O _ | assignMove a O | swap a O => st a ≠ none ∧ st O ≠ none
  | emplace a args => st a ≠ none ∧ args.taken st.payloads ≠ none ∧ args.Apart a

/-- What the optionals are after a call that returns. -/
def after : OptionOp A V → Optionals A V
  | ofNull a | assignNull a | reset a => update st a (some none)
  | ofValue a u | ofInPlace a u | ofInPlaceList a u | assignValue a u | emplace a u =>
      update (st.read P .movedFrom u) a (some (u.taken st.payloads))
  | ofCopy a O _ | assignCopy a O _ => update st a (st O)
  | ofMove a O | assignMove a O => update (st.touch P .movedFrom O) a (st O)
  | ofConvertCopy a O f _ => update st a ((st O).map (Option.map f))
  | ofConvertMove a O f => update (st.touch P .movedFrom O) a ((st O).map (Option.map f))
  | swap a O => update (update st a (st O)) O (st a)
  | destroy a => update st a none

/-- What they are after one that an exception leaves: a constructor has made nothing, an
assignment something. -/
def afterThrow : OptionOp A V → Optionals A V
  | ofValue _ u | ofInPlace _ u | ofInPlaceList _ u => st.read P .threw u
  | assignCopy a _ _ => st.touch P .threw a
  | assignValue a u =>
      update (st.read P .threw u) a ((st a).map (Option.map (P.after .threw)))
  | emplace a u => update (st.read P .threw u) a (some none)
  | swap a O =>
      update (st.touch P .threw a) O ((st O).map (Option.map (P.after .threw)))
  | _ => st

def isNoexcept : OptionOp A V → Bool
  | ofNull _ | ofMove _ _ | ofConvertMove _ _ _ | assignNull _ | assignMove _ _ | reset _ => true
  | _ => false

end OptionOp

/-- Assigning a payload to itself or swapping it with itself changes nothing. -/
structure SelfKeeps (P : Payload V Unit) : Prop where
  assigned : ∀ v, P.after .selfAssigned v = v
  moved : ∀ v, P.after .selfMoved v = v
  swapped : ∀ v, P.after .selfSwapped v = v

/-! ## Assertions on the way

Whatever a legal call asserts is true; the macros may still abort. -/

def starAsserts : List Assertion := [.dbg true, .cxpr true]

def starConstAsserts : List Assertion := [.dbg true, .dbg true]

namespace OptionOp
variable (b : Build) (st : Optionals A V)

/-- What a legal call asserts. -/
def asserts : OptionOp A V → List Assertion
  | ofCopy _ O _ | ofConvertCopy _ O _ _ => if (st.payloads O).isSome then starConstAsserts else []
  | ofMove _ O | ofConvertMove _ O _ => if (st.payloads O).isSome then starAsserts else []
  | assignCopy a O _ =>
      if (st.payloads O).isSome then
        if (st.payloads a).isSome then .cxpr true :: starConstAsserts
        else starConstAsserts ++ [.dbg true]
      else []
  | assignMove a O =>
      if (st.payloads O).isSome then
        if (st.payloads a).isSome then .cxpr true :: starAsserts
        else starAsserts ++ [.dbg true]
      else []
  | assignValue a _ => if (st.payloads a).isSome then [.cxpr true] else [.dbg true]
  | emplace _ _ => [.dbg true]
  | swap a O =>
      if (st.payloads a).isSome && (st.payloads O).isSome then starAsserts ++ starAsserts
      else if (st.payloads a).isSome || (st.payloads O).isSome then starAsserts ++ [.dbg true]
      else []
  | _ => []

def Quiet (op : OptionOp A V) : Prop := ∀ c ∈ op.asserts st, c.aborts b = false

/-- No option is copied by a template that takes a `U&&`. -/
def Special (T : OptionTraits V) : OptionOp A V → Prop
  | ofCopy _ _ isConst => T.ofSame.Special isConst
  | ofConvertCopy _ _ _ isConst => T.ofOther.Special isConst
  | assignCopy _ _ isConst => T.assignSame.Special isConst
  | _ => True

/-- The call is made of the member that is meant, and nothing it asserts aborts. -/
def Meant (T : OptionTraits V) (op : OptionOp A V) : Prop := op.Special T ∧ op.Quiet b st

end OptionOp

/-! ## What the options show -/

def shown (w : OptionWorld A V) : Optionals A V := fun a => (w.mem a).map OptionBase.shown

/-- The options of `w` look like `st`, what an active one shows is there, and the payload's
code is going to reply `r`. -/
structure Shows (w : OptionWorld A V) (st : Optionals A V) (r : Nat → Reply) : Prop where
  full : ∀ a s, w.mem a = some s → s.active_ = true → s.data_ ≠ none
  shown : shown w = st
  replies : w.replies = r

section
variable (trivial : Bool) (b : Build) (P : Payload V Unit) (T : OptionTraits V)

/-- One call that returns, or that an exception of the payload leaves. -/
def optionalStep (w : OptionWorld A V) (c : OptionOp A V × Bool) (w' : OptionWorld A V) : Prop :=
  c.1.Allowed (shown w) ∧
    c.1.run trivial b P T w = if c.2 then .error .exception w' else .ok () w'

/-- What `std::optional` makes of it. -/
def OptionOp.next (st : Optionals A V) (c : OptionOp A V × Bool) : Optionals A V :=
  if c.2 then c.1.afterThrow P st else c.1.after P st

/-- How a call that does not return may stop: the payload's code has thrown. -/
def OptionOp.Stopped (st : Optionals A V) (r : Nat → Reply) (op : OptionOp A V) :
    Stop → OptionWorld A V → Prop
  | .exception, w' => (r 0).throws = true ∧ ∃ r', Shows w' (op.afterThrow P st) r'
  | .terminated, _ => (r 0).throws = true ∧ op.isNoexcept = true
  | .aborted, _ | .undefined, _ => False

end

end

end EflCore
