/-
# `EflCore.Traits.Invoke` — a pointer to member, and what it is applied to

`Traits/Invoke.hpp`.  `H::invoke(mp, u, args...)` with a pointer to member of `Base` goes by two
questions, both asked when it is compiled.  The first is whether the argument is a `Base`, which
chooses the class template, and the second whether the member can be called, which chooses
between the two overloads in it.

                           member is called           member is read
    u is a Base            (u.*mp)(args...)           (*u).*mp
    u is something else    ((*u).*mp)(args...)        (*u).*mp

One of the four is not like its neighbours: a data member of `u` is looked for in `*u`.  What the
table does not show is that the overloads take `u` by value if it is an rvalue, so that `u` is
an object of its own there, and that the overload that reads returns a `Ret`, which is none if
`Ret` is an array.  It is not viable for a function either, whether or not the call is.

Whether the argument is a `Base` is the trait `is_base_of`, which says of no union that it is its
own base.

**Proved here**, for whatever the program's classes, conversions and operators are.  The member
of the right object is taken exactly under the conditions of `Reaches` (`invoke_right_iff`).
-/
import Mathlib.Init
import Mathlib.Tactic.Basic

namespace EflCore

/-! ## Expressions and members -/

inductive ValueCategory where
  | lvalue
  | rvalue
  deriving DecidableEq, Repr

/-- A glvalue: its type, which may be qualified, and the object it refers to. -/
structure ObjectExpr (T O : Type) where
  type : T
  category : ValueCategory
  object : O
  deriving DecidableEq, Repr

/-- What the program says of its classes `C`, types `T` and objects `O`. -/
structure ObjectModel (C T O : Type) where
  -- the type, decayed, is the class or derived from it
  isDerived : C → T → Bool
  isUnion : C → Bool
  -- the type and category of `*e`, where that is well-formed
  starType : T → ValueCategory → Option (T × ValueCategory)
  starObject : T → ValueCategory → O → O
  isMoveConstructible : T → Bool
  -- where a by-value parameter is when it is constructed from the object
  parameter : O → O
  parameter_ne : ∀ o, parameter o ≠ o

/-- What `Ret` is in a `Ret Base::*`. -/
inductive MemberKind where
  | function
  | object
  | array
  deriving DecidableEq, Repr

/-- A `Ret Base::*`, and what is well-formed with it; `X` are the arguments. -/
structure MemberPtr (C T X : Type) where
  Base : C
  kind : MemberKind
  -- `(e.*mp)(args...)`
  calls : T → ValueCategory → List X → Bool
  -- `e.*mp`
  accesses : T → ValueCategory → Bool
  -- `is_invokable<Ret, Args...>`
  isInvokable : List X → Bool
  -- a `Ret` can be initialised with `e.*mp`
  returns : T → ValueCategory → Bool

/-- The object a member pointer is applied to, and how. -/
inductive Applied (O X : Type) where
  | call (object : O) (args : List X)
  | read (object : O)
  deriving DecidableEq, Repr

section
variable {C T O X : Type}

/-! ## The source -/

/-- A call of two overloads; the second is only looked into if it is called. -/
def callOverload {R : Type} (first : Option R) (isViable : Bool) (second : Option R) : Option R :=
  match first, isViable with
  | some r, false => some r
  | none, true => second
  | some _, true | none, false => none

namespace ObjectModel
variable (P : ObjectModel C T O)

/-- `*e`. -/
def star (e : ObjectExpr T O) : Option (ObjectExpr T O) :=
  (P.starType e.type e.category).map fun (type, category) =>
    ⟨type, category, P.starObject e.type e.category e.object⟩

/-- `cxpr_forward<U>(u)` of the parameter `U u`: a reference for an lvalue. -/
def forwarded (u : ObjectExpr T O) : Option (ObjectExpr T O) :=
  match u.category with
  | .lvalue => some u
  | .rvalue =>
      if P.isMoveConstructible u.type then some { u with object := P.parameter u.object } else none

/-- `std::is_base_of<Base, decay_t<U>>`. -/
def isBaseOf (Base : C) (U : T) : Bool := P.isDerived Base U && !P.isUnion Base

end ObjectModel

namespace MPInvokeHelper

/-- `((b).*mp)(args...)`, if it is well-formed. -/
def memPtrInv (b : ObjectExpr T O) (mp : MemberPtr C T X) (args : List X) : Option (Applied O X) :=
  if mp.calls b.type b.category args then some (.call b.object args) else none

/-- The second overload can be declared: its return type is `Ret`, if `Ret` is not invokable. -/
def returnsRet (mp : MemberPtr C T X) (args : List X) : Bool :=
  !mp.isInvokable args && decide (mp.kind = .object)

/-- `return (b.*mp);` -/
def readMember (b : ObjectExpr T O) (mp : MemberPtr C T X) : Option (Applied O X) :=
  if mp.accesses b.type b.category && mp.returns b.type b.category then some (.read b.object)
  else none

variable (P : ObjectModel C T O) (mp : MemberPtr C T X) (u : ObjectExpr T O) (args : List X)

/-- `MPInvokeHelper<Base, U, true>`. -/
def upcast : Option (Applied O X) := do
  let u ← P.forwarded u
  callOverload (memPtrInv u mp args) (returnsRet mp args)
    (do readMember (← P.star u) mp)

/-- `MPInvokeHelper<Base, U, false>`. -/
def wrapper : Option (Applied O X) := do
  let u ← P.forwarded u
  callOverload (do memPtrInv (← P.star u) mp args) (returnsRet mp args)
    (do readMember (← P.star u) mp)

end MPInvokeHelper

/-- `H::invoke(mp, u, args...)`. -/
def invoke (P : ObjectModel C T O) (mp : MemberPtr C T X) (u : ObjectExpr T O) (args : List X) :
    Option (Applied O X) :=
  if P.isBaseOf mp.Base u.type then MPInvokeHelper.upcast P mp u args
  else MPInvokeHelper.wrapper P mp u args

/-! ## What is asked for -/

/-- What `mp` is to be applied to: `u` if it is a `Base` or derived from it, `*u` otherwise. -/
def ObjectModel.target (P : ObjectModel C T O) (mp : MemberPtr C T X) (u : ObjectExpr T O) :
    Option (ObjectExpr T O) :=
  if P.isDerived mp.Base u.type then some u else P.star u

/-- `mp` applied to an object. -/
def MemberPtr.apply (mp : MemberPtr C T X) (o : O) (args : List X) : Applied O X :=
  match mp.kind with
  | .function => .call o args
  | .object | .array => .read o

/-- The arguments are admitted by `mp`, with `e` to apply it to: the call is well-formed, or the
member is one that cannot be called and is read. -/
structure Admitted (P : ObjectModel C T O) (mp : MemberPtr C T X) (u : ObjectExpr T O)
    (args : List X) (e : ObjectExpr T O) : Prop where
  target : P.target mp u = some e
  called : mp.kind = .function → mp.calls e.type e.category args = true
  read : mp.kind ≠ .function → args = [] ∧ mp.accesses e.type e.category = true
  notCallable : mp.kind ≠ .function →
    (∀ type category args, mp.calls type category args = false) ∧
    ∀ args, mp.isInvokable args = false

/-- `*` of what the overloads have for `u` is `e`, and does what is asked for. -/
def ReachedByStar (P : ObjectModel C T O) (mp : MemberPtr C T X) (u : ObjectExpr T O)
    (args : List X) (e : ObjectExpr T O) : Prop :=
  ∃ p b, P.forwarded u = some p ∧ P.star p = some b ∧ b.object = e.object ∧
    match mp.kind with
    | .function => mp.calls b.type b.category args = true
    | .object => mp.accesses b.type b.category = true ∧ mp.returns b.type b.category = true
    | .array => False

/-- A function is found in an lvalue that is a `Base`; all else is looked for behind `*`. -/
def Reaches (P : ObjectModel C T O) (mp : MemberPtr C T X) (u : ObjectExpr T O) (args : List X)
    (e : ObjectExpr T O) : Prop :=
  if mp.kind = .function ∧ P.isBaseOf mp.Base u.type = true then u.category = .lvalue
  else ReachedByStar P mp u args e

/-! ## Which overload is called -/

variable {P : ObjectModel C T O} {mp : MemberPtr C T X} {u e b : ObjectExpr T O} {args : List X}

@[simp] theorem callOverload_false {R : Type} (first second : Option R) :
    callOverload first false second = first := by
  cases first <;> rfl

@[simp] theorem callOverload_none {R : Type} (isViable : Bool) (second : Option R) :
    callOverload none isViable second = if isViable then second else none := by
  cases isViable <;> rfl

namespace MPInvokeHelper

/-- No function returns a function. -/
theorem returnsRet_function (hkind : mp.kind = .function) : returnsRet mp args = false := by
  rw [returnsRet, hkind]
  exact Bool.and_false _

theorem memPtrInv_eq_none (hcalls : ∀ type category args, mp.calls type category args = false) :
    memPtrInv b mp args = none := by
  rw [memPtrInv, hcalls]
  rfl

theorem memPtrInv_eq_some {r : Applied O X} :
    memPtrInv b mp args = some r ↔
      mp.calls b.type b.category args = true ∧ r = .call b.object args := by
  unfold memPtrInv
  split
  next hcalls => simp [hcalls, eq_comm]
  next hcalls => simp [hcalls]

theorem readMember_eq_some {r : Applied O X} :
    readMember b mp = some r ↔
      (mp.accesses b.type b.category = true ∧ mp.returns b.type b.category = true) ∧
        r = .read b.object := by
  rw [← Bool.and_eq_true]
  unfold readMember
  split
  next hread => simp [hread, eq_comm]
  next hread => simp [hread]

/-- The specialisation does what is asked for if `*` leads to the object. -/
theorem wrapper_function_iff (hkind : mp.kind = .function) :
    wrapper P mp u args = some (.call e.object args) ↔ ReachedByStar P mp u args e := by
  simp only [wrapper, returnsRet_function hkind, callOverload_false, Option.bind_eq_bind,
    Option.bind_eq_some_iff, memPtrInv_eq_some, Applied.call.injEq, and_true, ReachedByStar, hkind]
  constructor
  · rintro ⟨p, hp, b, hb, hcalls, hobject⟩
    exact ⟨p, b, hp, hb, hobject.symm, hcalls⟩
  · rintro ⟨p, b, hp, hb, hobject, hcalls⟩
    exact ⟨p, hp, b, hb, hcalls, hobject.symm⟩

/-- What cannot be called is read, and by both class templates behind `*`. -/
theorem read_iff {helper : ObjectModel C T O → MemberPtr C T X → ObjectExpr T O → List X →
      Option (Applied O X)} (hhelper : helper = upcast ∨ helper = wrapper)
    (hkind : mp.kind ≠ .function)
    (hcalls : ∀ type category args, mp.calls type category args = false)
    (hinvokable : ∀ args, mp.isInvokable args = false) :
    helper P mp u args = some (.read e.object) ↔ ReachedByStar P mp u args e := by
  have hnone : ∀ b : ObjectExpr T O, memPtrInv b mp args = none :=
    fun b => memPtrInv_eq_none hcalls
  have hoverload : helper P mp u args = (P.forwarded u).bind fun p =>
      if mp.kind = .object then (P.star p).bind fun b => readMember b mp else none := by
    rcases hhelper with rfl | rfl
    · simp [upcast, hnone, returnsRet, hinvokable]
    · simp [wrapper, hnone, returnsRet, hinvokable]
  rw [hoverload]
  cases hk : mp.kind with
  | function => exact absurd hk hkind
  | array => simp [ReachedByStar, hk]
  | object =>
      simp only [if_true, Option.bind_eq_some_iff, readMember_eq_some, Applied.read.injEq,
        ReachedByStar, hk]
      constructor
      · rintro ⟨p, hp, b, hb, hread, hobject⟩
        exact ⟨p, b, hp, hb, hobject.symm, hread⟩
      · rintro ⟨p, b, hp, hb, hobject, hread⟩
        exact ⟨p, hp, b, hb, hread, hobject.symm⟩

/-- The parameter is `u` itself exactly if it is a reference. -/
theorem upcast_function_iff (hkind : mp.kind = .function)
    (hcalls : mp.calls u.type u.category args = true) :
    upcast P mp u args = some (.call u.object args) ↔ u.category = .lvalue := by
  simp only [upcast, returnsRet_function hkind, callOverload_false, Option.bind_eq_bind,
    Option.bind_eq_some_iff, memPtrInv_eq_some, Applied.call.injEq, and_true]
  cases hcat : u.category with
  | lvalue =>
      have hself : P.forwarded u = some u := by rw [ObjectModel.forwarded, hcat]
      exact iff_of_true ⟨u, hself, hcalls, rfl⟩ rfl
  | rvalue =>
      refine iff_of_false ?_ (by decide)
      rintro ⟨p, hp, -, hobject⟩
      simp only [ObjectModel.forwarded, hcat] at hp
      split at hp
      · cases hp
        exact P.parameter_ne u.object hobject.symm
      · cases hp

end MPInvokeHelper

open MPInvokeHelper

theorem MemberPtr.apply_function (hkind : mp.kind = .function) (o : O) :
    mp.apply o args = .call o args := by
  rw [MemberPtr.apply, hkind]

theorem MemberPtr.apply_member (hkind : mp.kind ≠ .function) (o : O) :
    mp.apply o args = .read o := by
  unfold MemberPtr.apply
  split
  next hfunction => exact absurd hfunction hkind
  next => rfl
  next => rfl

theorem reaches_iff_star (h : ¬ (mp.kind = .function ∧ P.isBaseOf mp.Base u.type = true)) :
    Reaches P mp u args e ↔ ReachedByStar P mp u args e := by
  rw [Reaches, if_neg h]

/-- What the trait says is a base, is one. -/
theorem ObjectModel.target_of_isBaseOf (h : P.isBaseOf mp.Base u.type = true) :
    P.target mp u = some u := by
  have hderived : P.isDerived mp.Base u.type = true := (Bool.and_eq_true_iff.mp h).1
  rw [ObjectModel.target, if_pos hderived]

/-- What is admitted is applied to the right object exactly under these conditions; elsewhere it
does not compile or is applied to another object. -/
theorem invoke_right_iff (h : Admitted P mp u args e) :
    invoke P mp u args = some (mp.apply e.object args) ↔ Reaches P mp u args e := by
  rw [invoke]
  by_cases hkind : mp.kind = .function
  · rw [MemberPtr.apply_function hkind]
    by_cases hbase : P.isBaseOf mp.Base u.type = true
    · obtain rfl : u = e :=
        Option.some.inj ((ObjectModel.target_of_isBaseOf hbase).symm.trans h.target)
      rw [if_pos hbase, Reaches, if_pos ⟨hkind, hbase⟩]
      exact upcast_function_iff hkind (h.called hkind)
    · rw [if_neg hbase, reaches_iff_star fun hboth => hbase hboth.2]
      exact wrapper_function_iff hkind
  · obtain ⟨hcalls, hinvokable⟩ := h.notCallable hkind
    rw [MemberPtr.apply_member hkind, reaches_iff_star fun hboth => hkind hboth.1]
    split
    · exact read_iff (.inl rfl) hkind hcalls hinvokable
    · exact read_iff (.inr rfl) hkind hcalls hinvokable

end

/-! ## A base, a derived class and a wrapper -/

/-- `struct S { int n; int f(); }`, `struct D : S { S& operator*(); }` and `S*`. -/
inductive InvokeType where
  | S
  | D
  | pointer
  deriving DecidableEq, Repr

/-- What is declared, what a parameter is moved to, and what `*` refers to. -/
inductive InvokeObject where
  | declared
  | moved
  | pointee
  deriving DecidableEq, Repr

def invokeModel : ObjectModel Unit InvokeType InvokeObject where
  isDerived _ T := decide (T ≠ .pointer)
  isUnion _ := false
  starType T _ := if T = .S then none else some (.S, .lvalue)
  starObject _ _ _ := .pointee
  isMoveConstructible _ := true
  parameter o := if o = .moved then .declared else .moved
  parameter_ne o := by cases o <;> decide

/-- `&S::f`. -/
def memberF : MemberPtr Unit InvokeType Unit where
  Base := ()
  kind := .function
  calls T _ args := decide (T ≠ .pointer) && args.isEmpty
  accesses T _ := decide (T ≠ .pointer)
  isInvokable args := args.isEmpty
  returns _ _ := false

/-- `&S::n`. -/
def memberN : MemberPtr Unit InvokeType Unit where
  Base := ()
  kind := .object
  calls _ _ _ := false
  accesses T _ := decide (T ≠ .pointer)
  isInvokable _ := false
  returns _ _ := true

theorem admitted_memberN {u e : ObjectExpr InvokeType InvokeObject}
    (h : invokeModel.target memberN u = some e) (he : e.type ≠ .pointer) :
    Admitted invokeModel memberN u [] e where
  target := h
  called hkind := by cases hkind
  read _ := ⟨rfl, decide_eq_true he⟩
  notCallable _ := ⟨fun _ _ _ => rfl, fun _ => rfl⟩

theorem admitted_memberF {u e : ObjectExpr InvokeType InvokeObject}
    (h : invokeModel.target memberF u = some e) (he : e.type ≠ .pointer) :
    Admitted invokeModel memberF u [] e where
  target := h
  called _ := Bool.and_eq_true_iff.mpr ⟨decide_eq_true he, rfl⟩
  read hkind := absurd rfl hkind
  notCallable hkind := absurd rfl hkind

/-- `H::invoke(&S::f, d)`. -/
theorem invoke_derived :
    invoke invokeModel memberF ⟨.D, .lvalue, .declared⟩ [] = some (.call .declared []) := by
  have hadmitted : Admitted invokeModel memberF ⟨.D, .lvalue, .declared⟩ []
    ⟨.D, .lvalue, .declared⟩ := admitted_memberF rfl (by decide)
  refine (invoke_right_iff hadmitted).mpr ?_
  rw [Reaches, if_pos ⟨rfl, rfl⟩]

/-- `H::invoke(&S::n, s)` does not compile, `H::invoke(&S::n, d)` reads `n` of `*d`, and
`H::invoke(&S::f, S{})` calls `f` on another `S`. -/
theorem invoke_wrong :
    (Admitted invokeModel memberN ⟨.S, .lvalue, .declared⟩ [] ⟨.S, .lvalue, .declared⟩ ∧
      invoke invokeModel memberN ⟨.S, .lvalue, .declared⟩ [] = none) ∧
    (Admitted invokeModel memberN ⟨.D, .lvalue, .declared⟩ [] ⟨.D, .lvalue, .declared⟩ ∧
      invoke invokeModel memberN ⟨.D, .lvalue, .declared⟩ [] = some (.read .pointee)) ∧
    Admitted invokeModel memberF ⟨.S, .rvalue, .declared⟩ [] ⟨.S, .rvalue, .declared⟩ ∧
      invoke invokeModel memberF ⟨.S, .rvalue, .declared⟩ [] = some (.call .moved []) :=
  ⟨⟨admitted_memberN rfl (by decide), rfl⟩, ⟨admitted_memberN rfl (by decide), rfl⟩,
    admitted_memberF rfl (by decide), rfl⟩

end EflCore
