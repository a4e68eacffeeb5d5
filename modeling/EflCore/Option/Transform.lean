/-
# `EflCore.Option.Transform` — the function, and what it returned

`transform` comes in three implementations of four overloads each, one for each value category
of the option, and all twelve have the same body.

    if there is a payload     { H::invoke(FWD_CAST(f)(**this)) }
    otherwise                 { nullopt }

The parentheses after `FWD_CAST(f)` are a call already.  So `H::invoke` does not get `f` and its
argument; it gets what `f` returned, and no arguments.

    R is no nullary callable      H::invoke(R) does not compile
    R is one                      it is called, and the Option<R> holds what that returned

From C++23 on `Option<T>` has the `transform` of `std::optional` instead, which passes `f` on;
`Option<T&>` has its own in every standard.  `andThen` calls `f` and returns what it returned.

**Proved here.**  `transform` does what it is for (`TransformRight`: `f` is called once on the
payload, and the result is what is held; it is `andThen` of the function that wraps it; and it
composes) in the C++23 `Option<T>` for results that are no references, and everywhere else only
of an empty option and where the call that is not wanted compiles (`transform_right_iff`).
-/
import EflCore.Builtins

namespace EflCore

open Lifetime

/-! ## What is called -/

/-- The value category in which an overload passes the payload on. -/
inductive Category where
  | lvalue
  | rvalue
  | constLvalue
  | constRvalue
  deriving DecidableEq, Repr

/-- The overload is a const member, and reads the payload with `operator*() const`. -/
def Category.isConst : Category → Bool
  | lvalue | rvalue => false
  | constLvalue | constRvalue => true

/-- What `f` is called with. -/
structure Arg (T : Type) where
  category : Category
  value : T
  deriving DecidableEq, Repr

/-- A call: of the function, or of what it returned. -/
inductive Call (T R : Type) where
  | function (x : Arg T)
  | result (r : R)
  deriving DecidableEq, Repr

/-- A program that calls, with the calls so far. -/
abbrev Calling (T R α : Type) : Type := Prog (List (Call T R)) α

/-- What the compiler makes of the result type. -/
structure ResultType (R : Type) where
  isRef : Bool
  -- an `Option<R>` initialized by `{ H::invoke(r) }`, where that compiles
  invoke : Option (R → Option R)

section
variable {T R S : Type}

def call (f : Arg T → R) (x : Arg T) : Calling T R R := do
  modify fun calls => calls ++ [.function x]
  pure (f x)

/-- `{ H::invoke(r) }`. -/
def hInvoke (k : ResultType R) : Option (R → Calling T R (Option R)) :=
  k.invoke.map fun invoke r => do
    modify fun calls => calls ++ [.result r]
    pure (invoke r)

/-- The body of the overloads of `transform`; `star` is `**this`. -/
def transformWith (star : Calling T R T) (category : Category) (k : ResultType R)
    (f : Arg T → R) (o : Option T) : Option (Calling T R (Option R)) := do
  let invoke ← hInvoke k
  pure do
    if o.isSome then
      let r ← call f ⟨category, ← star⟩
      invoke r
    else
      pure none

/-- The body of the overloads of `andThen`. -/
def andThenWith (star : Calling T R T) (category : Category)
    (f : Arg T → Calling T R (Option R)) (o : Option T) : Calling T R (Option R) := do
  if o.isSome then
    f ⟨category, ← star⟩
  else
    pure none

/-- The payload; there is nothing to be read of an empty option. -/
def payload (o : Option T) : Calling T R T :=
  match o with
  | some x => pure x
  | none => throw .undefined

/-! ## The three implementations, and that of `std::optional` -/

namespace Option17

/-- `operator*` of `std::optional`. -/
def star (o : Option T) : Calling T R T := payload o

def andThen (category : Category) (f : Arg T → Calling T R (Option R)) (o : Option T) :
    Calling T R (Option R) := andThenWith (star o) category f o

def transform (category : Category) (k : ResultType R) (f : Arg T → R) (o : Option T) :
    Option (Calling T R (Option R)) := transformWith (star o) category k f o

end Option17

/-- `unwrap` of a class of this library, as a const member or not. -/
def unwrapWith (b : Build) (isConst : Bool) (o : Option T) : Calling T R T := do
  Prog.abortIf (if isConst then dbgAssert b o.isSome else cxprAssert b o.isSome)
  payload o

/-- `operator*` of a class of this library, as a const member or not. -/
def starWith (b : Build) (isConst : Bool) (o : Option T) : Calling T R T := do
  Prog.abortIf (dbgAssert b o.isSome)
  unwrapWith b isConst o

namespace Option14

/-- `operator*()&` and `operator*() const&`. -/
def star (b : Build) (category : Category) (o : Option T) : Calling T R T :=
  starWith b category.isConst o

def andThen (b : Build) (category : Category) (f : Arg T → Calling T R (Option R))
    (o : Option T) : Calling T R (Option R) := andThenWith (star b category o) category f o

def transform (b : Build) (category : Category) (k : ResultType R) (f : Arg T → R)
    (o : Option T) : Option (Calling T R (Option R)) :=
  transformWith (star b category o) category k f o

end Option14

namespace OptionRef

/-- `operator*()` and `operator*() const`. -/
def star (b : Build) (category : Category) (o : Option T) : Calling T R T :=
  starWith b category.isConst o

def andThen (b : Build) (category : Category) (f : Arg T → Calling T R (Option R))
    (o : Option T) : Calling T R (Option R) := andThenWith (star b category o) category f o

def transform (b : Build) (category : Category) (k : ResultType R) (f : Arg T → R)
    (o : Option T) : Option (Calling T R (Option R)) :=
  transformWith (star b category o) category k f o

end OptionRef

/-- `std::optional<T>::transform`; there is no `std::optional` of a reference. -/
def stdTransform (category : Category) (k : ResultType R) (f : Arg T → R) (o : Option T) :
    Option (Calling T R (Option R)) :=
  if k.isRef then none else some do
    match o with
    | some x => some <$> call f ⟨category, x⟩
    | none => pure none

/-- C++11 and C++14, C++17 and C++20, and what came after. -/
inductive Standard where
  | cxx14
  | cxx17
  | cxx23
  deriving DecidableEq, Repr

/-- `Option<T>`, as the standard has it, and `Option<T&>`. -/
inductive OptionClass where
  | value (std : Standard)
  | reference
  deriving DecidableEq, Repr

namespace OptionClass

/-- The class of the options of a type, which is that of a reference or not. -/
def of (std : Standard) (isRef : Bool) : OptionClass := if isRef then reference else value std

def andThen (c : OptionClass) (b : Build) (category : Category)
    (f : Arg T → Calling T R (Option R)) (o : Option T) : Calling T R (Option R) :=
  match c with
  | value .cxx14 => Option14.andThen b category f o
  | value .cxx17 | value .cxx23 => Option17.andThen category f o
  | reference => OptionRef.andThen b category f o

def transform (c : OptionClass) (b : Build) (category : Category) (k : ResultType R)
    (f : Arg T → R) (o : Option T) : Option (Calling T R (Option R)) :=
  match c with
  | value .cxx14 => Option14.transform b category k f o
  | value .cxx17 => Option17.transform category k f o
  | value .cxx23 => stdTransform category k f o
  | reference => OptionRef.transform b category k f o

end OptionClass

/-! ## What `transform` is for -/

/-- What a call returns and what it calls on the way, if it compiles and returns. -/
def outcome {α : Type} (p : Option (Calling T R α)) : Option (α × List (Call T R)) :=
  p.bind fun p => match p [] with
    | .ok a calls => some (a, calls)
    | .error _ _ => none

def returned {α : Type} (p : Option (Calling T R α)) : Option α := (outcome p).map Prod.fst

/-- `g` after `f`: what `f` returns is passed as the `transform` of a temporary passes it. -/
def after (g : Arg R → S) (f : Arg T → R) (x : Arg T) : S := g ⟨.rvalue, f x⟩

/-- `o.transform(f)` calls `f` on the payload, once, and holds what it returned; it is `andThen`
of the function that puts that into an option; and `o.transform(f).transform(g)` is
`o.transform` of `g` after `f`. -/
structure TransformRight (std : Standard) (c : OptionClass) (b : Build) (category : Category)
    (kR : ResultType R) (kS : ResultType S) (f : Arg T → R) (g : Arg R → S) (o : Option T) :
    Prop where
  result : outcome (c.transform b category kR f o)
    = some (o.map fun x => f ⟨category, x⟩, o.toList.map fun x => .function ⟨category, x⟩)
  andThen : outcome (c.transform b category kR f o)
    = outcome (some (c.andThen b category (fun x => some <$> call f x) o))
  functor : ∃ u, returned (c.transform b category kS (after g f) o) = some u ∧
    (returned (c.transform b category kR f o)).bind (fun r =>
      returned ((OptionClass.of std kR.isRef).transform b .rvalue kS g r)) = some u

/-- `transform` of a function with this result type compiles. -/
def Compiles (c : OptionClass) (k : ResultType R) : Prop :=
  match c with
  | .value .cxx23 => k.isRef = false
  | _ => k.invoke ≠ none

variable {std : Standard} {c : OptionClass} {b : Build} {category : Category}
  {k : ResultType R} {f : Arg T → R}

theorem outcome_eq_some {α : Type} {p : Option (Calling T R α)} {a : α} {calls : List (Call T R)} :
    outcome p = some (a, calls) ↔ ∃ q, p = some q ∧ q [] = .ok a calls := by
  cases p with
  | none => exact iff_of_false nofun nofun
  | some q =>
      rw [outcome, Option.bind_some]
      cases hq : q [] with
      | ok a' calls' =>
          constructor
          · intro h
            cases h
            exact ⟨q, rfl, hq⟩
          · rintro ⟨q', hq', hrun⟩
            cases hq'
            rw [hq] at hrun
            cases hrun
            rfl
      | error e calls' =>
          constructor
          · intro h
            cases h
          · rintro ⟨q', hq', hrun⟩
            cases hq'
            rw [hq] at hrun
            cases hrun

/-! ## The body the overloads share -/

/-- What `**this` returns, if it returns, is the payload; it calls nothing. -/
def Reads (star : Option T → Calling T R T) : Prop :=
  ∀ x calls, Ends (star (some x)) calls (fun y calls' => y = x ∧ calls' = calls) fun _ _ => True

theorem reads_payload : Reads (payload : Option T → Calling T R T) := by
  intro x calls
  exact ⟨rfl, rfl⟩

theorem reads_starWith (b : Build) (isConst : Bool) :
    Reads (starWith b isConst : Option T → Calling T R T) := by
  intro x calls
  rw [starWith, ends_bind]
  refine ends_abortIf_of ?_ trivial
  rw [unwrapWith, ends_bind]
  exact ends_abortIf_of (reads_payload x calls) trivial

variable {star : Option T → Calling T R T} {x : T}

/-- There is one call too many. -/
theorem calls_transformWith (hstar : Reads star) {p : Calling T R (Option R)}
    (hp : transformWith (star (some x)) category k f (some x) = some p) :
    Ends p [] (fun _ calls =>
      calls = [.function ⟨category, x⟩, .result (f ⟨category, x⟩)]) fun _ _ => True := by
  simp only [transformWith, hInvoke, Option.pure_def, Option.bind_eq_bind,
    Option.bind_eq_some_iff, Option.map_eq_some_iff, Option.some.injEq] at hp
  obtain ⟨_, ⟨invoke, -, rfl⟩, rfl⟩ := hp
  rw [Option.isSome_some, if_pos rfl, ends_bind]
  refine (hstar x []).mono ?_ fun _ _ _ => trivial
  rintro y calls ⟨rfl, rfl⟩
  simp only [call, ends_bind, ends_modify, ends_pure]
  rfl

theorem outcome_transformWith_ne (hstar : Reads star) :
    outcome (transformWith (star (some x)) category k f (some x))
      ≠ some (some (f ⟨category, x⟩), [.function ⟨category, x⟩]) := by
  intro h
  obtain ⟨p, hp, hrun⟩ := outcome_eq_some.mp h
  have hcalls := (calls_transformWith hstar hp).of_ok hrun
  cases hcalls

/-- Without a payload nothing is called, if it compiles. -/
theorem outcome_transformWith_none {read : Calling T R T} :
    outcome (transformWith read category k f none) = some (none, []) ↔ k.invoke ≠ none := by
  simp only [transformWith, hInvoke]
  cases k.invoke with
  | none => exact iff_of_false nofun (fun h => h rfl)
  | some invoke => exact iff_of_true rfl nofun

theorem outcome_transformWith_isSome {read : Calling T R T} {o : Option T}
    (h : outcome (transformWith read category k f o) ≠ none) : k.invoke ≠ none := by
  intro hinvoke
  simp only [transformWith, hInvoke, hinvoke] at h
  exact h rfl

/-! ## The classes -/

/-- All but one of the classes have that body. -/
theorem OptionClass.transform_eq (hc : c ≠ .value .cxx23) (b : Build) (category : Category)
    (k : ResultType R) (f : Arg T → R) :
    ∃ star : Option T → Calling T R T, Reads star ∧
      ∀ o, c.transform b category k f o = transformWith (star o) category k f o := by
  match c with
  | .value .cxx14 => exact ⟨starWith b category.isConst, reads_starWith _ _, fun _ => rfl⟩
  | .value .cxx17 => exact ⟨payload, reads_payload, fun _ => rfl⟩
  | .value .cxx23 => exact absurd rfl hc
  | .reference => exact ⟨starWith b category.isConst, reads_starWith _ _, fun _ => rfl⟩

theorem compiles_iff (hc : c ≠ .value .cxx23) : Compiles c k ↔ k.invoke ≠ none := by
  match c with
  | .value .cxx14 | .value .cxx17 | .reference => rfl
  | .value .cxx23 => exact absurd rfl hc

theorem outcome_stdTransform {o : Option T} (hk : k.isRef = false) :
    outcome (stdTransform category k f o)
      = some (o.map fun x => f ⟨category, x⟩, o.toList.map fun x => .function ⟨category, x⟩) := by
  unfold stdTransform
  rw [hk, if_neg Bool.false_ne_true]
  cases o with
  | none => rfl
  | some x => rfl

/-- What does not compile has no outcome. -/
theorem compiles_of_outcome {o : Option T} (h : outcome (c.transform b category k f o) ≠ none) :
    Compiles c k := by
  by_cases hc : c = .value .cxx23
  · subst hc
    by_contra hk
    rw [Compiles, Bool.not_eq_false] at hk
    unfold OptionClass.transform stdTransform at h
    rw [hk] at h
    exact h rfl
  · obtain ⟨star, -, heq⟩ := OptionClass.transform_eq hc b category k f
    rw [heq] at h
    exact (compiles_iff hc).mpr (outcome_transformWith_isSome h)

theorem outcome_none :
    outcome (c.transform b category k f none) = some (none, []) ↔ Compiles c k := by
  constructor
  · intro h
    exact compiles_of_outcome (h ▸ Option.some_ne_none _)
  · intro h
    by_cases hc : c = .value .cxx23
    · subst hc
      have hstd : outcome (stdTransform category k f none) = some (none, []) :=
        outcome_stdTransform h
      exact hstd
    · obtain ⟨star, -, heq⟩ := OptionClass.transform_eq hc b category k f
      rw [heq, outcome_transformWith_none]
      exact (compiles_iff hc).mp h

/-- Where there is a payload only `std::optional` calls `f` and nothing else. -/
theorem outcome_some :
    outcome (c.transform b category k f (some x))
      = some (some (f ⟨category, x⟩), [.function ⟨category, x⟩]) ↔
    c = .value .cxx23 ∧ Compiles c k := by
  constructor
  · intro h
    refine ⟨?_, compiles_of_outcome (h ▸ Option.some_ne_none _)⟩
    by_contra hc
    obtain ⟨star, hstar, heq⟩ := OptionClass.transform_eq hc b category k f
    rw [heq] at h
    exact outcome_transformWith_ne hstar h
  · rintro ⟨rfl, hk⟩
    have hstd : outcome (stdTransform category k f (some x))
        = some (some (f ⟨category, x⟩), [.function ⟨category, x⟩]) := outcome_stdTransform hk
    exact hstd

/-- `f` is called on the payload, if there is one, and nothing else is. -/
theorem outcome_iff {o : Option T} :
    outcome (c.transform b category k f o)
      = some (o.map fun x => f ⟨category, x⟩, o.toList.map fun x => .function ⟨category, x⟩) ↔
    Compiles c k ∧ (c = .value .cxx23 ∨ o = none) := by
  cases o with
  | none =>
      rw [and_iff_left (.inr rfl)]
      exact outcome_none
  | some x =>
      rw [or_iff_left (Option.some_ne_none x), and_comm]
      exact outcome_some

/-- `andThen` of the function that wraps what `f` returns. -/
theorem outcome_andThen {o : Option T} (h : c = .value .cxx23 ∨ o = none) :
    outcome (some (c.andThen b category (fun x => some <$> call f x) o))
      = some (o.map fun x => f ⟨category, x⟩, o.toList.map fun x => .function ⟨category, x⟩) := by
  rcases h with rfl | rfl
  · cases o with
    | none => rfl
    | some x => rfl
  · match c with
    | .value .cxx14 | .value .cxx17 | .value .cxx23 | .reference => rfl

theorem returned_eq_some {o : Option T} (hk : Compiles c k) (ho : c = .value .cxx23 ∨ o = none) :
    returned (c.transform b category k f o) = some (o.map fun x => f ⟨category, x⟩) := by
  rw [returned, outcome_iff.mpr ⟨hk, ho⟩]
  rfl

theorem compiles_of_returned {o : Option T} {r : Option R}
    (h : returned (c.transform b category k f o) = some r) : Compiles c k := by
  have hsome : outcome (c.transform b category k f o) ≠ none := by
    intro hnone
    rw [returned, hnone] at h
    cases h
  exact compiles_of_outcome hsome

/-- `transform` does what it is for exactly where it compiles for the functions in question, and
it is that of `std::optional` or there is no payload. -/
theorem transform_right_iff (std : Standard) (isRef : Bool) (b : Build) (category : Category)
    (kR : ResultType R) (kS : ResultType S) (f : Arg T → R) (g : Arg R → S) (o : Option T) :
    TransformRight std (.of std isRef) b category kR kS f g o ↔
      Compiles (.of std isRef) kR ∧ Compiles (.of std isRef) kS ∧
        Compiles (.of std kR.isRef) kS ∧ (.of std isRef = OptionClass.value .cxx23 ∨ o = none) := by
  constructor
  · rintro ⟨hresult, -, u, hcomposed, hbind⟩
    obtain ⟨hR, ho⟩ := outcome_iff.mp hresult
    obtain ⟨r, -, hr⟩ := Option.bind_eq_some_iff.mp hbind
    exact ⟨hR, compiles_of_returned hcomposed, compiles_of_returned hr, ho⟩
  · rintro ⟨hR, hS, hRS, ho⟩
    have hresult : outcome ((OptionClass.of std isRef).transform b category kR f o) = _ :=
      outcome_iff.mpr ⟨hR, ho⟩
    have hnext : OptionClass.of std kR.isRef = .value .cxx23 ∨
        o.map (fun x => f ⟨category, x⟩) = none := by
      rcases ho with hc | rfl
      · left
        -- `std::optional` has results that are no references
        rw [hc, Compiles] at hR
        cases isRef with
        | true => cases hc
        | false => rw [hR]; exact hc
      · exact .inr rfl
    refine ⟨hresult, hresult.trans (outcome_andThen ho).symm, _, returned_eq_some hS ho, ?_⟩
    rw [returned_eq_some hR ho, Option.bind_some, returned_eq_some hRS hnext, Option.map_map]
    rfl

end

/-- `int`, which cannot be called. -/
def intResult : ResultType Int := ⟨false, none⟩

/-- A class around an `int`, with a call operator that returns the next one. -/
structure Next where
  n : Int
  deriving DecidableEq

def nextResult : ResultType Next := ⟨false, some fun r => some ⟨r.n + 1⟩⟩

/-- `Option<int>(1).transform(f)`: if `f` returns an `int` it does not compile, and if `f` returns
a `Next` that is called as well. -/
theorem transform_of_one :
    (OptionClass.of .cxx17 false).transform ⟨.cxx14CxprEval, false⟩ .lvalue intResult
      (fun x : Arg Int => x.value) (some 1) = none ∧
    outcome ((OptionClass.of .cxx17 false).transform ⟨.cxx14CxprEval, false⟩ .lvalue nextResult
        (fun x : Arg Int => ⟨x.value⟩) (some 1))
      = some (some ⟨2⟩, [.function ⟨.lvalue, 1⟩, .result ⟨1⟩]) ∧
    ¬ TransformRight .cxx17 (.of .cxx17 false) ⟨.cxx14CxprEval, false⟩ .lvalue intResult intResult
      (fun x : Arg Int => x.value) (fun x => x.value) (some 1) ∧
    ¬ TransformRight .cxx17 (.of .cxx17 false) ⟨.cxx14CxprEval, false⟩ .lvalue nextResult nextResult
      (fun x : Arg Int => ⟨x.value⟩) (fun x => x.value) (some 1) := by
  refine ⟨rfl, rfl, ?_, ?_⟩
  · rintro ⟨hresult, -, -⟩
    cases hresult
  · rintro ⟨hresult, -, -⟩
    cases hresult

end EflCore
