/-
# `EflCore.Checked` — calls that assert something on their way

A call that has no effect but its value is the list of what it asserts, in order, and that
value.  What it asserts are its *guards*: they hold or they do not, whatever becomes of an
assertion that does not hold.  That is up to the build (`run`), which reads every
assertion through its macro.

    guards    x.Holds        every asserted condition is true
    build     x.Passes b     the macro aborts on none of them
              x.run b        what becomes of the call

In a build whose macros abort exactly on a false condition the two agree
(`Checked.passes_iff`); which builds those are is `Build.checks`.
-/
import EflCore.Builtins

namespace EflCore

open Lifetime

/-- An assertion, with the macro it is written with. -/
inductive Assertion where
  /-- `EFLI_CXPRASSERT_` -/
  | cxpr (expr : Bool)
  /-- `EFLI_DBGASSERT_` and `EFLI_CXPR11ASSERT_` -/
  | dbg (expr : Bool)
  deriving DecidableEq, Repr

namespace Assertion

def expr : Assertion → Bool
  | cxpr e | dbg e => e

def aborts (b : Build) : Assertion → Bool
  | cxpr e => cxprAssert b e
  | dbg e => dbgAssert b e

end Assertion

structure Checked (α : Type) where
  asserts : List Assertion
  value : α
  deriving DecidableEq

namespace Checked
variable {α β : Type}

instance : Monad Checked where
  pure a := ⟨[], a⟩
  bind x f := ⟨x.asserts ++ (f x.value).asserts, (f x.value).value⟩

/-- `EFLI_CXPRASSERT_(expr)`. -/
def cxprAssert (expr : Bool) : Checked Unit := ⟨[.cxpr expr], ()⟩

/-- `EFLI_DBGASSERT_(expr)` or `EFLI_CXPR11ASSERT_(expr)`. -/
def dbgAssert (expr : Bool) : Checked Unit := ⟨[.dbg expr], ()⟩

/-- The guards of the call hold. -/
def Holds (x : Checked α) : Prop := ∀ c ∈ x.asserts, c.expr = true

instance (x : Checked α) : Decidable x.Holds :=
  inferInstanceAs (Decidable (∀ c ∈ x.asserts, c.expr = true))

/-- No assertion of the call aborts in the build. -/
def Passes (b : Build) (x : Checked α) : Prop := ∀ c ∈ x.asserts, c.aborts b = false

/-- The call, in a build. -/
def run (b : Build) (x : Checked α) : Except Stop α :=
  if x.asserts.any (Assertion.aborts b) then .error .aborted else .ok x.value

@[simp] theorem holds_pure (a : α) : (pure a : Checked α).Holds := nofun

@[simp] theorem holds_bind (x : Checked α) (f : α → Checked β) :
    (x >>= f).Holds ↔ x.Holds ∧ (f x.value).Holds := List.forall_mem_append

@[simp] theorem holds_cxprAssert (e : Bool) : (cxprAssert e).Holds ↔ e = true :=
  List.forall_mem_singleton

@[simp] theorem holds_dbgAssert (e : Bool) : (dbgAssert e).Holds ↔ e = true :=
  List.forall_mem_singleton

section
variable {b : Build}

@[simp] theorem passes_pure (a : α) : (pure a : Checked α).Passes b := nofun

@[simp] theorem passes_bind (x : Checked α) (f : α → Checked β) :
    (x >>= f).Passes b ↔ x.Passes b ∧ (f x.value).Passes b := List.forall_mem_append

@[simp] theorem passes_cxprAssert (e : Bool) :
    (cxprAssert e).Passes b ↔ EflCore.cxprAssert b e = false := List.forall_mem_singleton

@[simp] theorem passes_dbgAssert (e : Bool) :
    (dbgAssert e).Passes b ↔ EflCore.dbgAssert b e = false := List.forall_mem_singleton

end

@[simp] theorem value_pure (a : α) : (pure a : Checked α).value = a := rfl

@[simp] theorem value_bind (x : Checked α) (f : α → Checked β) :
    (x >>= f).value = (f x.value).value := rfl

/-- A call that returns, returns its value. -/
theorem value_of_run {b : Build} {x : Checked α} {a : α} (h : x.run b = .ok a) : a = x.value := by
  rw [run] at h
  split at h
  · cases h
  · exact (Except.ok.inj h).symm

/-- A call returns exactly when none of its assertions aborts. -/
theorem run_eq_ok_iff {b : Build} (x : Checked α) : x.run b = .ok x.value ↔ x.Passes b := by
  have hany : x.asserts.any (Assertion.aborts b) = false ↔ x.Passes b := by
    simp only [List.any_eq_false, Bool.not_eq_true, Passes]
  rw [← hany, run]
  cases x.asserts.any (Assertion.aborts b) with
  | true => simp
  | false => simp

end Checked

/-! ## Builds that check -/

/-- The macros of the build abort on a false condition, and on no true one. -/
def Build.checks (b : Build) : Bool :=
  match b.dialect with
  | .cxx14CxprEval => true
  | .cxx14 => false
  | .cxx11 => b.debug

theorem aborts_of_checks {b : Build} (h : b.checks = true) (c : Assertion) :
    c.aborts b = !c.expr := by
  obtain ⟨d, dbg⟩ := b
  cases d with
  | cxx14CxprEval => cases c <;> cases dbg <;> rfl
  | cxx14 => cases h
  | cxx11 =>
      obtain rfl : dbg = true := h
      cases c <;> rfl

theorem cxprAssert_true {b : Build} : cxprAssert b true = false ↔ b.dialect ≠ .cxx14 := by
  obtain ⟨d, dbg⟩ := b
  cases d <;> simp [cxprAssert, cxprAssertImpl]

/-- A true assertion gets past the macro, but for one build. -/
theorem dbgAssert_true (b : Build) :
    dbgAssert b true = false ↔ (b.dialect = .cxx14 → b.debug = false) := by
  obtain ⟨d, dbg⟩ := b
  cases d <;> cases dbg <;> simp [dbgAssert, cxprAssert, xcxprAssert, cxprAssertImpl]

/-- There a call returns exactly when its guards hold. -/
theorem Checked.passes_iff {α : Type} {b : Build} (h : b.checks = true) (x : Checked α) :
    x.Passes b ↔ x.Holds := by
  simp only [Checked.Passes, Checked.Holds, aborts_of_checks h, Bool.not_eq_false']

end EflCore
