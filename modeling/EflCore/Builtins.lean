/-
# `EflCore.Builtins` — the branch-hint and assertion macros

`_Builtins.hpp`, `_Builtins/Expect.hpp`, `_Builtins/Assert.hpp` and
`_Cxx11Assert.hpp`, macro by macro, with the arguments in the order the macros
pass them.  A hint is a function on `Bool`; the only thing assumed of
`__builtin_expect(e, c)` is that it evaluates to `e`.

    EFLI_TEXPECT_(ty, val, expr)        →  EFLI_CORE_EXPECT_(expr, val)
    EFLI_EXPECT_TRUE_(e)                →  EFLI_TEXPECT_(bool, true, e)
    EFL_UNLIKELY(e)                     →  EFLI_EXPECT_FALSE_(e)
    EFLI_SOFT_TEXPECT_(ty, val, expr)   →  __builtin_expect(expr, val)
    EFL_SOFT_LIKELY(e)                  →  EFLI_SOFT_TEXPECT_(bool, e, true)

The last line is the odd one: its two arguments are the other way round than in
the line above it, so the condition is the *hint* and the constant is the *value*.

An assertion macro is the Boolean "this call aborts".  What it does depends on the
build (`Build`): the language level, whether constant evaluation can be detected,
and whether the build is a debug build.
-/
import EflCore.Lifetime.Program

namespace EflCore

/-! ## Branch hints -/

/-- `__builtin_expect` evaluates to its first argument. -/
def builtinExpect (e _c : Bool) : Bool := e

/-- `EFLI_TEXPECT_(bool, val, expr)`. -/
def tExpect (val expr : Bool) : Bool := builtinExpect expr val

def expectTrue (e : Bool) : Bool := tExpect true e

def expectFalse (e : Bool) : Bool := tExpect false e

def unlikely (e : Bool) : Bool := expectFalse e

/-- `EFLI_SOFT_TEXPECT_(bool, val, expr)` where the compiler has
`__builtin_expect_with_probability`; elsewhere it is `EFLI_TEXPECT_` itself. -/
def softTExpect (val expr : Bool) : Bool := builtinExpect expr val

/-- `EFL_SOFT_LIKELY(e)`: `e` lands in the place of `val`. -/
def softLikely (e : Bool) : Bool := softTExpect e true

/-- `EFL_SOFT_UNLIKELY(e)`: `e` lands in the place of `val`. -/
def softUnlikely (e : Bool) : Bool := softTExpect e false

@[simp] theorem unlikely_eq (e : Bool) : unlikely e = e := rfl

@[simp] theorem expectTrue_eq (e : Bool) : expectTrue e = e := rfl

@[simp] theorem expectFalse_eq (e : Bool) : expectFalse e = e := rfl

/-- The soft hints do not read their condition. -/
@[simp] theorem softLikely_eq (e : Bool) : softLikely e = true := rfl

@[simp] theorem softUnlikely_eq (e : Bool) : softUnlikely e = false := rfl

/-! ## Assertions -/

/-- The three expansions of `EFLI_CXPRASSERT_IMPL_`. -/
inductive Dialect where
  | cxx14CxprEval
  | cxx14
  | cxx11
  deriving DecidableEq, Repr

structure Build where
  dialect : Dialect
  debug : Bool
  deriving DecidableEq, Repr

/-- `EFLI_CXPRASSERT_IMPL_(msg, expr)` at run time: does it abort? -/
def cxprAssertImpl : Dialect → Bool → Bool
  -- `EFLI_CXPREVAL_()` is false at run time, so only the second test is left
  | .cxx14CxprEval, expr => expectFalse (!expr)
  | .cxx14, expr => expectFalse expr
  | .cxx11, expr => !expectTrue expr

/-- `EFLI_CXPRASSERT_`. -/
def cxprAssert (b : Build) (expr : Bool) : Bool := cxprAssertImpl b.dialect expr

/-- `EFLI_XCXPRASSERT_`: nothing, except where constant evaluation is detected. -/
def xcxprAssert (b : Build) (expr : Bool) : Bool :=
  match b.dialect with
  | .cxx14CxprEval => cxprAssert b expr
  | .cxx14 | .cxx11 => false

/-- `EFLI_DBGASSERT_`. -/
def dbgAssert (b : Build) (expr : Bool) : Bool :=
  if b.debug then cxprAssert b expr else xcxprAssert b expr

/-- `$assert` and `$raw_assert`. -/
def rawAssert (b : Build) (expr : Bool) : Bool :=
  if b.debug then !expectTrue expr else false

@[simp] theorem rawAssert_true (b : Build) : rawAssert b true = false := ite_self _

@[simp] theorem rawAssert_false (b : Build) : rawAssert b false = b.debug := by
  cases h : b.debug <;> simp [rawAssert, h]

end EflCore
