/-
# `EflCore.Forwarded` — a class as the `U&&` of its own constructor

`Option` and `Result` have templates `(U&& u)`, which are constrained by nothing but what `T`
can be made of, so they are there for the class itself.  A const lvalue goes to the special
member all the same, as does an rvalue that can be moved from; of anything else the template is
the better match, and takes what `T` makes of the argument.
-/
import EflCore.Lifetime.Program

namespace EflCore

open Lifetime

/-- What the template makes of an argument that shows an `Option V`: it is not viable, or it is
and does not compile, or it takes what `T` makes of the argument. -/
inductive Forwarded (V : Type) where
  | notViable
  | illFormed
  | converts (f : Option V → V)

namespace Forwarded

section
variable {σ V : Type} {F : Forwarded V} {isConst : Bool} {look : Prog σ (Option V)}
  {special : Prog σ Unit} {template : V → Prog σ Unit}

/-- The copy, by the special member or by the template. -/
def copy (F : Forwarded V) (isConst : Bool) (look : Prog σ (Option V)) (special : Prog σ Unit)
    (template : V → Prog σ Unit) : Prog σ Unit :=
  if isConst then
    special
  else
    match F with
    | notViable => special
    | illFormed => throw .undefined
    | converts f => do template (f (← look))

def Compiles (F : Forwarded V) (isConst : Bool) : Prop := isConst = false → F ≠ illFormed

/-- The copy is made by the special member. -/
def Special (F : Forwarded V) (isConst : Bool) : Prop := isConst = false → F = notViable

theorem copy_special (h : F.Special isConst) : F.copy isConst look special template = special := by
  cases isConst with
  | true => rfl
  | false =>
      obtain rfl := h rfl
      rfl

/-- Whichever member makes the copy. -/
theorem ends_copy {s : σ} {c : Option V} {Q : Unit → σ → Prop} {E : Stop → σ → Prop}
    (hlook : ∀ {Q : Option V → σ → Prop}, Ends look s Q E ↔ Q c s) (hF : F.Compiles isConst)
    (hspecial : F.Special isConst → Ends special s Q E)
    (htemplate : ∀ f, F = converts f → Ends (template (f c)) s Q E) :
    Ends (F.copy isConst look special template) s Q E := by
  cases isConst with
  | true => exact hspecial nofun
  | false =>
      cases F with
      | notViable => exact hspecial fun _ => rfl
      | illFormed => exact absurd rfl (hF rfl)
      | converts f => exact (ends_bind ..).mpr (hlook.mpr (htemplate f rfl))

theorem appends_copy {ε : Type} {log : σ → List ε} (hlook : look.Appends log)
    (hspecial : special.Appends log) (htemplate : ∀ v, (template v).Appends log) :
    (F.copy isConst look special template).Appends log := by
  cases isConst with
  | true => exact hspecial
  | false =>
      cases F with
      | notViable => exact hspecial
      | illFormed => exact appends_throw _
      | converts f => exact appends_bind hlook fun c => htemplate (f c)

end

end Forwarded

end EflCore
