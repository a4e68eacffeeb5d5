/-
# `EflCore.Poly.Cxx14` — clearing without a fold

Before C++17 there is no fold, and `clear_` offers the number to the nodes in the elements
of an array initializer:

    bool dd[sizeof...(Derived) + 1] = {
      (id_ == idValue<Base> && NodeValues(TypeC<Derived>{}, id_, data_.data))...
    };

The condition in front of the `&&` compares with the number of `Base`, which is zero, and
zero has been dealt with two lines above.  So no element ever calls its node, and the
object of a derived class is left where it is.

**Proved here.**  In every state that calls can lead to, in either build and wherever a
constructor throws, the number of a poly is that of a class of the list or that of the
empty state (`numbered_of_run`); and there the two expansions have the same effect, the
destructor of the object and no other, exactly when the poly is empty or holds a `Base`
(`clear_cxx14_iff`).
-/
import EflCore.Poly.Lifetime

namespace EflCore

open Layout Lifetime PolyTypes

section
variable {A C V : Type} {t : Target} [DecidableEq A] [DecidableEq C] {L : PolyTypes t C}
  {P : Payload V C}

variable (L P) in
/-- One call, in either build; it may throw, and its operands need not be in order. -/
def polyStepIn (cxx17 : Bool) (w : PolyWorld A t V C) (op : PolyOp A V L)
    (w' : PolyWorld A t V C) : Prop :=
  op.run P cxx17 w = .ok () w' ∨ op.run P cxx17 w = .error .exception w'

/-! ## What `clear` can do

Either build calls destructors on the cell, and then sets the number. -/

section Clears
variable {I : PolyWorld A t V C → Prop} {a : A}
  (hdestroy : ∀ k, (Lifetime.destroy a k : Prog (PolyWorld A t V C) Unit).Keeps I)
  (hid : (Poly.setId a emptyState : Prog (PolyWorld A t V C) Unit).Keeps I)

namespace Poly

include hdestroy

theorem keeps_destruct (T : C) : (destruct L P T a).Keeps I := by
  refine keeps_bind (within_load (fun _ => id) a) fun s => ?_
  cases s.data_ with
  | none => exact keeps_throw _
  | some v =>
      refine within_ite ?_ (hdestroy T)
      exact within_ite (hdestroy (P.kind v)) (keeps_throw _)

theorem keeps_nodeValues (D : C) (n : t.SzType) : (nodeValues L P D n a).Keeps I := by
  rw [nodeValues]
  cases L.nodeOf D with
  | none => exact keeps_throw _
  | some node =>
      refine within_ite ?_ (keeps_pure false)
      exact keeps_bind (keeps_destruct hdestroy node.T) fun _ => keeps_pure true

theorem keeps_clear_ (cxx17 : Bool) : (clear_ L P cxx17 a).Keeps I := by
  refine keeps_bind (within_load (fun _ => id) a) fun s => ?_
  refine within_ite (keeps_pure ()) (within_ite (keeps_destruct hdestroy L.Base)
    (within_ite ?_ ?_))
  · refine keeps_bind (keeps_foldOr fun x hx => ?_) fun _ => keeps_pure _
    obtain ⟨D, -, rfl⟩ := List.mem_map.mp hx
    exact keeps_nodeValues hdestroy D s.id_
  · refine keeps_bind (keeps_mapM (fun D => ?_) L.Derived) fun _ => keeps_pure _
    exact within_ite (keeps_nodeValues hdestroy D s.id_) (keeps_pure false)

include hid

theorem keeps_clear_of (cxx17 : Bool) : (clear L P cxx17 a).Keeps I :=
  within_noexcept (keeps_bind (keeps_clear_ hdestroy cxx17) fun _ => hid)

end Poly

end Clears

/-! ## The number is always one of the list -/

variable (L) in
/-- The number of a poly, whatever is in its storage. -/
def Numbered (s : Poly t V) : Prop := s.id_ = emptyState ∨ ∃ T : L.Listed, s.id_ = L.idValue T.named

namespace Poly

theorem numbers_clear (cxx17 : Bool) (a : A) :
    (clear L P cxx17 a).Keeps (World.Every (Numbered L)) :=
  keeps_clear_of (fun _ => keeps_perform _ a fun _ hs => hs)
    (keeps_perform _ a fun _ _ => .inl rfl) cxx17

theorem keeps_numbered (cxx17 : Bool) (op : PolyOp A V L) :
    (op.run P cxx17).Keeps (World.Every (Numbered L)) := by
  have built : ∀ a k (value : Source A V), (constructFrom P a k value :
      Prog (PolyWorld A t V C) Unit).Keeps (World.Every (Numbered L)) :=
    keeps_constructFrom (fun _ _ => id) P
  cases op with
  | default a => exact keeps_acquire a (.inl rfl)
  | ofCopy a T value | ofMove a T value =>
      refine keeps_bind (keeps_acquire a (.inr ⟨T, rfl⟩)) fun _ => ?_
      exact keeps_unwinding (built a T.1 value) (Lifetime.keeps_release a)
  | assignCopy a T value | assignMove a T value =>
      refine keeps_bind (keeps_load a) fun held => ?_
      refine keeps_bind (numbers_clear cxx17 a) fun _ => keeps_bind (keeps_load a) fun left => ?_
      refine keeps_bind (keeps_perform _ a fun _ _ => .inr ⟨T, rfl⟩) fun _ => ?_
      refine within_ite (keeps_bind (keeps_throw _) fun _ => ?_) ?_
      all_goals exact keeps_bind (keeps_perform _ a fun _ hs => hs) fun _ => built a T.1 value
  | clear a => exact numbers_clear cxx17 a
  | destroy a => exact keeps_bind (numbers_clear cxx17 a) fun _ => Lifetime.keeps_release a

end Poly

variable {w : PolyWorld A t V C} {a : A} {s : Poly t V} {cxx17 : Bool}

/-- Wherever calls lead, the numbers are numbers of the list. -/
theorem numbered_of_run {replies : Nat → Reply} {ops : List (PolyOp A V L)}
    (h : Run (polyStepIn L P cxx17) (World.init replies) ops w) : w.Every (Numbered L) := by
  refine h.invariant (World.every_init replies) ?_
  rintro w op w' hw (hok | herr)
  · exact ((Poly.keeps_numbered cxx17 op).ends hw).of_ok hok
  · exact ((Poly.keeps_numbered cxx17 op).ends hw).of_error herr

/-! ## What the two expansions do -/

namespace Poly

/-- The elements of `dd` are all false, and call nothing, unless the number is zero. -/
theorem mapM_ddElement {n : t.SzType} (hn : n ≠ L.idValue L.base.named) (a : A) (Ds : List C)
    (w : PolyWorld A t V C) :
    Ds.mapM (ddElement L P n a) w = .ok (Ds.map fun _ => false) w := by
  induction Ds with
  | nil => rfl
  | cons D Ds ih =>
      have helem : ddElement L P n a D = pure false := if_neg (by rwa [beq_iff_eq])
      rw [List.mapM_cons, helem]
      simp only [bind, EStateM.bind, pure, EStateM.pure, ih, List.map_cons]

theorem holdsAny_iff_ne : s.holdsAny = true ↔ s.id_ ≠ emptyState := by
  rw [holdsAny, Bool.not_eq_true', beq_eq_false_iff_ne]

/-- An empty poly is left alone by both. -/
theorem clear_of_empty (cxx17 : Bool) (ha : w.mem a = some s) (hid : s.id_ = emptyState) :
    clear_ L P cxx17 a w = .ok () w := by
  have hany : s.holdsAny = false := eq_false_of_ne_true fun h => holdsAny_iff_ne.mp h hid
  simp only [clear_, bind, EStateM.bind, load, ha, hany]
  rfl

/-- The destructor of `Base` is called by both. -/
theorem clear_of_base (cxx17 : Bool) (ha : w.mem a = some s) (hid : s.id_ = L.idValue L.base.named) :
    clear_ L P cxx17 a w = destruct L P L.Base a w := by
  have hany : s.holdsAny = true :=
    holdsAny_iff_ne.mpr (hid ▸ idValue_ne_emptyState L.base)
  have hzero : s.id_ = 0#_ := hid.trans ((idValue_eq_zero L.base).mpr rfl)
  simp only [clear_, bind, EStateM.bind, load, ha, hany, hzero, beq_self_eq_true, if_true]
  rfl

/-- For any other class the array initializer calls nothing. -/
theorem clear_cxx14_of_derived {T : L.Listed} (ha : w.mem a = some s)
    (hid : s.id_ = L.idValue T.named) (hT : T.1 ≠ L.Base) : clear_ L P false a w = .ok () w := by
  have hany : s.holdsAny = true := holdsAny_iff_ne.mpr (hid ▸ idValue_ne_emptyState T)
  have hzero : s.id_ ≠ 0#_ := fun h => hT ((idValue_eq_zero T).mp (hid.symm.trans h))
  have hne : s.id_ ≠ L.idValue L.base.named := fun h => hT (idValue_inj.mp (hid.symm.trans h))
  have hdd : (L.Derived.mapM (ddElement L P s.id_ a) >>= fun _ => pure () :
      Prog (PolyWorld A t V C) Unit) w = .ok () w := by
    simp only [bind, EStateM.bind, mapM_ddElement hne]
    rfl
  simp only [clear_, bind, EStateM.bind, load, ha, hany, beq_eq_false_iff_ne.mpr hzero]
  exact hdd

/-- A destructor that runs is in the log. -/
theorem ends_destruct_logged (T : C) (ha : w.mem a = some s) :
    Ends (destruct L P T a) w (fun _ w' => w'.log ≠ w.log) (fun _ _ => True) := by
  have logged : ∀ k, Ends (Lifetime.destroy a k) w (fun _ w' => w'.log ≠ w.log)
      (fun _ _ => True) := by
    intro k
    rw [Lifetime.destroy, ends_perform ha, World.act_log]
    exact fun h => absurd (List.append_right_eq_self.mp h) (List.cons_ne_nil _ _)
  rw [destruct, ends_bind, ends_load ha]
  cases s.data_ with
  | none => trivial
  | some v =>
      simp only [ends_ite]
      exact ⟨fun _ => ⟨fun _ => logged _, fun _ => trivial⟩, fun _ => logged T⟩

/-- The fold calls a destructor for every number of the list. -/
theorem clear_ne_of_number {T : L.Listed} (ha : w.mem a = some s)
    (hid : s.id_ = L.idValue T.named) : clear_ L P true a w ≠ .ok () w := by
  intro h
  exact ((ends_clear_number ha hid).mpr (ends_destruct_logged T.1 ha)).of_ok h rfl

end Poly

variable (L P) in
/-- The fold and the array initializer do the same to the poly at `a`: the destructor of
the object that its number names, or nothing. -/
structure ClearsAlike (w : PolyWorld A t V C) (a : A) (s : Poly t V) : Prop where
  same : Poly.clear_ L P false a w = Poly.clear_ L P true a w
  held : ∀ v (T : L.Listed), s.data_ = some v → P.kind v = T.1 → s.id_ = L.idValue T.named →
    Poly.clear_ L P false a w = .ok () (w.act [.destroy a T.1] a (some ⟨none, s.id_⟩))
  empty : s.id_ = emptyState → Poly.clear_ L P false a w = .ok () w

/-- In every state that calls lead to, in either build, the two expansions of `clear_` agree
exactly when the poly is empty or holds a `Base`. -/
theorem clear_cxx14_iff {replies : Nat → Reply} {ops : List (PolyOp A V L)}
    (h : Run (polyStepIn L P cxx17) (World.init replies) ops w) (ha : w.mem a = some s) :
    ClearsAlike L P w a s ↔ s.id_ = emptyState ∨ s.id_ = L.idValue L.base.named := by
  constructor
  · intro halike
    rcases numbered_of_run h a s ha with hid | ⟨T, hid⟩
    · exact .inl hid
    · refine .inr ?_
      by_contra hne
      have hT : T.1 ≠ L.Base := fun hT => hne (hid.trans (idValue_inj.mpr hT))
      have hskip := Poly.clear_cxx14_of_derived (P := P) ha hid hT
      exact Poly.clear_ne_of_number ha hid (halike.same.symm.trans hskip)
  · rintro (hid | hid)
    · have hsame := fun cxx17 => Poly.clear_of_empty (L := L) (P := P) cxx17 ha hid
      refine ⟨(hsame false).trans (hsame true).symm, ?_, fun _ => hsame false⟩
      intro v T _ _ hT
      exact absurd (hT.symm.trans hid) (idValue_ne_emptyState T)
    · have hsame := fun cxx17 => Poly.clear_of_base (P := P) cxx17 ha hid
      refine ⟨(hsame false).trans (hsame true).symm, ?_, ?_⟩
      · intro v T hd hv hT
        obtain hbase : T.1 = L.Base := idValue_inj.mp (hT.symm.trans hid)
        rw [hsame false, ← hbase, ((Poly.ends_destruct ha hd hv).mpr ⟨rfl, rfl⟩).eq_ok, hv]
      · intro hempty
        exact absurd (hid.symm.trans hempty) (idValue_ne_emptyState L.base)

end

/-- A `Poly<MyBase, Meower, Woofer>` that has been given an object of the class `T`. -/
def polyGiven (T : testPoly.Listed) (n : Nat) : List (PolyOp Nat (TestClass × Nat) testPoly) :=
  [] ++ [.default 0] ++ [.assignMove 0 T (.value (T.1, n))]

/-- A `MyBase` is destroyed in both builds. -/
theorem base_cleared_alike :
    ∃ w s, Run (polyStepIn testPoly testPayload false) (World.init (Reply.assigning fun _ => false))
        (polyGiven testPoly.base 7) w ∧ w.mem 0 = some s ∧
      ClearsAlike testPoly testPayload w 0 s := by
  have given : Run (polyStepIn testPoly testPayload false)
      (World.init (Reply.assigning fun _ => false)) (polyGiven testPoly.base 7) _ :=
    .snoc (.snoc .nil (.inl rfl)) (.inl rfl)
  exact ⟨_, _, given, rfl, (clear_cxx14_iff given rfl).mpr (.inr rfl)⟩

/-- A `Meower` is destroyed by the fold, and not by the array initializer. -/
theorem meower_not_cleared :
    ∃ w s w', Run (polyStepIn testPoly testPayload false)
        (World.init (Reply.assigning fun _ => false)) (polyGiven ⟨.Meower, by decide⟩ 7) w ∧
      w.mem 0 = some s ∧ Poly.clear_ testPoly testPayload true 0 w = .ok () w' ∧
      w'.log = [.acquire 0, .construct 0 .Meower, .destroy 0 .Meower] ∧
      Poly.clear_ testPoly testPayload false 0 w = .ok () w ∧
      ¬ ClearsAlike testPoly testPayload w 0 s := by
  have given : Run (polyStepIn testPoly testPayload false)
      (World.init (Reply.assigning fun _ => false)) (polyGiven ⟨.Meower, by decide⟩ 7) _ :=
    .snoc (.snoc .nil (.inl rfl)) (.inl rfl)
  refine ⟨_, _, _, given, rfl, rfl, rfl, rfl, ?_⟩
  intro halike
  have hfold := (ends_congr (Q := fun _ w' => w'.log.length = 2) (E := fun _ _ => False)
    halike.same).mp (by rw [Ends]; rfl)
  cases hfold

end EflCore
