/-
# `EflCore.Poly.HoldsType` — asking for a class that is not in the list

`holdsType<T>()` compares the number of the poly with `idValue<T>`, and `idValue<T>` is
what the overload set returns for a `T*`.  A pointer converts to a pointer to a base, so
the call compiles for classes that are not in the list as well, and then it returns the
number of another class.

    T listed        the node of T
    T unlisted      the node of the nearest base of T that is listed, if there is one

`safeHoldsType` and the downcasts ask `matchesAny<T>` first; `holdsType` does not.

An exception that leaves an assignment leaves a number and no object (`EflCore.Poly.Assign`),
and before C++17 `clear` can leave an object and no number (`EflCore.Poly.Cxx14`).  There the
answer is about the number.

**Proved here**, for every state that calls lead to.  Where the number is that of what is held,
the answer is about `T` exactly if `T` is listed or what is held is not of that nearest base;
where it is not, exactly if what there is is no `T` and the number is not that of that nearest
base (`holdsType_run_iff`).
-/
import EflCore.Poly.Assign

namespace EflCore

open Layout Lifetime PolyTypes

section
variable {A C V : Type} {t : Target} [DecidableEq C] {L : PolyTypes t C} {P : Payload V C}

/-! ## Which number it is -/

/-- The number of `T` is that of the class of the list nearest to it. -/
theorem PolyTypes.idValue_nearest (T : L.Named) :
    ∃ U : L.Listed, L.Nearest L.classes T.1 U.1 ∧ L.idValue T = L.idValue U.named := by
  obtain ⟨n, hn⟩ := Option.isSome_iff_exists.mp T.2
  have hid : L.idValue T = n := Option.get_of_eq_some _ hn
  simp only [idValue?, map_nodes, Option.bind_eq_bind, Option.pure_def,
    Option.bind_eq_some_iff] at hn
  obtain ⟨i, hi, node, hnode, hI⟩ := hn
  obtain ⟨X, hX, hnearest⟩ := (Overload.Hierarchy.resolve_eq_some L.distinct).mp hi
  have hplace : i = L.classes.idxOf X := by
    obtain ⟨hlt, -⟩ := List.getElem?_eq_some_iff.mp hX
    exact (List.getElem?_inj hlt L.distinct).mp (hX.trans (getElem?_place hnearest.mem).symm)
  rw [getElem?_nodes hX] at hnode
  cases hnode
  refine ⟨⟨X, hnearest.mem⟩, hnearest, ?_⟩
  rw [idValue_eq, hid, ← hplace]
  exact (Option.some.inj hI).symm

variable {s : Poly t V}

/-- `holdsType<T>()` finds out whether the object is of the class nearest to `T`. -/
theorem holdsType_iff_nearest (h : (polyFlag L P).holds s) (T : L.Named) :
    s.holdsType T = true ↔ ∃ v, s.data_ = some v ∧ L.Nearest L.classes T.1 (P.kind v) := by
  obtain ⟨U, hU, hid⟩ := idValue_nearest T
  rw [Poly.holdsType, beq_iff_eq, hid, number_iff_held h]
  refine exists_congr fun v => and_congr_right fun _ => ?_
  constructor
  · intro hk
    rw [hk]
    exact hU
  · intro hk
    exact hk.unique hU

variable (P) in
/-- `holdsType<T>()` tells whether there is an object that was constructed as a `T`. -/
def Tells (s : Poly t V) (T : L.Named) : Prop :=
  s.holdsType T = true ↔ ∃ v, s.data_ = some v ∧ P.kind v = T.1

/-- It does if `T` is listed or there is no object of the class nearest to `T`. -/
theorem tells_iff (h : (polyFlag L P).holds s) (T : L.Named) :
    Tells P s T ↔
      T.1 ∈ L.classes ∨ ∀ v, s.data_ = some v → ¬ L.Nearest L.classes T.1 (P.kind v) := by
  rw [Tells, holdsType_iff_nearest h]
  by_cases hT : T.1 ∈ L.classes
  · refine iff_of_true ?_ (.inl hT)
    refine exists_congr fun v => and_congr_right fun _ => ?_
    exact Overload.Hierarchy.nearest_listed hT
  · have hnone : ¬ ∃ v, s.data_ = some v ∧ P.kind v = T.1 := by
      rintro ⟨v, hv, hk⟩
      obtain ⟨U, hU, -⟩ := number_of_held h hv
      exact hT (hk ▸ hU ▸ U.2)
    rw [iff_false_right hnone, or_iff_right hT, not_exists]
    exact forall_congr' fun v => not_and

/-- Where the number is not that of what there is, it has to be about neither. -/
theorem stale_tells_iff (h : ¬ (polyFlag L P).holds s)
    (hkind : ∀ v, s.data_ = some v → P.kind v ∈ L.classes) (T : L.Named) :
    Tells P s T ↔ (∀ v, s.data_ = some v → P.kind v ≠ T.1) ∧
      ∀ U : L.Listed, s.id_ = L.idValue U.named → ¬ L.Nearest L.classes T.1 U.1 := by
  obtain ⟨N, hN, hid⟩ := idValue_nearest T
  have hnumber : s.holdsType T = true ↔
      ∃ U : L.Listed, s.id_ = L.idValue U.named ∧ L.Nearest L.classes T.1 U.1 := by
    rw [Poly.holdsType, beq_iff_eq, hid]
    constructor
    · exact fun hs => ⟨N, hs, hN⟩
    · rintro ⟨U, hs, hU⟩
      exact hs.trans (idValue_inj.mpr (hU.unique hN))
  -- the number and what there is are not both right
  have hnot : ¬ (s.holdsType T = true ∧ ∃ v, s.data_ = some v ∧ P.kind v = T.1) := by
    rintro ⟨hholds, v, hv, hk⟩
    obtain ⟨U, hs, hU⟩ := hnumber.mp hholds
    have hT : T.1 ∈ L.classes := hk ▸ hkind v hv
    have hU' : U.1 = T.1 := (Overload.Hierarchy.nearest_listed hT).mp hU
    refine h ?_
    simp only [polyFlag, hv]
    exact ⟨U, hk.trans hU'.symm, hs⟩
  have hkinds : (∀ v, s.data_ = some v → P.kind v ≠ T.1) ↔
      ¬ ∃ v, s.data_ = some v ∧ P.kind v = T.1 := by
    simp only [not_exists, not_and]
  have hnumbers : (∀ U : L.Listed, s.id_ = L.idValue U.named → ¬ L.Nearest L.classes T.1 U.1) ↔
      ¬ s.holdsType T = true := by
    rw [hnumber]
    simp only [not_exists, not_and]
  rw [hkinds, hnumbers, Tells, ← not_or]
  constructor
  · rintro htells (hv | hholds)
    · exact hnot ⟨htells.mpr hv, hv⟩
    · exact hnot ⟨hholds, htells.mp hholds⟩
  · intro hneither
    exact iff_of_false (fun hholds => hneither (.inr hholds)) fun hv => hneither (.inl hv)

/-! ## Where calls lead -/

variable [DecidableEq A]

variable (L P) in
/-- One call whose operands are in order, in either build; a constructor may throw. -/
def polyCall (cxx17 : Bool) (w : PolyWorld A t V C) (op : PolyOp A V L)
    (w' : PolyWorld A t V C) : Prop := op.Legal P w ∧ polyStepIn L P cxx17 w op w'

variable (L P) in
/-- What there is in the poly was constructed as a class of the list. -/
def Kinded (s : Poly t V) : Prop := ∀ v, s.data_ = some v → P.kind v ∈ L.classes

variable {w w' : PolyWorld A t V C} {a : A} {T : L.Listed} {value : Source A V} {cxx17 : Bool}

omit [DecidableEq C] [DecidableEq A] in
theorem Kinded.similar (h : w.Every (Kinded L P)) (hs : Similar P w w') :
    w'.Every (Kinded L P) := by
  intro b s' hs' v hv
  obtain ⟨s, hmem, htouch⟩ := hs.mem_of hs'
  rcases htouch with rfl | ⟨u, u', hu, hk, rfl⟩
  · exact h b s' hmem v hv
  · cases hv
    exact hk ▸ h b s hmem u hu

/-- A class of the list is constructed. -/
theorem kinds_constructFrom (h : w.Every (Kinded L P)) (hval : value.Readable P w T.1) :
    Ends (constructFrom P a T.1 value) w (fun _ w' => w'.Every (Kinded L P))
      fun _ w' => w'.Every (Kinded L P) := by
  refine ends_constructFrom_similar hval ?_ fun _ w₁ hw₁ _ => Kinded.similar h hw₁
  intro w₁ v hw₁ _ hk
  refine (keeps_perform _ a fun s _ u hu => ?_).ends (Kinded.similar h hw₁)
  cases hu
  exact hk ▸ T.2

variable (L P) in
/-- Nothing but the poly at `a` is other than in `w`, and there is no object of another class. -/
def KindedSince (w : PolyWorld A t V C) (a : A) (w' : PolyWorld A t V C) : Prop :=
  w'.Every (Kinded L P) ∧ ∀ b, b ≠ a → w'.mem b = w.mem b

omit [DecidableEq C] in
theorem keeps_kindedSince (es : List (Event A C)) {f : Poly t V → Poly t V}
    (hf : ∀ s v, (f s).data_ = some v → s.data_ = some v) :
    (perform es a f : Prog (PolyWorld A t V C) Unit).Keeps (KindedSince L P w a) := by
  intro w₁
  have hkinds := keeps_perform (J := Kinded L P) (K := C) es a (fun s hs v hv => hs v (hf s v hv)) w₁
  revert hkinds
  simp only [Ends, perform]
  cases w₁.mem a with
  | none => exact fun _ h => h
  | some s =>
      intro hkinds h
      exact ⟨hkinds h.1, fun b hb => (World.act_mem_of_ne _ _ _ hb).trans (h.2 b hb)⟩

theorem kinds_clear (cxx17 : Bool) :
    (Poly.clear L P cxx17 a).Keeps (KindedSince L P w a) :=
  Poly.keeps_clear_of (fun _ => keeps_kindedSince _ fun _ _ => nofun)
    (keeps_kindedSince _ fun _ _ => id) cxx17

theorem kinds_assign (h : w.Every (Kinded L P)) (hval : value.Readable P w T.1)
    (hap : value.Apart a) :
    Ends (Poly.assign P cxx17 a T value false) w (fun _ w' => w'.Every (Kinded L P))
      fun _ w' => w'.Every (Kinded L P) := by
  have built : ∀ w₁, KindedSince L P w a w₁ → Ends (constructFrom P a T.1 value) w₁
      (fun _ w' => w'.Every (Kinded L P)) fun _ w' => w'.Every (Kinded L P) := by
    intro w₁ hw₁
    refine kinds_constructFrom hw₁.1 ?_
    cases value with
    | value v => exact hval
    | copy b f | move b f =>
        obtain ⟨s, v, hb, hrest⟩ := hval
        exact ⟨s, v, (hw₁.2 b hap).trans hb, hrest⟩
  -- up to there nothing happens outside the poly
  have loaded : (load a : Prog (PolyWorld A t V C) (Poly t V)).Keeps (KindedSince L P w a) :=
    within_load (fun _ => id) a
  have hid : (Poly.setId a (L.idValue T.named) : Prog (PolyWorld A t V C) Unit).Keeps
      (KindedSince L P w a) := keeps_kindedSince _ fun _ _ => id
  have hdata : (perform [] a fun s => { s with data_ := none } :
      Prog (PolyWorld A t V C) Unit).Keeps (KindedSince L P w a) := keeps_kindedSince _ fun _ _ => nofun
  simp only [Poly.assign, Poly.new_, ends_bind, Bool.false_and, Bool.false_eq_true, if_false]
  refine (loaded.ends ⟨h, fun _ _ => rfl⟩).mono (fun _ _ h₁ => ?_) fun _ _ => And.left
  refine ((kinds_clear cxx17).ends h₁).mono (fun _ _ h₂ => ?_) fun _ _ => And.left
  refine (loaded.ends h₂).mono (fun _ _ h₃ => ?_) fun _ _ => And.left
  refine (hid.ends h₃).mono (fun _ _ h₄ => ?_) fun _ _ => And.left
  exact (hdata.ends h₄).mono (fun _ w₅ => built w₅) fun _ _ => And.left

theorem kinds_polyOp {op : PolyOp A V L} (h : w.Every (Kinded L P)) (hlegal : op.Legal P w) :
    Ends (op.run P cxx17) w (fun _ w' => w'.Every (Kinded L P))
      fun _ w' => w'.Every (Kinded L P) := by
  cases op with
  | default a => exact (keeps_acquire a fun _ => nofun).ends h
  | ofCopy a T value | ofMove a T value =>
      obtain ⟨ha, hval⟩ := hlegal
      rw [PolyOp.run, Poly.ofValue, ends_bind, ends_acquire, ends_unwinding]
      refine (kinds_constructFrom (h.act _ a ?_) (hval.act (hval.apart ha) _ _)).mono
        (fun _ _ => id) fun e w₁ hw₁ => ?_
      · rintro _ ⟨⟩ v ⟨⟩
      · split
        · exact (Lifetime.keeps_release a).ends hw₁
        · exact hw₁
  | assignCopy a T value | assignMove a T value => exact kinds_assign h hlegal.2.1 hlegal.2.2
  | clear a =>
      exact ((kinds_clear cxx17).ends ⟨h, fun _ _ => rfl⟩).mono (fun _ _ => And.left) fun _ _ => And.left
  | destroy a =>
      rw [PolyOp.run, Poly.dtor, ends_bind]
      refine ((kinds_clear cxx17).ends ⟨h, fun _ _ => rfl⟩).mono (fun _ _ h₁ => ?_) fun _ _ => And.left
      exact (Lifetime.keeps_release a).ends h₁.1

variable {replies : Nat → Reply} {ops : List (PolyOp A V L)}

theorem kinds_of_run (h : Run (polyCall L P cxx17) (World.init replies) ops w) :
    w.Every (Kinded L P) := by
  refine h.invariant (World.every_init replies) ?_
  rintro w op w' hw ⟨hlegal, hok | herr⟩
  · exact (kinds_polyOp hw hlegal).of_ok hok
  · exact (kinds_polyOp hw hlegal).of_error herr

/-- Wherever calls lead, in either build: `holdsType<T>()` is about `T` exactly when

* the number is that of what is held, and `T` is listed or what is held is not of the listed
  class nearest to `T`, or
* the number is not, and neither is what is held a `T` nor is the number that of the listed
  class nearest to `T`. -/
theorem holdsType_run_iff (h : Run (polyCall L P cxx17) (World.init replies) ops w)
    (ha : w.mem a = some s) (T : L.Named) :
    Tells P s T ↔
      ((polyFlag L P).holds s ∧
        (T.1 ∈ L.classes ∨ ∀ v, s.data_ = some v → ¬ L.Nearest L.classes T.1 (P.kind v))) ∨
      (¬ (polyFlag L P).holds s ∧ (∀ v, s.data_ = some v → P.kind v ≠ T.1) ∧
        ∀ U : L.Listed, s.id_ = L.idValue U.named → ¬ L.Nearest L.classes T.1 U.1) := by
  by_cases hs : (polyFlag L P).holds s
  · rw [or_iff_left fun hstale => hstale.1 hs, and_iff_right hs]
    exact tells_iff hs T
  · rw [or_iff_right fun hfresh => hs hfresh.1, and_iff_right hs]
    exact stale_tells_iff hs (kinds_of_run h a s ha) T

end

/-- `Poly<MyBase, Meower>`. -/
def meowerPoly : PolyTypes x64 TestClass where
  toHierarchy := testPoly.toHierarchy
  Base := .MyBase
  Derived := [.Meower]
  virtualDtor _ := true
  distinct := by decide
  derived := by decide
  fits := by decide

/-- A poly that has been given a `MyBase`. -/
def baseGiven : List (PolyOp Nat (TestClass × Nat) meowerPoly) :=
  [] ++ [.default 0] ++ [.assignMove 0 meowerPoly.base (.value (.MyBase, 7))]

/-- It is no `Meower`. -/
theorem base_is_no_meower :
    ∃ w s, Run (polyCall meowerPoly testPayload true)
        (World.init (Reply.assigning fun _ => false)) baseGiven w ∧ w.mem 0 = some s ∧
      Tells testPayload s (Listed.named (L := meowerPoly) ⟨.Meower, by decide⟩) := by
  have given : Run (polyCall meowerPoly testPayload true)
      (World.init (Reply.assigning fun _ => false)) baseGiven _ :=
    .snoc (.snoc .nil ⟨rfl, .inl rfl⟩) ⟨⟨nofun, rfl, trivial⟩, .inl rfl⟩
  exact ⟨_, _, given, rfl, (holdsType_run_iff (a := 0) given rfl _).mpr
    (.inl ⟨⟨meowerPoly.base, rfl, by decide⟩, .inl (by decide)⟩)⟩

/-- `holdsType<Woofer>()` says that it is a `Woofer`. -/
theorem base_taken_for_woofer :
    ∃ w s, ∃ T : meowerPoly.Named,
      Run (polyCall meowerPoly testPayload true)
        (World.init (Reply.assigning fun _ => false)) baseGiven w ∧ w.mem 0 = some s ∧
      T.1 = .Woofer ∧ s.data_ = some (.MyBase, 7) ∧ s.holdsType T = true ∧
      ¬ Tells testPayload s T := by
  have given : Run (polyCall meowerPoly testPayload true)
      (World.init (Reply.assigning fun _ => false)) baseGiven _ :=
    .snoc (.snoc .nil ⟨rfl, .inl rfl⟩) ⟨⟨nofun, rfl, trivial⟩, .inl rfl⟩
  refine ⟨_, _, ⟨.Woofer, rfl⟩, given, rfl, rfl, rfl, rfl, ?_⟩
  intro htells
  obtain ⟨v, hv, hk⟩ := htells.mp rfl
  cases hv
  cases hk

end EflCore
