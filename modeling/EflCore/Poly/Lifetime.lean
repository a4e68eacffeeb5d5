/-
# `EflCore.Poly.Lifetime` — the number names the class that is alive

The invariant (`PolyInv`) says three things: the log and the cells agree, the number of
every poly is that of the class of its object (`polyFlag`), and what the polys hold is
what they were last given.

What `clear_` does follows from the second: the number is that of one class of the list
and of no other, so the fold passes over the nodes before it, and stops there.

    call             what it finds                      what it leaves
    clear            the invariant                      nothing held, the number ~0
    setId            nothing held                       nothing held, the number of T
    new_             nothing held, the number of T      a T, the value it was given

All of this is in the C++17 build.

Between the second and the third line the number names an object that is not there yet;
that is the other half of `IntactBut`.
-/
import EflCore.Poly

namespace EflCore

open Layout Lifetime PolyTypes

section
variable {A C V : Type} {t : Target} [DecidableEq A] [DecidableEq C] {L : PolyTypes t C}
  {P : Payload V C}

variable (L P) in
/-- The number of a poly says of what class its object is. -/
def polyFlag : FieldInv (Poly t V) P where
  holds s := match s.data_ with
    | none => s.id_ = emptyState
    | some v => ∃ T : L.Listed, P.kind v = T.1 ∧ s.id_ = L.idValue T.named
  touched := by
    rintro s _ (rfl | ⟨v, v', hv, hk, rfl⟩) h
    · exact h
    · rw [show s.data_ = some v from hv] at h
      obtain ⟨T, hT, hid⟩ := h
      exact ⟨T, hk.trans hT, hid⟩

/-- The log is right about the cells, the numbers are too, no constructor throws, and
the polys hold `h`. -/
structure PolyInv (L : PolyTypes t C) (P : Payload V C) (h : A → Option V)
    (w : PolyWorld A t V C) : Prop where
  intact : Intact (polyFlag L P) w
  nothrow : w.NoCtorThrows
  held : w.held = h

variable {w : PolyWorld A t V C} {h : A → Option V} {a : A} {s : Poly t V} {v : V}

namespace PolyInv

theorem init (assignThrows : Nat → Bool) :
    PolyInv L P (fun _ : A => none) (World.init (Reply.assigning assignThrows)) :=
  ⟨.init _, fun _ => rfl, rfl⟩

end PolyInv

/-- An empty poly has the number of the empty state. -/
theorem empty_of_held (h : (polyFlag L P).holds s) (hd : s.data_ = none) :
    s = ⟨none, emptyState⟩ := by
  obtain ⟨d, n⟩ := s
  obtain rfl : d = none := hd
  obtain rfl : n = emptyState := h
  rfl

/-- The number of a poly that is not empty is that of the class of its object. -/
theorem number_of_held (h : (polyFlag L P).holds s) (hd : s.data_ = some v) :
    ∃ T : L.Listed, P.kind v = T.1 ∧ s.id_ = L.idValue T.named := by
  simp only [polyFlag, hd] at h
  exact h

/-- The number of a poly is that of `T` exactly when there is a `T` in it. -/
theorem number_iff_held (h : (polyFlag L P).holds s) (T : L.Listed) :
    s.id_ = L.idValue T.named ↔ ∃ v, s.data_ = some v ∧ P.kind v = T.1 := by
  constructor
  · intro hid
    cases hd : s.data_ with
    | none =>
        rw [empty_of_held h hd] at hid
        exact absurd hid.symm (idValue_ne_emptyState T)
    | some v =>
        obtain ⟨T', hT', hid'⟩ := number_of_held h hd
        exact ⟨v, rfl, hT'.trans (idValue_inj.mp (hid'.symm.trans hid))⟩
  · rintro ⟨v, hd, hT⟩
    obtain ⟨T', hT', hid'⟩ := number_of_held h hd
    exact hid'.trans (idValue_inj.mpr (hT'.symm.trans hT))

/-! ## Clearing -/

namespace Poly

section Clear
variable {T : L.Listed} {E : Stop → PolyWorld A t V C → Prop}

/-- Virtual or not, `~T` called on a `T` is `~T`. -/
theorem ends_destruct {Q : Unit → PolyWorld A t V C → Prop} (ha : w.mem a = some s)
    (hd : s.data_ = some v) (hT : P.kind v = T.1) :
    Ends (destruct L P T.1 a) w Q E ↔
      Q () (w.act [.destroy a (P.kind v)] a (some ⟨none, s.id_⟩)) := by
  simp only [destruct, ends_bind, ends_load ha, hd, hT, true_or, if_true]
  cases L.virtualDtor T.1 with
  | true => exact ends_perform ha ..
  | false => exact ends_perform ha ..

/-- A node runs its destructor exactly when it is given its own number. -/
theorem ends_nodeValues {Q : Bool → PolyWorld A t V C → Prop} {D : C} (hD : D ∈ L.classes)
    (n : t.SzType) :
    Ends (nodeValues L P D n a) w Q E ↔
      if n = L.idValue (Listed.named ⟨D, hD⟩) then
        Ends (destruct L P D a) w (fun _ => Q true) E
      else Q false w := by
  have hnode := nodeOf_listed (L := L) ⟨D, hD⟩
  simp only [nodeValues, hnode, nodeCall, beq_iff_eq]
  split
  · exact ends_bind ..
  · exact ends_pure _

/-- The fold passes over the nodes of the other classes and stops at that of `T`. -/
theorem ends_fold {Q : Bool → PolyWorld A t V C → Prop} {Ds : List C}
    (hDs : ∀ D ∈ Ds, D ∈ L.classes) (hT : T.1 ∈ Ds) :
    Ends (Prog.foldOr (Ds.map fun D => nodeValues L P D (L.idValue T.named) a)) w Q E ↔
      Ends (destruct L P T.1 a) w (fun _ => Q true) E := by
  induction Ds with
  | nil => cases hT
  | cons D Ds ih =>
      have hD := hDs D List.mem_cons_self
      rw [List.map_cons, ends_foldOr_cons, ends_nodeValues hD]
      rcases eq_or_ne T.1 D with rfl | hne
      · rw [if_pos rfl]
        rfl
      · have hmem : T.1 ∈ Ds := (List.mem_cons.mp hT).resolve_left hne
        rw [if_neg (mt idValue_inj.mp hne)]
        exact ih (fun X hX => hDs X (List.mem_cons_of_mem D hX)) hmem

/-- Whatever the place of `T` in the list, its number leads to its destructor. -/
theorem ends_clear_number {Q : Unit → PolyWorld A t V C → Prop} (ha : w.mem a = some s)
    (hid : s.id_ = L.idValue T.named) :
    Ends (clear_ L P true a) w Q E ↔ Ends (destruct L P T.1 a) w Q E := by
  have hany : s.holdsAny = true := by
    rw [holdsAny, hid, Bool.not_eq_true', beq_eq_false_iff_ne]
    exact idValue_ne_emptyState T
  rw [clear_, ends_bind, ends_load ha, hany]
  simp only [Bool.not_true, Bool.false_eq_true, if_false, beq_iff_eq]
  by_cases hzero : s.id_ = 0#_
  · have hbase : T.1 = L.Base := (idValue_eq_zero T).mp (hid.symm.trans hzero)
    rw [if_pos hzero, hbase]
  · have hne : T.1 ≠ L.Base := fun hbase => hzero (hid.trans ((idValue_eq_zero T).mpr hbase))
    have hmem : T.1 ∈ L.Derived := (List.mem_cons.mp T.2).resolve_left hne
    rw [if_neg hzero, if_true, ends_bind, hid]
    exact ends_fold (fun D hD => List.mem_cons_of_mem _ hD) hmem

/-- The object is destroyed by its own destructor. -/
theorem ends_clear_ {Q : Unit → PolyWorld A t V C → Prop} (ha : w.mem a = some s)
    (hd : s.data_ = some v) (hT : P.kind v = T.1) (hid : s.id_ = L.idValue T.named) :
    Ends (clear_ L P true a) w Q E ↔
      Q () (w.act [.destroy a (P.kind v)] a (some ⟨none, s.id_⟩)) :=
  (ends_clear_number ha hid).trans (ends_destruct ha hd hT)

variable (P) in
/-- What `clear` leaves of a poly. -/
def cleared (w : PolyWorld A t V C) (a : A) (s : Poly t V) : PolyWorld A t V C :=
  w.act (s.data_.elim [] fun v => [.destroy a (P.kind v)]) a (some ⟨none, emptyState⟩)

theorem ends_clear {Q : Unit → PolyWorld A t V C → Prop} (h : (polyFlag L P).holds s)
    (ha : w.mem a = some s) : Ends (clear L P true a) w Q E ↔ Q () (cleared P w a s) := by
  rw [clear, ends_noexcept, ends_bind, cleared]
  cases hd : s.data_ with
  | none =>
      obtain rfl := empty_of_held h hd
      simp only [clear_, ends_bind, ends_load ha, holdsAny, beq_self_eq_true, Bool.not_true,
        Bool.not_false, if_true, ends_pure, setId, ends_perform ha, Option.elim_none]
  | some v =>
      obtain ⟨T, hT, hid⟩ := number_of_held h hd
      rw [ends_clear_ ha hd hT hid, setId, ends_perform (World.act_mem_self ..), World.act_act]
      rfl

theorem intact_cleared (h : Intact (polyFlag L P) w) (ha : w.mem a = some s) :
    Intact (polyFlag L P) (cleared P w a s) := by
  refine h.act ?_ rfl
  cases hd : s.data_ with
  | none => exact h.tracks.quiet ha (by rw [empty_of_held (h.fields a s ha) hd])
  | some v => exact h.tracks.destroy ha hd rfl

end Clear
/-! ## Filling -/

section Keep
variable {T : L.Listed} {value : Source A V} {g : A → Option V}

/-- The end of the constructors and the assignments: the number is there, and then the
object. -/
theorem keeps_fill (h : IntactBut (polyFlag L P) a w) (hn : w.NoCtorThrows)
    (ha : w.mem a = some ⟨none, L.idValue T.named⟩) (hval : value.Readable P w T.1)
    (hap : value.Apart a) (hg : w.held = Function.update g a none) :
    Ends (constructFrom P a T.1 value) w
      (fun _ => PolyInv L P (Function.update (value.left P g) a (value.taken g)))
      (fun _ _ => False) := by
  obtain ⟨v, hv, hk, hends⟩ := ends_constructFrom_exact hval (hn 0)
  obtain ⟨ht, hs⟩ := leaves_similar h.tracks hval
  have ha₁ := hs.mem_raw ha rfl
  rw [hends, construct, ends_perform ha₁]
  refine ⟨(h.similar ht hs).done (ht.construct ha₁ rfl rfl) ⟨T, hk, rfl⟩, hs.noCtorThrows hn, ?_⟩
  rw [World.held_act, Source.held_leaves, hg, Source.left_update hap, Function.update_idem,
    ← Source.taken_update hap g none, ← hg, hv]
  rfl

theorem keeps_ctor (h : PolyInv L P g w) (ha : w.mem a = none) :
    Ends (ctor a) w (fun _ => PolyInv L P (Function.update g a none)) (fun _ _ => False) := by
  rw [ctor, ends_acquire]
  refine ⟨h.intact.acquired ha rfl rfl, h.nothrow, ?_⟩
  rw [World.held_act, h.held]
  rfl

theorem keeps_ofValue (h : PolyInv L P g w) (ha : w.mem a = none)
    (hval : value.Readable P w T.1) :
    Ends (ofValue P a T value) w
      (fun _ => PolyInv L P (Function.update (value.left P g) a (value.taken g)))
      (fun _ _ => False) := by
  have hap := hval.apart ha
  have hstart := h.intact.begin_
    (h.intact.tracks.acquire (s := (⟨none, L.idValue T.named⟩ : Poly t V)) ha rfl)
  rw [ofValue, ends_bind, ends_acquire, ends_unwinding]
  refine (keeps_fill hstart h.nothrow (World.act_mem_self ..) (hval.act hap ..) hap ?_).mono
    (fun _ _ => id) fun _ _ => False.elim
  rw [World.held_act, h.held]
  rfl

theorem keeps_clear (h : PolyInv L P g w) (ha : w.mem a ≠ none) :
    Ends (clear L P true a) w (fun _ => PolyInv L P (Function.update g a none))
      (fun _ _ => False) := by
  obtain ⟨s, hs⟩ := Option.ne_none_iff_exists'.mp ha
  rw [ends_clear (h.intact.fields a s hs) hs]
  refine ⟨intact_cleared h.intact hs, h.nothrow, ?_⟩
  rw [cleared, World.held_act, h.held]
  rfl

theorem keeps_assign (h : PolyInv L P g w) (ha : w.mem a ≠ none)
    (hval : value.Readable P w T.1) (hap : value.Apart a) :
    Ends (assign P true a T value false) w
      (fun _ => PolyInv L P (Function.update (value.left P g) a (value.taken g)))
      (fun _ _ => False) := by
  obtain ⟨s, hs⟩ := Option.ne_none_iff_exists'.mp ha
  have hcleared := intact_cleared h.intact hs
  have hmem : (cleared P w a s).mem a = some ⟨none, emptyState⟩ := World.act_mem_self ..
  have hnumber : Tracks P ((cleared P w a s).act [] a (some ⟨none, L.idValue T.named⟩)) :=
    hcleared.tracks.quiet hmem rfl
  have hnew : ((cleared P w a s).act [] a (some ⟨none, L.idValue T.named⟩)).act [] a
      (some ⟨none, L.idValue T.named⟩) = (cleared P w a s).act [] a (some ⟨none, L.idValue T.named⟩) :=
    World.act_act ..
  simp only [assign, ends_bind, ends_load hs, ends_clear (h.intact.fields a s hs) hs, ends_load hmem,
    setId, ends_perform hmem, new_, ends_perform (World.act_mem_self ..), hnew, Bool.false_and,
    Bool.false_eq_true, if_false]
  refine keeps_fill (hcleared.begin_ hnumber) h.nothrow (World.act_mem_self ..)
    ((hval.act hap ..).act hap ..) hap ?_
  rw [World.held_act, cleared, World.held_act, Function.update_idem, h.held]
  rfl

theorem keeps_dtor (h : PolyInv L P g w) (ha : w.mem a ≠ none) :
    Ends (dtor L P true a) w (fun _ => PolyInv L P (Function.update g a none))
      (fun _ _ => False) := by
  obtain ⟨s, hs⟩ := Option.ne_none_iff_exists'.mp ha
  rw [dtor, ends_bind, ends_clear (h.intact.fields a s hs) hs, ends_release]
  refine ⟨(intact_cleared h.intact hs).released (World.act_mem_self ..) rfl, h.nothrow, ?_⟩
  rw [World.held_act, cleared, World.held_act, Function.update_idem, h.held]
  rfl

/-- A legal call returns, and the polys hold what they should. -/
theorem keeps_polyOp {op : PolyOp A V L} (h : PolyInv L P g w) (hlegal : op.Legal P w) :
    Ends (op.run P true) w (fun _ => PolyInv L P (op.after P g)) (fun _ _ => False) := by
  cases op with
  | default a => exact keeps_ctor h hlegal
  | ofCopy a T value | ofMove a T value => exact keeps_ofValue h hlegal.1 hlegal.2
  | assignCopy a T value | assignMove a T value =>
      exact keeps_assign h hlegal.1 hlegal.2.1 hlegal.2.2
  | clear a => exact keeps_clear h hlegal
  | destroy a => exact keeps_dtor h hlegal

end Keep

end Poly

/-! ## Runs -/

namespace PolyInv
variable {g : A → Option V}

theorem tracks (h : PolyInv L P g w) :
    ∃ φ, monitor start w.log = some φ ∧ ∀ a k, φ a = .live k ↔ ∃ v, g a = some v ∧ P.kind v = k := by
  refine ⟨_, h.intact.tracks, fun a k => ?_⟩
  rw [← h.held]
  cases ha : w.mem a with
  | none => simp [World.phases, World.held, ha]
  | some s => cases hd : s.data_ <;> simp [World.phases, World.held, ha, cellPhase, Holder.cell, hd]

theorem held_eq (h : PolyInv L P g w) (ha : w.mem a = some s) : g a = s.data_ := by
  rw [← h.held]
  exact World.held_eq ha

/-- The number of a poly is that of `T` exactly when it holds a `T`. -/
theorem number_iff (h : PolyInv L P g w) (ha : w.mem a = some s) (T : L.Listed) :
    s.id_ = L.idValue T.named ↔ ∃ v, g a = some v ∧ P.kind v = T.1 := by
  rw [h.held_eq ha]
  exact number_iff_held (h.intact.fields a s ha) T

omit [DecidableEq A] in
theorem downcast_eq (T : L.Listed) :
    s.downcast T a = if s.id_ = L.idValue T.named then some a else none := by
  rw [Poly.downcast, Poly.holdsType]
  by_cases hid : s.id_ = L.idValue T.named
  · rw [if_pos hid, hid, beq_self_eq_true]
    rfl
  · rw [if_neg hid, beq_eq_false_iff_ne.mpr hid]
    rfl

theorem holdsAny_iff (h : PolyInv L P g w) (ha : w.mem a = some s) :
    s.holdsAny = true ↔ ∃ v, g a = some v := by
  rw [h.held_eq ha, Poly.holdsAny, Bool.not_eq_true', beq_eq_false_iff_ne]
  cases hd : s.data_ with
  | none =>
      rw [empty_of_held (h.intact.fields a s ha) hd]
      exact ⟨fun hne => absurd rfl hne, nofun⟩
  | some v =>
      obtain ⟨T, -, hid⟩ := number_of_held (h.intact.fields a s ha) hd
      rw [hid]
      exact ⟨fun _ => ⟨v, rfl⟩, fun _ => idValue_ne_emptyState T⟩

theorem sound (h : PolyInv L P g w) : PolySound L P g w where
  tracks := h.tracks
  once a ha := by
    obtain ⟨φ, hφ, hlive⟩ := h.tracks
    refine DestroyedOnce.of_monitor hφ fun k hk => ?_
    obtain ⟨v, hv, -⟩ := (hlive a k).mp hk
    rw [ha] at hv
    cases hv
  holdsAny a s ha := h.holdsAny_iff ha
  downcast a s T ha := by
    rw [← h.number_iff ha T, downcast_eq]
    split
    · next hid => exact iff_of_true nofun hid
    · next hid => exact iff_of_false (fun hne => hne rfl) hid
  yields a s T p ha hp := by
    rw [downcast_eq] at hp
    split at hp
    · next hid =>
      cases hp
      obtain ⟨v, hv, hT⟩ := (h.number_iff ha T).mp hid
      have hd : Holder.cell s = some v := (h.held_eq ha).symm.trans hv
      exact ⟨v, hv, deref_eq ha hd hT⟩
    · cases hp

end PolyInv

theorem poly_run_inv {assignThrows : Nat → Bool} {ops : List (PolyOp A V L)}
    (h : Run (polyStep L P) (World.init (Reply.assigning assignThrows)) ops w) :
    PolyInv L P (PolyOp.lastGiven P ops) w := by
  refine h.relates (R := fun ops w => PolyInv L P (PolyOp.lastGiven P ops) w)
    (.init assignThrows) ?_
  rintro ops w op w' hw ⟨hlegal, hok⟩
  rw [PolyOp.lastGiven, List.foldl_concat]
  exact (Poly.keeps_polyOp hw hlegal).of_ok hok

/-- Whatever is constructed in, assigned to and cleared from the polys. -/
theorem poly_run_sound {assignThrows : Nat → Bool} {ops : List (PolyOp A V L)}
    (h : Run (polyStep L P) (World.init (Reply.assigning assignThrows)) ops w) :
    PolySound L P (PolyOp.lastGiven P ops) w := (poly_run_inv h).sound

/-- Every legal call of a run returns. -/
theorem poly_step_returns {assignThrows : Nat → Bool} {ops : List (PolyOp A V L)}
    (h : Run (polyStep L P) (World.init (Reply.assigning assignThrows)) ops w)
    {op : PolyOp A V L} (hlegal : op.Legal P w) : ∃ w', polyStep L P w op w' := by
  have hends := Poly.keeps_polyOp (poly_run_inv h) hlegal
  cases hrun : op.run P true w with
  | ok u w' => exact ⟨w', hlegal, hrun⟩
  | error e w' => exact (hends.of_error hrun).elim

end

/-- The classes of the tests. -/
inductive TestClass where
  | MyBase
  | Meower
  | Woofer
  deriving DecidableEq

/-- `Poly<MyBase, Meower, Woofer>` on a 64-bit machine. -/
def testPoly : PolyTypes x64 TestClass where
  isBase
    | .MyBase, .Meower | .MyBase, .Woofer => true
    | _, _ => false
  irrefl X := by cases X <;> rfl
  trans := by rintro (_ | _ | _) (_ | _ | _) (_ | _ | _) <;> simp
  Base := .MyBase
  Derived := [.Meower, .Woofer]
  virtualDtor _ := true
  distinct := by decide
  derived := by decide
  fits := by decide

/-- Objects of these classes, told apart by a number. -/
def testPayload : Payload (TestClass × Nat) TestClass := ⟨Prod.fst, fun _ v => v, fun _ _ => rfl⟩

/-- A `Meower`, then a `Woofer` in its place, and then nothing. -/
theorem poly_tests_sound :
    ∃ (ops : List (PolyOp Nat (TestClass × Nat) testPoly)) (w : PolyWorld Nat x64 _ TestClass),
      PolySound testPoly testPayload (PolyOp.lastGiven testPayload ops) w ∧
      w.log = [.acquire 0, .construct 0 .Meower, .destroy 0 .Meower, .construct 0 .Woofer,
        .destroy 0 .Woofer, .release 0] := by
  let Meower : testPoly.Listed := ⟨.Meower, by decide⟩
  let Woofer : testPoly.Listed := ⟨.Woofer, by decide⟩
  have empty : Run (polyStep testPoly testPayload) (World.init (Reply.assigning fun _ => false))
      ([] ++ [PolyOp.default 0]) _ := .snoc .nil ⟨rfl, rfl⟩
  have meower := Run.snoc (i := PolyOp.assignMove 0 Meower (Source.value (.Meower, 7))) empty
    ⟨⟨nofun, rfl, trivial⟩, rfl⟩
  have woofer := Run.snoc (i := PolyOp.assignMove 0 Woofer (Source.value (.Woofer, 9))) meower
    ⟨⟨nofun, rfl, trivial⟩, rfl⟩
  have clear := Run.snoc (i := PolyOp.clear 0) woofer ⟨nofun, rfl⟩
  have gone := Run.snoc (i := PolyOp.destroy 0) clear ⟨nofun, rfl⟩
  exact ⟨_, _, poly_run_sound gone, rfl⟩

end EflCore
