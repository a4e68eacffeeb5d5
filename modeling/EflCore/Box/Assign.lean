/-
# `EflCore.Box.Assign` — what a move assignment deletes

    Box& operator=(Box&& box) {
      this->reset();                  the old object is deleted, data_ is null
      this->data_ = box.data_;
      box.data_ = nullptr;
    }

The source is read after the target has been reset.  For two boxes with an object in each that
is right.  It is not if they are one box: then the object that was to be kept is deleted, and
what is read is the null that `reset` wrote.  Nor is it if the source is a box in the object
that the target owns, or in what that owns, as in `head = std::move(head->next)`: then the
source has ended, and its object with it, before it is read.

`reset` also calls `Delete` on the null pointer, because the hint on its condition is taken for
true (`EflCore.Builtins`); a destructor that does something runs there.  `X11::destruct` of a
type whose destructor does nothing is empty.

**Proved here**: with a stack that is deep enough, `a = std::move(b)` does what it is for
(`MoveAssigned`) exactly if `a` owns an object that neither box is inside, under which `b`'s is
not, and no assertion on the way to the allocator aborts (`MayAssign`), or if `a` is empty and
destructors do nothing (`moveAssign_iff`).  Where no two boxes own one object, an object of
which `b` owns another is enough (`mayAssign_iff`).
-/
import EflCore.Box.Runs

namespace EflCore

open Lifetime Relation

section
variable {B A : Type} [DecidableEq A]

/-! ## What a move assignment is for -/

/-- The events leave alone what `b` owned, and delete what `a` owned once, if it is something
else. -/
structure Deletes (env : BoxEnv B A) (p q : Option A) (es : List (Event (Option A) Unit)) :
    Prop where
  kept : q ≠ none → .destroy q () ∉ es ∧ .release q ∉ es
  once : p ≠ none → p ≠ q → es.count (.release p) = 1 ∧
    es.count (.destroy p ()) = if env.trivialDtor then 0 else 1
  null : .destroy none () ∉ es

/-- After `a = std::move(b)`, where `a` owned `p` and `b` owned `q`. -/
structure MoveAssigned (env : BoxEnv B A) (w : BoxWorld B A) (a b : B) (p q : Option A)
    (w' : BoxWorld B A) : Prop where
  target : w'.boxes a = some q
  source : b ≠ a → w'.boxes b = some none
  others : ∀ c, c ≠ a → c ≠ b → (∀ x, p = some x → ¬ w.Inside env c x) → w'.boxes c = w.boxes c
  log : ∃ es, w'.log = w.log ++ es ∧ Deletes env p q es

/-- What `a = std::move(b)` needs, of the object at `x` that `a` owns, where `b` owns `q`. -/
structure MayAssign (env : BoxEnv B A) (w : BoxWorld B A) (a b : B) (q : Option A) (x : A) :
    Prop where
  target : ¬ w.Inside env a x
  source : ¬ w.Inside env b x
  apart : ∀ y, q = some y → ¬ w.Under env x y
  acyclic : ¬ TransGen (w.Next env) x x
  lets : ∀ y, w.Under env x y → env.Lets y

variable {env : BoxEnv B A} {w : BoxWorld B A} {a b : B} {p q : Option A} {x : A}

omit [DecidableEq A] in
/-- Where no two boxes own one object, the boxes' own places say it all. -/
theorem mayAssign_iff (hunique : ∀ c d y, w.boxes c = some (some y) → w.boxes d = some (some y) → c = d)
    (ha : w.boxes a = some (some x)) (hb : w.boxes b = some q) :
    MayAssign env w a b q x ↔
      q ≠ some x ∧ ¬ w.Inside env a x ∧ ¬ w.Inside env b x ∧ ∀ y, w.Under env x y → env.Lets y := by
  constructor
  · intro h
    exact ⟨fun hq => h.apart x hq .refl, h.target, h.source, h.lets⟩
  · rintro ⟨hne, htarget, hsource, hlets⟩
    refine ⟨htarget, hsource, ?_, ?_, hlets⟩
    · rintro y rfl hy
      rcases hy.cases_tail with rfl | ⟨z, hz, c, hc, hown⟩
      · exact hne rfl
      · exact hsource ⟨z, hz, hunique c b y hown hb ▸ hc⟩
    · intro hcycle
      obtain ⟨z, hz, c, hc, hown⟩ := TransGen.tail'_iff.mp hcycle
      exact htarget ⟨z, hz, hunique c a x hown ha ▸ hc⟩

/-! ## The events -/

variable {es es₁ : List (Event (Option A) Unit)} {w₁ : BoxWorld B A}

/-- A block that is not under itself is in the events that go around those of its boxes, and in
no other. -/
theorem deletes_around
    (h : Swept env (TransGen (w.Next env) x) (w.Under env x) (w.emit (env.ending (some x))) es₁ w₁)
    (hapart : ∀ y, q = some y → ¬ w.Under env x y) (hx : ¬ TransGen (w.Next env) x x) :
    Deletes env (some x) q (env.ending (some x) ++ es₁ ++ [.release (some x)]) := by
  have hending : ∀ e ∈ env.ending (some x), e = .destroy (some x) () := by
    intro e he
    rw [BoxEnv.ending] at he
    split at he
    · cases he
    · exact List.mem_singleton.mp he
  have habout : ∀ e ∈ env.ending (some x) ++ es₁ ++ [.release (some x)],
      ∃ y, w.Under env x y ∧ (e = .destroy (some y) () ∨ e = .release (some y)) := by
    intro e he
    rcases List.mem_append.mp he with he | he
    · rcases List.mem_append.mp he with he | he
      · exact ⟨x, .refl, .inl (hending e he)⟩
      · obtain ⟨y, hy, he⟩ := h.about e he
        exact ⟨y, hy.to_reflTransGen, he⟩
    · exact ⟨x, .refl, .inr (List.mem_singleton.mp he)⟩
  have hboxes : Event.destroy (some x) () ∉ es₁ ∧ Event.release (some x) ∉ es₁ := by
    constructor
    · intro he
      obtain ⟨y, hy, heq | heq⟩ := h.about _ he
      · cases heq
        exact hx hy
      · cases heq
    · intro he
      obtain ⟨y, hy, heq | heq⟩ := h.about _ he
      · cases heq
      · cases heq
        exact hx hy
  refine ⟨fun hq => ?_, fun _ _ => ?_, fun hnull => ?_⟩
  · obtain ⟨y, rfl⟩ := Option.ne_none_iff_exists'.mp hq
    constructor
    · intro he
      obtain ⟨z, hz, heq | heq⟩ := habout _ he
      · cases heq
        exact hapart y rfl hz
      · cases heq
    · intro he
      obtain ⟨z, hz, heq | heq⟩ := habout _ he
      · cases heq
      · cases heq
        exact hapart y rfl hz
  · simp only [List.count_append, List.count_eq_zero.mpr hboxes.1,
      List.count_eq_zero.mpr hboxes.2, BoxEnv.ending]
    cases env.trivialDtor <;> simp
  · obtain ⟨y, -, heq | heq⟩ := habout _ hnull
    · cases heq
    · cases heq

omit [DecidableEq A] in
/-- A block that is under itself is released twice. -/
theorem released_twice
    (h : Swept env (TransGen (w.Next env) x) (w.Under env x) (w.emit (env.ending (some x))) es₁ w₁)
    (hdead : ∀ c ∈ env.members x, w₁.boxes c = none) (hx : TransGen (w.Next env) x x) :
    .release (some x) ∈ es₁ := by
  obtain ⟨y, ⟨c, hc, hown⟩, hunder⟩ := TransGen.head'_iff.mp hx
  exact h.gone (h.died c y hown (hdead c hc)) hunder

/-! ## The assignment -/

variable [DecidableEq B]

omit [DecidableEq A] in
theorem ends_afterDelete {Q : Unit → BoxWorld B A → Prop} :
    Ends (setBoxData a none) w₁ (fun _ w₂ => Ends (do setBoxData a (← boxData b); setBoxData b none)
        w₂ Q fun _ _ => False) (fun _ _ => False) ↔
      w₁.boxes a ≠ none ∧ ∃ r, (w₁.setBox a (some none)).boxes b = some r ∧
        Q () ((w₁.setBox a (some r)).setBox b (some none)) := by
  rw [ends_setBoxData]
  cases ha : w₁.boxes a with
  | none => exact ⟨False.elim, fun h => h.1 rfl⟩
  | some d =>
      have ha' : (w₁.setBox a (some none)).boxes a = some none := by
        rw [BoxWorld.setBox_boxes, if_pos rfl]
      have htwice : ∀ r, (w₁.setBox a (some none)).setBox a r = w₁.setBox a r := by
        intro r
        simp only [BoxWorld.setBox, Function.update_idem]
      cases hb : (w₁.setBox a (some none)).boxes b with
      | none => simp [hb]
      | some r =>
          simp only [ends_take ha' hb, htwice, Option.some.injEq, exists_eq_left', ne_eq,
            reduceCtorEq, not_false_eq_true, true_and]

/-- What the events of `Delete` of the block at `x` say, if they are as they should be. -/
theorem delete_tells (depth : Nat) (q : Option A) :
    Ends (BoxAllocator.delete env (depth + 1) (some x)) w
      (fun _ w₁ => (∀ c, w.Inside env c x → w₁.boxes c = none) ∧
        ∀ es, w₁.log = w.log ++ es → Deletes env (some x) q es →
          (∀ y, q = some y → ¬ w.Under env x y) ∧ ¬ TransGen (w.Next env) x x ∧
            ∀ y, w.Under env x y → env.Lets y)
      fun e _ => e = .aborted := by
  have hsweeps : Sweeps env (TransGen (w.Next env) x) (w.Under env x)
      (BoxAllocator.delete env depth) := delete_sweeps env (fun _ => TransGen.to_reflTransGen) depth
  have haround := delete_around depth hsweeps (fun c hc => ⟨x, .refl, hc⟩) (closed_under env w x)
  refine ((delete_swept (depth + 1) x w).and haround).mono ?_ fun _ _ => And.left
  rintro - _ ⟨⟨es, hswept, hrel⟩, es₁, w₁, hswept₁, hdead, -, rfl⟩
  refine ⟨fun c hc => hswept.dead hrel hc, fun es' hlog hdeletes => ?_⟩
  obtain rfl : es' = es := List.append_cancel_left (hlog.symm.trans hswept.log)
  have hevents : es' = env.ending (some x) ++ es₁ ++ [.release (some x)] := by
    refine List.append_cancel_left (hlog.symm.trans ?_)
    simp only [BoxWorld.emit_log, hswept₁.log, List.append_assoc]
  have hapart : ∀ y, q = some y → ¬ w.Under env x y := by
    rintro y rfl hy
    exact (hdeletes.kept nofun).2 (hswept.gone hrel hy)
  refine ⟨hapart, fun hcycle => ?_, fun y hy => (hswept.ended y (hswept.gone hrel hy)).1⟩
  have hne : some x ≠ q := fun hq => hapart x hq.symm .refl
  have honce := (hdeletes.once nofun hne).1
  have htwice := List.count_pos_iff.mpr (released_twice hswept₁ hdead hcycle)
  rw [hevents, List.count_append, List.count_append, List.count_singleton_self] at honce
  omega

/-- With a stack that is deep enough, `Delete` does what it should. -/
theorem delete_once {F : Finset B} (hF : Among F w) {depth : Nat} (hdepth : F.card ≤ depth)
    (h : MayAssign env w a b q x) :
    Ends (BoxAllocator.delete env (depth + 1) (some x)) w
      (fun _ w₁ => (∀ c, ¬ w.Inside env c x → w₁.boxes c = w.boxes c) ∧
        ∃ es, w₁.log = w.log ++ es ∧ Deletes env (some x) q es)
      fun _ _ => False := by
  have hsweeps : Sweeps env (TransGen (w.Next env) x) (w.Under env x)
      (BoxAllocator.delete env depth) := delete_sweeps env (fun _ => TransGen.to_reflTransGen) depth
  have haround := delete_around depth hsweeps (fun c hc => ⟨x, .refl, hc⟩) (closed_under env w x)
  have hreturns := delete_returns (depth + 1) F (by omega) (R := w.Under env x) .refl
    (fun _ _ hy hnext => hy.tail hnext) hF h.lets
  refine (haround.and hreturns).mono ?_ fun _ _ => And.right
  rintro - _ ⟨⟨es, w₁, hswept, -, -, rfl⟩, -⟩
  refine ⟨fun c hc => Swept.kept (w := w.emit _) hswept hc, _, ?_, deletes_around hswept h.apart h.acyclic⟩
  simp only [BoxWorld.emit_log, hswept.log, List.append_assoc]

omit [DecidableEq A] in
theorem ends_moveAssign {Q : Unit → BoxWorld B A → Prop} (depth : Nat) (ha : w.boxes a = some p) :
    Ends (Box.moveAssign env depth a b) w Q (fun _ _ => False) ↔
      Ends (BoxAllocator.delete env depth p) w
        (fun _ w₁ => w₁.boxes a ≠ none ∧ ∃ r, (w₁.setBox a (some none)).boxes b = some r ∧
          Q () ((w₁.setBox a (some r)).setBox b (some none)))
        fun _ _ => False := by
  rw [Box.moveAssign, ends_bind, ends_reset env depth ha]
  refine iff_of_eq (congrArg (Ends _ w · _) ?_)
  funext _ w₁
  exact propext ends_afterDelete

theorem moveAssigned_of {w₁ : BoxWorld B A} (hnull : b = a → q = none)
    (hsame : ∀ c, (∀ x, p = some x → ¬ w.Inside env c x) → w₁.boxes c = w.boxes c)
    (hlog : ∃ es, w₁.log = w.log ++ es ∧ Deletes env p q es) :
    MoveAssigned env w a b p q ((w₁.setBox a (some q)).setBox b (some none)) where
  target := by
    rw [BoxWorld.setBox_boxes, BoxWorld.setBox_boxes, if_pos rfl]
    split
    · next hab => rw [hnull hab.symm]
    · rfl
  source _ := by rw [BoxWorld.setBox_boxes, if_pos rfl]
  others c hca hcb hout := by
    rw [BoxWorld.setBox_boxes, if_neg hcb, BoxWorld.setBox_boxes, if_neg hca, hsame c hout]
  log := hlog

/-- With a stack that is deep enough, `a = std::move(b)` leaves each box with what it should have,
and deletes what `a` owned once, exactly when that is an object that neither box is inside and
`b`'s is not under, or when there is none and destructors do nothing. -/
theorem moveAssign_iff {F : Finset B} (hF : Among F w) (ha : w.boxes a = some p)
    (hb : w.boxes b = some q) :
    (∃ enough, ∀ depth ≥ enough, Ends (Box.moveAssign env depth a b) w
        (fun _ => MoveAssigned env w a b p q) fun _ _ => False) ↔
      (∃ x, p = some x ∧ MayAssign env w a b q x) ∨ p = none ∧ env.trivialDtor = true := by
  simp only [ends_moveAssign _ ha]
  constructor
  · rintro ⟨enough, h⟩
    replace h := h (enough + 1) (Nat.le_succ _)
    cases p with
    | none =>
        rw [ends_delete_none] at h
        obtain ⟨-, r, -, h⟩ := h
        obtain ⟨es, hlog, hdeletes⟩ := h.log
        obtain rfl : env.ending none = es := List.append_cancel_left hlog
        refine .inr ⟨rfl, ?_⟩
        by_contra htrivial
        refine hdeletes.null ?_
        rw [BoxEnv.ending, if_neg htrivial]
        exact List.mem_cons_self
    | some x =>
        obtain ⟨-, w₁, ⟨halive, r, hread, hassigned⟩, hinside, htells⟩ :=
          (h.and (delete_tells enough q)).mono (fun _ _ => id) (fun _ _ => And.left) |>.returns
        obtain ⟨es, hlog, hdeletes⟩ := hassigned.log
        obtain ⟨hapart, hacyclic, hlets⟩ := htells es hlog hdeletes
        have htarget : ¬ w.Inside env a x := fun hin => halive (hinside a hin)
        refine .inl ⟨x, rfl, htarget, fun hin => ?_, hapart, hacyclic, hlets⟩
        rw [BoxWorld.setBox_boxes] at hread
        split at hread
        · next hba => exact htarget (hba ▸ hin)
        · rw [hinside b hin] at hread
          cases hread
  · rintro (⟨x, rfl, h⟩ | ⟨rfl, htrivial⟩)
    · have hba : b ≠ a := by
        rintro rfl
        obtain rfl : some x = q := Option.some.inj (ha.symm.trans hb)
        exact h.apart x rfl .refl
      refine ⟨F.card + 1, fun depth hdepth => ?_⟩
      obtain ⟨depth, rfl⟩ := Nat.exists_eq_succ_of_ne_zero (Nat.ne_zero_of_lt hdepth)
      refine (delete_once hF (Nat.le_of_succ_le_succ hdepth) h).mono ?_ fun _ _ => id
      rintro - w₁ ⟨hsame, hlog⟩
      refine ⟨?_, q, ?_, moveAssigned_of (absurd · hba) (fun c hc => hsame c (hc x rfl)) hlog⟩
      · rw [hsame a h.target, ha]
        exact Option.some_ne_none _
      · rw [BoxWorld.setBox_boxes, if_neg hba, hsame b h.source, hb]
    · refine ⟨1, fun depth hdepth => ?_⟩
      obtain ⟨depth, rfl⟩ := Nat.exists_eq_succ_of_ne_zero (Nat.ne_zero_of_lt hdepth)
      have hnull : b = a → q = none := by
        rintro rfl
        exact (Option.some.inj (ha.symm.trans hb)).symm
      rw [Nat.succ_eq_add_one, ends_delete_none, BoxEnv.ending, if_pos htrivial, BoxWorld.emit_nil]
      refine ⟨by rw [ha]; exact Option.some_ne_none _, q, ?_, moveAssigned_of hnull (fun _ _ => rfl) ?_⟩
      · rw [BoxWorld.setBox_boxes]
        split
        · next hba => rw [hnull hba]
        · exact hb
      · exact ⟨[], (List.append_nil _).symm, fun _ => ⟨List.not_mem_nil, List.not_mem_nil⟩,
          fun hne => absurd rfl hne, List.not_mem_nil⟩

end

def twoBoxes : BoxWorld Nat Nat where
  boxes b := if b = 0 then some (some 7) else if b = 1 then some (some 8) else none
  released _ := false
  log := [.acquire (some 7), .construct (some 7) (), .acquire (some 8), .construct (some 8) ()]

theorem moved_between_two :
    ∃ enough, ∀ depth ≥ enough, Ends (Box.moveAssign releaseEnv depth 0 1) twoBoxes
      (fun _ => MoveAssigned releaseEnv twoBoxes 0 1 (some 7) (some 8)) fun _ _ => False := by
  have hnext : ∀ x y, ¬ twoBoxes.Next releaseEnv x y := by
    rintro x y ⟨c, hc, -⟩
    cases hc
  have hinside : ∀ c x, ¬ twoBoxes.Inside releaseEnv c x := by
    rintro c x ⟨y, -, hc⟩
    cases hc
  have hamong : Among {0, 1} twoBoxes := by
    intro c hc
    by_contra hout
    simp only [Finset.mem_insert, Finset.mem_singleton, not_or] at hout
    exact hc (by simp [twoBoxes, hout])
  refine (moveAssign_iff hamong rfl rfl).mpr (.inl ⟨7, rfl, hinside 0 7, hinside 1 7, ?_, ?_, ?_⟩)
  · rintro _ ⟨⟩ hunder
    rcases hunder.cases_head with heq | ⟨z, hz, -⟩
    · cases heq
    · exact hnext 7 z hz
  · intro hcycle
    obtain ⟨z, hz, -⟩ := TransGen.head'_iff.mp hcycle
    exact hnext 7 z hz
  · exact fun _ _ => rfl

/-- `b = std::move(b);` deletes what `b` owns, however deep the stack. -/
theorem move_deletes_itself :
    ∃ w : BoxWorld Nat Nat,
      Run (boxStep releaseEnv 1) (some BoxWorld.init) ([] ++ [.new 0 (some 7) false]) (some w) ∧
      w.boxes 0 = some (some 7) ∧
      (∀ depth, ∃ w', Box.moveAssign releaseEnv (depth + 1) 0 0 w = .ok () w' ∧
        w'.boxes 0 = some none ∧ w'.log = [.acquire (some 7), .construct (some 7) (),
          .destroy (some 7) (), .release (some 7)]) ∧
      ¬ ∃ enough, ∀ depth ≥ enough, Ends (Box.moveAssign releaseEnv depth 0 0) w
        (fun _ => MoveAssigned releaseEnv w 0 0 (some 7) (some 7)) fun _ _ => False := by
  refine ⟨_, .snoc .nil ⟨⟨⟨rfl, nofun⟩, not_allocated_nil _⟩, .inl rfl⟩, rfl,
    fun depth => ⟨_, rfl, rfl, rfl⟩, ?_⟩
  rintro ⟨enough, h⟩
  have htarget := (h (enough + 1) (Nat.le_succ _)).target
  cases htarget

/-- The nodes of a list: in each is the box of the next one. -/
def listEnv : BoxEnv Nat Nat where
  build := ⟨.cxx14CxprEval, false⟩
  isInHeapRegion := Option.isSome
  trivialDtor := false
  members a := [a + 100]
  no_members := nofun

/-- The head at 0 owns the node at 7, the box in which owns the node at 8. -/
def twoNodes : BoxWorld Nat Nat where
  boxes b := if b = 0 then some (some 7) else if b = 107 then some (some 8)
    else if b = 108 then some none else none
  released _ := false
  log := [.acquire (some 7), .construct (some 7) (), .acquire (some 8), .construct (some 8) ()]

-- `head = std::move(head->next);` reads `next` when it has ended.
example : ∃ w', Box.moveAssign listEnv 2 0 107 twoNodes = .error .undefined w' ∧
    w'.log = twoNodes.log ++ [.destroy (some 7) (), .destroy (some 8) (), .release (some 8),
      .release (some 7)] := ⟨_, rfl, rfl⟩

end EflCore
