/-
# `EflCore.Result.Assign` — between the destructor and the flag

An assignment from another result, and one from a value to a result that holds an error, go
through `initialize_data` or `initialize_err`, which work in three steps.

    clear             the member that active_ names is destroyed
    construct         the other is built, from a reference into the argument
    active_ = x

From the first step to the second there is no object, and the flag still names one.  Two things
can happen there.

| | |
| :-- | :-- |
| the argument is the result itself | the reference is to what has just been destroyed |
| the argument belongs to what the result held, as the next node of a list | the same |
| the constructor throws | the third step is not taken, and the destructor of the result runs the destructor of the missing member |

Only the other half of `operator=(U&&)` does neither: where there is a value it is assigned to.
In `Result<void, E>` there is nothing to be read on the value side.

**Proved here**, for destructors that do something:

    the assigned result is what the argument was        exactly if the argument is not destroyed
                                                        first, or is on the value side of a
                                                        Result<void, E>, and nothing asserted on
                                                        the way aborts   (`assign_lands_iff`)
    an exception leaves an object the flag names,       exactly if a value was assigned to a value
    which the destructor destroys                       of a type that has no operator& of its own
                                                                         (`thrown_named_iff`)
-/
import EflCore.Result.Refinement

namespace EflCore

open Lifetime Result
open ResultBase (setActive)

section
variable {A V : Type} [DecidableEq A]

/-- How the member of `res` is passed on by the copying and the moving assignment. -/
def passed (moves : Bool) (res : A) : Source A V := if moves then .move res id else .copy res id

def ResultClass.assign (moves : Bool) (a res : A) (owned : Bool) : (c : ResultClass V) → c.Op A
  | .object _ =>
      if moves then ResultOp.assignMove a res owned else ResultOp.assignCopy a res owned
  | .void _ => if moves then VoidOp.assignMove a res owned else VoidOp.assignCopy a res owned

/-- The result at `a` is on the side of `t`, with what is to be seen of `t`. -/
def Lands (c : ResultClass V) (t : ResultBase V) (a : A) (w : ResultWorld A V) : Prop :=
  ∃ s, w.mem a = some s ∧ s.active_ = t.active_ ∧ c.seen s = c.seen t

/-- The call ended because the next constructor threw. -/
def CtorThrew (w : ResultWorld A V) (e : Stop) : Prop :=
  (e = .exception ∨ e = .terminated) ∧ (w.replies 0).ctorThrows = true

variable {w w' : ResultWorld A V} {a res : A} {s t : ResultBase V} {v : V}
  {x moves owned : Bool}

/-! ## Assigning from a result -/

omit [DecidableEq A] in
theorem passed_apart : (passed moves res : Source A V).Apart a ↔ res ≠ a := by
  cases moves <;> rfl

omit [DecidableEq A] in
theorem passed_readable {P : Payload V Member} (hres : w.mem res = some t) (hv : t.data_ = some v) :
    (passed moves res).Readable P w (P.kind v) := by
  cases moves with
  | true => exact ⟨t, v, hres, hv, rfl, rfl⟩
  | false => exact ⟨t, v, hres, hv, rfl, rfl⟩

omit [DecidableEq A] in
theorem taken_passed (hres : w.mem res = some t) :
    (passed moves res : Source A V).taken w.held = t.data_ := by
  have hheld : w.held res = t.data_ := World.held_eq hres
  cases moves with
  | true => exact (congrArg (Option.map id) hheld).trans Option.map_id_apply
  | false => exact (congrArg (Option.map id) hheld).trans Option.map_id_apply

/-- The three steps, if the argument is somewhere else. -/
theorem ends_initialize_apart {T : ResultTypes V} {Q : Unit → ResultWorld A V → Prop}
    {E : Stop → ResultWorld A V → Prop} (ha : w.mem a = some s) {src : Source A V}
    (hsrc : src.Readable T.toPayload w (memberOf x)) (hap : src.Apart a)
    (hgone : gone false T s owned = false)
    (built : ∀ w₁ v, src.taken w.held = some v → w₁.mem a = some ⟨some v, x⟩ → Q () w₁)
    (thrown : (w.replies 0).ctorThrows = true → ∀ w₁, E .exception w₁) :
    Ends (initialize_ false T x a src owned) w Q E := by
  have hreplies : (opened false T w a s).replies = w.replies := by
    rw [opened, cleared]
    split <;> rfl
  have hheld : src.taken (opened false T w a s).held = src.taken w.held := by
    rw [opened, cleared, World.held_act, Source.taken_update hap]
    split
    · rw [World.held_act, Source.taken_update hap]
    · rfl
  rw [ends_initialize_ ha, hgone, if_neg Bool.false_ne_true]
  refine ends_constructFrom_read (readable_opened hsrc hap) ?_ ?_
  · intro v htaken _
    have hmem : (src.leaves T.toPayload (opened false T w a s)).mem a = some ⟨none, s.active_⟩ :=
      (Source.mem_leaves hap _).trans (World.act_mem_self ..)
    rw [construct, ends_perform hmem, setActive, ends_perform (World.act_mem_self ..)]
    exact built _ v (hheld ▸ htaken) (World.act_mem_self ..)
  · rw [hreplies]
    exact thrown

/-- If it is destroyed in the first of them, the second reads what is gone. -/
theorem ends_initialize_gone {T : ResultTypes V} {Q : Unit → ResultWorld A V → Prop}
    {E : Stop → ResultWorld A V → Prop} (ha : w.mem a = some s) {src : Source A V}
    (hgone : ¬ src.Apart a ∨ gone false T s owned = true) :
    ∃ w₁, Ends (initialize_ false T x a src owned) w Q E ↔ E .undefined w₁ := by
  cases hg : gone false T s owned with
  | true =>
      refine ⟨cleared false T w a s, ?_⟩
      rw [ends_initialize_ ha, hg, if_pos rfl]
  | false =>
      rw [hg, or_iff_left Bool.false_ne_true] at hgone
      refine ⟨opened false T w a s, ?_⟩
      rw [ends_initialize_ ha, hg, if_neg Bool.false_ne_true]
      exact ends_constructFrom_gone hgone (World.act_mem_self ..) rfl

/-- The argument is destroyed before it is read. -/
def Doomed (T : ResultTypes V) (a res : A) (s : ResultBase V) (owned : Bool) : Prop :=
  res = a ∨ gone false T s owned = true

/-- The assertion about the side of `res`, and then the member of that side. -/
theorem ends_transfer {c : ResultClass V} {f : Bool → Bool} (ha : w.mem a = some s)
    (hres : w.mem res = some t) (hv : t.data_ = some v) (hk : c.types.kind v = memberOf x)
    (hx : t.active_ = x) :
    Ends (do Prog.abortIf (f (← hasValue res))) w
      (fun _ w' => Ends (initialize_ false c.types x a (passed moves res) owned) w'
        (fun _ => Lands c t a) fun e _ => CtorThrew w e)
      (fun e _ => CtorThrew w e) ↔
    ¬ Doomed c.types a res s owned ∧ f x = false := by
  subst hx
  have hread : (passed moves res).Readable c.types.toPayload w (memberOf t.active_) :=
    hk ▸ passed_readable hres hv
  rw [ends_bind, Result.ends_hasValue hres, ends_abortIf]
  cases hf : f t.active_ with
  | true => simp [CtorThrew]
  | false =>
      simp only [Bool.false_eq_true, if_false, and_true]
      by_cases hdoomed : Doomed c.types a res s owned
      · have hgone : ¬ (passed moves res : Source A V).Apart a ∨ gone false c.types s owned = true :=
          hdoomed.imp_left fun h => mt passed_apart.mp (not_not.mpr h)
        obtain ⟨w₁, hends⟩ := ends_initialize_gone (Q := fun _ => Lands c t a)
          (E := fun e _ => CtorThrew w e) (x := t.active_) ha hgone
        refine iff_of_false ?_ (not_not.mpr hdoomed)
        rw [hends]
        simp [CtorThrew]
      · rw [Doomed, not_or, Bool.not_eq_true] at hdoomed
        refine iff_of_true ?_ ?_
        · refine ends_initialize_apart ha hread (passed_apart.mpr hdoomed.1) hdoomed.2 ?_
            fun hthrows _ => ⟨.inl rfl, hthrows⟩
          intro w₁ u htaken hmem
          rw [taken_passed hres] at htaken
          exact ⟨_, hmem, rfl, congrArg c.seen (by rw [← htaken])⟩
        · rw [Doomed, not_or, Bool.not_eq_true]
          exact hdoomed

/-- The member that the flag of the result at `a` names is an object. -/
def Named (T : ResultTypes V) (a : A) (w : ResultWorld A V) : Prop :=
  ∃ s v, w.mem a = some s ∧ s.data_ = some v ∧ T.kind v = memberOf s.active_

/-- The destructor of the result at `a` destroys what is there, and nothing else: each object
the result ever held has then been destroyed once. -/
def DiesSound (T : ResultTypes V) (a : A) (w : ResultWorld A V) : Prop :=
  Ends (Result.dtor false T a) w (fun _ w' => monitor start w'.log ≠ none ∧ DestroyedOnce a w'.log)
    fun _ _ => False

variable {T : ResultTypes V} {b : Build}

theorem Named.of_intact (h : Intact (resultFlag T) w) (ha : w.mem a = some s) : Named T a w := by
  obtain ⟨v, hv, hk⟩ := h.fields a s ha
  exact ⟨s, v, ha, hv, hk⟩

/-- It does exactly if it runs on the member. -/
theorem diesSound_iff (h : Intact (resultFlag T) w) (ha : w.mem a = some s) :
    DiesSound T a w ↔ T.ownAddress (memberOf s.active_) = true := by
  obtain ⟨v, hv, hk⟩ := h.fields a s ha
  rw [DiesSound, dtor, unwind, ResultBase.dtor, ends_bind, ends_destroy ha, ends_release]
  cases hown : T.ownAddress (memberOf s.active_) with
  | true =>
      have hcleared : Tracks T.toPayload
          (w.act [.destroy a (memberOf s.active_)] a (some ⟨none, s.active_⟩)) := by
        rw [← hk]
        exact h.tracks.destroy ha hv rfl
      have hgone := (h.begin_ hcleared).gone (hcleared.release (World.act_mem_self ..) rfl)
      refine iff_of_true ?_ rfl
      rw [cleared, if_pos (show destroys false T s = true from hown)]
      refine ⟨?_, hgone.destroyedOnce (World.act_mem_self ..)⟩
      rw [hgone.tracks]
      exact Option.some_ne_none _
  | false =>
      refine iff_of_false ?_ Bool.false_ne_true
      rw [cleared, show destroys false T s = false from hown, if_neg Bool.false_ne_true]
      exact fun hsound => hsound.1 (released_alive h.tracks ha hv)

/-- `initialize_data` and `initialize_err` leave no object behind if a constructor throws. -/
theorem ends_initialize_thrown (ha : w.mem a = some s) (src : Source A V) :
    Ends (initialize_ false T x a src owned) w (fun _ _ => True) fun e w' =>
      e = .exception → ¬ Named T a w' := by
  rw [ends_initialize_ ha]
  split
  · intro h
    cases h
  · refine (ends_constructFrom_raw (World.act_mem_self ..) rfl src).mono ?_ ?_
    · intro _ w' _
      simp only [Ends, setActive, perform]
      cases w'.mem a with
      | some _ => trivial
      | none =>
          intro h
          cases h
    · rintro e w' hraw he ⟨s', u, hs', hu, -⟩
      rw [hraw he] at hs'
      cases hs'
      cases hu

theorem ends_assignCopy_thrown (ha : w.mem a = some s) (hres : w.mem res = some t) :
    Ends (assignCopy false b T a res owned) w (fun _ _ => True) fun e w' =>
      e = .exception → ¬ Named T a w' :=
  ends_assignCopy hres (ends_initialize_thrown ha _) nofun

/-- The assignment of a value goes through the first of them if there is no value. -/
theorem ends_assignValue_thrown {u : Source A V} (h : Intact (resultFlag T) w)
    (ha : w.mem a = some s) (hu : u.Readable T.toPayload w .data_) :
    Ends (assignValue false b T a u owned) w (fun _ _ => True) fun e w' => e = .exception →
      if s.active_ then
        Intact (resultFlag T) w' ∧ ∃ s', w'.mem a = some s' ∧ s'.active_ = true
      else
        ¬ Named T a w' := by
  obtain ⟨v, hv, hk⟩ := h.fields a s ha
  simp only [assignValue, ends_bind, ends_hasValue ha]
  cases hx : s.active_ with
  | true =>
      rw [hx] at hk
      rw [if_pos rfl, ends_bind]
      refine ends_star ha ?_ nofun
      refine ends_assignFrom h.tracks ha hv hk hu (fun _ _ _ => trivial) ?_
      rintro w₁ ht hs -
      obtain ⟨s', hs', htouched⟩ := hs.mem ha
      refine ⟨h.similar ht hs, s', hs', ?_⟩
      rcases htouched with rfl | ⟨_, _, _, _, rfl⟩
      · exact hx
      · exact hx
  | false =>
      rw [if_neg Bool.false_ne_true]
      exact ends_initialize_thrown ha u

/-- When an exception leaves a copying assignment or the assignment of a value, the flag names
an object that the destructor can destroy exactly when it was a value that was assigned to, of a
type whose `operator&` is not its own. -/
theorem thrown_named_iff {op : ResultOp A V} (h : Intact (resultFlag T) w) (ha : w.mem a = some s)
    (hop : (∃ res owned, op = .assignCopy a res owned ∧ w.mem res ≠ none) ∨
      ∃ u owned, op = .assignValue a u owned ∧ u.Readable T.toPayload w .data_)
    (hrun : op.run false b T w = .error .exception w') :
    Named T a w' ∧ DiesSound T a w' ↔
      (s.active_ = true ∧ ∃ u owned, op = .assignValue a u owned) ∧
        T.ownAddress .data_ = true := by
  rcases hop with ⟨res, owned, rfl, hres⟩ | ⟨u, owned, rfl, hu⟩
  · obtain ⟨t, ht⟩ := Option.ne_none_iff_exists'.mp hres
    refine iff_of_false ?_ nofun
    rintro ⟨hnamed, -⟩
    exact (ends_assignCopy_thrown ha ht).of_error hrun rfl hnamed
  · have hleft := (ends_assignValue_thrown h ha hu).of_error hrun rfl
    cases hx : s.active_ with
    | true =>
        rw [hx, if_pos rfl] at hleft
        obtain ⟨hintact, s', hs', hx'⟩ := hleft
        rw [and_iff_right (Named.of_intact hintact hs'), diesSound_iff hintact hs', hx',
          and_iff_right ⟨rfl, u, owned, rfl⟩]
        rfl
    | false =>
        rw [hx, if_neg Bool.false_ne_true] at hleft
        exact iff_of_false (fun hnamed => hleft hnamed.1) nofun

end

def twoZeros (replies : Nat → Reply) : ResultWorld Nat (Nat ⊕ Nat) :=
  constructed (constructed (World.init replies) 0 (.inl 0) true) 1 (.inl 0) true

theorem intact_twoZeros (replies : Nat → Reply) :
    Intact (resultFlag natResult) (twoZeros replies) :=
  intact_constructed rfl (intact_constructed rfl (.init replies) rfl) rfl

theorem value_kept_alive :
    ∃ w' : ResultWorld Nat (Nat ⊕ Nat),
      (ResultOp.assignValue 0 (.value (.inl 3)) false).run false ⟨.cxx14CxprEval, false⟩ natResult
        (twoZeros fun _ => ⟨false, true⟩) = .error .exception w' ∧
      Named natResult 0 w' ∧ DiesSound natResult 0 w' := by
  have hintact := intact_twoZeros fun _ => ⟨false, true⟩
  exact ⟨_, rfl, (thrown_named_iff (b := ⟨.cxx14CxprEval, false⟩) hintact rfl
    (.inr ⟨.value (.inl 3), false, rfl, rfl⟩) rfl).mpr
      ⟨⟨rfl, .value (.inl 3), false, rfl⟩, rfl⟩⟩

/-- `r = s;` throws, and the destructor of `r` runs on nothing. -/
theorem copy_leaves_nothing :
    ∃ w' : ResultWorld Nat (Nat ⊕ Nat),
      (ResultOp.assignCopy 0 1 false).run false ⟨.cxx14CxprEval, false⟩ natResult
        (twoZeros fun n => ⟨n == 2, false⟩) = .error .exception w' ∧
      w'.mem 0 = some ⟨none, true⟩ ∧ ¬ Named natResult 0 w' ∧ ¬ DiesSound natResult 0 w' := by
  refine ⟨_, rfl, rfl, ?_, ?_⟩
  · rintro ⟨s, v, hs, hv, -⟩
    cases hs
    cases hv
  · rintro ⟨haccepted, -⟩
    exact haccepted rfl

end EflCore
