/-
# `EflCore.Result.Lifetime` — the flag names the member that is alive

The invariant (`ResultInv`) is that the log and the cells agree, that the cell of
every result holds the member its flag names, and that no constructor is about to
throw.  Every call but two keeps it.  In the middle of a call the cell of one result
is empty, and the invariant holds of the others (`IntactBut`):

    call              leaves behind
    clear             an empty cell, the flag as it was
    constructFrom     the member, by kind
    active_ = x       the invariant, if `x` names that member

The copying and the moving constructor start from a cell that is already full; what
they build is built over it, and the log is no good from there on (`spoils_ctorBody`).  So is what
is built where the destructor has missed the member (`spoils_initialize_`); and where it has
destroyed the argument as well, the call is undefined.
-/
import EflCore.Result

namespace EflCore

open Lifetime Result
open ResultBase (setActive)

section
variable {A V : Type} [DecidableEq A] {trivial : Bool} {b : Build} {T : ResultTypes V}

/-- The cell of a result holds the member its flag names. -/
def resultFlag (T : ResultTypes V) : FieldInv (ResultBase V) T.toPayload where
  holds s := ∃ v, s.data_ = some v ∧ T.kind v = memberOf s.active_
  touched := by
    rintro s _ (rfl | ⟨v, v', hv, hk, rfl⟩) ⟨u, hu, hku⟩
    · exact ⟨u, hu, hku⟩
    · obtain rfl : v = u := Option.some.inj (hv.symm.trans hu)
      exact ⟨v', rfl, hk.trans hku⟩

/-- The log is right about the cells, the flags are too, and no constructor throws. -/
structure ResultInv (T : ResultTypes V) (w : ResultWorld A V) : Prop where
  intact : Intact (resultFlag T) w
  nothrow : w.NoCtorThrows

variable {w w' : ResultWorld A V}

namespace ResultInv

theorem init (assignThrows : Nat → Bool) :
    ResultInv T (World.init (Reply.assigning assignThrows) : ResultWorld A V) :=
  ⟨.init _, fun _ => rfl⟩

theorem member (h : ResultInv T w) {a : A} {s : ResultBase V} (ha : w.mem a = some s) :
    ∃ v, s.data_ = some v ∧ T.kind v = memberOf s.active_ := h.intact.fields a s ha

/-- The payload's code changes values and nothing else. -/
theorem similar (h : ResultInv T w) (ht : Tracks T.toPayload w')
    (hs : Similar T.toPayload w w') : ResultInv T w' :=
  ⟨h.intact.similar ht hs, hs.noCtorThrows h.nothrow⟩

/-- The active member of a result can be read. -/
theorem readable (h : ResultInv T w) {res : A} {s : ResultBase V} (hres : w.mem res = some s) :
    (Source.copy res id).Readable T.toPayload w (memberOf s.active_) ∧
      (Source.move res id).Readable T.toPayload w (memberOf s.active_) := by
  obtain ⟨v, hv, hk⟩ := h.member hres
  exact ⟨⟨s, v, hres, hv, hk, hk⟩, ⟨s, v, hres, hv, hk, hk⟩⟩

end ResultInv

/-! ## The calls -/

namespace Result

section Calls
variable {a : A} {s : ResultBase V} {x : Bool} {Q : Unit → ResultWorld A V → Prop}
  {E E' : Stop → ResultWorld A V → Prop}

omit [DecidableEq A] in
theorem ends_hasValue {Q : Bool → ResultWorld A V → Prop} (ha : w.mem a = some s) :
    Ends (hasValue a) w Q E ↔ Q s.active_ w := by
  simp only [hasValue, ends_bind, ends_load ha, ends_pure]

omit [DecidableEq A] in
/-- An accessor asserts something and changes nothing. -/
theorem ends_assert {f : Bool → Bool} (ha : w.mem a = some s) (hQ : Q () w) (hA : E .aborted w) :
    Ends (do Prog.abortIf (f (← hasValue a))) w Q E := by
  rw [ends_bind, ends_hasValue ha]
  exact ends_abortIf_of hQ hA

omit [DecidableEq A] in
theorem ends_star (ha : w.mem a = some s) (hQ : Q () w) (hA : E .aborted w) :
    Ends (star b a) w Q E := by
  simp only [star, ends_bind, ends_hasValue ha]
  exact ends_abortIf_of (ends_assert ha hQ hA) hA

/-- The destructor runs on what the result holds. -/
def destroys (trivial : Bool) (T : ResultTypes V) (s : ResultBase V) : Bool :=
  !trivial && T.ownAddress (memberOf s.active_)

/-- What `clear` leaves of a result. -/
def cleared (trivial : Bool) (T : ResultTypes V) (w : ResultWorld A V) (a : A)
    (s : ResultBase V) : ResultWorld A V :=
  if destroys trivial T s then
    w.act [.destroy a (memberOf s.active_)] a (some ⟨none, s.active_⟩)
  else
    w

/-- And then a constructor is called on it. -/
def opened (trivial : Bool) (T : ResultTypes V) (w : ResultWorld A V) (a : A)
    (s : ResultBase V) : ResultWorld A V :=
  (cleared trivial T w a s).act [] a (some ⟨none, s.active_⟩)

theorem ends_destroy (ha : w.mem a = some s) :
    Ends (ResultBase.destroy trivial T a) w Q E ↔ Q () (cleared trivial T w a s) := by
  cases trivial with
  | true => simp [ResultBase.destroy, cleared, destroys]
  | false =>
      have hmember : (if s.active_ then ResultBase.destruct T a .data_
          else ResultBase.destruct T a .err_) = ResultBase.destruct T a (memberOf s.active_) := by
        cases s.active_ <;> rfl
      rw [ResultBase.destroy, if_neg Bool.false_ne_true, ends_bind, ends_load ha, hmember,
        ResultBase.destruct, cleared, destroys]
      cases T.ownAddress (memberOf s.active_) with
      | true => exact ends_perform ha _ _
      | false => exact ends_pure _

theorem cleared_mem (ha : w.mem a = some s) :
    (cleared trivial T w a s).mem a =
      some (if destroys trivial T s then ⟨none, s.active_⟩ else s) := by
  rw [cleared]
  split
  · exact World.act_mem_self ..
  · exact ha

theorem opened_of_destroys (h : destroys trivial T s = true) :
    opened trivial T w a s =
      w.act [.destroy a (memberOf s.active_)] a (some ⟨none, s.active_⟩) := by
  rw [opened, cleared, if_pos h, World.act_act, List.append_nil]

theorem opened_of_not_destroys (h : destroys trivial T s = false) :
    opened trivial T w a s = w.act [] a (some ⟨none, s.active_⟩) := by
  rw [opened, cleared, h, if_neg Bool.false_ne_true]

/-- The arguments of `initialize_` are gone when they are to be read. -/
def gone (trivial : Bool) (T : ResultTypes V) (s : ResultBase V) (owned : Bool) : Bool :=
  owned && (trivial || s.data_.isSome && destroys trivial T s)

theorem gone_false {s : ResultBase V} : gone trivial T s false = false := rfl

/-- What `initialize_data` and `initialize_err` do. -/
theorem ends_initialize_ (ha : w.mem a = some s) {src : Source A V} {owned : Bool} :
    Ends (initialize_ trivial T x a src owned) w Q E ↔
      if gone trivial T s owned then
        E .undefined (cleared trivial T w a s)
      else
        Ends (constructFrom T.toPayload a (memberOf x) src) (opened trivial T w a s)
          (fun _ w' => Ends (setActive a x) w' Q E) E := by
  have hmem : (cleared trivial T w a s).mem a =
      some (if destroys trivial T s then ⟨none, s.active_⟩ else s) := cleared_mem ha
  have hdestroyed : (s.data_.isSome &&
      (if destroys trivial T s then (⟨none, s.active_⟩ : ResultBase V) else s).data_.isNone) =
        (s.data_.isSome && destroys trivial T s) := by
    cases destroys trivial T s <;> cases hs : s.data_ <;> simp [hs]
  have hopened : (cleared trivial T w a s).act [] a (some { (if destroys trivial T s then
      (⟨none, s.active_⟩ : ResultBase V) else s) with data_ := none }) = opened trivial T w a s := by
    rw [opened]
    cases destroys trivial T s <;> rfl
  simp only [initialize_, clear, ends_bind, ends_load ha, ends_destroy ha, ends_load hmem]
  rw [hdestroyed, gone]
  cases owned && (trivial || s.data_.isSome && destroys trivial T s) with
  | true => exact Iff.rfl
  | false =>
      simp only [Bool.false_eq_true, if_false]
      rw [ends_bind, ends_perform hmem, hopened, ends_bind]

theorem opened_but (h : ResultInv T w) (ha : w.mem a = some s) (hd : destroys trivial T s = true) :
    IntactBut (resultFlag T) a (opened trivial T w a s) := by
  obtain ⟨v, hv, hk⟩ := h.member ha
  rw [opened_of_destroys hd]
  refine h.intact.begin_ ?_
  rw [← hk]
  exact h.intact.tracks.destroy ha hv rfl

/-- The end of `initialize_data`, `initialize_err` and the constructors of the base:
the member is built, and then the flag names it. -/
theorem ends_fill {f : Bool} (h : IntactBut (resultFlag T) a w) (hn : w.NoCtorThrows)
    (ha : w.mem a = some ⟨none, f⟩) {src : Source A V}
    (hsrc : src.Readable T.toPayload w (memberOf x)) (hQ : ∀ w', ResultInv T w' → Q () w') :
    Ends (constructFrom T.toPayload a (memberOf x) src) w
      (fun _ w' => Ends (setActive a x) w' Q E) E' := by
  refine ends_constructFrom h.tracks ha rfl hsrc ?_ fun hthrows => ?_
  · intro w₁ v ht hs hk
    have ha₁ := hs.mem_raw ha rfl
    rw [setActive, ends_perform (World.act_mem_self ..), World.act_act, List.append_nil]
    refine hQ _ ⟨(h.similar ht hs).done ?_ ⟨v, rfl, hk⟩, hs.noCtorThrows hn⟩
    rw [← hk]
    exact ht.construct ha₁ rfl rfl
  · rw [hn 0] at hthrows
    cases hthrows

theorem nothrow_opened (hn : w.NoCtorThrows) : (opened trivial T w a s).NoCtorThrows := by
  rw [opened, cleared]
  split
  · exact hn
  · exact hn

/-- Events at `a` do not matter to what is to be read elsewhere. -/
theorem readable_opened {src : Source A V} {k : Member} (hsrc : src.Readable T.toPayload w k)
    (hap : src.Apart a) : src.Readable T.toPayload (opened trivial T w a s) k := by
  rw [opened, cleared]
  split
  · exact (hsrc.act hap ..).act hap ..
  · exact hsrc.act hap ..

theorem keeps_initialize_ (h : ResultInv T w) (ha : w.mem a = some s)
    (hd : destroys trivial T s = true) {src : Source A V}
    (hsrc : src.Readable T.toPayload w (memberOf x)) (hap : src.Apart a)
    (hQ : ∀ w', ResultInv T w' → Q () w') :
    Ends (initialize_ trivial T x a src false) w Q E := by
  rw [ends_initialize_ ha, gone_false, if_neg Bool.false_ne_true]
  exact ends_fill (opened_but h ha hd) (nothrow_opened h.nothrow) (World.act_mem_self ..)
    (readable_opened hsrc hap) hQ

/-- A result that was default constructed holds `T()`. -/
def constructed (w : ResultWorld A V) (a : A) (d : V) (x : Bool) : ResultWorld A V :=
  w.tick.act [.acquire a, .construct a .data_] a (some ⟨some d, x⟩)

theorem ends_baseCtor {d : V} (hd : T.dflt = some d) (hn : w.NoCtorThrows) :
    Ends (ResultBase.ctor T a) w Q E ↔ Q () (constructed w a d true) := by
  have hreply : ((w.act [.acquire a] a (some (⟨none, false⟩ : ResultBase V))).replies 0).ctorThrows
      = false := hn 0
  simp only [ResultBase.ctor, hd, ends_bind, ends_acquire, ends_noexcept]
  rw [ends_constructFrom_value hreply, construct, T.kind_dflt d hd, World.act_tick,
    ends_perform (World.act_mem_self ..), setActive, ends_perform (World.act_mem_self ..)]
  simp [constructed, Holder.setCell]

theorem tracks_constructed {d : V} (hd : T.kind d = .data_) (h : Tracks T.toPayload w)
    (ha : w.mem a = none) (x : Bool) : Tracks T.toPayload (constructed w a d x) := by
  have h₀ := h.tick.acquire (s := (⟨none, x⟩ : ResultBase V)) ha rfl
  have h₁ : Tracks T.toPayload ((w.tick.act [.acquire a] a (some ⟨none, x⟩)).act
      [.construct a (T.kind d)] a (some ⟨some d, x⟩)) :=
    h₀.construct (World.act_mem_self ..) rfl rfl
  rw [World.act_act, hd] at h₁
  exact h₁

theorem intact_constructed {d : V} (hd : T.kind d = .data_) (h : Intact (resultFlag T) w)
    (ha : w.mem a = none) : Intact (resultFlag T) (constructed w a d true) :=
  h.tick.act (tracks_constructed hd h.tracks ha true) ⟨d, rfl, hd⟩

omit [DecidableEq A] in
theorem ends_look {Q : Option V → ResultWorld A V → Prop} (ha : w.mem a = some s) :
    Ends (look a) w Q E ↔ Q s.data_ w := by
  rw [look, ends_bind, ends_load ha, ends_pure]

omit [DecidableEq A] in
theorem ends_lookError {err : Source A V} (hread : err.Readable T.toPayload w .err_) :
    ∃ c, ∀ {Q : Option V → ResultWorld A V → Prop}, Ends (lookError T err) w Q E ↔ Q c w := by
  cases err with
  | value v => exact ⟨some v, Iff.rfl⟩
  | copy src f | move src f =>
      obtain ⟨t, v, hsrc, hv, hk, -⟩ := hread
      refine ⟨some (f v), ?_⟩
      intro Q
      rw [lookError, ends_bind, ends_deref hsrc hv hk, ends_pure]

end Calls

/-! ## The calls that keep the invariant -/

section Keep
variable {a res : A} {x : Bool}

theorem keeps_ctor {d : V} (hd : T.dflt = some d) (h : ResultInv T w) (ha : w.mem a = none) :
    Ends (Result.ctor T a) w (fun _ => ResultInv T) (Safe (ResultInv T)) := by
  rw [Result.ctor, ends_baseCtor hd h.nothrow]
  exact ⟨intact_constructed (T.kind_dflt d hd) h.intact ha, h.nothrow.tick⟩

theorem keeps_ctorFrom {src : Source A V} (h : ResultInv T w) (ha : w.mem a = none)
    (hsrc : src.Readable T.toPayload w (memberOf x)) :
    Ends (ResultBase.ctorFrom T x a src) w (fun _ => ResultInv T) (Safe (ResultInv T)) := by
  have h₀ := h.intact.begin_ (h.intact.tracks.acquire (s := (⟨none, false⟩ : ResultBase V)) ha rfl)
  simp only [ResultBase.ctorFrom, ends_bind, ends_acquire, ends_unwinding]
  exact ends_fill h₀ h.nothrow (World.act_mem_self ..) (hsrc.act (hsrc.apart ha) ..) fun _ => id

/-- The template makes a value. -/
theorem keeps_made {f : Option V → V} (h : ResultInv T w) (ha : w.mem a = none)
    (hf : T.ofResult = .converts f ∨ T.ofError = .converts f) (c : Option V) :
    Ends (Result.ofValue T a (.value (f c))) w (fun _ => ResultInv T) (Safe (ResultInv T)) :=
  keeps_ctorFrom (x := true) h ha (T.kind_made f hf c)

theorem keeps_ofErrorCopy {nothrowCopy : Bool} {err : Source A V} (h : ResultInv T w)
    (ha : w.mem a = none) (hsrc : err.Readable T.toPayload w .err_) :
    Ends (ofErrorCopy T nothrowCopy a err) w (fun _ => ResultInv T) (Safe (ResultInv T)) := by
  rw [ofErrorCopy, ends_ite]
  exact ⟨fun _ => Ends.noexcept (keeps_ctorFrom h ha hsrc), fun _ => keeps_ctorFrom h ha hsrc⟩

/-- The copying assignment is `initialize_`, once the side of `res` is asserted. -/
theorem ends_assignCopy {I : ResultWorld A V → Prop} {E : Stop → ResultWorld A V → Prop}
    {t : ResultBase V} {owned : Bool} (ht : w.mem res = some t)
    (hinit : Ends (initialize_ false T t.active_ a (.copy res id) owned) w (fun _ => I) E)
    (hA : E .aborted w) : Ends (assignCopy false b T a res owned) w (fun _ => I) E := by
  simp only [assignCopy, ends_bind, ends_hasValue ht, ends_ite]
  constructor
  · intro hx
    rw [hx] at hinit
    exact ends_assert ht hinit hA
  · intro hx
    rw [eq_false_of_ne_true hx] at hinit
    exact ends_assert ht hinit hA

/-- The moving one, without its `noexcept`. -/
theorem ends_assignMove {I : ResultWorld A V → Prop} {E : Stop → ResultWorld A V → Prop}
    {t : ResultBase V} {owned : Bool} (ht : w.mem res = some t)
    (hinit : Ends (initialize_ false T t.active_ a (.move res id) owned) w (fun _ => I) E)
    (hA : E .aborted w) :
    Ends (do
      if (← hasValue res) then
        unwrap b res
        initialize_data false T a (.move res id) owned
      else
        error b res
        initialize_err false T a (.move res id) owned) w (fun _ => I) E := by
  simp only [ends_bind, ends_hasValue ht, ends_ite]
  constructor
  · intro hx
    rw [hx] at hinit
    exact ends_assert ht hinit hA
  · intro hx
    rw [eq_false_of_ne_true hx] at hinit
    exact ends_assert ht hinit hA

omit [DecidableEq A] in
theorem destroys_of_reaches {s : ResultBase V} (hs : w.mem a = some s)
    (h : ResultOp.Reaches T w a) : destroys false T s = true := h s hs

theorem keeps_assignCopy (h : ResultInv T w) (ha : w.mem a ≠ none) (hres : w.mem res ≠ none)
    (hne : res ≠ a) (hd : ResultOp.Reaches T w a) :
    Ends (assignCopy false b T a res false) w (fun _ => ResultInv T) (Safe (ResultInv T)) := by
  obtain ⟨s, hs⟩ := Option.ne_none_iff_exists'.mp ha
  obtain ⟨t, ht⟩ := Option.ne_none_iff_exists'.mp hres
  refine ends_assignCopy ht ?_ True.intro
  exact keeps_initialize_ h hs (destroys_of_reaches hs hd) (h.readable ht).1 hne fun _ => id

theorem keeps_assignMove (h : ResultInv T w) (ha : w.mem a ≠ none) (hres : w.mem res ≠ none)
    (hne : res ≠ a) (hd : ResultOp.Reaches T w a) :
    Ends (assignMove false b T a res false) w (fun _ => ResultInv T) (Safe (ResultInv T)) := by
  obtain ⟨s, hs⟩ := Option.ne_none_iff_exists'.mp ha
  obtain ⟨t, ht⟩ := Option.ne_none_iff_exists'.mp hres
  refine Ends.noexcept (ends_assignMove ht ?_ True.intro)
  exact keeps_initialize_ h hs (destroys_of_reaches hs hd) (h.readable ht).2 hne fun _ => id

theorem keeps_assignValue {u : Source A V} {owned : Bool} (h : ResultInv T w) (ha : w.mem a ≠ none)
    (hu : u.Readable T.toPayload w .data_)
    (hclean : ∀ s, w.mem a = some s → s.active_ = false → owned = false ∧ ResultOp.Reaches T w a) :
    Ends (assignValue false b T a u owned) w (fun _ => ResultInv T) (Safe (ResultInv T)) := by
  obtain ⟨s, hs⟩ := Option.ne_none_iff_exists'.mp ha
  obtain ⟨v, hv, hk⟩ := h.member hs
  simp only [assignValue, ends_bind, ends_hasValue hs, ends_ite]
  constructor
  · intro hx
    rw [hx] at hk
    refine ends_star hs ?_ True.intro
    exact ends_assignFrom h.intact.tracks hs hv hk hu (fun _ => h.similar) fun _ => h.similar
  · intro hx
    obtain ⟨rfl, hd⟩ := hclean s hs (eq_false_of_ne_true hx)
    rw [eq_false_of_ne_true hx] at hk
    -- the error that is cleared first cannot be what is assigned
    have hap : u.Apart a := hu.apart_of_kind hs hv (by rw [hk]; decide)
    exact keeps_initialize_ h hs (destroys_of_reaches hs hd) hu hap fun _ => id

theorem keeps_dtor (h : ResultInv T w) (ha : w.mem a ≠ none) (hd : ResultOp.Reaches T w a) :
    Ends (dtor false T a) w (fun _ => ResultInv T) (Safe (ResultInv T)) := by
  obtain ⟨s, hs⟩ := Option.ne_none_iff_exists'.mp ha
  have hdestroys := destroys_of_reaches hs hd
  have hopened := opened_but h hs hdestroys
  rw [dtor, unwind, ResultBase.dtor, ends_bind, ends_destroy hs, ends_release, cleared,
    if_pos hdestroys, ← opened_of_destroys hdestroys]
  have hnothrow : (opened false T w a s).NoCtorThrows := nothrow_opened h.nothrow
  exact ⟨hopened.gone (hopened.tracks.release (World.act_mem_self ..) rfl), hnothrow⟩

/-- A legal call that is clean keeps the invariant. -/
theorem keeps_resultOp {op : ResultOp A V} (h : ResultInv T w) (hcompiles : op.Compiles false T)
    (hlegal : op.Legal T w) (hop : op.Clean T w) :
    Ends (op.run false b T) w (fun _ => ResultInv T) (Safe (ResultInv T)) := by
  obtain ⟨d, hd⟩ := Option.ne_none_iff_exists'.mp (hcompiles.1 (.inl rfl))
  cases op with
  | default a => exact keeps_ctor hd h hlegal
  | ofCopy a res isConst =>
      obtain ⟨s, hs⟩ := Option.ne_none_iff_exists'.mp hlegal.2
      rw [ResultOp.run]
      refine Forwarded.ends_copy (ends_look hs) hcompiles.2 ?_ ?_
      · exact fun hspecial => absurd hspecial hop
      · exact fun f hf => keeps_made h hlegal.1 (.inl hf) s.data_
  | ofMove => exact hop.elim
  | ofValue a u | ofInPlace a u => exact keeps_ctorFrom h hlegal.1 hlegal.2
  | ofErrorCopy nothrowCopy a err isConst =>
      obtain ⟨c, hc⟩ := ends_lookError hlegal.2
      rw [ResultOp.run]
      refine Forwarded.ends_copy hc hcompiles.2 ?_ ?_
      · exact fun _ => keeps_ofErrorCopy h hlegal.1 hlegal.2
      · exact fun f hf => keeps_made h hlegal.1 (.inr hf) c
  | ofErrorMove a err => exact Ends.noexcept (keeps_ctorFrom h hlegal.1 hlegal.2)
  | ofUnexpect a args => exact keeps_ctorFrom h hlegal.1 hlegal.2
  | assignCopy a res owned =>
      obtain ⟨rfl, hreaches⟩ := hop
      exact keeps_assignCopy h hlegal.1 hlegal.2.1 hlegal.2.2 hreaches
  | assignMove a res owned =>
      obtain ⟨rfl, hreaches⟩ := hop
      exact keeps_assignMove h hlegal.1 hlegal.2.1 hlegal.2.2 hreaches
  | assignValue a u owned => exact keeps_assignValue h hlegal.1 hlegal.2 hop
  | emplace a args owned =>
      obtain ⟨rfl, hap, hreaches⟩ := hop
      obtain ⟨s, hs⟩ := Option.ne_none_iff_exists'.mp hlegal.1
      refine Ends.noexcept ?_
      exact keeps_initialize_ h hs (destroys_of_reaches hs hreaches) hlegal.2 hap fun _ => id
  | destroy a => exact keeps_dtor h hlegal hop

end Keep

/-! ## Those that do not

What the base has constructed is still there when the body constructs the member of
the other result, as is what no destructor has reached, and a log that is no good stays so. -/

section Spoil
variable {a res : A} {x : Bool} {E : Stop → ResultWorld A V → Prop}

/-- The monitor has stopped. -/
def BuiltOver (w : ResultWorld A V) : Prop := monitor start w.log = none

/-- The member of `res` is built over `T()`. -/
theorem spoils_ctorBody {arg : Source A V} {s t : ResultBase V} (h : Tracks T.toPayload w)
    (hn : w.NoCtorThrows) (ha : w.mem a = some t) (ht : t.data_ ≠ none) (hres : w.mem res = some s)
    (hne : res ≠ a) (harg : arg.Readable T.toPayload w (memberOf s.active_)) (hap : arg.Apart a) :
    Ends (ctorBody T a res arg) w (fun _ => BuiltOver) E := by
  obtain ⟨u, hu⟩ := Option.ne_none_iff_exists'.mp ht
  have h₁ : Tracks T.toPayload (w.act [] a (some ⟨t.data_, s.active_⟩)) := h.quiet ha rfl
  have hres₁ : (w.act [] a (some ⟨t.data_, s.active_⟩)).mem res = some s := by
    rw [World.act_mem_of_ne _ _ _ hne, hres]
  have harg₁ := harg.act hap [] (some ⟨t.data_, s.active_⟩)
  simp only [ctorBody, ends_bind, ends_hasValue hres, setActive, ends_perform ha,
    ends_hasValue hres₁, ends_ite]
  constructor
  · intro hx
    have hk : memberOf s.active_ = .data_ := by rw [hx]; rfl
    rw [hk] at harg₁
    exact ends_constructFrom_over h₁ (World.act_mem_self ..) hu harg₁ (hn 0)
  · intro hx
    have hk : memberOf s.active_ = .err_ := by rw [eq_false_of_ne_true hx]; rfl
    rw [hk] at harg₁
    exact ends_constructFrom_over h₁ (World.act_mem_self ..) hu harg₁ (hn 0)

theorem spoils_ctor {arg : Source A V} {d : V} (hd : T.dflt = some d) (h : ResultInv T w)
    (ha : w.mem a = none) (hres : w.mem res ≠ none)
    (harg : ∀ s, w.mem res = some s → arg.Readable T.toPayload w (memberOf s.active_)) :
    Ends (do ResultBase.ctor T a; (ctorBody T a res arg).unwinding (unwind false T a)) w
      (fun _ => BuiltOver) E := by
  obtain ⟨s, hs⟩ := Option.ne_none_iff_exists'.mp hres
  have hread := harg s hs
  have hap := hread.apart ha
  have hne : res ≠ a := by
    rintro rfl
    rw [ha] at hs
    cases hs
  have hs₁ : (constructed w a d true).mem res = some s :=
    (World.act_mem_of_ne w.tick _ _ hne).trans hs
  have hread₁ : arg.Readable T.toPayload (constructed w a d true) (memberOf s.active_) :=
    Source.Readable.act (w := w.tick) hread hap ..
  rw [ends_bind, ends_baseCtor hd h.nothrow, ends_unwinding]
  exact spoils_ctorBody (tracks_constructed (T.kind_dflt d hd) h.intact.tracks ha true)
    h.nothrow.tick (World.act_mem_self ..) nofun hs₁ hne hread₁ hap

omit [DecidableEq A] in
theorem cellPhase_eq {s : ResultBase V} {v : V} (hv : s.data_ = some v) :
    cellPhase T.toPayload s = .live (T.kind v) := by
  have hcell : Holder.cell s = some v := hv
  rw [cellPhase, hcell, Option.elim_some]

/-- A constructor that is called where an object is still alive, by the log. -/
theorem spoils_constructFrom {src : Source A V} {v : V} {s : ResultBase V} (h : ResultInv T w)
    (ha : w.mem a = some s) (hv : s.data_ = some v)
    (hsrc : src.Readable T.toPayload (w.act [] a (some ⟨none, s.active_⟩)) (memberOf x)) :
    Ends (constructFrom T.toPayload a (memberOf x) src) (w.act [] a (some ⟨none, s.active_⟩))
      (fun _ w' => Ends (setActive a x) w' (fun _ => BuiltOver) E) E := by
  refine ends_constructFrom_similar hsrc ?_ fun hthrows => ?_
  · intro w₁ u hw₁ hlog _
    have hover := h.intact.tracks.construct_over ha (cellPhase_eq hv) (k := T.kind u) (o := none)
    rw [construct, ends_perform (hw₁.mem_raw (World.act_mem_self ..) rfl), setActive,
      ends_perform (World.act_mem_self ..), BuiltOver, World.act_log, World.act_log, hlog,
      World.act_log, List.append_nil, List.append_nil]
    exact hover
  · rw [show ((w.act [] a (some ⟨none, s.active_⟩)).replies 0).ctorThrows = false from
      h.nothrow 0] at hthrows
    cases hthrows

/-- What is destroyed first is missed, or it is, or owns, what is to be read. -/
theorem spoils_initialize_ {src : Source A V} {s : ResultBase V} {owned : Bool} (h : ResultInv T w)
    (hs : w.mem a = some s) (hsrc : src.Readable T.toPayload w (memberOf x))
    (hbad : ¬ (owned = false ∧ src.Apart a ∧ ResultOp.Reaches T w a)) (hE : ∀ w', E .undefined w') :
    Ends (initialize_ false T x a src owned) w (fun _ => BuiltOver) E := by
  obtain ⟨v, hv, hk⟩ := h.member hs
  rw [ends_initialize_ hs]
  cases hgone : gone false T s owned with
  | true => exact hE _
  | false =>
      rw [if_neg Bool.false_ne_true]
      by_cases hap : src.Apart a
      · have hmissed : destroys false T s = false := by
          cases hd : destroys false T s with
          | false => rfl
          | true =>
              refine absurd ⟨?_, hap, fun s' hs' => ?_⟩ hbad
              · cases owned with
                | false => rfl
                | true => simp [gone, hv, hd] at hgone
              · obtain rfl : s = s' := Option.some.inj (hs.symm.trans hs')
                exact hd
        have hread : src.Readable T.toPayload (opened false T w a s) (memberOf x) :=
          readable_opened hsrc hap
        rw [opened_of_not_destroys hmissed] at hread ⊢
        exact spoils_constructFrom h hs hv hread
      · exact (ends_constructFrom_gone hap (World.act_mem_self ..) rfl).mpr (hE _)

/-- Storage that is given back with an object in it. -/
theorem released_alive {s : ResultBase V} {v : V} (h : Tracks T.toPayload w)
    (hs : w.mem a = some s) (hv : s.data_ = some v) :
    BuiltOver (w.act [.release a] a none) := by
  have hlive : w.phases (cellPhase T.toPayload) a = .live (T.kind v) := by
    rw [World.phases, hs, Option.elim_some, cellPhase_eq hv]
  rw [BuiltOver, World.act_log, monitor_append, h, Option.bind_some, monitor_cons, observe]
  simp only [Event.loc, hlive, Phase.next, Option.map_none, Option.bind_none]

theorem spoils_dtor (h : ResultInv T w) (ha : w.mem a ≠ none) (hbad : ¬ ResultOp.Reaches T w a) :
    Ends (dtor false T a) w (fun _ => BuiltOver) E := by
  obtain ⟨s, hs⟩ := Option.ne_none_iff_exists'.mp ha
  obtain ⟨v, hv, -⟩ := h.member hs
  have hmissed : destroys false T s = false := by
    cases hd : destroys false T s with
    | false => rfl
    | true =>
        refine absurd (fun s' hs' => ?_) hbad
        obtain rfl : s = s' := Option.some.inj (hs.symm.trans hs')
        exact hd
  rw [dtor, unwind, ResultBase.dtor, ends_bind, ends_destroy hs, cleared, hmissed,
    if_neg Bool.false_ne_true, ends_release]
  exact released_alive h.intact.tracks hs hv

theorem spoils_resultOp {op : ResultOp A V} (h : ResultInv T w) (hcompiles : op.Compiles false T)
    (hlegal : op.Legal T w) (hop : ¬ op.Clean T w) :
    Ends (op.run false b T) w (fun _ => BuiltOver) (Spoils BuiltOver) := by
  obtain ⟨d, hd⟩ := Option.ne_none_iff_exists'.mp (hcompiles.1 (.inl rfl))
  cases op with
  | ofCopy a res isConst =>
      rw [ResultOp.run, Forwarded.copy_special (not_not.mp hop)]
      exact spoils_ctor hd h hlegal.1 hlegal.2 fun s hs => (h.readable hs).1
  | ofMove a res =>
      rw [ResultOp.run, ofMove, ends_noexcept]
      exact spoils_ctor hd h hlegal.1 hlegal.2 fun s hs => (h.readable hs).2
  | assignCopy a res owned =>
      obtain ⟨ha, hres, hne⟩ := hlegal
      obtain ⟨s, hs⟩ := Option.ne_none_iff_exists'.mp ha
      obtain ⟨t, ht⟩ := Option.ne_none_iff_exists'.mp hres
      refine ends_assignCopy ht ?_ True.intro
      refine spoils_initialize_ h hs (h.readable ht).1 ?_ fun _ => True.intro
      exact fun hclean => hop ⟨hclean.1, hclean.2.2⟩
  | assignMove a res owned =>
      obtain ⟨ha, hres, hne⟩ := hlegal
      obtain ⟨s, hs⟩ := Option.ne_none_iff_exists'.mp ha
      obtain ⟨t, ht⟩ := Option.ne_none_iff_exists'.mp hres
      rw [ResultOp.run, assignMove, ends_noexcept]
      refine ends_assignMove ht ?_ True.intro
      refine spoils_initialize_ h hs (h.readable ht).2 ?_ fun _ => True.intro
      exact fun hclean => hop ⟨hclean.1, hclean.2.2⟩
  | assignValue a u owned =>
      obtain ⟨ha, hu⟩ := hlegal
      obtain ⟨s, hs⟩ := Option.ne_none_iff_exists'.mp ha
      simp only [ResultOp.run, assignValue, ends_bind, ends_hasValue hs, ends_ite]
      constructor
      · intro hx
        refine absurd (fun s' hs' hx' => ?_) hop
        obtain rfl : s = s' := Option.some.inj (hs.symm.trans hs')
        rw [hx] at hx'
        cases hx'
      · intro hx
        refine spoils_initialize_ h hs hu ?_ fun _ => True.intro
        exact fun hclean => hop fun s' _ _ => ⟨hclean.1, hclean.2.2⟩
  | emplace a args owned =>
      obtain ⟨ha, hargs⟩ := hlegal
      obtain ⟨s, hs⟩ := Option.ne_none_iff_exists'.mp ha
      rw [ResultOp.run, emplace, ends_noexcept]
      exact spoils_initialize_ h hs hargs hop fun _ => True.intro
  | destroy a => exact spoils_dtor h hlegal hop
  | _ => exact absurd True.intro hop

end Spoil

/-! ## Every call only adds to the log -/

section Grow
variable (trivial b T) (a : A)

omit [DecidableEq A] in
theorem appends_hasValue : (hasValue a : Prog (ResultWorld A V) Bool).Appends World.log :=
  appends_bind (appends_load a) fun _ => appends_pure _

omit [DecidableEq A] in
theorem appends_assert (f : Bool → Bool) :
    (do Prog.abortIf (f (← hasValue a)) : Prog (ResultWorld A V) Unit).Appends World.log :=
  appends_bind (appends_hasValue a) fun _ => appends_abortIf _

theorem appends_setActive (x : Bool) :
    (setActive a x : Prog (ResultWorld A V) Unit).Appends World.log := appends_perform _ a _

theorem appends_baseDestroy : (ResultBase.destroy trivial T a).Appends World.log := by
  have member : ∀ m, (ResultBase.destruct T a m).Appends World.log := fun m =>
    appends_ite (appends_destroy a m) (appends_pure _)
  refine appends_ite (appends_pure _) (appends_bind (appends_load a) fun _ => ?_)
  exact appends_ite (member .data_) (member .err_)

theorem appends_unwind : (unwind trivial T a).Appends World.log :=
  appends_bind (appends_baseDestroy trivial T a) fun _ => appends_release a

theorem appends_baseCtor : (ResultBase.ctor T a).Appends World.log := by
  rw [ResultBase.ctor]
  cases T.dflt with
  | none => exact appends_throw _
  | some v =>
      refine appends_bind (appends_acquire a _) fun _ => appends_bind ?_ fun _ => ?_
      · exact appends_noexcept (appends_constructFrom _ a _ _)
      · exact appends_setActive a true

theorem appends_ctorFrom (x : Bool) (tt : Source A V) :
    (ResultBase.ctorFrom T x a tt).Appends World.log := by
  refine appends_bind (appends_acquire a _) fun _ => appends_bind ?_ fun _ => ?_
  · exact appends_unwinding (appends_constructFrom _ a _ tt) (appends_release a)
  · exact appends_setActive a x

theorem appends_ofErrorCopy (nothrowCopy : Bool) (err : Source A V) :
    (ofErrorCopy T nothrowCopy a err).Appends World.log :=
  appends_ite (appends_noexcept (appends_ctorFrom T a _ err)) (appends_ctorFrom T a _ err)

theorem appends_ctorBody (res : A) (arg : Source A V) :
    (do ResultBase.ctor T a; (ctorBody T a res arg).unwinding (unwind trivial T a)).Appends
      World.log := by
  refine appends_bind (appends_baseCtor T a) fun _ =>
    appends_unwinding ?_ (appends_unwind trivial T a)
  refine appends_bind (appends_hasValue res) fun x => ?_
  refine appends_bind (appends_setActive a x) fun _ => ?_
  refine appends_bind (appends_hasValue res) fun x => ?_
  exact appends_ite (appends_constructFrom _ a _ arg) (appends_constructFrom _ a _ arg)

theorem appends_initialize_ (x : Bool) (args : Source A V) (owned : Bool) :
    (initialize_ trivial T x a args owned).Appends World.log := by
  have built : (do constructFrom T.toPayload a (memberOf x) args; setActive a x :
      Prog (ResultWorld A V) Unit).Appends World.log :=
    appends_bind (appends_constructFrom _ a _ args) fun _ => appends_setActive a x
  refine appends_bind (appends_load a) fun _ => ?_
  refine appends_bind (appends_baseDestroy trivial T a) fun _ => ?_
  refine appends_bind (appends_load a) fun _ => ?_
  refine appends_ite (appends_bind (appends_throw _) fun _ => ?_) ?_
  · exact appends_bind (appends_perform _ a _) fun _ => built
  · exact appends_bind (appends_perform _ a _) fun _ => built

omit [DecidableEq A] in
theorem appends_look : (look a : Prog (ResultWorld A V) (Option V)).Appends World.log :=
  appends_bind (appends_load a) fun _ => appends_pure _

omit [DecidableEq A] in
theorem appends_lookError (err : Source A V) : (lookError T err).Appends World.log := by
  have read : ∀ src (f : V → V), (do pure (some (f (← deref T.toPayload src .err_))) :
      Prog (ResultWorld A V) (Option V)).Appends World.log := fun src f =>
    appends_bind (appends_deref _ src _) fun _ => appends_pure _
  cases err with
  | value v => exact appends_pure _
  | copy src f | move src f => exact read src f

theorem appends_resultOp (op : ResultOp A V) : (op.run trivial b T).Appends World.log := by
  cases op with
  | default a => exact appends_baseCtor T a
  | ofCopy a res isConst =>
      exact Forwarded.appends_copy (appends_look res) (appends_ctorBody trivial T a res _)
        fun v => appends_ctorFrom T a true (.value v)
  | ofMove a res => exact appends_noexcept (appends_ctorBody trivial T a res _)
  | ofValue a u | ofInPlace a u | ofUnexpect a u => exact appends_ctorFrom T a _ u
  | ofErrorCopy nothrowCopy a err isConst =>
      exact Forwarded.appends_copy (appends_lookError T err)
        (appends_ofErrorCopy T a nothrowCopy err) fun v => appends_ctorFrom T a true (.value v)
  | ofErrorMove a err => exact appends_noexcept (appends_ctorFrom T a _ err)
  | assignCopy a res owned =>
      refine appends_bind (appends_hasValue res) fun x => appends_ite ?_ ?_
      · exact appends_bind (appends_assert res _) fun _ => appends_initialize_ trivial T a _ _ _
      · exact appends_bind (appends_assert res _) fun _ => appends_initialize_ trivial T a _ _ _
  | assignMove a res owned =>
      refine appends_noexcept (appends_bind (appends_hasValue res) fun x => appends_ite ?_ ?_)
      · exact appends_bind (appends_assert res _) fun _ => appends_initialize_ trivial T a _ _ _
      · exact appends_bind (appends_assert res _) fun _ => appends_initialize_ trivial T a _ _ _
  | assignValue a u owned =>
      refine appends_bind (appends_hasValue a) fun x =>
        appends_ite ?_ (appends_initialize_ trivial T a _ _ _)
      refine appends_bind (appends_bind (appends_hasValue a) fun y => ?_) fun _ => ?_
      · exact appends_bind (appends_abortIf _) fun _ => appends_assert a _
      · exact appends_assignFrom _ a _ u
  | emplace a args owned => exact appends_noexcept (appends_initialize_ trivial T a _ args owned)
  | destroy a => exact appends_unwind trivial T a

end Grow

end Result

/-! ## Runs -/

theorem ResultInv.sound (h : ResultInv T w) : ResultSound w where
  tracks := by
    refine ⟨_, h.intact.tracks, fun a => ?_⟩
    cases hs : w.mem a with
    | none => simp [World.phases, hs]
    | some s =>
        obtain ⟨v, hv, hk⟩ := h.member hs
        simp [World.phases, hs, cellPhase, Holder.cell, hv, hk]
  once _ := h.intact.destroyedOnce

/-- Where no constructor throws, a run is sound exactly when none of its steps copy or move
constructs a result by the special members, misses the member it is to destroy, or destroys what
it has still to read. -/
theorem result_run_sound_iff {assignThrows : Nat → Bool} {ops : List (ResultOp A V)}
    {o : Option (ResultWorld A V)}
    (h : Run (resultStep b T) (some (World.init (Reply.assigning assignThrows))) ops o) :
    (∃ w, o = some w ∧ ResultSound w) ↔
      Run (guarded (fun o op => ∀ w ∈ o, op.Clean T w) (resultStep b T))
        (some (World.init (Reply.assigning assignThrows))) ops o := by
  have h₀ : ResultInv T (World.init (Reply.assigning assignThrows) : ResultWorld A V) :=
    .init assignThrows
  refine Run.calls_sound_iff (D := Result.BuiltOver) h₀ ?_ ?_ ?_ (fun _ => ResultInv.sound) ?_ h
  · intro w op hw hlegal hop
    exact Result.keeps_resultOp hw hlegal.1 hlegal.2 hop
  · intro w op hw hlegal hop
    exact Result.spoils_resultOp hw hlegal.1 hlegal.2 hop
  · intro w op hbad
    have hstays : ∀ w' : ResultWorld A V, w.log <+: w'.log → Result.BuiltOver w' := by
      rintro w' ⟨es, hes⟩
      rw [Result.BuiltOver, ← hes]
      exact monitor_append_none hbad es
    exact (Result.appends_resultOp false b T op w).mono (fun _ => hstays) fun _ => hstays
  · rintro w hbad ⟨⟨φ, hφ, -⟩, -⟩
    rw [hbad] at hφ
    cases hφ

end

/-- A number or an error number. -/
def natResult : ResultTypes (Nat ⊕ Nat) where
  kind v := memberOf v.isLeft
  after _ v := v
  kind_after _ _ := rfl
  dflt := some (.inl 0)
  kind_dflt := by
    rintro v ⟨⟩
    rfl
  ownAddress _ := true
  ofResult := .notViable
  ofError := .notViable
  kind_made := by
    rintro f (h | h)
    · cases h
    · cases h

/-- An error takes the place of a value, and both results are destroyed. -/
theorem error_over_value_sound :
    ∃ w : ResultWorld Nat (Nat ⊕ Nat), ResultSound w ∧ (∀ a, w.mem a = none) ∧
      w.log = [.acquire 0, .construct 0 .data_, .acquire 1, .construct 1 .err_,
        .destroy 0 .data_, .construct 0 .err_, .destroy 1 .err_, .release 1,
        .destroy 0 .err_, .release 0] := by
  let G : Option (ResultWorld Nat (Nat ⊕ Nat)) → ResultOp Nat (Nat ⊕ Nat) → Prop :=
    fun o op => ∀ w ∈ o, op.Clean natResult w
  have compiles : ∀ op : ResultOp Nat (Nat ⊕ Nat), op.Compiles false natResult := by
    intro op
    refine ⟨nofun, ?_⟩
    cases op <;> first | exact True.intro | nofun
  have reaches : ∀ (w : ResultWorld Nat (Nat ⊕ Nat)) a, ResultOp.Reaches natResult w a :=
    fun _ _ _ _ => rfl
  let step := guarded G (resultStep ⟨.cxx14CxprEval, false⟩ natResult)
  let w₀ : Option (ResultWorld Nat (Nat ⊕ Nat)) := some (World.init (Reply.assigning fun _ => false))
  have built : Run step w₀ ([] ++ [.default 0]) (some _) :=
    .snoc .nil ⟨fun _ _ => True.intro, ⟨compiles _, rfl⟩, .inl rfl⟩
  have failed : Run step w₀ (_ ++ [.ofUnexpect 1 (.value (.inr 5))]) (some _) :=
    .snoc built ⟨fun _ _ => True.intro, ⟨compiles _, rfl, rfl⟩, .inl rfl⟩
  have assigned : Run step w₀ (_ ++ [.assignCopy 0 1 false]) (some _) :=
    .snoc failed ⟨fun w _ => ⟨rfl, reaches w 0⟩, ⟨compiles _, nofun, nofun, by decide⟩, .inl rfl⟩
  have destroyed : Run step w₀ (_ ++ [.destroy 1]) (some _) :=
    .snoc assigned ⟨fun w _ => reaches w 1, ⟨compiles _, nofun⟩, .inl rfl⟩
  have gone : Run step w₀ (_ ++ [.destroy 0]) (some _) :=
    .snoc destroyed ⟨fun w _ => reaches w 0, ⟨compiles _, nofun⟩, .inl rfl⟩
  obtain ⟨w, hw, hsound⟩ := (result_run_sound_iff gone.of_guarded).mpr gone
  obtain rfl := Option.some.inj hw
  refine ⟨_, hsound, fun a => ?_, rfl⟩
  rcases a with _ | _ | a <;> rfl

/-- `Result<T, E> r(5); const auto& c = r; Result<T, E> s(c);` constructs `T()` in `s` and then
`5` over it. -/
theorem copied_result_built_over :
    ∃ w : ResultWorld Nat (Nat ⊕ Nat),
      Run (resultStep ⟨.cxx14CxprEval, false⟩ natResult)
        (some (World.init (Reply.assigning fun _ => false)))
        ([] ++ [.ofValue 0 (.value (.inl 5))] ++ [.ofCopy 1 0 true]) (some w) ∧
      w.log = [.acquire 0, .construct 0 .data_, .acquire 1, .construct 1 .data_,
        .construct 1 .data_] ∧ ¬ ResultSound w := by
  refine ⟨_, .snoc (s := some _) (.snoc .nil ⟨⟨⟨nofun, True.intro⟩, rfl, rfl⟩, .inl rfl⟩)
    ⟨⟨⟨nofun, nofun⟩, rfl, nofun⟩, .inl rfl⟩, rfl, ?_⟩
  rintro ⟨⟨φ, hφ, -⟩, -⟩
  cases hφ

end EflCore
