/-
# `EflCore.Option.Lifetime` — the flag and the object

The invariant (`OptionInv`) has two halves.  The log and the cells agree, which is
the library's business; and the flag of an option says whether its cell is full,
which is the class's.  Between two calls into the payload both hold, so that an
exception may leave from any of them.

    call                what it finds           what it leaves, returning     throwing
    clear               the invariant           an empty cell, not active     never throws
    fill                an empty cell           a full cell, active           an empty cell
    assign, swap        full cells              full cells                    full cells

`fill` is the end that `initialize` and the constructors have in common.
-/
import EflCore.Checked
import EflCore.Option.Cxx14

namespace EflCore

open Lifetime OptionCxx14
open OptionBase (setActive)

/-! ## Accessors -/

/-- The functions of the C++11/14 `Option` that return a reference, by what they assert; those of
`Option<T&>` assert the same. -/
inductive OptionAccess where
  /-- `unwrap()&`, `unwrap()&&` -/
  | unwrap
  /-- `unwrap() const&`, `unwrap() const&&` -/
  | unwrapConst
  /-- `operator*()&`, `operator*()&&` -/
  | star
  /-- `operator*() const&`, `operator*() const&&` -/
  | starConst
  /-- `operator->()`, const or not -/
  | arrow
  deriving DecidableEq, Repr

namespace OptionAccess

/-- What is asserted on the way, if `x` is `active()`. -/
def asserts (x : Bool) : OptionAccess → List Assertion
  | unwrap => [.cxpr x]
  | star => [.dbg x, .cxpr x]
  | starConst => [.dbg x, .dbg x]
  | unwrapConst | arrow => [.dbg x]

/-- The function of `Option<T>`. -/
def run {A V : Type} (b : Build) (a : A) : OptionAccess → Prog (OptionWorld A V) Unit
  | unwrap => OptionCxx14.unwrap b a
  | unwrapConst => OptionCxx14.unwrapConst b a
  | star => OptionCxx14.star b a
  | starConst => OptionCxx14.starConst b a
  | arrow => do Prog.abortIf (dbgAssert b (← OptionCxx14.active a))

end OptionAccess

section
variable {A V : Type} [DecidableEq A] {b : Build} {P : Payload V Unit}

/-- The flag of an option says whether its cell is full. -/
def optionFlag (P : Payload V Unit) : FieldInv (OptionBase V) P where
  holds s := s.data_.isSome = s.active_
  touched := by
    rintro s _ (rfl | ⟨v, v', hv, -, rfl⟩) h
    · exact h
    · rw [show s.data_ = some v from hv] at h
      exact h

/-- The log is right about the cells, and the flags are. -/
abbrev OptionInv (P : Payload V Unit) (w : OptionWorld A V) : Prop := Intact (optionFlag P) w

variable {w w' : OptionWorld A V}

namespace OptionInv

theorem flag (h : OptionInv P w) {a : A} {s : OptionBase V} (ha : w.mem a = some s) :
    s.data_.isSome = s.active_ := h.fields a s ha

/-- The payload of an active option is there. -/
theorem payload (h : OptionInv P w) {a : A} {s : OptionBase V} (ha : w.mem a = some s)
    (hact : s.active_ = true) : ∃ v, s.data_ = some v :=
  Option.isSome_iff_exists.mp ((flag h ha).trans hact)

/-- An option that is not active is empty. -/
theorem empty (h : OptionInv P w) {a : A} {s : OptionBase V} (ha : w.mem a = some s)
    (hact : s.active_ = false) : s = ⟨none, false⟩ := by
  have hflag := (flag h ha).trans hact
  rw [Option.isSome_eq_false_iff, Option.isNone_iff_eq_none] at hflag
  obtain ⟨d, f⟩ := s
  subst hact hflag
  rfl

/-- What an active option holds can be read. -/
theorem readable (h : OptionInv P w) {O : A} {s : OptionBase V} (hO : w.mem O = some s)
    (hact : s.active_ = true) (f : V → V) :
    (Source.copy O f).Readable P w () ∧ (Source.move O f).Readable P w () := by
  obtain ⟨v, hv⟩ := h.payload hO hact
  exact ⟨⟨s, v, hO, hv, rfl, rfl⟩, ⟨s, v, hO, hv, rfl, rfl⟩⟩

end OptionInv

namespace OptionCxx14

/-! ## Assertions

An accessor asserts and reads the flag; it changes nothing. -/

section Guards
variable {a : A} {s : OptionBase V} {Q : Unit → OptionWorld A V → Prop}
  {E : Stop → OptionWorld A V → Prop}

omit [DecidableEq A] in
theorem ends_active {Q : Bool → OptionWorld A V → Prop} (ha : w.mem a = some s) :
    Ends (active a) w Q E ↔ Q s.active_ w := by
  simp only [active, ends_bind, ends_load ha, ends_pure]

omit [DecidableEq A] in
/-- An accessor is what it asserts about the flag. -/
theorem ends_accessor (ha : w.mem a = some s) (x : OptionAccess) :
    Ends (x.run b a) w Q E ↔
      if (x.asserts s.active_).any (Assertion.aborts b) then E .aborted w else Q () w := by
  cases x <;> simp only [OptionAccess.run, OptionAccess.asserts, unwrap, unwrapConst, star,
    starConst, ends_bind, ends_active ha, ends_abortIf, List.any_cons, List.any_nil,
    Bool.or_false, Assertion.aborts, Bool.or_eq_true, ite_or]

omit [DecidableEq A] in
theorem ends_accessor_of (ha : w.mem a = some s) (x : OptionAccess) (hQ : Q () w)
    (hA : E .aborted w) : Ends (x.run b a) w Q E := by
  rw [ends_accessor ha]
  split
  · exact hA
  · exact hQ

omit [DecidableEq A] in
theorem ends_unwrap (ha : w.mem a = some s) (hQ : Q () w) (hA : E .aborted w) :
    Ends (unwrap b a) w Q E := ends_accessor_of ha .unwrap hQ hA

omit [DecidableEq A] in
theorem ends_star (ha : w.mem a = some s) (hQ : Q () w) (hA : E .aborted w) :
    Ends (star b a) w Q E := ends_accessor_of ha .star hQ hA

omit [DecidableEq A] in
theorem ends_starConst (ha : w.mem a = some s) (hQ : Q () w) (hA : E .aborted w) :
    Ends (starConst b a) w Q E := ends_accessor_of ha .starConst hQ hA

end Guards

/-! ## The calls -/

section Calls
variable {a : A} {s : OptionBase V} {Q : Unit → OptionWorld A V → Prop}
  {E : Stop → OptionWorld A V → Prop}

/-- What `clear` leaves of an option. -/
def cleared (w : OptionWorld A V) (a : A) (s : OptionBase V) : OptionWorld A V :=
  w.act (if s.active_ then [.destroy a ()] else []) a (some ⟨none, false⟩)

theorem ends_clear (h : OptionInv P w) (ha : w.mem a = some s) :
    Ends (clear false a) w Q E ↔ Q () (cleared w a s) := by
  cases hact : s.active_ with
  | true =>
      simp only [clear, OptionBase.clear, OptionBase.destroy, Lifetime.destroy, setActive,
        Bool.false_eq_true, if_false, ends_bind, ends_load ha, hact, if_true, ends_perform ha,
        ends_perform (World.act_mem_self ..), World.act_act, List.append_nil, cleared]
      rfl
  | false =>
      obtain rfl := h.empty ha hact
      simp [clear, OptionBase.clear, setActive, cleared, ends_load ha, ends_perform ha]

theorem cleared_inv (h : OptionInv P w) (ha : w.mem a = some s) :
    OptionInv P (cleared w a s) := by
  refine h.act ?_ rfl
  cases hact : s.active_ with
  | true =>
      obtain ⟨v, hv⟩ := h.payload ha hact
      exact h.tracks.destroy ha hv rfl
  | false =>
      obtain rfl := h.empty ha hact
      exact h.tracks.quiet ha rfl

/-- The end of `initialize` and of the constructors: build, then set the flag. -/
theorem ends_fill (h : OptionInv P w) (ha : w.mem a = some ⟨none, false⟩) {src : Source A V}
    (hsrc : src.Readable P w ())
    (hQ : ∀ w', OptionInv P w' → SameHolders w w' → Q () w')
    (hE : ∀ w', OptionInv P w' → SameHolders w w' → w'.mem a = some ⟨none, false⟩ →
      E .exception w') :
    Ends (constructFrom P a () src) w (fun _ w' => Ends (setActive a true) w' Q E) E := by
  refine ends_constructFrom h.tracks ha rfl hsrc ?_ ?_
  · intro w₁ v ht hs _
    have h₁ := h.similar ht hs
    have ha₁ := hs.mem_raw ha rfl
    rw [setActive, ends_perform (World.act_mem_self ..), World.act_act, List.append_nil]
    refine hQ _ (h₁.act (ht.construct ha₁ rfl rfl) rfl) ?_
    exact (SameHolders.of_similar hs).trans (SameHolders.act ha₁ _)
  · intro _ w₁ ht hs
    exact hE w₁ (h.similar ht hs) (SameHolders.of_similar hs) (hs.mem_raw ha rfl)

theorem ends_initialize_ (h : OptionInv P w) (ha : w.mem a = some ⟨none, false⟩)
    {src : Source A V} (hsrc : src.Readable P w ())
    (hQ : ∀ w', OptionInv P w' → SameHolders w w' → Q () w')
    (hE : ∀ w', OptionInv P w' → SameHolders w w' → E .exception w') (hA : E .aborted w) :
    Ends (initialize_ b P a src) w Q E := by
  simp only [initialize_, ends_bind, ends_active ha]
  refine ends_abortIf_of ?_ hA
  exact ends_fill h ha hsrc hQ fun w' h' hs _ => hE w' h' hs

end Calls

/-! ## Each operation keeps the invariant -/

section Keep
variable {a O : A}

theorem keeps_ctorFrom {src : Source A V} (h : OptionInv P w) (ha : w.mem a = none)
    (hsrc : src.Readable P w ()) :
    Ends (OptionBase.ctorFrom P a src) w (fun _ => OptionInv P) (Safe (OptionInv P)) := by
  have h₀ : OptionInv P _ := h.acquired (s := ⟨none, false⟩) ha rfl rfl
  have ha₀ := w.act_mem_self [.acquire a] a (some ⟨none, false⟩)
  simp only [OptionBase.ctorFrom, ends_bind, ends_acquire, ends_unwinding]
  refine ends_constructFrom h₀.tracks ha₀ rfl (hsrc.act (hsrc.apart ha) ..) ?_ ?_
  · intro w₁ v ht hs _
    have h₁ := h₀.similar ht hs
    have ha₁ := hs.mem_raw ha₀ rfl
    rw [setActive, ends_perform (World.act_mem_self ..), World.act_act, List.append_nil]
    exact h₁.act (ht.construct ha₁ rfl rfl) rfl
  · intro _ w₁ ht hs
    rw [if_pos rfl, ends_release]
    exact (h₀.similar ht hs).released (hs.mem_raw ha₀ rfl) rfl

/-- What the body of a throwing constructor leaves is an option that is not active. -/
theorem keeps_unwind (h : OptionInv P w) (ha : w.mem a = some ⟨none, false⟩) :
    Ends (unwind false a) w (fun _ => OptionInv P) (Safe (OptionInv P)) := by
  simp only [unwind, OptionBase.dtor, ends_bind, ends_load ha, Bool.false_eq_true, if_false,
    ends_pure, ends_release]
  exact h.released ha rfl

/-- The bodies of the copying and the moving constructors: `star` is how they read
`*O`, and `src` what they do with it. -/
theorem keeps_ctorBody {g : Prog (OptionWorld A V) Unit} {src : Source A V} (h : OptionInv P w)
    (ha : w.mem a = none) (hO : w.mem O ≠ none)
    (hg : ∀ {w₀ : OptionWorld A V} {s} {Q : Unit → OptionWorld A V → Prop} {E},
      w₀.mem O = some s → Q () w₀ → E .aborted w₀ → Ends g w₀ Q E)
    (hsrc : ∀ {w₀ : OptionWorld A V} {s}, OptionInv P w₀ → w₀.mem O = some s →
      s.active_ = true → src.Readable P w₀ ()) :
    Ends (do
      OptionBase.ctor a
      Prog.unwinding (do
        if (← hasValue O) then
          g
          constructFrom P a () src
          setActive a true) (unwind false a)) w
      (fun _ => OptionInv P) (Safe (OptionInv P)) := by
  obtain ⟨s, hs⟩ := Option.ne_none_iff_exists'.mp hO
  have hne : O ≠ a := by
    rintro rfl
    rw [ha] at hs
    cases hs
  have h₀ : OptionInv P _ := h.acquired (s := ⟨none, false⟩) ha rfl rfl
  have ha₀ := w.act_mem_self [.acquire a] a (some ⟨none, false⟩)
  have hO₀ : (w.act [.acquire a] a (some ⟨none, false⟩)).mem O = some s := by
    rw [World.act_mem_of_ne _ _ _ hne, hs]
  simp only [OptionBase.ctor, ends_bind, ends_acquire, ends_unwinding, hasValue, ends_active hO₀,
    ends_ite]
  refine ⟨fun hact => ?_, fun _ => h₀⟩
  refine hg hO₀ ?_ trivial
  refine ends_fill h₀ ha₀ (hsrc h₀ hO₀ hact) ?_ ?_
  · intro w' h' _
    exact h'
  · intro w' h' _ ha'
    rw [if_pos rfl]
    exact (keeps_unwind h' ha').mono (fun _ _ => id) fun _ _ => id

theorem keeps_ofConvertCopy (f : V → V) (h : OptionInv P w) (ha : w.mem a = none)
    (hO : w.mem O ≠ none) :
    Ends (ofConvertCopy false b P a O f) w (fun _ => OptionInv P) (Safe (OptionInv P)) :=
  keeps_ctorBody h ha hO ends_starConst fun h₀ hs hact => (h₀.readable hs hact f).1

theorem keeps_ofConvertMove (f : V → V) (h : OptionInv P w) (ha : w.mem a = none)
    (hO : w.mem O ≠ none) :
    Ends (ofConvertMove false b P a O f) w (fun _ => OptionInv P) (Safe (OptionInv P)) :=
  Ends.noexcept (keeps_ctorBody h ha hO ends_star fun h₀ hs hact => (h₀.readable hs hact f).2)

theorem keeps_clear (h : OptionInv P w) (ha : w.mem a ≠ none) :
    Ends (clear false a) w (fun _ => OptionInv P) (Safe (OptionInv P)) := by
  obtain ⟨s, hs⟩ := Option.ne_none_iff_exists'.mp ha
  exact (ends_clear h hs).mpr (cleared_inv h hs)

/-- An assignment to an active option is one to its payload. -/
theorem keeps_assignPayload {s : OptionBase V} {src : Source A V} (h : OptionInv P w)
    (ha : w.mem a = some s) (hact : s.active_ = true) (hsrc : src.Readable P w ()) :
    Ends (assignFrom P a () src) w (fun _ => OptionInv P) (Safe (OptionInv P)) := by
  obtain ⟨v, hv⟩ := h.payload ha hact
  exact ends_assignFrom h.tracks ha hv rfl hsrc (fun _ => h.similar) fun _ => h.similar

/-- An assignment to an option that is not active initializes it. -/
theorem keeps_initialize_ {s : OptionBase V} {src : Source A V} (h : OptionInv P w)
    (ha : w.mem a = some s) (hact : s.active_ = false) (hsrc : src.Readable P w ()) :
    Ends (initialize_ b P a src) w (fun _ => OptionInv P) (Safe (OptionInv P)) := by
  rw [h.empty ha hact] at ha
  exact ends_initialize_ h ha hsrc (fun _ h' _ => h') (fun _ h' _ => h') trivial

theorem keeps_assignCopy (h : OptionInv P w) (ha : w.mem a ≠ none) (hO : w.mem O ≠ none) :
    Ends (assignCopy false b P a O) w (fun _ => OptionInv P) (Safe (OptionInv P)) := by
  obtain ⟨s, hs⟩ := Option.ne_none_iff_exists'.mp ha
  obtain ⟨t, ht⟩ := Option.ne_none_iff_exists'.mp hO
  simp only [assignCopy, ends_bind, ends_active ht, ends_ite, ends_active hs]
  refine ⟨fun htact => ⟨fun hsact => ?_, fun hsact => ?_⟩, fun _ => keeps_clear h ha⟩
  · refine ends_unwrap hs ?_ trivial
    refine ends_starConst ht ?_ trivial
    exact keeps_assignPayload h hs hsact (h.readable ht htact id).1
  · refine ends_starConst ht ?_ trivial
    exact keeps_initialize_ h hs (by simpa using hsact) (h.readable ht htact id).1

theorem keeps_assignMove (h : OptionInv P w) (ha : w.mem a ≠ none) (hO : w.mem O ≠ none) :
    Ends (assignMove false b P a O) w (fun _ => OptionInv P) (Safe (OptionInv P)) := by
  obtain ⟨s, hs⟩ := Option.ne_none_iff_exists'.mp ha
  obtain ⟨t, ht⟩ := Option.ne_none_iff_exists'.mp hO
  refine Ends.noexcept ?_
  simp only [ends_bind, ends_active ht, ends_ite, ends_active hs]
  refine ⟨fun htact => ⟨fun hsact => ?_, fun hsact => ?_⟩, fun _ => keeps_clear h ha⟩
  · refine ends_unwrap hs ?_ trivial
    refine ends_star ht ?_ trivial
    exact keeps_assignPayload h hs hsact (h.readable ht htact id).2
  · refine ends_star ht ?_ trivial
    exact keeps_initialize_ h hs (by simpa using hsact) (h.readable ht htact id).2

theorem keeps_assignValue {u : Source A V} (h : OptionInv P w) (ha : w.mem a ≠ none)
    (hu : u.Readable P w ()) :
    Ends (assignValue b P a u) w (fun _ => OptionInv P) (Safe (OptionInv P)) := by
  obtain ⟨s, hs⟩ := Option.ne_none_iff_exists'.mp ha
  simp only [assignValue, ends_bind, ends_active hs, ends_ite]
  constructor
  · intro hact
    refine ends_unwrap hs ?_ trivial
    exact keeps_assignPayload h hs hact hu
  · intro hact
    exact keeps_initialize_ h hs (by simpa using hact) hu

/-- `emplace` empties the option and fills it; the other options are still there. -/
theorem ends_emplace {s : OptionBase V} {src : Source A V} {Q : Unit → OptionWorld A V → Prop}
    (h : OptionInv P w) (ha : w.mem a = some s) (hsrc : src.Readable P w ()) (hap : src.Apart a)
    (hQ : ∀ w', OptionInv P w' → SameHolders w w' → Q () w') :
    Ends (emplace false b P a src) w Q (Safe (OptionInv P)) := by
  rw [emplace, ends_bind, ends_clear h ha]
  refine ends_initialize_ (cleared_inv h ha) (World.act_mem_self ..) (hsrc.act hap ..) ?_ ?_ trivial
  · intro w' h' hs
    exact hQ w' h' ((SameHolders.act ha _).trans hs)
  · intro w' h' _
    exact h'

theorem keeps_swap_into {s t : OptionBase V} (h : OptionInv P w) (ha : w.mem a = some s)
    (hact : s.active_ = true) (hO : w.mem O = some t) (hOact : t.active_ = false) :
    Ends (emplace false b P O (.move a id)) w
      (fun _ w' => Ends (clear false a) w' (fun _ => OptionInv P) (Safe (OptionInv P)))
      (Safe (OptionInv P)) := by
  have hne : a ≠ O := by
    rintro rfl
    obtain rfl : s = t := Option.some.inj (ha.symm.trans hO)
    rw [hact] at hOact
    cases hOact
  refine ends_emplace h hO (h.readable ha hact id).2 hne fun w' h' hs => ?_
  refine keeps_clear h' fun hnone => ?_
  rw [hs a, ha] at hnone
  cases hnone

theorem keeps_swapOptions (h : OptionInv P w) (ha : w.mem a ≠ none) (hO : w.mem O ≠ none) :
    Ends (swap false b P a O) w (fun _ => OptionInv P) (Safe (OptionInv P)) := by
  obtain ⟨s, hs⟩ := Option.ne_none_iff_exists'.mp ha
  obtain ⟨t, ht⟩ := Option.ne_none_iff_exists'.mp hO
  simp only [swap, ends_bind, ends_active hs, ends_active ht, ends_ite, Bool.and_eq_true]
  constructor
  · rintro ⟨hsact, htact⟩
    obtain ⟨v, hv⟩ := h.payload hs hsact
    obtain ⟨u, hu⟩ := h.payload ht htact
    refine ends_star hs (ends_star ht ?_ trivial) trivial
    exact ends_swapPayload h.tracks hs hv rfl ht hu rfl (fun _ => h.similar) fun _ => h.similar
  · intro hboth
    refine ⟨fun hsact => ?_, fun hsact => ⟨fun htact => ?_, fun _ => h⟩⟩
    · have htact : t.active_ = false := by simpa [hsact] using hboth
      exact ends_star hs (keeps_swap_into h hs hsact ht htact) trivial
    · exact ends_star ht (keeps_swap_into h ht htact hs (by simpa using hsact)) trivial

theorem keeps_dtor (h : OptionInv P w) (ha : w.mem a ≠ none) :
    Ends (dtor false a) w (fun _ => OptionInv P) (Safe (OptionInv P)) := by
  obtain ⟨s, hs⟩ := Option.ne_none_iff_exists'.mp ha
  simp only [dtor, unwind, OptionBase.dtor, OptionBase.destroy, Lifetime.destroy,
    Bool.false_eq_true, if_false, ends_bind, ends_load hs, ends_ite, ends_perform hs, ends_release,
    ends_pure]
  constructor
  · intro hact
    obtain ⟨v, hv⟩ := h.payload hs hact
    have hdead : Tracks P (w.act [.destroy a ()] a (some (Holder.setCell s none))) :=
      h.tracks.destroy hs hv rfl
    have hgone := hdead.release (World.act_mem_self ..) rfl
    rw [World.act_act] at hgone ⊢
    exact h.removed hgone
  · intro hact
    rw [h.empty hs (by simpa using hact)] at hs
    exact h.released hs rfl

omit [DecidableEq A] in
theorem ends_look {Q : Option V → OptionWorld A V → Prop} {E : Stop → OptionWorld A V → Prop}
    {s : OptionBase V} (hO : w.mem O = some s) : Ends (look O) w Q E ↔ Q s.shown w := by
  rw [look, ends_bind, ends_load hO, ends_pure]

variable {T : OptionTraits V}

/-- A legal call, however it ends, keeps the invariant. -/
theorem keeps_optionOp {op : OptionOp A V} (h : OptionInv P w) (hlegal : op.Legal P T w) :
    Ends (op.run false b P T) w (fun _ => OptionInv P) (Safe (OptionInv P)) := by
  cases op with
  | ofNull a => exact h.acquired (s := ⟨none, false⟩) hlegal rfl rfl
  | ofValue a u | ofInPlace a u | ofInPlaceList a u => exact keeps_ctorFrom h hlegal.1 hlegal.2
  | ofCopy a O isConst =>
      obtain ⟨ha, hO, hF⟩ := hlegal
      obtain ⟨s, hs⟩ := Option.ne_none_iff_exists'.mp hO
      rw [OptionOp.run]
      refine Forwarded.ends_copy (ends_look hs) hF ?_ ?_
      · exact fun _ => keeps_ofConvertCopy id h ha hO
      · exact fun _ _ => keeps_ctorFrom h ha rfl
  | ofMove a O => exact keeps_ofConvertMove id h hlegal.1 hlegal.2
  | ofConvertCopy a O f isConst =>
      obtain ⟨ha, hO, hF⟩ := hlegal
      obtain ⟨s, hs⟩ := Option.ne_none_iff_exists'.mp hO
      rw [OptionOp.run]
      refine Forwarded.ends_copy (ends_look hs) hF ?_ ?_
      · exact fun _ => keeps_ofConvertCopy f h ha hO
      · exact fun _ _ => keeps_ctorFrom h ha rfl
  | ofConvertMove a O f => exact keeps_ofConvertMove f h hlegal.1 hlegal.2
  | assignNull a | reset a => exact Ends.noexcept (keeps_clear h hlegal)
  | assignValue a u => exact keeps_assignValue h hlegal.1 hlegal.2
  | assignCopy a O isConst =>
      obtain ⟨ha, hO, hF⟩ := hlegal
      obtain ⟨s, hs⟩ := Option.ne_none_iff_exists'.mp hO
      rw [OptionOp.run]
      refine Forwarded.ends_copy (ends_look hs) hF ?_ ?_
      · exact fun _ => keeps_assignCopy h ha hO
      · exact fun _ _ => keeps_assignValue h ha rfl
  | assignMove a O => exact keeps_assignMove h hlegal.1 hlegal.2
  | emplace a args =>
      obtain ⟨ha, hsrc, hap⟩ := hlegal
      obtain ⟨s, hs⟩ := Option.ne_none_iff_exists'.mp ha
      exact ends_emplace h hs hsrc hap fun _ h' _ => h'
  | swap a O => exact keeps_swapOptions h hlegal.1 hlegal.2
  | destroy a => exact keeps_dtor h hlegal

end Keep

end OptionCxx14

/-! ## Runs -/

/-- The log's account of an option is its flag. -/
theorem OptionInv.sound (h : OptionInv P w) : OptionSound w where
  tracks := by
    refine ⟨_, h.tracks, fun a => ?_⟩
    cases hs : w.mem a with
    | none => simp [World.phases, hs]
    | some s =>
        have hact : s.active_ = true ↔ ∃ v, s.data_ = some v := by
          rw [← h.flag hs, Option.isSome_iff_exists]
        cases hd : s.data_ <;> simp [World.phases, hs, cellPhase, Holder.cell, hact, hd]
  once _ := h.destroyedOnce

theorem option_run_inv {T : OptionTraits V} {replies : Nat → Reply} {ops : List (OptionOp A V)}
    (h : Run (optionStep b P T) (World.init replies) ops w) : OptionInv P w := by
  refine h.invariant (.init replies) ?_
  rintro w op w' hw ⟨hlegal, hok | herr⟩
  · exact (keeps_optionOp hw hlegal).of_ok hok
  · exact (keeps_optionOp hw hlegal).of_error herr

/-- Whatever the options are made to do, and wherever the payload throws. -/
theorem option_run_sound {T : OptionTraits V} {replies : Nat → Reply} {ops : List (OptionOp A V)}
    (h : Run (optionStep b P T) (World.init replies) ops w) : OptionSound w :=
  (option_run_inv h).sound

/-- No step of a run reads an object that is not there. -/
theorem option_step_defined {T : OptionTraits V} {replies : Nat → Reply} {ops : List (OptionOp A V)}
    {op : OptionOp A V} (h : Run (optionStep b P T) (World.init replies) ops w)
    (hlegal : op.Legal P T w) : op.run false b P T w ≠ .error .undefined w' := by
  intro hund
  exact (keeps_optionOp (b := b) (option_run_inv h) hlegal).of_error hund

end

/-- Numbers, whose code leaves every value as it is. -/
def natPayload : Payload Nat Unit := ⟨fun _ => (), fun _ v => v, fun _ _ => rfl⟩

/-- No number can be made of an option. -/
def plainTraits : OptionTraits Nat := ⟨.notViable, .notViable, .notViable⟩

/-- An option, a copy of it whose constructor throws, and the end of the first. -/
theorem throwing_copy_sound :
    ∃ w : OptionWorld Nat Nat, OptionSound w ∧ (∀ a, w.mem a = none) ∧
      w.log = [.acquire 0, .construct 0 (), .acquire 1, .release 1, .destroy 0 (), .release 0] := by
  let replies : Nat → Reply := fun n => ⟨n == 1, false⟩
  have valued : Run (optionStep ⟨.cxx14CxprEval, false⟩ natPayload plainTraits) (World.init replies)
      ([] ++ [OptionOp.ofValue 0 (.value 5)]) _ := .snoc .nil ⟨⟨rfl, rfl⟩, .inl rfl⟩
  have thrown := Run.snoc (i := OptionOp.ofCopy 1 0 false) valued
    ⟨⟨rfl, nofun, fun _ => nofun⟩, .inr rfl⟩
  have gone := Run.snoc (i := OptionOp.destroy 0) thrown ⟨nofun, .inl rfl⟩
  refine ⟨_, option_run_sound gone, fun a => ?_, rfl⟩
  rcases a with _ | _ | a <;> rfl

end EflCore
