/-
# `EflCore.Option.Refinement` — every call does what `std::optional` does

`Shows w st` goes through the code of each call: what the payload's code is given, what it
leaves, and what the flag says then.  The rules below are about the calls that have other
calls made of them.

    call                from                    to                          if the payload throws
    initialize          st a = some none        a holds the argument        the argument was touched
    assignment          a holds something       a holds the argument        both were touched
    clear               a is there              a is empty                  cannot throw

A destructor that does nothing leaves its object in the cell; that is out of sight, and the
next one is built over it.
-/
import EflCore.Option.Optional

namespace EflCore

open Lifetime
open OptionBase (setActive)

section
variable {A V : Type} [DecidableEq A]

/-! ## Pools -/

namespace Optionals
variable {P : Payload V Unit} {st : Optionals A V} {a : A} {t : Touch}

open Function (update)

omit [DecidableEq A] in
theorem payloads_eq {o : Option V} (ha : st a = some o) : st.payloads a = o := by
  rw [payloads, ha, Option.join_some]

omit [DecidableEq A] in
theorem payloads_of_none (ha : st a = none) : st.payloads a = none := by
  rw [payloads, ha, Option.join_none]

omit [DecidableEq A] in
theorem eq_of_payloads {v : V} (ha : st.payloads a = some v) : st a = some (some v) :=
  Option.join_eq_some_iff.mp ha

theorem payloads_update (o : Option (Option V)) :
    (Optionals.payloads (update st a o)) = update st.payloads a o.join := by
  funext c
  rcases eq_or_ne c a with rfl | hc
  · rw [payloads, Function.update_self, Function.update_self]
  · rw [payloads, Function.update_of_ne hc, Function.update_of_ne hc, payloads]

theorem touch_of_some {v : V} (ha : st a = some (some v)) :
    st.touch P t a = update st a (some (some (P.after t v))) := by
  rw [touch, ha]
  rfl

/-- Nothing is there to be touched. -/
theorem touch_of_none (ha : st.payloads a = none) : st.touch P t a = st := by
  rw [touch]
  refine (Function.update_eq_self_iff ..).mpr ?_
  cases hst : st a with
  | none => rfl
  | some o =>
      rw [payloads_eq hst] at ha
      rw [ha]
      rfl

/-- Reading an argument from somewhere else leaves `a` alone. -/
theorem read_of_apart {src : Source A V} (hap : src.Apart a) : st.read P t src a = st a := by
  cases src with
  | value v => rfl
  | copy b f => rfl
  | move b f => exact Function.update_of_ne (Ne.symm hap) ..

theorem read_update {src : Source A V} (hap : src.Apart a) (o : Option (Option V)) :
    Optionals.read P (update st a o) t src = update (st.read P t src) a o := by
  cases src with
  | value v => rfl
  | copy b f => rfl
  | move b f =>
      have hne : b ≠ a := hap
      simp only [read, touch, Function.update_of_ne hne]
      exact Function.update_comm hne.symm ..

/-- An option that was begun and is gone again leaves nothing behind. -/
theorem removed_read {src : Source A V} (ha : st a = none) (hap : src.Apart a) :
    update (Optionals.read P (update st a (some none)) t src) a none = st.read P t src := by
  have hread : st.read P t src a = none := (read_of_apart hap).trans ha
  rw [read_update hap, Function.update_idem, ← hread, Function.update_eq_self]

omit [DecidableEq A] in
/-- Nothing that is not there can be an argument. -/
theorem apart_of_taken {src : Source A V} (ha : st.payloads a = none)
    (hsrc : src.taken st.payloads ≠ none) : src.Apart a := by
  cases src with
  | value v => trivial
  | copy b f | move b f =>
      rintro rfl
      rw [Source.taken, ha] at hsrc
      exact hsrc rfl

/-- What is engaged stays so when some payload changes. -/
theorem engaged_update {c : A} {old u : V} (ha : st a = some (some old)) :
    ∃ u', update st c (some (some u)) a = some (some u') := by
  rcases eq_or_ne a c with rfl | hne
  · exact ⟨u, Function.update_self ..⟩
  · exact ⟨old, (Function.update_of_ne hne ..).trans ha⟩

theorem taken_update {src : Source A V} (hap : src.Apart a) (o : Option (Option V)) :
    src.taken (Optionals.payloads (update st a o)) = src.taken st.payloads := by
  rw [payloads_update, Source.taken_update hap]

end Optionals

/-! ## The fields of an option, by what it shows -/

namespace Shows
variable {P : Payload V Unit} {b : Build} {trivial : Bool} {w : OptionWorld A V}
  {st : Optionals A V} {r : Nat → Reply} {a : A} {E : Stop → OptionWorld A V → Prop}

open Function (update)

omit [DecidableEq A] in
theorem init (replies : Nat → Reply) :
    Shows (World.init replies : OptionWorld A V) (fun _ => none) replies := ⟨nofun, rfl, rfl⟩

omit [DecidableEq A] in
theorem tick (h : Shows w st r) : Shows w.tick st fun n => r (n + 1) :=
  ⟨h.full, h.shown, by rw [← h.replies]; rfl⟩

theorem act (h : Shows w st r) (es : List (Event A Unit)) {s : Option (OptionBase V)}
    {o : Option (Option V)} (ho : s.map OptionBase.shown = o)
    (hfull : ∀ t, s = some t → t.active_ = true → t.data_ ≠ none) :
    Shows (w.act es a s) (update st a o) r where
  full c t hc hact := by
    rcases eq_or_ne c a with rfl | hne
    · rw [World.act_mem_self] at hc
      exact hfull t hc hact
    · rw [World.act_mem_of_ne _ _ _ hne] at hc
      exact h.full c t hc hact
  shown := by
    funext c
    rcases eq_or_ne c a with rfl | hne
    · rw [Function.update_self, EflCore.shown, World.act_mem_self, ho]
    · rw [Function.update_of_ne hne, EflCore.shown, World.act_mem_of_ne _ _ _ hne, ← h.shown]
      rfl
  replies := h.replies

theorem gone (h : Shows w st r) (es : List (Event A Unit)) (a : A) :
    Shows (w.act es a none) (update st a none) r := by
  refine h.act es rfl ?_
  rintro _ ⟨⟩

omit [DecidableEq A] in
theorem mem (h : Shows w st r) {o : Option V} (ha : st a = some o) :
    ∃ s, w.mem a = some s ∧ s.shown = o := by
  rw [← h.shown] at ha
  exact Option.map_eq_some_iff.mp ha

omit [DecidableEq A] in
/-- An option that shows something holds it. -/
theorem engaged (h : Shows w st r) {v : V} (ha : st a = some (some v)) :
    w.mem a = some ⟨some v, true⟩ := by
  obtain ⟨⟨d, x⟩, hs, hshown⟩ := h.mem ha
  cases x with
  | true =>
      obtain rfl : d = some v := hshown
      exact hs
  | false => cases hshown

omit [DecidableEq A] in
/-- One that does not is not active. -/
theorem empty (h : Shows w st r) (ha : st a = some none) : ∃ d, w.mem a = some ⟨d, false⟩ := by
  obtain ⟨⟨d, x⟩, hs, hshown⟩ := h.mem ha
  cases x with
  | true => exact absurd hshown (h.full a _ hs rfl)
  | false => exact ⟨d, hs⟩

omit [DecidableEq A] in
theorem ends_active {Q : Bool → OptionWorld A V → Prop} (h : Shows w st r) {o : Option V}
    (ha : st a = some o) : Ends (OptionCxx14.active a) w Q E ↔ Q o.isSome w := by
  cases o with
  | some v => exact OptionCxx14.ends_active (h.engaged ha)
  | none =>
      obtain ⟨d, hs⟩ := h.empty ha
      exact OptionCxx14.ends_active hs

/-! ### Assertions that pass -/

section Guards
variable {Q : Unit → OptionWorld A V → Prop} {v : V}

omit [DecidableEq A] in
/-- Of an option that has a value an accessor asserts only what is true. -/
theorem ends_accessor (h : Shows w st r) (ha : st a = some (some v)) {x : OptionAccess}
    (hq : ∀ c ∈ x.asserts true, c.aborts b = false) : Ends (x.run b a) w Q E ↔ Q () w := by
  have hany : (x.asserts true).any (Assertion.aborts b) = false := by
    simpa only [List.any_eq_false, Bool.not_eq_true] using hq
  rw [OptionCxx14.ends_accessor (h.engaged ha), hany, if_neg Bool.false_ne_true]

omit [DecidableEq A] in
theorem ends_unwrap (h : Shows w st r) (ha : st a = some (some v))
    (hb : cxprAssert b true = false) : Ends (OptionCxx14.unwrap b a) w Q E ↔ Q () w :=
  h.ends_accessor (x := .unwrap) ha (List.forall_mem_singleton.mpr hb)

omit [DecidableEq A] in
theorem ends_star (h : Shows w st r) (ha : st a = some (some v))
    (hb : ∀ c ∈ starAsserts, c.aborts b = false) : Ends (OptionCxx14.star b a) w Q E ↔ Q () w :=
  h.ends_accessor (x := .star) ha hb

omit [DecidableEq A] in
theorem ends_starConst (h : Shows w st r) (ha : st a = some (some v))
    (hb : ∀ c ∈ starConstAsserts, c.aborts b = false) :
    Ends (OptionCxx14.starConst b a) w Q E ↔ Q () w :=
  h.ends_accessor (x := .starConst) ha hb

end Guards

/-! ### Calls into the payload -/

theorem ends_overwrite {Q : Unit → OptionWorld A V → Prop} (h : Shows w st r) {v u : V}
    (ha : st a = some (some v)) (hQ : ∀ w', Shows w' (update st a (some (some u))) r → Q () w') :
    Ends (overwrite a u) w Q E := by
  rw [overwrite, ends_perform (h.engaged ha)]
  refine hQ _ (h.act [] rfl ?_)
  rintro _ ⟨⟩ _
  exact Option.some_ne_none _

theorem ends_makeFrom {Q : V → OptionWorld A V → Prop} (h : Shows w st r) {src : Source A V} {v : V}
    (hsrc : src.taken st.payloads = some v)
    (hQ : ∀ w' r', Shows w' (st.read P .movedFrom src) r' → Q v w')
    (hE : (r 0).ctorThrows = true → ∀ w' r', Shows w' (st.read P .threw src) r' →
      E .exception w') :
    Ends (makeFrom P () src) w Q E := by
  rw [← h.replies] at hE
  have hread : ∀ {c u}, st.payloads c = some u → w.mem c = some ⟨some u, true⟩ := fun hc =>
    h.engaged (Optionals.eq_of_payloads hc)
  cases src with
  | value u =>
      obtain rfl : u = v := Option.some.inj hsrc
      simp only [makeFrom, ends_bind, ends_reply, ends_ite, ends_throw, ends_pure]
      exact ⟨fun ht => hE ht _ _ h.tick, fun _ => hQ _ _ h.tick⟩
  | copy c f =>
      obtain ⟨u, hu, rfl⟩ := Option.map_eq_some_iff.mp hsrc
      simp only [makeFrom, ends_bind, ends_deref (hread hu) rfl rfl, ends_reply, ends_ite,
        ends_throw, ends_pure]
      exact ⟨fun ht => hE ht _ _ h.tick, fun _ => hQ _ _ h.tick⟩
  | move c f =>
      obtain ⟨u, hu, rfl⟩ := Option.map_eq_some_iff.mp hsrc
      have hc := Optionals.eq_of_payloads hu
      simp only [Optionals.read, Optionals.touch_of_some hc] at hQ hE
      simp only [makeFrom, ends_bind, ends_deref (hread hu) rfl rfl, ends_reply, ends_ite,
        ends_throw, ends_pure]
      constructor
      · intro ht
        exact h.tick.ends_overwrite hc fun w' h' => hE ht w' _ h'
      · intro _
        exact h.tick.ends_overwrite hc fun w' h' => hQ w' _ h'

section
variable {Q : Unit → OptionWorld A V → Prop}

/-- The end of `initialize` and of the constructors: the payload is made and built, and the flag
is set. -/
theorem ends_fill {E' : Stop → OptionWorld A V → Prop} (h : Shows w st r) (ha : st a = some none)
    {src : Source A V} {v : V} (hsrc : src.taken st.payloads = some v)
    (hQ : ∀ w' r', Shows w' (update (st.read P .movedFrom src) a (some (some v))) r' → Q () w')
    (hE : (r 0).ctorThrows = true → ∀ w' r', Shows w' (st.read P .threw src) r' →
      E .exception w') :
    Ends (constructFrom P a () src) w (fun _ w' => Ends (setActive a true) w' Q E') E := by
  have hap : src.Apart a := Optionals.apart_of_taken (Optionals.payloads_eq ha) (by simp [hsrc])
  rw [constructFrom_eq, ends_bind]
  refine h.ends_makeFrom hsrc (fun w' r' h' => ?_) hE
  obtain ⟨d, hs⟩ := h'.empty ((Optionals.read_of_apart hap).trans ha)
  rw [construct, ends_perform hs, setActive, ends_perform (World.act_mem_self ..), World.act_act]
  refine hQ _ r' (h'.act _ rfl ?_)
  rintro _ ⟨⟩ _
  exact Option.some_ne_none _

theorem ends_assignFrom (hP : SelfKeeps P) (h : Shows w st r) {old : V}
    (ha : st a = some (some old)) {src : Source A V} {v : V}
    (hsrc : src.taken st.payloads = some v) (hplain : src.Plain a)
    (hQ : ∀ w' r', Shows w' (update (st.read P .movedFrom src) a (some (some v))) r' → Q () w')
    (hE : (r 0).assignThrows = true → ∀ w' r',
      Shows w' (update (st.read P .threw src) a (some (some (P.after .threw old)))) r' →
        E .exception w') :
    Ends (assignFrom P a () src) w Q E := by
  rw [← h.replies] at hE
  have hread : ∀ {c u}, st c = some (some u) → w.mem c = some ⟨some u, true⟩ := h.engaged
  have kept : ∀ {c : A} {f : V → V} {t u}, (c = a → f = id) → (∀ x, P.after t x = x) →
      (if c = a then P.after t u else f u) = f u := by
    intro c f t u hf ht
    split
    next hc => rw [ht, hf hc, id_eq]
    next => rfl
  cases src with
  | value u =>
      obtain rfl : u = v := Option.some.inj hsrc
      simp only [assignFrom, ends_bind, ends_deref (hread ha) rfl rfl, ends_reply, ends_ite,
        ends_throw]
      constructor
      · intro ht
        exact h.tick.ends_overwrite ha fun w' h' => hE ht w' _ h'
      · intro _
        exact h.tick.ends_overwrite ha fun w' h' => hQ w' _ h'
  | copy c f =>
      obtain ⟨u, hu, rfl⟩ := Option.map_eq_some_iff.mp hsrc
      have hc := Optionals.eq_of_payloads hu
      simp only [assignFrom, ends_bind, ends_deref (hread ha) rfl rfl,
        ends_deref (hread hc) rfl rfl, ends_reply, ends_ite, ends_throw]
      constructor
      · intro ht
        exact h.tick.ends_overwrite ha fun w' h' => hE ht w' _ h'
      · intro _
        rw [kept hplain hP.assigned]
        exact h.tick.ends_overwrite ha fun w' h' => hQ w' _ h'
  | move c f =>
      obtain ⟨u, hu, rfl⟩ := Option.map_eq_some_iff.mp hsrc
      have hc := Optionals.eq_of_payloads hu
      simp only [Optionals.read, Optionals.touch_of_some hc] at hQ hE
      simp only [assignFrom, ends_bind, ends_deref (hread ha) rfl rfl,
        ends_deref (hread hc) rfl rfl, ends_reply, ends_ite, ends_throw]
      constructor
      · intro ht
        refine h.tick.ends_overwrite hc fun w' h' => ?_
        obtain ⟨u', hu'⟩ := Optionals.engaged_update ha
        exact h'.ends_overwrite hu' fun w' h' => hE ht w' _ h'
      · intro _
        rw [kept hplain hP.moved]
        refine h.tick.ends_overwrite hc fun w' h' => ?_
        obtain ⟨u', hu'⟩ := Optionals.engaged_update ha
        exact h'.ends_overwrite hu' fun w' h' => hQ w' _ h'

theorem ends_swapPayload (hP : SelfKeeps P) (h : Shows w st r) {c : A} {v u : V}
    (ha : st a = some (some v)) (hc : st c = some (some u))
    (hQ : ∀ w' r', Shows w' (update (update st a (some (some u))) c (some (some v))) r' → Q () w')
    (hE : (r 0).assignThrows = true → ∀ w' r',
      Shows w' (update (st.touch P .threw a) c (some (some (P.after .threw u)))) r' →
        E .exception w') :
    Ends (swapPayload P a c ()) w Q E := by
  rw [← h.replies] at hE
  rw [Optionals.touch_of_some ha] at hE
  have kept : (if a = c then P.after .selfSwapped v else v) = v := by
    split
    next => exact hP.swapped v
    next => rfl
  simp only [swapPayload, ends_bind, ends_deref (h.engaged ha) rfl rfl,
    ends_deref (h.engaged hc) rfl rfl, ends_reply, ends_ite, ends_throw, kept]
  constructor
  · intro ht
    refine h.tick.ends_overwrite ha fun w' h' => ?_
    obtain ⟨u', hu'⟩ := Optionals.engaged_update hc
    exact h'.ends_overwrite hu' fun w' h' => hE ht w' _ h'
  · intro _
    refine h.tick.ends_overwrite ha fun w' h' => ?_
    obtain ⟨u', hu'⟩ := Optionals.engaged_update hc
    exact h'.ends_overwrite hu' fun w' h' => hQ w' _ h'

/-! ### Emptying and removing an option -/

theorem ends_clear (h : Shows w st r) {o : Option V} (ha : st a = some o)
    (hQ : ∀ w', Shows w' (update st a (some none)) r → Q () w') :
    Ends (OptionCxx14.clear trivial a) w Q E := by
  obtain ⟨s, hs, hshown⟩ := h.mem ha
  have inactive : ∀ {d : Option V} (t : OptionBase V), some (OptionBase.mk d false) = some t →
      t.active_ = true → t.data_ ≠ none := by rintro d _ ⟨⟩ ⟨⟩
  cases trivial with
  | true =>
      simp only [OptionCxx14.clear, OptionBase.clear, if_true, setActive, ends_perform hs]
      exact hQ _ (h.act _ rfl inactive)
  | false =>
      simp only [OptionCxx14.clear, OptionBase.clear, OptionBase.destroy, Bool.false_eq_true,
        if_false, Lifetime.destroy, setActive, ends_bind, ends_load hs, ends_ite, ends_perform hs,
        ends_perform (World.act_mem_self ..), World.act_act]
      exact ⟨fun _ => hQ _ (h.act _ rfl inactive), fun _ => hQ _ (h.act _ rfl inactive)⟩

theorem ends_unwind (h : Shows w st r) {o : Option V} (ha : st a = some o)
    (hQ : ∀ w', Shows w' (update st a none) r → Q () w') :
    Ends (OptionCxx14.unwind trivial a) w Q E := by
  obtain ⟨s, hs, hshown⟩ := h.mem ha
  cases trivial with
  | true =>
      simp only [OptionCxx14.unwind, OptionBase.dtor, if_true, ends_bind, ends_pure, ends_release]
      exact hQ _ (h.gone _ a)
  | false =>
      simp only [OptionCxx14.unwind, OptionBase.dtor, OptionBase.destroy, Bool.false_eq_true,
        if_false, Lifetime.destroy, ends_bind, ends_load hs, ends_ite, ends_pure, ends_perform hs,
        ends_release, World.act_act]
      exact ⟨fun _ => hQ _ (h.gone _ a), fun _ => hQ _ (h.gone _ a)⟩

theorem ends_initialize_ (h : Shows w st r) (hb : dbgAssert b true = false)
    (ha : st a = some none) {src : Source A V} {v : V} (hsrc : src.taken st.payloads = some v)
    (hQ : ∀ w' r', Shows w' (update (st.read P .movedFrom src) a (some (some v))) r' → Q () w')
    (hE : (r 0).ctorThrows = true → ∀ w' r',
      Shows w' (update (st.read P .threw src) a (some none)) r' → E .exception w') :
    Ends (OptionCxx14.initialize_ b P a src) w Q E := by
  have hap : src.Apart a := Optionals.apart_of_taken (Optionals.payloads_eq ha) (by simp [hsrc])
  simp only [OptionCxx14.initialize_, ends_bind, h.ends_active ha, Option.isSome_none,
    Bool.not_false, hb, ends_abortIf, Bool.false_eq_true, if_false]
  refine h.ends_fill ha hsrc hQ fun ht w' r' h' => hE ht w' r' ?_
  have hread : st.read P .threw src a = some none := (Optionals.read_of_apart hap).trans ha
  rw [← hread, Function.update_eq_self]
  exact h'

theorem ends_emplace (h : Shows w st r) (hb : dbgAssert b true = false) {o : Option V}
    (ha : st a = some o) {src : Source A V} {v : V} (hsrc : src.taken st.payloads = some v)
    (hap : src.Apart a)
    (hQ : ∀ w' r', Shows w' (update (st.read P .movedFrom src) a (some (some v))) r' → Q () w')
    (hE : (r 0).ctorThrows = true → ∀ w' r',
      Shows w' (update (st.read P .threw src) a (some none)) r' → E .exception w') :
    Ends (OptionCxx14.emplace trivial b P a src) w Q E := by
  rw [OptionCxx14.emplace, ends_bind]
  refine h.ends_clear ha fun w₁ h₁ => ?_
  refine h₁.ends_initialize_ hb (Function.update_self ..)
    ((Optionals.taken_update hap _).trans hsrc) ?_ ?_
  · intro w' r' h'
    rw [Optionals.read_update hap, Function.update_idem] at h'
    exact hQ w' r' h'
  · intro ht w' r' h'
    rw [Optionals.read_update hap, Function.update_idem] at h'
    exact hE ht w' r' h'

/-! ### Constructors -/

theorem acquired (h : Shows w st r) (a : A) :
    Shows (w.act [.acquire a] a (some ⟨none, false⟩)) (update st a (some none)) r := by
  refine h.act _ rfl ?_
  rintro _ ⟨⟩ ⟨⟩

theorem ends_ctorFrom (h : Shows w st r) (ha : st a = none) {src : Source A V} {v : V}
    (hsrc : src.taken st.payloads = some v)
    (hQ : ∀ w' r', Shows w' (update (st.read P .movedFrom src) a (some (some v))) r' → Q () w')
    (hE : (r 0).ctorThrows = true → ∀ w' r', Shows w' (st.read P .threw src) r' →
      E .exception w') :
    Ends (OptionBase.ctorFrom P a src) w Q E := by
  have hap : src.Apart a :=
    Optionals.apart_of_taken (Optionals.payloads_of_none ha) (by simp [hsrc])
  simp only [OptionBase.ctorFrom, ends_bind, ends_acquire, ends_unwinding]
  refine (h.acquired a).ends_fill (Function.update_self ..)
    ((Optionals.taken_update hap _).trans hsrc) ?_ ?_
  · intro w' r' h'
    rw [Optionals.read_update hap, Function.update_idem] at h'
    exact hQ w' r' h'
  · intro ht w' r' h'
    rw [if_pos rfl, ends_release]
    refine hE ht _ r' ?_
    rw [← Optionals.removed_read ha hap]
    exact h'.gone _ a

/-- The bodies of the copying and the moving constructors: `g` is what reading `*O` asserts. -/
theorem ends_ctorBody {g : Prog (OptionWorld A V) Unit} {O : A} {f : V → V} {o : Option V}
    {src : Source A V} (h : Shows w st r) (ha : st a = none) (hO : st O = some o)
    (hg : ∀ {w₀ : OptionWorld A V} {st₀ : Optionals A V} {v Q E}, o = some v → Shows w₀ st₀ r →
      st₀ O = some (some v) → Q () w₀ → Ends g w₀ Q E)
    (hsrc : src = .copy O f ∨ src = .move O f)
    (hQ : ∀ w' r', Shows w' (update (st.read P .movedFrom src) a (some (o.map f))) r' → Q () w')
    (hE : (r 0).ctorThrows = true → ∀ w' r', Shows w' (st.read P .threw src) r' →
      E .exception w') :
    Ends (do
      OptionBase.ctor a
      Prog.unwinding (do
        if (← OptionCxx14.hasValue O) then
          g
          constructFrom P a () src
          setActive a true) (OptionCxx14.unwind trivial a)) w Q E := by
  have hne : O ≠ a := by
    rintro rfl
    rw [ha] at hO
    cases hO
  have hO₀ : update st a (some none) O = some o := (Function.update_of_ne hne ..).trans hO
  have hap : src.Apart a := by rcases hsrc with rfl | rfl <;> exact hne
  simp only [OptionBase.ctor, ends_bind, ends_acquire, ends_unwinding, OptionCxx14.hasValue,
    (h.acquired a).ends_active hO₀, ends_ite, ends_pure]
  cases o with
  | none =>
      have hread : st.read P .movedFrom src = st := by
        rcases hsrc with rfl | rfl
        · rfl
        · exact Optionals.touch_of_none (Optionals.payloads_eq hO)
      rw [hread] at hQ
      exact ⟨not_taken, fun _ => hQ _ r (h.acquired a)⟩
  | some v =>
      have htaken : src.taken st.payloads = some (f v) := by
        have hv : st.payloads O = some v := Optionals.payloads_eq hO
        rcases hsrc with rfl | rfl
        · rw [Source.taken, hv, Option.map_some]
        · rw [Source.taken, hv, Option.map_some]
      refine ⟨fun _ => hg rfl (h.acquired a) hO₀ ?_, not_skipped⟩
      refine (h.acquired a).ends_fill (Function.update_self ..)
        ((Optionals.taken_update hap _).trans htaken) ?_ ?_
      · intro w' r' h'
        rw [Optionals.read_update hap, Function.update_idem] at h'
        exact hQ w' r' h'
      · intro ht w' r' h'
        have hread : Optionals.read P (update st a (some none)) .threw src a = some none := by
          rw [Optionals.read_update hap, Function.update_self]
        rw [if_pos rfl]
        refine h'.ends_unwind hread fun w'' h'' => ?_
        rw [Optionals.removed_read ha hap] at h''
        exact hE ht w'' r' h''

/-! ## Every call does what `std::optional` does -/

section
variable {O : A}

/-- `operator=(const Option&)` and `operator=(Option&&)`: reading `*O` is `g`, which asserts
`gs`. -/
theorem ends_assignOption {g : Prog (OptionWorld A V) Unit} {src : Source A V} {o o' : Option V}
    (hP : SelfKeeps P) (h : Shows w st r) (ha : st a = some o) (hO : st O = some o')
    {gs : List Assertion} (hsrc : src = .copy O id ∨ src = .move O id)
    (hg : ∀ {v Q E}, o' = some v → (∀ c ∈ gs, c.aborts b = false) → Q () w → Ends g w Q E)
    (hq : ∀ c ∈ (if o'.isSome then
        if o.isSome then .cxpr true :: gs else gs ++ [.dbg true]
      else []), c.aborts b = false)
    (hQ : ∀ w' r', Shows w' (update (st.read P .movedFrom src) a (some o')) r' → Q () w')
    (hE : (r 0).throws = true → ∀ w' r',
      Shows w' (update (st.read P .threw src) a (some (o.map (P.after .threw)))) r' →
        E .exception w') :
    Ends (do
      if (← OptionCxx14.active O) then
        if (← OptionCxx14.active a) then
          OptionCxx14.unwrap b a
          g
          assignFrom P a () src
        else
          g
          OptionCxx14.initialize_ b P a src
      else
        OptionCxx14.clear trivial a) w Q E := by
  simp only [ends_bind, h.ends_active hO, h.ends_active ha, ends_ite]
  cases o' with
  | none =>
      have hread : st.read P .movedFrom src = st := by
        rcases hsrc with rfl | rfl
        · rfl
        · exact Optionals.touch_of_none (Optionals.payloads_eq hO)
      rw [hread] at hQ
      exact ⟨not_taken, fun _ => h.ends_clear ha fun w' h' => hQ w' r h'⟩
  | some v =>
      have hv : st.payloads O = some v := Optionals.payloads_eq hO
      have htaken : src.taken st.payloads = some v := by
        rcases hsrc with rfl | rfl
        · rw [Source.taken, hv, Option.map_some, id_eq]
        · rw [Source.taken, hv, Option.map_some, id_eq]
      refine ⟨fun _ => ?_, not_skipped⟩
      cases o with
      | some old =>
          have hplain : src.Plain a := by rcases hsrc with rfl | rfl <;> exact fun _ => rfl
          refine ⟨fun _ => ?_, not_skipped⟩
          refine (h.ends_unwrap ha (hq (.cxpr true) List.mem_cons_self)).mpr ?_
          refine hg rfl (fun c hc => hq c (List.mem_cons_of_mem _ hc)) ?_
          exact h.ends_assignFrom hP ha htaken hplain hQ fun ht => hE (Reply.throws_of_assign ht)
      | none =>
          have hdbg : dbgAssert b true = false :=
            hq (.dbg true) (List.mem_append_right _ List.mem_cons_self)
          refine ⟨not_taken, fun _ => hg rfl (fun c hc => hq c (List.mem_append_left _ hc)) ?_⟩
          exact h.ends_initialize_ hdbg ha htaken hQ fun ht => hE (Reply.throws_of_ctor ht)

/-- `operator=(U&&)`. -/
theorem ends_assignValue {src : Source A V} {v : V} {o : Option V} (hP : SelfKeeps P)
    (h : Shows w st r)
    (ha : st a = some o) (hsrc : src.taken st.payloads = some v) (hplain : src.Plain a)
    (hq : ∀ c ∈ if o.isSome then [Assertion.cxpr true] else [Assertion.dbg true],
      c.aborts b = false)
    (hQ : ∀ w' r', Shows w' (update (st.read P .movedFrom src) a (some (some v))) r' → Q () w')
    (hE : (r 0).throws = true → ∀ w' r',
      Shows w' (update (st.read P .threw src) a (some (o.map (P.after .threw)))) r' →
        E .exception w') :
    Ends (OptionCxx14.assignValue b P a src) w Q E := by
  simp only [OptionCxx14.assignValue, ends_bind, h.ends_active ha, ends_ite]
  cases o with
  | some old =>
      refine ⟨fun _ => (h.ends_unwrap ha (hq (.cxpr true) List.mem_cons_self)).mpr ?_, not_skipped⟩
      exact h.ends_assignFrom hP ha hsrc hplain hQ fun ht => hE (Reply.throws_of_assign ht)
  | none =>
      have hdbg : dbgAssert b true = false := hq (.dbg true) List.mem_cons_self
      refine ⟨not_taken, fun _ => ?_⟩
      exact h.ends_initialize_ hdbg ha hsrc hQ fun ht => hE (Reply.throws_of_ctor ht)

omit [DecidableEq A] in
theorem ne_of_engaged {v : V} (ha : st a = some (some v)) (hO : st O = some none) : a ≠ O := by
  rintro rfl
  rw [ha] at hO
  cases hO

/-- One side of `swap`: `a` is engaged and `O` is not. -/
theorem ends_swapto {v : V} (h : Shows w st r) (ha : st a = some (some v)) (hO : st O = some none)
    (hdbg : dbgAssert b true = false)
    (hQ : ∀ w' r', Shows w' (update (update st a (some none)) O (some (some v))) r' → Q () w')
    (hE : (r 0).throws = true → ∀ w' r', Shows w' (st.touch P .threw a) r' → E .exception w') :
    Ends (OptionCxx14.emplace trivial b P O (.move a id)) w
      (fun _ w' => Ends (OptionCxx14.clear trivial a) w' Q E) E := by
  have hne : a ≠ O := ne_of_engaged ha hO
  have hv : (Source.move a id).taken st.payloads = some v := by
    rw [Source.taken, Optionals.payloads_eq ha, Option.map_some, id_eq]
  refine h.ends_emplace hdbg hO hv hne ?_ ?_
  · intro w₁ r₁ h₁
    simp only [Optionals.read, Optionals.touch_of_some ha] at h₁
    obtain ⟨u, ha₁⟩ := Optionals.engaged_update (c := O) (u := v) (Function.update_self (f := st) a
      (some (some (P.after .movedFrom v))))
    refine h₁.ends_clear ha₁ fun w' h' => hQ w' r₁ ?_
    rw [Function.update_comm hne, Function.update_idem, Function.update_comm hne.symm] at h'
    exact h'
  · intro ht w' r' h'
    refine hE (Reply.throws_of_ctor ht) w' r' ?_
    have hread : st.touch P .threw a O = some none := (Function.update_of_ne hne.symm ..).trans hO
    rw [← hread, Optionals.read, Function.update_eq_self] at h'
    exact h'

theorem ends_ofConvertCopy (h : Shows w st r) {f : V → V} {isConst : Bool} {o : Option V} (ha : st a = none)
    (hO : st O = some o) (hq : (OptionOp.ofConvertCopy a O f isConst).Quiet b st)
    (hQ : ∀ w' r', Shows w' (update st a (some (o.map f))) r' → Q () w')
    (hE : (r 0).throws = true → ∀ w' r', Shows w' st r' → E .exception w') :
    Ends (OptionCxx14.ofConvertCopy trivial b P a O f) w Q E := by
  refine h.ends_ctorBody ha hO ?_ (.inl rfl) hQ fun ht => hE (Reply.throws_of_ctor ht)
  intro w₀ st₀ v Q₀ E₀ ho h₀ hO₀ hQ₀
  subst ho
  simp only [OptionOp.Quiet, OptionOp.asserts, Optionals.payloads_eq hO, Option.isSome_some,
    if_true] at hq
  exact (h₀.ends_starConst hO₀ hq).mpr hQ₀

theorem ends_ofConvertMove (h : Shows w st r) {f : V → V} {o : Option V} (ha : st a = none)
    (hO : st O = some o) (hq : (OptionOp.ofConvertMove a O f).Quiet b st)
    (hQ : ∀ w' r', Shows w' (update (st.touch P .movedFrom O) a (some (o.map f))) r' → Q () w')
    (hE : (r 0).throws = true → ∀ w', E .terminated w') :
    Ends (OptionCxx14.ofConvertMove trivial b P a O f) w Q E := by
  rw [OptionCxx14.ofConvertMove, ends_noexcept]
  refine h.ends_ctorBody ha hO ?_ (.inr rfl) hQ fun ht w' _ _ => hE (Reply.throws_of_ctor ht) w'
  intro w₀ st₀ v Q₀ E₀ ho h₀ hO₀ hQ₀
  subst ho
  simp only [OptionOp.Quiet, OptionOp.asserts, Optionals.payloads_eq hO, Option.isSome_some,
    if_true] at hq
  exact (h₀.ends_star hO₀ hq).mpr hQ₀

/-- `swap`, in all four combinations. -/
theorem follows_swap (hP : SelfKeeps P) (h : Shows w st r) (hop : (OptionOp.swap a O).Allowed st)
    (hq : (OptionOp.swap a O).Quiet b st) :
    Ends (OptionCxx14.swap trivial b P a O) w
      (fun _ w' => ∃ r', Shows w' ((OptionOp.swap a O).after P st) r')
      ((OptionOp.swap a O).Stopped P st r) := by
  obtain ⟨ha, hO⟩ := hop
  obtain ⟨o, ho⟩ := Option.ne_none_iff_exists'.mp ha
  obtain ⟨o', ho'⟩ := Option.ne_none_iff_exists'.mp hO
  simp only [OptionOp.Quiet, OptionOp.asserts, Optionals.payloads_eq ho,
    Optionals.payloads_eq ho'] at hq
  simp only [OptionCxx14.swap, ends_bind, h.ends_active ho, h.ends_active ho',
    ends_ite, OptionOp.after, ho, ho']
  have hstar : ∀ {l}, (∀ c ∈ starAsserts ++ l, c.aborts b = false) →
      ∀ c ∈ starAsserts, c.aborts b = false := fun hl c hc => hl c (List.mem_append_left _ hc)
  cases o with
  | some v =>
      cases o' with
      | some u =>
          refine ⟨fun _ => ?_, not_skipped⟩
          refine (h.ends_star ho (hstar hq)).mpr ((h.ends_star ho' (hstar hq)).mpr ?_)
          refine h.ends_swapPayload hP ho ho' (fun w' r' h' => ⟨r', h'⟩) fun ht w' r' h' => ?_
          refine ⟨Reply.throws_of_assign ht, r', ?_⟩
          rw [OptionOp.afterThrow, ho']
          exact h'
      | none =>
          refine ⟨not_taken, fun _ => ⟨fun _ => ?_, not_skipped⟩⟩
          refine (h.ends_star ho (hstar hq)).mpr ?_
          refine h.ends_swapto ho ho' (hq (.dbg true) (by simp)) (fun w' r' h' => ⟨r', h'⟩)
            fun ht w' r' h' => ⟨ht, r', ?_⟩
          have hO₁ : st.touch P .threw a O = some none :=
            (Function.update_of_ne (ne_of_engaged ho ho').symm ..).trans ho'
          rw [OptionOp.afterThrow, ho', Option.map_some, Option.map_none, ← hO₁,
            Function.update_eq_self]
          exact h'
  | none =>
      cases o' with
      | some u =>
          refine ⟨not_taken, fun _ => ⟨not_taken, fun _ => ⟨fun _ => ?_, not_skipped⟩⟩⟩
          refine (h.ends_star ho' (hstar hq)).mpr ?_
          refine h.ends_swapto ho' ho (hq (.dbg true) (by simp)) (fun w' r' h' => ⟨r', ?_⟩)
            fun ht w' r' h' => ⟨ht, r', ?_⟩
          · rw [Function.update_comm (ne_of_engaged ho' ho).symm]
            exact h'
          · rw [OptionOp.afterThrow, Optionals.touch_of_none (Optionals.payloads_eq ho)]
            exact h'
      | none =>
          refine ⟨not_taken, fun _ => ⟨not_taken, fun _ => ⟨not_taken, fun _ => ⟨r, ?_⟩⟩⟩⟩
          have hsame : update st a (some none) = st := by rw [← ho, Function.update_eq_self]
          rw [hsame, ← ho', Function.update_eq_self]
          exact h

/-- A call ends as `std::optional` has it. -/
theorem follows (hP : SelfKeeps P) (h : Shows w st r) {T : OptionTraits V} {op : OptionOp A V}
    (hop : op.Allowed st) (hmeant : op.Meant b st T) :
    Ends (op.run trivial b P T) w (fun _ w' => ∃ r', Shows w' (op.after P st) r')
      (op.Stopped P st r) := by
  obtain ⟨hspecial, hq⟩ := hmeant
  cases op with
  | ofNull a => exact ⟨r, h.acquired a⟩
  | ofValue a u | ofInPlace a u | ofInPlaceList a u =>
      obtain ⟨ha, hu⟩ := hop
      obtain ⟨v, hv⟩ := Option.ne_none_iff_exists'.mp hu
      refine h.ends_ctorFrom ha hv (fun w' r' h' => ⟨r', ?_⟩) fun ht w' r' h' => ?_
      · rw [OptionOp.after, hv]
        exact h'
      · exact ⟨Reply.throws_of_ctor ht, r', h'⟩
  | ofCopy a O isConst =>
      obtain ⟨ha, hO⟩ := hop
      rw [OptionOp.run, Forwarded.copy_special hspecial]
      obtain ⟨o, ho⟩ := Option.ne_none_iff_exists'.mp hO
      have hconvert : (OptionOp.ofConvertCopy a O id isConst).Quiet b st := hq
      refine h.ends_ofConvertCopy ha ho hconvert (fun w' r' h' => ⟨r', ?_⟩) fun ht w' r' h' => ?_
      · rw [Option.map_id, id_eq, ← ho] at h'
        exact h'
      · exact ⟨ht, r', h'⟩
  | ofMove a O =>
      obtain ⟨ha, hO⟩ := hop
      obtain ⟨o, ho⟩ := Option.ne_none_iff_exists'.mp hO
      refine h.ends_ofConvertMove ha ho hq (fun w' r' h' => ⟨r', ?_⟩) fun ht w' => ⟨ht, rfl⟩
      rw [Option.map_id, id_eq, ← ho] at h'
      exact h'
  | ofConvertCopy a O f isConst =>
      obtain ⟨ha, hO⟩ := hop
      rw [OptionOp.run, Forwarded.copy_special hspecial]
      obtain ⟨o, ho⟩ := Option.ne_none_iff_exists'.mp hO
      refine h.ends_ofConvertCopy ha ho hq (fun w' r' h' => ⟨r', ?_⟩) fun ht w' r' h' => ?_
      · rw [OptionOp.after, ho]
        exact h'
      · exact ⟨ht, r', h'⟩
  | ofConvertMove a O f =>
      obtain ⟨ha, hO⟩ := hop
      obtain ⟨o, ho⟩ := Option.ne_none_iff_exists'.mp hO
      refine h.ends_ofConvertMove ha ho hq (fun w' r' h' => ⟨r', ?_⟩) fun ht w' => ⟨ht, rfl⟩
      rw [OptionOp.after, ho]
      exact h'
  | assignNull a | reset a =>
      obtain ⟨o, ho⟩ := Option.ne_none_iff_exists'.mp hop
      refine (ends_noexcept _).mpr ?_
      exact h.ends_clear ho fun w' h' => ⟨r, h'⟩
  | assignValue a u =>
      obtain ⟨ha, hu, hplain⟩ := hop
      obtain ⟨o, ho⟩ := Option.ne_none_iff_exists'.mp ha
      obtain ⟨v, hv⟩ := Option.ne_none_iff_exists'.mp hu
      simp only [OptionOp.Quiet, OptionOp.asserts, Optionals.payloads_eq ho] at hq
      refine h.ends_assignValue hP ho hv hplain hq (fun w' r' h' => ⟨r', ?_⟩) fun ht w' r' h' => ?_
      · rw [OptionOp.after, hv]
        exact h'
      · refine ⟨ht, r', ?_⟩
        rw [OptionOp.afterThrow, ho]
        exact h'
  | assignCopy a O isConst =>
      obtain ⟨ha, hO⟩ := hop
      rw [OptionOp.run, Forwarded.copy_special hspecial]
      obtain ⟨o, ho⟩ := Option.ne_none_iff_exists'.mp ha
      obtain ⟨o', ho'⟩ := Option.ne_none_iff_exists'.mp hO
      simp only [OptionOp.Quiet, OptionOp.asserts, Optionals.payloads_eq ho,
        Optionals.payloads_eq ho'] at hq
      refine h.ends_assignOption hP ho ho' (.inl rfl) ?_ hq (fun w' r' h' => ⟨r', ?_⟩)
        fun ht w' r' h' => ⟨ht, r', ?_⟩
      · rintro v Q E rfl hpass hQ
        exact (h.ends_starConst ho' hpass).mpr hQ
      · rw [← ho'] at h'
        exact h'
      · rw [OptionOp.afterThrow, Optionals.touch, ho]
        exact h'
  | assignMove a O =>
      obtain ⟨ha, hO⟩ := hop
      obtain ⟨o, ho⟩ := Option.ne_none_iff_exists'.mp ha
      obtain ⟨o', ho'⟩ := Option.ne_none_iff_exists'.mp hO
      simp only [OptionOp.Quiet, OptionOp.asserts, Optionals.payloads_eq ho,
        Optionals.payloads_eq ho'] at hq
      refine (ends_noexcept _).mpr ?_
      refine h.ends_assignOption hP ho ho' (.inr rfl) ?_ hq (fun w' r' h' => ⟨r', ?_⟩)
        fun ht w' r' h' => ⟨ht, rfl⟩
      · rintro v Q E rfl hpass hQ
        exact (h.ends_star ho' hpass).mpr hQ
      · rw [← ho'] at h'
        exact h'
  | emplace a args =>
      obtain ⟨ha, hu, hap⟩ := hop
      obtain ⟨o, ho⟩ := Option.ne_none_iff_exists'.mp ha
      obtain ⟨v, hv⟩ := Option.ne_none_iff_exists'.mp hu
      have hdbg : dbgAssert b true = false := hq (.dbg true) (by simp [OptionOp.asserts])
      refine h.ends_emplace hdbg ho hv hap (fun w' r' h' => ⟨r', ?_⟩) fun ht w' r' h' => ?_
      · rw [OptionOp.after, hv]
        exact h'
      · exact ⟨Reply.throws_of_ctor ht, r', h'⟩
  | swap a O => exact h.follows_swap hP hop hq
  | destroy a =>
      obtain ⟨o, ho⟩ := Option.ne_none_iff_exists'.mp hop
      exact h.ends_unwind ho fun w' h' => ⟨r, h'⟩

end

end

/-! ## What the observers say -/

/-- A step leads to what `std::optional` would show. -/
theorem step (hP : SelfKeeps P) (h : Shows w st r) {T : OptionTraits V} {c : OptionOp A V × Bool}
    {w' : OptionWorld A V} (hmeant : c.1.Meant b (EflCore.shown w) T)
    (hstep : optionalStep trivial b P T w c w') :
    ∃ r', Shows w' (OptionOp.next P st c) r' := by
  obtain ⟨op, threw⟩ := c
  obtain ⟨hop, hrun⟩ := hstep
  rw [h.shown] at hmeant hop
  have hends : Ends (op.run trivial b P T) w _ _ := h.follows hP hop hmeant
  cases threw with
  | true => exact (hends.of_error hrun).2
  | false => exact hends.of_ok hrun

end Shows

/-! ## Runs -/

end

end EflCore
