/-
# `EflCore.Result.Refinement` — every call does what a sum type does

`Shows c w st`: the results of `w`, of either class `c`, look like `st`, and no constructor
is going to throw.  In the middle of a call one result looks like nothing in particular
(`ShowsBut`), and the others still do.

    call               from               to
    destroy            Shows              ShowsBut a
    constructFrom      ShowsBut a         ShowsBut a, and the member is in the cell
    active_ = x        that               Shows, with a updated

Only what is stored is read: everything but the `Dummy` of `Result<void, E>` (`Stores`).
-/
import EflCore.Result.Sum
import EflCore.Result.Lifetime

namespace EflCore

open Lifetime
open ResultBase (setActive)
open Function (update)

section
variable {A V : Type} {c : ResultClass V} {b : Build} {trivial : Bool}

namespace ResultClass

/-- There is something to be read on the side `k`. -/
def Stores (c : ResultClass V) (k : Member) : Prop := ∀ T, c = .void T → k = .err_

theorem stores_object (T : ResultTypes V) (k : Member) : (object T).Stores k := nofun

theorem stores_err (c : ResultClass V) : c.Stores .err_ := fun _ _ => rfl

/-- What is stored and seen is in the cell. -/
theorem data_of_seen {s : ResultBase V} {v : V} {k : Member} (hk : c.Stores k)
    (hs : c.seen s = some v) (hside : memberOf s.active_ = k) : s.data_ = some v := by
  cases c with
  | object T => exact hs
  | void T =>
      obtain rfl := hk T rfl
      have hact : s.active_ = false := by
        cases hx : s.active_ with
        | true => rw [hx] at hside; cases hside
        | false => rfl
      rw [seen, hact] at hs
      exact hs

/-- What is in the cell and stored is seen. -/
theorem seen_of_data {v : V} {x : Bool} (hk : c.Stores (memberOf x)) :
    c.seen ⟨some v, x⟩ = some v := by
  cases c with
  | object T => rfl
  | void T =>
      cases x with
      | true => cases hk T rfl
      | false => rfl

theorem err_of_ne_data {k : Member} (h : k ≠ .data_) : k = .err_ := by
  cases k with
  | data_ => exact absurd rfl h
  | err_ => rfl

/-- The results of `w` look like `st`, and no constructor throws. -/
structure Shows (c : ResultClass V) (w : ResultWorld A V) (st : A → Option V) : Prop where
  full : ∀ a s, w.mem a = some s → ∃ v, c.seen s = some v ∧ c.types.kind v = memberOf s.active_
  shown : c.shown w = st
  nothrow : w.NoCtorThrows

/-- The same but for the result at `a`, which is in the middle of something. -/
structure ShowsBut (c : ResultClass V) (a : A) (w : ResultWorld A V) (st : A → Option V) :
    Prop where
  full : ∀ d s, d ≠ a → w.mem d = some s →
    ∃ v, c.seen s = some v ∧ c.types.kind v = memberOf s.active_
  shown : ∀ d, d ≠ a → c.shown w d = st d
  nothrow : w.NoCtorThrows

variable {w : ResultWorld A V} {st : A → Option V} {a : A}

theorem mem_of_shown {v : V} (h : c.shown w a = some v) :
    ∃ s, w.mem a = some s ∧ c.seen s = some v := Option.bind_eq_some_iff.mp h

theorem Shows.init (assignThrows : Nat → Bool) :
    Shows c (World.init (Reply.assigning assignThrows) : ResultWorld A V) fun _ => none :=
  ⟨nofun, rfl, fun _ => rfl⟩

theorem Shows.but (h : Shows c w st) : ShowsBut c a w st :=
  ⟨fun d s _ => h.full d s, fun d _ => congrFun h.shown d, h.nothrow⟩

theorem Shows.tick (h : Shows c w st) : Shows c w.tick st := ⟨h.full, h.shown, h.nothrow.tick⟩

theorem ShowsBut.tick (h : ShowsBut c a w st) : ShowsBut c a w.tick st :=
  ⟨h.full, h.shown, h.nothrow.tick⟩

theorem Shows.mem (h : Shows c w st) {v : V} (ha : st a = some v) :
    ∃ s, w.mem a = some s ∧ c.seen s = some v ∧ c.types.kind v = memberOf s.active_ := by
  rw [← h.shown] at ha
  obtain ⟨s, hs, hv⟩ := mem_of_shown ha
  obtain ⟨u, hu, hk⟩ := h.full a s hs
  obtain rfl : v = u := Option.some.inj (hv.symm.trans hu)
  exact ⟨s, hs, hv, hk⟩

/-- The flag tells the side. -/
theorem active_of_kind {s : ResultBase V} {v : V} (hk : c.types.kind v = memberOf s.active_) :
    s.active_ = decide (c.types.kind v = .data_) := by
  rw [hk]
  cases s.active_ <;> rfl

theorem ends_hasValue {s : ResultBase V} {v : V} (ha : w.mem a = some s)
    (hk : c.types.kind v = memberOf s.active_) {Q : Bool → ResultWorld A V → Prop}
    {E : Stop → ResultWorld A V → Prop} :
    Ends (Result.hasValue a) w Q E ↔ Q (c.types.kind v = .data_) w := by
  rw [Result.ends_hasValue ha, active_of_kind hk]

theorem Shows.ends_hasValue (h : Shows c w st) {v : V} (ha : st a = some v)
    {Q : Bool → ResultWorld A V → Prop} {E : Stop → ResultWorld A V → Prop} :
    Ends (Result.hasValue a) w Q E ↔ Q (c.types.kind v = .data_) w := by
  obtain ⟨s, hs, -, hk⟩ := h.mem ha
  exact ResultClass.ends_hasValue hs hk

theorem ShowsBut.ends_hasValue (h : ShowsBut c a w st) {d : A} {v : V} (hne : d ≠ a)
    (hd : st d = some v) {Q : Bool → ResultWorld A V → Prop} {E : Stop → ResultWorld A V → Prop} :
    Ends (Result.hasValue d) w Q E ↔ Q (c.types.kind v = .data_) w := by
  rw [← h.shown d hne] at hd
  obtain ⟨s, hs, hv⟩ := mem_of_shown hd
  obtain ⟨u, hu, hk⟩ := h.full d s hne hs
  obtain rfl : v = u := Option.some.inj (hv.symm.trans hu)
  exact ResultClass.ends_hasValue hs hk

variable [DecidableEq A]

/-- What happens at `a` does not concern the others. -/
theorem ShowsBut.act (h : ShowsBut c a w st) (es : List (Event A Member))
    (o : Option (ResultBase V)) : ShowsBut c a (w.act es a o) st where
  full d s hd hs := by
    rw [World.act_mem_of_ne _ _ _ hd] at hs
    exact h.full d s hd hs
  shown d hd := by
    rw [ResultClass.shown, World.act_mem_of_ne _ _ _ hd]
    exact h.shown d hd
  nothrow := h.nothrow

/-- The result at `a` looks like something again. -/
theorem ShowsBut.done (h : ShowsBut c a w st) {s : ResultBase V} {v : V} (ha : w.mem a = some s)
    (hv : c.seen s = some v) (hk : c.types.kind v = memberOf s.active_) :
    Shows c w (update st a (some v)) where
  full d t hd := by
    rcases eq_or_ne d a with rfl | hne
    · obtain rfl : s = t := Option.some.inj (ha.symm.trans hd)
      exact ⟨v, hv, hk⟩
    · exact h.full d t hne hd
  shown := by
    funext d
    rcases eq_or_ne d a with rfl | hne
    · rw [Function.update_self, ResultClass.shown, ha, Option.bind_some, hv]
    · rw [Function.update_of_ne hne, h.shown d hne]
  nothrow := h.nothrow

theorem ShowsBut.gone (h : ShowsBut c a w st) (ha : w.mem a = none) :
    Shows c w (update st a none) where
  full d t hd := by
    rcases eq_or_ne d a with rfl | hne
    · rw [ha] at hd
      cases hd
    · exact h.full d t hne hd
  shown := by
    funext d
    rcases eq_or_ne d a with rfl | hne
    · rw [Function.update_self, ResultClass.shown, ha, Option.bind_none]
    · rw [Function.update_of_ne hne, h.shown d hne]
  nothrow := h.nothrow

omit [DecidableEq A] in
/-- What is stored in another result can be read there. -/
theorem ShowsBut.cell (h : ShowsBut c a w st) {d : A} {v : V} (hne : d ≠ a) (hd : st d = some v)
    (hk : c.Stores (c.types.kind v)) :
    ∃ x, w.mem d = some ⟨some v, x⟩ ∧ c.types.kind v = memberOf x := by
  rw [← h.shown d hne] at hd
  obtain ⟨⟨o, x⟩, hs, hv⟩ := mem_of_shown hd
  obtain ⟨u, hu, hside⟩ := h.full d _ hne hs
  obtain rfl : v = u := Option.some.inj (hv.symm.trans hu)
  obtain rfl : o = some v := data_of_seen hk hv hside.symm
  exact ⟨x, hs, hside⟩

omit [DecidableEq A] in
theorem ShowsBut.readable (h : ShowsBut c a w st) {src : Source A V} {k : Member}
    (hsrc : src.OfKind c.types.kind st k) (hk : c.Stores k) (hap : src.Apart a) :
    src.Readable c.types.toPayload w k := by
  cases src with
  | value v => exact hsrc
  | copy d f | move d f =>
      obtain ⟨v, hd, rfl, hf⟩ := hsrc
      obtain ⟨x, hs, -⟩ := h.cell hap hd hk
      exact ⟨_, v, hs, rfl, rfl, hf⟩

omit [DecidableEq A] in
theorem ShowsBut.taken_held (h : ShowsBut c a w st) {src : Source A V} {k : Member}
    (hsrc : src.OfKind c.types.kind st k) (hk : c.Stores k) (hap : src.Apart a) :
    src.taken w.held = src.taken st := by
  cases src with
  | value v => rfl
  | copy d f | move d f =>
      obtain ⟨v, hd, rfl, -⟩ := hsrc
      obtain ⟨x, hs, -⟩ := h.cell hap hd hk
      rw [Source.taken, Source.taken, World.held_eq hs, hd]
      rfl

/-- Another result is given a value of the kind it had. -/
theorem ShowsBut.act_other (h : ShowsBut c a w st) (es : List (Event A Member)) {d : A} {v : V}
    {x : Bool} (hv : c.types.kind v = memberOf x) (hk : c.Stores (c.types.kind v)) :
    ShowsBut c a (w.act es d (some ⟨some v, x⟩)) (update st d (some v)) where
  full e s he hs := by
    rcases eq_or_ne e d with rfl | hne
    · rw [World.act_mem_self] at hs
      obtain rfl := Option.some.inj hs
      rw [hv] at hk
      exact ⟨v, seen_of_data hk, hv⟩
    · rw [World.act_mem_of_ne _ _ _ hne] at hs
      exact h.full e s he hs
  shown e he := by
    rcases eq_or_ne e d with rfl | hne
    · rw [hv] at hk
      rw [Function.update_self, ResultClass.shown, World.act_mem_self, Option.bind_some,
        seen_of_data hk]
    · rw [Function.update_of_ne hne, ResultClass.shown, World.act_mem_of_ne _ _ _ hne]
      exact h.shown e he
  nothrow := h.nothrow

/-- Reading an argument from somewhere else leaves the result at `a` alone. -/
theorem ShowsBut.leaves (h : ShowsBut c a w st) {src : Source A V} {k : Member}
    (hsrc : src.OfKind c.types.kind st k) (hk : c.Stores k) (hap : src.Apart a) :
    ShowsBut c a (src.leaves c.types.toPayload w) (src.left c.types.toPayload st) ∧
      (src.leaves c.types.toPayload w).mem a = w.mem a := by
  cases src with
  | value v => exact ⟨h.tick, rfl⟩
  | copy d f => exact ⟨h.tick, rfl⟩
  | move d f =>
      obtain ⟨v, hd, rfl, -⟩ := hsrc
      obtain ⟨x, hs, hside⟩ := h.cell hap hd hk
      have hkind := c.types.kind_after .movedFrom v
      refine ⟨?_, World.act_mem_of_ne _ _ _ (Ne.symm hap)⟩
      simp only [Source.leaves, Source.left, hs, hd, Option.map_some]
      exact h.tick.act_other [] (hkind.trans hside) (hkind ▸ hk)

/-! ## The parts of the calls -/

section Rules
variable {Q : Unit → ResultWorld A V → Prop} {E : Stop → ResultWorld A V → Prop} {k : Member}
  {x : Bool}

/-- No constructor throws, and what is built is the argument. -/
theorem ShowsBut.ends_constructFrom (h : ShowsBut c a w st) {s : ResultBase V}
    (ha : w.mem a = some s) {src : Source A V} (hsrc : src.OfKind c.types.kind st k)
    (hk : c.Stores k) (hap : src.Apart a)
    (hQ : ∀ w' v, src.taken st = some v → c.types.kind v = k →
      ShowsBut c a w' (src.left c.types.toPayload st) → w'.mem a = some ⟨some v, s.active_⟩ →
        Q () w') :
    Ends (constructFrom c.types.toPayload a k src) w Q E := by
  have hread := h.readable hsrc hk hap
  obtain ⟨hleaves, hmem⟩ := h.leaves hsrc hk hap
  obtain ⟨v, hv, hkind, hends⟩ := ends_constructFrom_exact (a := a) (Q := Q) (E := E) hread
    (h.nothrow 0)
  rw [h.taken_held hsrc hk hap] at hv
  rw [hends, construct, ends_perform (hmem.trans ha)]
  exact hQ _ v hv hkind (hleaves.act _ _) (World.act_mem_self ..)

/-- A result whose flag names the side is one when its member is built. -/
theorem ShowsBut.ends_build (h : ShowsBut c a w st) {o : Option V} (ha : w.mem a = some ⟨o, x⟩)
    {src : Source A V} (hsrc : src.OfKind c.types.kind st (memberOf x))
    (hk : c.Stores (memberOf x)) (hap : src.Apart a)
    (hQ : ∀ w', Shows c w' (update (src.left c.types.toPayload st) a (src.taken st)) → Q () w') :
    Ends (constructFrom c.types.toPayload a (memberOf x) src) w Q E := by
  refine h.ends_constructFrom ha hsrc hk hap fun w' v htaken hv h' hmem => ?_
  rw [htaken] at hQ
  exact hQ w' (h'.done hmem (seen_of_data hk) hv)

theorem ShowsBut.cleared (h : ShowsBut c a w st) (s : ResultBase V) :
    ShowsBut c a (Result.cleared trivial c.types w a s) st := by
  rw [Result.cleared]
  split
  · exact h.act _ _
  · exact h

/-- `initialize_data`, `initialize_err`. -/
theorem Shows.ends_initialize_ (h : Shows c w st) (ha : st a ≠ none) {src : Source A V}
    (hsrc : src.OfKind c.types.kind st (memberOf x)) (hk : c.Stores (memberOf x))
    (hap : src.Apart a)
    (hQ : ∀ w', Shows c w' (update (src.left c.types.toPayload st) a (src.taken st)) → Q () w') :
    Ends (Result.initialize_ trivial c.types x a src false) w Q E := by
  obtain ⟨v, hv⟩ := Option.ne_none_iff_exists'.mp ha
  obtain ⟨s, hs, -⟩ := h.mem hv
  rw [Result.ends_initialize_ hs, Result.gone_false, if_neg Bool.false_ne_true, Result.opened]
  refine ((h.but.cleared s).act [] _).ends_constructFrom (World.act_mem_self ..) hsrc hk hap ?_
  intro w₂ u htaken hu h₂ hmem
  rw [setActive, ends_perform hmem]
  rw [htaken] at hQ
  refine hQ _ ((h₂.act _ _).done (World.act_mem_self ..) ?_ hu)
  exact seen_of_data hk

theorem Shows.ends_ctorFrom (h : Shows c w st) (ha : st a = none) {src : Source A V}
    (hsrc : src.OfKind c.types.kind st (memberOf x)) (hk : c.Stores (memberOf x))
    (hQ : ∀ w', Shows c w' (update (src.left c.types.toPayload st) a (src.taken st)) → Q () w') :
    Ends (ResultBase.ctorFrom c.types x a src) w Q E := by
  have hap := hsrc.apart ha
  rw [ResultBase.ctorFrom, ends_bind, ends_acquire, ends_bind, ends_unwinding]
  refine (h.but.act [.acquire a] (some ⟨none, false⟩)).ends_constructFrom (World.act_mem_self ..)
    hsrc hk hap fun w₂ u htaken hu h₂ hmem => ?_
  rw [setActive, ends_perform hmem]
  rw [htaken] at hQ
  refine hQ _ ((h₂.act _ _).done (World.act_mem_self ..) ?_ hu)
  exact seen_of_data hk

/-- The default constructor: it makes a `T()`, or a `Dummy`. -/
theorem Shows.ends_ctor {d : V} (hd : c.types.dflt = some d) (h : Shows c w st)
    (hQ : ∀ w', Shows c w' (update st a (some d)) →
      (∃ s, w'.mem a = some s ∧ s.active_ = true) → Q () w') :
    Ends (ResultBase.ctor c.types a) w Q E := by
  have hseen : c.seen ⟨some d, true⟩ = some d := by
    cases c with
    | object T => rfl
    | void T => exact T.dflt_eq.symm.trans hd
  refine (Result.ends_baseCtor hd h.nothrow).mpr ?_
  have hmem := World.act_mem_self w.tick [.acquire a, .construct a .data_] a
    (some (⟨some d, true⟩ : ResultBase V))
  refine hQ _ ((h.tick.but.act _ _).done hmem hseen (c.types.kind_dflt d hd)) ⟨_, hmem, rfl⟩

/-- `~Result()`, and what is left of a constructor that throws. -/
theorem Shows.ends_unwind (h : Shows c w st) (ha : st a ≠ none)
    (hQ : ∀ w', Shows c w' (update st a none) → Q () w') :
    Ends (Result.unwind trivial c.types a) w Q E := by
  obtain ⟨v, hv⟩ := Option.ne_none_iff_exists'.mp ha
  obtain ⟨s, hs, -⟩ := h.mem hv
  rw [Result.unwind, ResultBase.dtor, ends_bind, Result.ends_destroy hs, ends_release]
  exact hQ _ (((h.but.cleared s).act _ _).gone (World.act_mem_self ..))

/-- A payload takes another value of its kind. -/
theorem Shows.ends_overwrite (h : Shows c w st) {v u : V} (ha : st a = some v)
    (hk : c.Stores (c.types.kind v)) (hu : c.types.kind u = c.types.kind v)
    (hQ : ∀ w', Shows c w' (update st a (some u)) → Q () w') : Ends (overwrite a u) w Q E := by
  obtain ⟨s, hs, hv, hside⟩ := h.mem ha
  rw [overwrite, ends_perform hs]
  refine hQ _ ((h.but.act _ _).done (World.act_mem_self ..) ?_ (hu.trans hside))
  rw [hside] at hk
  exact seen_of_data hk

omit [DecidableEq A] in
theorem Shows.ends_deref {Q : V → ResultWorld A V → Prop} (h : Shows c w st) {v : V}
    (ha : st a = some v) (hkind : c.types.kind v = k) (hk : c.Stores k) :
    Ends (deref c.types.toPayload a k) w Q E ↔ Q v w := by
  obtain ⟨s, hs, hv, hside⟩ := h.mem ha
  exact Lifetime.ends_deref hs (data_of_seen hk hv (hside.symm.trans hkind)) hkind

/-- The one assignment of a payload, which may throw. -/
theorem Shows.ends_assignFrom (h : Shows c w st) {old : V} (ha : st a = some old)
    (hold : c.types.kind old = .data_) (hk : c.Stores .data_) {src : Source A V}
    (hsrc : src.OfKind c.types.kind st .data_) (hap : src.Apart a)
    (hQ : ∀ w', Shows c w' (update (src.left c.types.toPayload st) a (src.taken st)) → Q () w')
    (hE : (w.replies 0).assignThrows = true → ∀ w',
      Shows c w' (update (src.leftBy c.types.toPayload .threw st) a
        ((st a).map (c.types.after .threw))) → E .exception w') :
    Ends (assignFrom c.types.toPayload a .data_ src) w Q E := by
  have hthrew : c.types.kind (c.types.after .threw old) = c.types.kind old := c.types.kind_after ..
  have hk' : c.Stores (c.types.kind old) := by rw [hold]; exact hk
  rw [ha, Option.map_some] at hE
  cases src with
  | value u =>
      simp only [assignFrom, ends_bind, h.ends_deref ha hold hk, ends_reply, ends_ite, ends_throw]
      constructor
      · intro ht
        exact h.tick.ends_overwrite ha hk' hthrew (hE ht)
      · intro _
        exact h.tick.ends_overwrite ha hk' (hsrc.trans hold.symm) hQ
  | copy d f =>
      obtain ⟨v, hd, hv, hf⟩ := hsrc
      simp only [Source.taken, hd, Option.map_some] at hQ
      simp only [assignFrom, ends_bind, h.ends_deref ha hold hk, h.ends_deref hd hv hk, ends_reply,
        ends_ite, ends_throw, if_neg (show d ≠ a from hap)]
      constructor
      · intro ht
        exact h.tick.ends_overwrite ha hk' hthrew (hE ht)
      · intro _
        exact h.tick.ends_overwrite ha hk' (hf.trans hold.symm) hQ
  | move d f =>
      obtain ⟨v, hd, hv, hf⟩ := hsrc
      have hkd : c.Stores (c.types.kind v) := by rw [hv]; exact hk
      have ha₁ : ∀ u, update st d u a = some old := fun u =>
        (Function.update_of_ne (Ne.symm hap) ..).trans ha
      simp only [Source.taken, Source.left, Source.leftBy, hd, Option.map_some] at hQ hE
      simp only [assignFrom, ends_bind, h.ends_deref ha hold hk, h.ends_deref hd hv hk, ends_reply,
        ends_ite, ends_throw, if_neg (show d ≠ a from hap)]
      constructor
      · intro ht
        refine h.tick.ends_overwrite hd hkd (c.types.kind_after ..) fun w₁ h₁ => ?_
        exact h₁.ends_overwrite (ha₁ _) hk' hthrew (hE ht)
      · intro _
        refine h.tick.ends_overwrite hd hkd (c.types.kind_after ..) fun w₁ h₁ => ?_
        exact h₁.ends_overwrite (ha₁ _) hk' (hf.trans hold.symm) hQ

omit [DecidableEq A] in
/-- The member of `res`, passed on. -/
theorem ofKind_member (kind : V → Member) {res : A} {src : Source A V} {v : V}
    (hres : st res = some v) (hsrc : src = .copy res id ∨ src = .move res id) :
    src.OfKind kind st (kind v) ∧ src.taken st = some v := by
  rcases hsrc with rfl | rfl
  · exact ⟨⟨v, hres, rfl, rfl⟩, by rw [Source.taken, hres]; rfl⟩
  · exact ⟨⟨v, hres, rfl, rfl⟩, by rw [Source.taken, hres]; rfl⟩

omit [DecidableEq A] in
theorem apart_member {res : A} {src : Source A V} (hne : res ≠ a)
    (hsrc : src = .copy res id ∨ src = .move res id) : src.Apart a := by
  rcases hsrc with rfl | rfl
  · exact hne
  · exact hne

/-- The bodies of the copying and the moving constructors make the member of `res` over what
the base has made. -/
theorem ends_ctorBody {T : ResultTypes V} {w : ResultWorld A V} (h : Shows (.object T) w st)
    {res : A} {s : ResultBase V} {v : V} (ha : w.mem a = some s) (hres : st res = some v)
    (hne : res ≠ a) {src : Source A V} (hsrc : src = .copy res id ∨ src = .move res id)
    (hQ : ∀ w', Shows (.object T) w' (update (src.left T.toPayload st) a (st res)) → Q () w') :
    Ends (Result.ctorBody T a res src) w Q E := by
  obtain ⟨hkind, htaken⟩ := ofKind_member T.kind hres hsrc
  have hap := apart_member hne hsrc
  have h₁ : ∀ x, ShowsBut (.object T) a (w.act [] a (some ⟨s.data_, x⟩)) st := fun _ =>
    h.but.act [] _
  rw [hres, ← htaken] at hQ
  simp only [Result.ctorBody, ends_bind, h.ends_hasValue hres, setActive, ends_perform ha,
    (h₁ _).ends_hasValue hne hres, ends_ite, decide_eq_true_eq]
  have build : ∀ x, T.kind v = memberOf x →
      Ends (constructFrom T.toPayload a (memberOf x) src) (w.act [] a (some ⟨s.data_, x⟩)) Q E := by
    intro x hx
    rw [hx] at hkind
    exact (h₁ x).ends_build (World.act_mem_self ..) hkind (stores_object T _) hap hQ
  constructor
  · intro hdata
    have hdata : T.kind v = .data_ := hdata
    simpa only [types, hdata, decide_true, memberOf] using build true hdata
  · intro hdata
    have herr : T.kind v = .err_ := err_of_ne_data hdata
    simpa only [types, herr, reduceCtorEq, decide_false, memberOf] using build false herr

omit [DecidableEq A] in
/-- A `Dummy` that is moved from is the same `Dummy`. -/
theorem left_dummy [DecidableEq A] {T : VoidTypes V} {res : A} {src : Source A V}
    (hres : st res = some T.dummy) (hsrc : src = .copy res id ∨ src = .move res id) :
    src.left T.toPayload st = st := by
  rcases hsrc with rfl | rfl
  · rfl
  · have hafter : T.after .movedFrom T.dummy = T.dummy :=
      T.only_dummy _ ((T.kind_after ..).trans T.kind_dummy)
    rw [Source.left, hres, Option.map_some, hafter, ← hres, Function.update_eq_self]

/-- A result of `Result<void, E>` whose flag is set is one. -/
theorem ShowsBut.ends_dummy {T : VoidTypes V} {w : ResultWorld A V} (h : ShowsBut (.void T) a w st)
    {s : ResultBase V} (ha : w.mem a = some s)
    (hQ : ∀ w', Shows (.void T) w' (update st a (some T.dummy)) → Q () w') :
    Ends (setActive a true) w Q E := by
  rw [setActive, ends_perform ha]
  exact hQ _ ((h.act _ _).done (World.act_mem_self ..) rfl T.kind_dummy)

theorem Shows.ends_initialize_data {T : VoidTypes V} {w : ResultWorld A V}
    (h : Shows (.void T) w st) (ha : st a ≠ none)
    (hQ : ∀ w', Shows (.void T) w' (update st a (some T.dummy)) → Q () w') :
    Ends (ResultVoid.initialize_data trivial T a) w Q E := by
  obtain ⟨v, hv⟩ := Option.ne_none_iff_exists'.mp ha
  obtain ⟨s, hs, -⟩ := h.mem hv
  rw [ResultVoid.initialize_data, ends_noexcept, ends_bind, Result.clear, Result.ends_destroy hs]
  exact (h.but.cleared s).ends_dummy (Result.cleared_mem hs) hQ

/-- The same bodies for `Result<void, E>`: the `Dummy` of the base stays, or an error is made
over it. -/
theorem ends_voidCtorBody {T : VoidTypes V} {w : ResultWorld A V} (h : Shows (.void T) w st)
    {res : A} {s : ResultBase V} {v : V} (ha : w.mem a = some s) (hres : st res = some v)
    (hne : res ≠ a) {src : Source A V} (hsrc : src = .copy res id ∨ src = .move res id)
    (hQ : ∀ w', Shows (.void T) w' (update (src.left T.toPayload st) a (st res)) → Q () w') :
    Ends (ResultVoid.ctorBody T a res src) w Q E := by
  obtain ⟨hkind, htaken⟩ := ofKind_member T.kind hres hsrc
  have hap := apart_member hne hsrc
  have h₁ : ∀ x, ShowsBut (.void T) a (w.act [] a (some ⟨s.data_, x⟩)) st := fun _ => h.but.act [] _
  simp only [ResultVoid.ctorBody, ends_bind, h.ends_hasValue hres, setActive, ends_perform ha,
    (h₁ _).ends_hasValue hne hres, ends_ite, Bool.not_eq_true', decide_eq_false_iff_not]
  constructor
  · intro hdata
    have herr : T.kind v = .err_ := err_of_ne_data hdata
    rw [hres, ← htaken] at hQ
    rw [herr] at hkind
    have hbuild : Ends (constructFrom T.toPayload a .err_ src)
        (w.act [] a (some ⟨s.data_, false⟩)) Q E :=
      (h₁ false).ends_build (World.act_mem_self ..) hkind (stores_err _) hap hQ
    simpa only [types, herr, reduceCtorEq, decide_false] using hbuild
  · intro hdata
    have hdata : T.kind v = .data_ := not_not.mp hdata
    obtain rfl := T.only_dummy v hdata
    rw [left_dummy hres hsrc, hres] at hQ
    have hside : decide ((ResultClass.void T).types.kind T.dummy = .data_) = true :=
      decide_eq_true T.kind_dummy
    rw [ends_pure, hside]
    exact hQ _ ((h₁ true).done (World.act_mem_self ..) rfl T.kind_dummy)

/-- The copying and the moving constructors: the base makes a `T()`, and the body makes a member
of `res` of it. -/
theorem Shows.ends_constructing {body : Prog (ResultWorld A V) Unit} (hc : c.types.dflt ≠ none)
    (h : Shows c w st) (src : Source A V) (ha : st a = none) {res : A} (hres : st res ≠ none)
    (hsrc : src = .copy res id ∨ src = .move res id)
    (hbody : ∀ {w₁ : ResultWorld A V} {st₁ : A → Option V} {s v Q E}, Shows c w₁ st₁ →
      w₁.mem a = some s → st₁ res = some v → res ≠ a →
      (∀ w', Shows c w' (update (src.left c.types.toPayload st₁) a (st₁ res)) → Q () w') →
        Ends body w₁ Q E)
    (hQ : ∀ w', Shows c w' (update (src.left c.types.toPayload st) a (st res)) → Q () w') :
    Ends (do ResultBase.ctor c.types a; body.unwinding (Result.unwind trivial c.types a)) w Q E := by
  obtain ⟨d, hd⟩ := Option.ne_none_iff_exists'.mp hc
  have hne : res ≠ a := by
    rintro rfl
    exact hres ha
  obtain ⟨v, hv⟩ := Option.ne_none_iff_exists'.mp hres
  have hres₁ : update st a (some d) res = st res := Function.update_of_ne hne ..
  rw [ends_bind]
  refine h.ends_ctor hd fun w₁ h₁ hmem => ?_
  obtain ⟨s, hs, -⟩ := hmem
  rw [ends_unwinding]
  refine hbody h₁ hs (hres₁.trans hv) hne fun w' h' => hQ w' ?_
  rw [hres₁, Source.left_update (apart_member hne hsrc), Function.update_idem] at h'
  exact h'

/-! ## Accessors -/

omit [DecidableEq A] in
/-- An accessor is what it asserts about the flag. -/
theorem ends_accessor {s : ResultBase V} (ha : w.mem a = some s) (x : Accessor) :
    Ends (x.run b c a) w Q E ↔
      if (x.asserts c s.active_).any (Assertion.aborts b) then E .aborted w else Q () w := by
  cases c with
  | object T =>
      cases x <;> simp only [Accessor.run, Accessor.asserts, Result.unwrap, Result.unwrapConst,
        Result.star, Result.starConst, Result.arrow, Result.error, Result.errorConst, ends_bind,
        Result.ends_hasValue ha, ends_abortIf, List.any_cons, List.any_nil, Bool.or_false,
        Assertion.aborts, Bool.or_eq_true, ite_or]
  | void T =>
      cases x <;> simp only [Accessor.run, Accessor.asserts, ResultVoid.unwrap, Result.arrow,
        Result.error, Result.errorConst, ends_bind, Result.ends_hasValue ha, ends_abortIf,
        List.any_cons, List.any_nil, Bool.or_false, Assertion.aborts]

omit [DecidableEq A] in
theorem Shows.ends_accessor (h : Shows c w st) {v : V} (ha : st a = some v) (x : Accessor) :
    Ends (x.run b c a) w Q E ↔
      if (x.asserts c (c.types.kind v = .data_)).any (Assertion.aborts b) then E .aborted w
      else Q () w := by
  obtain ⟨s, hs, -, hk⟩ := h.mem ha
  rw [ResultClass.ends_accessor hs, active_of_kind hk]

omit [DecidableEq A] in
theorem Shows.ends_accessor_quiet (h : Shows c w st) {v : V} (ha : st a = some v) {x : Accessor}
    (hq : ∀ e ∈ x.asserts c (c.types.kind v = .data_), e.aborts b = false) :
    Ends (x.run b c a) w Q E ↔ Q () w := by
  have hany : (x.asserts c (c.types.kind v = .data_)).any (Assertion.aborts b) = false := by
    simpa only [List.any_eq_false, Bool.not_eq_true] using hq
  rw [h.ends_accessor ha, hany, if_neg Bool.false_ne_true]

/-! ## Every call does what a sum type does -/

/-- The branches of an assignment that make a member of `res`. -/
theorem Shows.ends_transfer (h : Shows c w st) (ha : st a ≠ none) {res : A} {v : V}
    (hres : st res = some v) (hne : res ≠ a) {src : Source A V}
    (hsrc : src = .copy res id ∨ src = .move res id) (hx : c.types.kind v = memberOf x)
    (hk : c.Stores (memberOf x)) {y : Accessor}
    (hq : ∀ e ∈ y.asserts c (c.types.kind v = .data_), e.aborts b = false)
    (hQ : ∀ w', Shows c w' (update (src.left c.types.toPayload st) a (st res)) → Q () w') :
    Ends (y.run b c res) w
      (fun _ w' => Ends (Result.initialize_ trivial c.types x a src false) w' Q E) E := by
  obtain ⟨hkind, htaken⟩ := ofKind_member c.types.kind hres hsrc
  rw [hx] at hkind
  rw [hres, ← htaken] at hQ
  rw [h.ends_accessor_quiet hres hq]
  exact h.ends_initialize_ ha hkind hk (apart_member hne hsrc) hQ

/-- `operator=(const Result&)` and `operator=(Result&&)`: `y` is what the value side reads, and
`z` what the error side does. -/
theorem Shows.ends_assignResult {T : ResultTypes V} {w : ResultWorld A V}
    (h : Shows (.object T) w st) (ha : st a ≠ none) {res : A} (hres : st res ≠ none) (hne : res ≠ a)
    {src : Source A V} (hsrc : src = .copy res id ∨ src = .move res id) {y z : Accessor}
    (hq : ∀ e ∈ (if (st res).map T.kind = some .err_ then z.asserts (.object T) false
      else y.asserts (.object T) true), e.aborts b = false)
    (hQ : ∀ w', Shows (.object T) w' (update (src.left T.toPayload st) a (st res)) → Q () w') :
    Ends (do
      if (← Result.hasValue res) then
        y.run b (.object T) res
        Result.initialize_ trivial T true a src false
      else
        z.run b (.object T) res
        Result.initialize_ trivial T false a src false) w Q E := by
  obtain ⟨v, hv⟩ := Option.ne_none_iff_exists'.mp hres
  simp only [ends_bind, h.ends_hasValue hv, ends_ite, decide_eq_true_eq]
  rw [hv, Option.map_some] at hq
  constructor
  · intro hdata
    have hdata : T.kind v = .data_ := hdata
    refine h.ends_transfer (x := true) ha hv hne hsrc hdata (stores_object T _) ?_ hQ
    simpa only [types, hdata, decide_true, Option.some.injEq, reduceCtorEq, if_false] using hq
  · intro hdata
    have herr : T.kind v = .err_ := err_of_ne_data hdata
    refine h.ends_transfer (x := false) ha hv hne hsrc herr (stores_object T _) ?_ hQ
    simpa only [types, herr, reduceCtorEq, decide_false, if_true] using hq

/-- The same for `Result<void, E>`. -/
theorem Shows.ends_assignVoid {T : VoidTypes V} {w : ResultWorld A V}
    (h : Shows (.void T) w st) (ha : st a ≠ none) {res : A} (hres : st res ≠ none) (hne : res ≠ a)
    {src : Source A V} (hsrc : src = .copy res id ∨ src = .move res id) {z : Accessor}
    (hq : ∀ e ∈ (if (st res).map T.kind = some .err_ then z.asserts (.void T) false else []),
      e.aborts b = false) {owned : Bool}
    (howned : owned = true → (st res).map T.kind = some .data_)
    (hQ : ∀ w', Shows (.void T) w' (update (src.left T.toPayload st) a (st res)) → Q () w') :
    Ends (do
      if (← Result.hasValue res) then
        ResultVoid.initialize_data trivial T a
      else
        z.run b (.void T) res
        ResultVoid.initialize_err trivial T a src owned) w Q E := by
  obtain ⟨v, hv⟩ := Option.ne_none_iff_exists'.mp hres
  simp only [ends_bind, h.ends_hasValue hv, ends_ite, decide_eq_true_eq]
  rw [hv, Option.map_some] at hq
  constructor
  · intro hdata
    obtain rfl := T.only_dummy v hdata
    rw [left_dummy hv hsrc, hv] at hQ
    exact h.ends_initialize_data ha hQ
  · intro hdata
    have herr : T.kind v = .err_ := err_of_ne_data hdata
    obtain rfl : owned = false := by
      cases owned with
      | false => rfl
      | true =>
          have hside := howned rfl
          rw [hv, Option.map_some, herr] at hside
          cases hside
    refine h.ends_transfer (x := false) ha hv hne hsrc herr (stores_err _) ?_ hQ
    simpa only [types, herr, reduceCtorEq, decide_false, if_true] using hq

/-- `operator=(U&&)`: it assigns to a value, and makes a value of an error. -/
theorem Shows.ends_assignValue {T : ResultTypes V} {w : ResultWorld A V}
    (h : Shows (.object T) w st) (ha : st a ≠ none) {src : Source A V}
    (hsrc : src.OfKind T.kind st .data_) (hap : src.Apart a)
    {owned : Bool} (howned : owned = true → (st a).map T.kind = some .data_)
    (hq : (ResultOp.assignValue a src owned).Quiet st b (.object T))
    (hQ : ∀ w', Shows (.object T) w' (update (src.left T.toPayload st) a (src.taken st)) → Q () w')
    (hE : (w.replies 0).assignThrows = true → ∀ w', Shows (.object T) w'
      (update (src.leftBy T.toPayload .threw st) a ((st a).map (T.after .threw))) →
        E .exception w') :
    Ends (Result.assignValue trivial b T a src owned) w Q E := by
  obtain ⟨v, hv⟩ := Option.ne_none_iff_exists'.mp ha
  simp only [ResultOp.Quiet, ResultOp.asserts, hv, Option.map_some, Option.some.injEq] at hq
  simp only [Result.assignValue, ends_bind, h.ends_hasValue hv, ends_ite, decide_eq_true_eq]
  constructor
  · intro hdata
    have hdata : T.kind v = .data_ := hdata
    simp only [types, hdata, reduceCtorEq, if_false] at hq
    have hstar : ∀ e ∈ Accessor.asserts (.object T) (T.kind v = .data_) .star,
        e.aborts b = false := by
      simpa only [Accessor.asserts, hdata, decide_true] using hq
    refine (h.ends_accessor_quiet hv (x := .star) hstar).mpr ?_
    exact h.ends_assignFrom hv hdata (stores_object T _) hsrc hap hQ hE
  · intro hdata
    have herr : T.kind v = .err_ := err_of_ne_data hdata
    obtain rfl : owned = false := by
      cases owned with
      | false => rfl
      | true =>
          have hside := howned rfl
          rw [hv, Option.map_some, herr] at hside
          cases hside
    exact h.ends_initialize_ (x := true) ha hsrc (stores_object T _) hap hQ

end Rules

/-- Everything is read from a result of `Result<T, E>`. -/
theorem owned_object {owned : Bool} {T : ResultTypes V} {k : Option Member} {m : Member}
    (h : owned = true → k = some m ∧ ∃ U, ResultClass.object T = .void U) : owned = false := by
  cases owned with
  | false => rfl
  | true =>
      obtain ⟨-, U, hU⟩ := h rfl
      cases hU

/-- A call of `Result<T, E>` ends as the sum type has it. -/
theorem Shows.follows_object {T : ResultTypes V} {w : ResultWorld A V} (h : Shows (.object T) w st)
    {op : ResultOp A V} (hop : op.Allowed T st) (hmeant : op.Meant st trivial b (.object T)) :
    Ends (op.run trivial b T) w (fun _ w' => Shows (.object T) w' (op.after T st))
      fun e w' => e = .exception ∧ (w.replies 0).assignThrows = true ∧
        Shows (.object T) w' (op.afterThrow T st) := by
  obtain ⟨⟨hdflt, -⟩, hspecial, houtlives, hq⟩ := hmeant
  cases op with
  | default a =>
      obtain ⟨d, hd⟩ := Option.ne_none_iff_exists'.mp (hdflt (.inr True.intro))
      rw [ResultOp.after, show T.dflt = some d from hd]
      exact h.ends_ctor hd fun w' h' _ => h'
  | ofCopy a res isConst =>
      obtain ⟨ha, hres⟩ := hop
      have hcopy : T.ofResult.Special isConst := hspecial
      rw [ResultOp.run, Forwarded.copy_special hcopy]
      refine h.ends_constructing (hdflt (.inr hspecial)) (.copy res id) ha hres (.inl rfl) ?_
        fun w' => id
      exact fun h₁ hs hv hne => ends_ctorBody h₁ hs hv hne (.inl rfl)
  | ofMove a res =>
      obtain ⟨ha, hres⟩ := hop
      refine (ends_noexcept _).mpr ?_
      refine h.ends_constructing (hdflt (.inr True.intro)) (.move res id) ha hres (.inr rfl) ?_
        fun w' => id
      exact fun h₁ hs hv hne => ends_ctorBody h₁ hs hv hne (.inr rfl)
  | ofValue a u | ofInPlace a u =>
      obtain ⟨ha, hu⟩ := hop
      exact h.ends_ctorFrom (x := true) ha hu (stores_object T _) fun w' => id
  | ofErrorCopy nothrowCopy a err isConst =>
      obtain ⟨ha, herr⟩ := hop
      have hcopy : T.ofError.Special isConst := hspecial
      rw [ResultOp.run, Forwarded.copy_special hcopy]
      cases nothrowCopy with
      | true =>
          refine (ends_noexcept _).mpr ?_
          exact h.ends_ctorFrom (x := false) ha herr (stores_object T _) fun w' => id
      | false => exact h.ends_ctorFrom (x := false) ha herr (stores_object T _) fun w' => id
  | ofErrorMove a err =>
      obtain ⟨ha, herr⟩ := hop
      refine (ends_noexcept _).mpr ?_
      exact h.ends_ctorFrom (x := false) ha herr (stores_object T _) fun w' => id
  | ofUnexpect a args =>
      obtain ⟨ha, hargs⟩ := hop
      exact h.ends_ctorFrom (x := false) ha hargs (stores_object T _) fun w' => id
  | assignCopy a res owned =>
      obtain ⟨ha, hres, hne⟩ := hop
      obtain rfl := owned_object houtlives
      exact h.ends_assignResult (y := .unwrapConst) (z := .errorConst) ha hres hne (.inl rfl) hq
        fun w' => id
  | assignMove a res owned =>
      obtain ⟨ha, hres, hne⟩ := hop
      obtain rfl := owned_object houtlives
      refine (ends_noexcept _).mpr ?_
      exact h.ends_assignResult (y := .unwrap) (z := .error) ha hres hne (.inr rfl) hq
        fun w' => id
  | assignValue a u owned =>
      obtain ⟨ha, hu, hap⟩ := hop
      exact h.ends_assignValue ha hu hap houtlives hq (fun w' => id) fun ht w' h' => ⟨rfl, ht, h'⟩
  | emplace a args owned =>
      obtain ⟨ha, hargs⟩ := hop
      obtain ⟨rfl, hap⟩ := houtlives
      refine (ends_noexcept _).mpr ?_
      exact h.ends_initialize_ (x := true) ha hargs (stores_object T _) hap fun w' => id
  | destroy a => exact h.ends_unwind hop fun w' => id

/-- A call of `Result<void, E>` does too. -/
theorem Shows.follows_void {T : VoidTypes V} {w : ResultWorld A V} (h : Shows (.void T) w st)
    {op : VoidOp A V} (hop : (op.toResultOp T).Allowed T.toResultTypes st)
    (hmeant : (op.toResultOp T).Meant st trivial b (.void T)) :
    Ends (op.run trivial b T) w
      (fun _ w' => Shows (.void T) w' ((op.toResultOp T).after T.toResultTypes st))
      fun e w' => e = .exception ∧ (w.replies 0).assignThrows = true ∧
        Shows (.void T) w' ((op.toResultOp T).afterThrow T.toResultTypes st) := by
  have hdflt : (ResultClass.void T).types.dflt = some T.dummy := T.dflt_eq
  have hc : (ResultClass.void T).types.dflt ≠ none := by
    rw [hdflt]
    exact Option.some_ne_none _
  obtain ⟨-, -, houtlives, hq⟩ := hmeant
  cases op with
  | default a =>
      rw [VoidOp.toResultOp, ResultOp.after, show T.dflt = some T.dummy from hdflt]
      exact h.ends_ctor hdflt fun w' h' _ => h'
  | ofCopy a res =>
      obtain ⟨ha, hres⟩ := hop
      refine h.ends_constructing hc (.copy res id) ha hres (.inl rfl) ?_ fun w' => id
      exact fun h₁ hs hv hne => ends_voidCtorBody h₁ hs hv hne (.inl rfl)
  | ofMove a res =>
      obtain ⟨ha, hres⟩ := hop
      refine h.ends_constructing hc (.move res id) ha hres (.inr rfl) ?_ fun w' => id
      exact fun h₁ hs hv hne => ends_voidCtorBody h₁ hs hv hne (.inr rfl)
  | ofErrorCopy nothrow a err | ofErrorMove nothrow a err =>
      obtain ⟨ha, herr⟩ := hop
      cases nothrow with
      | true =>
          refine (ends_noexcept _).mpr ?_
          exact h.ends_ctorFrom (x := false) ha herr (stores_err _) fun w' => id
      | false => exact h.ends_ctorFrom (x := false) ha herr (stores_err _) fun w' => id
  | ofUnexpect a args =>
      obtain ⟨ha, hargs⟩ := hop
      exact h.ends_ctorFrom (x := false) ha hargs (stores_err _) fun w' => id
  | assignCopy a res owned =>
      obtain ⟨ha, hres, hne⟩ := hop
      exact h.ends_assignVoid (z := .errorConst) ha hres hne (.inl rfl) hq
        (fun howned => (houtlives howned).1) fun w' => id
  | assignMove a res owned =>
      obtain ⟨ha, hres, hne⟩ := hop
      exact h.ends_assignVoid (z := .error) ha hres hne (.inr rfl) hq
        (fun howned => (houtlives howned).1) fun w' => id
  | assignDummy a => exact h.ends_initialize_data hop.1 fun w' => id
  | emplace a =>
      refine (ends_noexcept _).mpr ?_
      exact h.ends_initialize_data hop.1 fun w' => id
  | destroy a => exact h.ends_unwind hop fun w' => id

theorem Shows.follows (h : Shows c w st) {op : c.Op A}
    (hop : (c.toResultOp op).Allowed c.types st) (hmeant : (c.toResultOp op).Meant st trivial b c) :
    Ends (c.run trivial b op) w (fun _ w' => Shows c w' ((c.toResultOp op).after c.types st))
      fun e w' => e = .exception ∧ (w.replies 0).assignThrows = true ∧
        Shows c w' ((c.toResultOp op).afterThrow c.types st) := by
  cases c with
  | object T => exact h.follows_object hop hmeant
  | void T => exact h.follows_void hop hmeant

/-! ## What the observers say -/

omit [DecidableEq A] in
theorem Shows.hasValue (h : Shows c w st) {v : V} (ha : st a = some v) :
    Result.hasValue a w = .ok (c.types.kind v = .data_) w :=
  Ends.eq_ok ((h.ends_hasValue ha).mpr ⟨rfl, rfl⟩)

/-- A step leads to what a sum type would show. -/
theorem Shows.step (h : Shows c w st) {op : c.Op A × Bool} {w' : ResultWorld A V}
    (hmeant : (c.toResultOp op.1).Meant (c.shown w) trivial b c)
    (hstep : sumStep trivial b c w op w') :
    Shows c w' (ResultOp.next c.types st (c.toResultOp op.1, op.2)) := by
  obtain ⟨op, threw⟩ := op
  obtain ⟨hop, hrun⟩ := hstep
  rw [h.shown] at hmeant hop
  have hends : Ends (c.run trivial b op) w _ _ := h.follows hop hmeant
  cases threw with
  | true => exact (hends.of_error hrun).2.2
  | false => exact hends.of_ok hrun

end ResultClass

/-! ## Runs -/

variable [DecidableEq A]

end

end EflCore
