/-
# `EflCore.Lifetime.Object` — objects with room for a payload

Many classes hold at most one object of another type in storage of their own and
a few fields that say whether it is there: optionals, sums, small polymorphic
buffers.  This module has what such classes share.

* `Holder S V`: an `S` has a cell, and the cell holds a live `V` or nothing.
* `Payload V K`: what the program may assume of the payload type.  A `V` has a
  kind; moving from it, assigning it to itself or throwing in the middle of an
  assignment leaves a value of the same kind and nothing more is known.
* `World`: the holders by address, the log of what happened to their storage,
  and the replies the payload's own code will give, call by call: any
  constructor and any assignment may throw.

The calls into the payload (`constructFrom`, `assignFrom`, `swapPayload`,
`destroy`) write the log; they check nothing.  Reading a cell that holds nothing,
or an object of another kind, is `undefined`.

`Tracks P w` is the invariant: the log is accepted, and it says of every cell what
is in it.  `Tracks.act` is how it is kept, and `ends_constructFrom`,
`ends_assignFrom`, `ends_swapPayload` say where each call into the payload's code
leaves it, whichever way the call ends.
-/
import EflCore.Lifetime.Monitor
import EflCore.Lifetime.Program

namespace Lifetime

/-- Objects with a cell for one payload. -/
class Holder (S : Type) (V : outParam Type) where
  cell : S → Option V
  setCell : S → Option V → S
  cell_setCell : ∀ s c, cell (setCell s c) = c
  setCell_setCell : ∀ s c c', setCell (setCell s c) c' = setCell s c'

attribute [simp] Holder.cell_setCell Holder.setCell_setCell

/-- What the payload's own code does to a value it leaves behind. -/
inductive Touch where
  | movedFrom
  | threw
  | selfAssigned
  | selfMoved
  | selfSwapped

/-- The payload type: kinds of object, and the values its code leaves behind. -/
structure Payload (V K : Type) where
  kind : V → K
  after : Touch → V → V
  kind_after : ∀ t v, kind (after t v) = kind v

/-- The reply of the payload's code to one call. -/
structure Reply where
  ctorThrows : Bool
  assignThrows : Bool

/-- The payload's code throws. -/
def Reply.throws (r : Reply) : Bool := r.ctorThrows || r.assignThrows

theorem Reply.throws_of_ctor {r : Reply} (h : r.ctorThrows = true) : r.throws = true := by
  rw [Reply.throws, h, Bool.true_or]

theorem Reply.throws_of_assign {r : Reply} (h : r.assignThrows = true) : r.throws = true := by
  rw [Reply.throws, h, Bool.or_true]

/-- No constructor throws; what the assignments do is left open. -/
def Reply.assigning (assignThrows : Nat → Bool) : Nat → Reply := fun n => ⟨false, assignThrows n⟩

/-- Where the argument of a construction or an assignment comes from: a value
outside all holders, or the payload of the holder at `src`, converted by `f`. -/
inductive Source (A V : Type) where
  | value (v : V)
  | copy (src : A) (f : V → V)
  | move (src : A) (f : V → V)

/-- The holders by address, what happened to their storage, and what the
payload's code will reply. -/
structure World (A S K : Type) where
  mem : A → Option S
  log : List (Event A K)
  replies : Nat → Reply

variable {A S V K : Type}

namespace World

/-- Nothing has happened yet. -/
def init (replies : Nat → Reply) : World A S K := ⟨fun _ => none, [], replies⟩

/-- The events `es` happen at `a` and leave `s` there. -/
def act [DecidableEq A] (w : World A S K) (es : List (Event A K)) (a : A) (s : Option S) :
    World A S K :=
  { w with mem := Function.update w.mem a s, log := w.log ++ es }

/-- One reply is used up. -/
def tick (w : World A S K) : World A S K := { w with replies := fun n => w.replies (n + 1) }

/-- The phase of every piece of storage, as the holders' fields tell it. -/
def phases (phaseOf : S → Phase K) (w : World A S K) : A → Phase K :=
  fun a => (w.mem a).elim .absent phaseOf

/-- No constructor is going to throw. -/
def NoCtorThrows (w : World A S K) : Prop := ∀ n, (w.replies n).ctorThrows = false

theorem NoCtorThrows.tick {w : World A S K} (h : w.NoCtorThrows) : w.tick.NoCtorThrows :=
  fun n => h (n + 1)

section
variable [DecidableEq A]

@[simp] theorem act_mem_self (w : World A S K) (es : List (Event A K)) (a : A) (s : Option S) :
    (w.act es a s).mem a = s := Function.update_self ..

theorem act_mem_of_ne (w : World A S K) (es : List (Event A K)) {a b : A} (s : Option S)
    (h : b ≠ a) : (w.act es a s).mem b = w.mem b := Function.update_of_ne h ..

@[simp] theorem act_log (w : World A S K) (es : List (Event A K)) (a : A) (s : Option S) :
    (w.act es a s).log = w.log ++ es := rfl

@[simp] theorem act_act (w : World A S K) (es es' : List (Event A K)) (a : A) (s s' : Option S) :
    (w.act es a s).act es' a s' = w.act (es ++ es') a s' := by
  simp [act]

@[simp] theorem act_tick (w : World A S K) (es : List (Event A K)) (a : A) (s : Option S) :
    (w.act es a s).tick = w.tick.act es a s := rfl

theorem phases_act (phaseOf : S → Phase K) (w : World A S K) (es : List (Event A K)) (a : A)
    (s : Option S) :
    (w.act es a s).phases phaseOf
      = Function.update (w.phases phaseOf) a (s.elim .absent phaseOf) := by
  funext b
  by_cases h : b = a
  · subst h; simp [phases]
  · simp [phases, act_mem_of_ne w es s h, Function.update_of_ne h]

end
end World

/-! ## The holders' own fields -/

section Calls
variable [DecidableEq A]

/-- The fields of the holder at `a`. -/
def load (a : A) : Prog (World A S K) S := fun w =>
  match w.mem a with
  | some s => .ok s w
  | none => .error .undefined w

/-- The events `es` happen at `a`, and its fields become `f` of what they were. -/
def perform (es : List (Event A K)) (a : A) (f : S → S) : Prog (World A S K) Unit := fun w =>
  match w.mem a with
  | some s => .ok () (w.act es a (some (f s)))
  | none => .error .undefined w

/-- Storage for a holder with fields `s`; its cell is still raw. -/
def acquire (a : A) (s : S) : Prog (World A S K) Unit :=
  modify fun w => w.act [.acquire a] a (some s)

/-- The holder at `a` is gone, and its storage with it. -/
def release (a : A) : Prog (World A S K) Unit :=
  modify fun w => w.act [.release a] a none

/-- What the payload's code replies to the next call. -/
def reply : Prog (World A S K) Reply := fun w => .ok (w.replies 0) w.tick

/-! ## Calls into the payload's code -/

variable [Holder S V] [DecidableEq K] (P : Payload V K)

/-- The payload of kind `k` at `a`, read. -/
def deref (a : A) (k : K) : Prog (World A S K) V := do
  match Holder.cell (← load (S := S) a) with
  | some v => if P.kind v = k then pure v else throw .undefined
  | none => throw .undefined

/-- A `V` comes to life in the cell at `a`. -/
def construct (a : A) (v : V) : Prog (World A S K) Unit :=
  perform [.construct a (P.kind v)] a fun s => Holder.setCell s (some v)

/-- The payload at `a` takes the value `v`. -/
def overwrite (a : A) (v : V) : Prog (World A S K) Unit :=
  perform [] a fun s => Holder.setCell s (some v)

/-- The destructor of kind `k` runs on the cell at `a`. -/
def destroy (a : A) (k : K) : Prog (World A S K) Unit :=
  perform [.destroy a k] a fun s => Holder.setCell s none

/-- A constructor of kind `k` called on the cell at `a`. -/
def constructFrom (a : A) (k : K) : Source A V → Prog (World A S K) Unit
  | .value v => do
      if (← reply).ctorThrows then throw .exception
      construct P a v
  | .copy src f => do
      let v ← deref P src k
      if (← reply).ctorThrows then throw .exception
      construct P a (f v)
  | .move src f => do
      let v ← deref P src k
      if (← reply).ctorThrows then
        overwrite src (P.after .threw v)
        throw .exception
      overwrite src (P.after .movedFrom v)
      construct P a (f v)

/-- A constructor of kind `k` called for an object outside all holders. -/
def makeFrom (k : K) : Source A V → Prog (World A S K) V
  | .value v => do
      if (← reply).ctorThrows then throw .exception
      pure v
  | .copy src f => do
      let v ← deref P src k
      if (← reply).ctorThrows then throw .exception
      pure (f v)
  | .move src f => do
      let v ← deref P src k
      if (← reply).ctorThrows then
        overwrite src (P.after .threw v)
        throw .exception
      overwrite src (P.after .movedFrom v)
      pure (f v)

/-- The assignment operator of kind `k` called on the payload at `a`. -/
def assignFrom (a : A) (k : K) : Source A V → Prog (World A S K) Unit
  | .value v => do
      let old ← deref P a k
      if (← reply).assignThrows then
        overwrite a (P.after .threw old)
        throw .exception
      overwrite a v
  | .copy src f => do
      let v ← deref P src k
      let old ← deref P a k
      if (← reply).assignThrows then
        overwrite a (P.after .threw old)
        throw .exception
      overwrite a (if src = a then P.after .selfAssigned v else f v)
  | .move src f => do
      let v ← deref P src k
      let old ← deref P a k
      if (← reply).assignThrows then
        overwrite src (P.after .threw v)
        overwrite a (P.after .threw old)
        throw .exception
      overwrite src (P.after .movedFrom v)
      overwrite a (if src = a then P.after .selfMoved v else f v)

/-- `swap` of the payloads at `a` and `b`. -/
def swapPayload (a b : A) (k : K) : Prog (World A S K) Unit := do
  let v ← deref P a k
  let u ← deref P b k
  if (← reply).assignThrows then
    overwrite a (P.after .threw v)
    overwrite b (P.after .threw u)
    throw .exception
  overwrite a u
  overwrite b (if a = b then P.after .selfSwapped v else v)

end Calls

/-! ## How the calls end -/

section Ends
variable {w : World A S K} {E : Stop → World A S K → Prop}

@[simp] theorem ends_reply {Q : Reply → World A S K → Prop} :
    Ends reply w Q E ↔ Q (w.replies 0) w.tick := Iff.rfl

theorem ends_load {Q : S → World A S K → Prop} {a : A} {s : S} (ha : w.mem a = some s) :
    Ends (load a) w Q E ↔ Q s w := by
  simp only [Ends, load, ha]

variable [DecidableEq A]

theorem ends_perform {Q : Unit → World A S K → Prop} {a : A} {s : S} (ha : w.mem a = some s)
    (es : List (Event A K)) (f : S → S) :
    Ends (perform es a f) w Q E ↔ Q () (w.act es a (some (f s))) := by
  simp only [Ends, perform, ha]

@[simp] theorem ends_acquire {Q : Unit → World A S K → Prop} (a : A) (s : S) :
    Ends (acquire a s) w Q E ↔ Q () (w.act [.acquire a] a (some s)) := Iff.rfl

@[simp] theorem ends_release {Q : Unit → World A S K → Prop} (a : A) :
    Ends (release a) w Q E ↔ Q () (w.act [.release a] a none) := Iff.rfl

end Ends

theorem deref_eq [Holder S V] [DecidableEq K] {P : Payload V K} {w : World A S K} {a : A} {k : K}
    {s : S} {v : V} (ha : w.mem a = some s) (hv : Holder.cell s = some v) (hk : P.kind v = k) :
    deref P a k w = .ok v w := by
  simp only [deref, bind, EStateM.bind, load, ha, hv, if_pos hk]
  rfl

theorem ends_deref [Holder S V] [DecidableEq K] {P : Payload V K} {w : World A S K} {a : A} {k : K}
    {s : S} {v : V} {Q : V → World A S K → Prop} {E : Stop → World A S K → Prop}
    (ha : w.mem a = some s) (hv : Holder.cell s = some v) (hk : P.kind v = k) :
    Ends (deref P a k) w Q E ↔ Q v w := by
  simp only [deref, ends_bind, ends_load ha, hv, if_pos hk, ends_pure]

/-- A constructor makes its object first, and then it is in the cell. -/
theorem constructFrom_eq [DecidableEq A] [Holder S V] [DecidableEq K] (P : Payload V K) (a : A)
    (k : K) (src : Source A V) :
    (constructFrom P a k src : Prog (World A S K) Unit) = makeFrom P k src >>= construct P a := by
  cases src with
  | value v =>
      simp only [constructFrom, makeFrom, bind_assoc]
      refine bind_congr fun r => ?_
      split <;> rfl
  | copy b f =>
      simp only [constructFrom, makeFrom, bind_assoc]
      refine bind_congr fun v => bind_congr fun r => ?_
      split <;> rfl
  | move b f =>
      simp only [constructFrom, makeFrom, bind_assoc]
      refine bind_congr fun v => bind_congr fun r => ?_
      split
      · simp only [bind_assoc]
        rfl
      · simp only [bind_assoc]
        rfl

/-! ## What all calls stay within

The calls read, use up replies, and fill or change cells; a preorder that all of that
stays within holds between the two ends of every call.  Two are of use: that the log
only grows, and that a field the cell has nothing to do with keeps what it promises. -/

section Within
variable {R : World A S K → World A S K → Prop} (hrefl : ∀ w, R w w)
  (htrans : ∀ w w' w'', R w w' → R w' w'' → R w w'')

include hrefl in
theorem within_load (a : A) : (load a : Prog (World A S K) S).Within R := by
  intro w
  simp only [Ends, load]
  cases w.mem a with
  | none => exact hrefl w
  | some s => exact hrefl w

variable [DecidableEq K] [Holder S V] (P : Payload V K)

include hrefl htrans

theorem within_deref (a : A) (k : K) : (deref P a k : Prog (World A S K) V).Within R := by
  refine within_bind htrans (within_load hrefl a) fun s => ?_
  cases Holder.cell s with
  | none => exact within_throw hrefl _
  | some v => exact within_ite (within_pure hrefl v) (within_throw hrefl _)

variable [DecidableEq A] (hreply : Prog.Within R (reply : Prog (World A S K) Reply))
  (hset : ∀ es a v, Prog.Within R (perform es a fun s => Holder.setCell s (some v)))

include hreply hset

theorem within_constructFrom (a : A) (k : K) (src : Source A V) :
    (constructFrom P a k src : Prog (World A S K) Unit).Within R := by
  have thrown : ∀ {x : Prog (World A S K) Unit}, x.Within R →
      Prog.Within R (do throw .exception; x) := fun hx =>
    within_bind htrans (within_throw hrefl _) fun _ => hx
  cases src with
  | value v =>
      have built := hset [.construct a (P.kind v)] a v
      exact within_bind htrans hreply fun r => within_ite (thrown built) built
  | copy b f =>
      refine within_bind htrans (within_deref hrefl htrans P b k) fun v => ?_
      have built := hset [.construct a (P.kind (f v))] a (f v)
      exact within_bind htrans hreply fun r => within_ite (thrown built) built
  | move b f =>
      refine within_bind htrans (within_deref hrefl htrans P b k) fun v => ?_
      have built := within_bind htrans (hset [] b (P.after .movedFrom v)) fun _ =>
        hset [.construct a (P.kind (f v))] a (f v)
      refine within_bind htrans hreply fun r => within_ite ?_ built
      exact within_bind htrans (hset [] b (P.after .threw v)) fun _ => thrown built

theorem within_assignFrom (a : A) (k : K) (src : Source A V) :
    (assignFrom P a k src : Prog (World A S K) Unit).Within R := by
  have thrown : ∀ {x : Prog (World A S K) Unit}, x.Within R →
      Prog.Within R (do throw .exception; x) := fun hx =>
    within_bind htrans (within_throw hrefl _) fun _ => hx
  cases src with
  | value v =>
      refine within_bind htrans (within_deref hrefl htrans P a k) fun old => ?_
      refine within_bind htrans hreply fun r => within_ite ?_ (hset [] a v)
      exact within_bind htrans (hset [] a _) fun _ => thrown (hset [] a v)
  | copy b f =>
      refine within_bind htrans (within_deref hrefl htrans P b k) fun v => ?_
      refine within_bind htrans (within_deref hrefl htrans P a k) fun old => ?_
      refine within_bind htrans hreply fun r => within_ite ?_ (hset [] a _)
      exact within_bind htrans (hset [] a _) fun _ => thrown (hset [] a _)
  | move b f =>
      refine within_bind htrans (within_deref hrefl htrans P b k) fun v => ?_
      refine within_bind htrans (within_deref hrefl htrans P a k) fun old => ?_
      have moved := fun u => within_bind htrans (hset [] b (P.after .movedFrom v)) fun _ =>
        hset [] a u
      refine within_bind htrans hreply fun r => within_ite ?_ (moved _)
      refine within_bind htrans (hset [] b _) fun _ => ?_
      exact within_bind htrans (hset [] a _) fun _ => thrown (moved _)

end Within

/-! ### The log only grows -/

section Appends
variable [DecidableEq A]

omit [DecidableEq A] in
theorem appends_load (a : A) : (load a : Prog (World A S K) S).Appends World.log :=
  within_load (R := fun w w' => w.log <+: w'.log) (fun _ => List.prefix_rfl) a

theorem appends_perform (es : List (Event A K)) (a : A) (f : S → S) :
    (perform es a f).Appends World.log := by
  intro w
  simp only [Ends, perform]
  cases w.mem a with
  | none => exact List.prefix_rfl
  | some s => exact List.prefix_append w.log es

theorem appends_acquire (a : A) (s : S) :
    (acquire a s : Prog (World A S K) Unit).Appends World.log :=
  appends_modify fun w => List.prefix_append w.log [.acquire a]

theorem appends_release (a : A) : (release a : Prog (World A S K) Unit).Appends World.log :=
  appends_modify fun w => List.prefix_append w.log [.release a]

omit [DecidableEq A] in
theorem appends_reply : (reply : Prog (World A S K) Reply).Appends World.log :=
  fun _ => List.prefix_rfl

variable [Holder S V]

theorem appends_destroy (a : A) (k : K) :
    (destroy a k : Prog (World A S K) Unit).Appends World.log := appends_perform _ a _

variable [DecidableEq K] (P : Payload V K)

omit [DecidableEq A] in
theorem appends_deref (a : A) (k : K) :
    (deref P a k : Prog (World A S K) V).Appends World.log :=
  within_deref (R := fun w w' => w.log <+: w'.log) (fun _ => List.prefix_rfl)
    (fun _ _ _ => List.IsPrefix.trans) P a k

theorem appends_constructFrom (a : A) (k : K) (src : Source A V) :
    (constructFrom P a k src : Prog (World A S K) Unit).Appends World.log :=
  within_constructFrom (R := fun w w' => w.log <+: w'.log) (fun _ => List.prefix_rfl)
    (fun _ _ _ => List.IsPrefix.trans) P appends_reply (fun _ _ _ => appends_perform _ _ _) a k src

theorem appends_assignFrom (a : A) (k : K) (src : Source A V) :
    (assignFrom P a k src : Prog (World A S K) Unit).Appends World.log :=
  within_assignFrom (R := fun w w' => w.log <+: w'.log) (fun _ => List.prefix_rfl)
    (fun _ _ _ => List.IsPrefix.trans) P appends_reply (fun _ _ _ => appends_perform _ _ _) a k src

end Appends

/-! ### A field keeps its promise -/

section Keeps
variable [DecidableEq A] {J : S → Prop}

/-- Every holder's fields are as `J` says. -/
def World.Every (J : S → Prop) (w : World A S K) : Prop := ∀ a s, w.mem a = some s → J s

omit [DecidableEq A] in
theorem World.every_init (replies : Nat → Reply) : (World.init replies : World A S K).Every J := by
  rintro a s ⟨⟩

theorem World.Every.act {w : World A S K} (hw : w.Every J) (es : List (Event A K)) (a : A)
    {o : Option S} (ho : ∀ s, o = some s → J s) : (w.act es a o).Every J := by
  intro b s hb
  rcases eq_or_ne b a with rfl | hne
  · rw [World.act_mem_self] at hb
    exact ho s hb
  · rw [World.act_mem_of_ne _ _ _ hne] at hb
    exact hw b s hb

omit [DecidableEq A] in
theorem keeps_load (a : A) : (load a : Prog (World A S K) S).Keeps (World.Every J) :=
  within_load (fun _ => id) a

theorem keeps_perform (es : List (Event A K)) (a : A) {f : S → S} (hf : ∀ s, J s → J (f s)) :
    (perform es a f).Keeps (World.Every J) := by
  intro w
  simp only [Ends, perform]
  cases ha : w.mem a with
  | none => exact id
  | some s =>
      intro hw
      refine hw.act es a ?_
      rintro _ ⟨⟩
      exact hf s (hw a s ha)

theorem keeps_acquire (a : A) {s : S} (hs : J s) :
    (acquire a s : Prog (World A S K) Unit).Keeps (World.Every J) := by
  intro w hw
  refine World.Every.act hw _ a ?_
  rintro _ ⟨⟩
  exact hs

theorem keeps_release (a : A) : (release a : Prog (World A S K) Unit).Keeps (World.Every J) := by
  intro w hw
  exact World.Every.act hw _ a nofun

omit [DecidableEq A] in
theorem keeps_reply : (reply : Prog (World A S K) Reply).Keeps (World.Every J) := fun _ => id

variable [Holder S V] (hcell : ∀ s c, J s → J (Holder.setCell s c))

include hcell

theorem keeps_destroy (a : A) (k : K) :
    (destroy a k : Prog (World A S K) Unit).Keeps (World.Every J) :=
  keeps_perform _ a fun s => hcell s none

theorem keeps_constructFrom [DecidableEq K] (P : Payload V K) (a : A) (k : K) (src : Source A V) :
    (constructFrom P a k src : Prog (World A S K) Unit).Keeps (World.Every J) :=
  within_constructFrom (fun _ => id) (fun _ _ _ h h' hw => h' (h hw)) P keeps_reply
    (fun es b v => keeps_perform es b fun s => hcell s (some v)) a k src

end Keeps

/-! ## Worlds that differ in the values of payloads only

A call into the payload's code may leave any value in its operands, but it
cannot change which cells are occupied, or by what kind of object. -/

section Similar
variable [Holder S V] (P : Payload V K)

/-- `s'` is `s`, but for the value of its payload. -/
def Touched (s s' : S) : Prop :=
  s' = s ∨ ∃ v v', Holder.cell s = some v ∧ P.kind v' = P.kind v ∧ s' = Holder.setCell s (some v')

/-- The holders of `w'` are those of `w`, but for the values of payloads, and its
replies are what is left of the replies of `w`. -/
structure Similar (w w' : World A S K) : Prop where
  touched : ∀ b, Option.Rel (Touched P) (w.mem b) (w'.mem b)
  replies : ∃ m, ∀ n, w'.replies n = w.replies (n + m)

/-- The argument is there to be read, and of kind `k`, as is what it is made into. -/
def Source.Readable (w : World A S K) (k : K) : Source A V → Prop
  | .value v => P.kind v = k
  | .copy b f | .move b f =>
      ∃ s v, w.mem b = some s ∧ Holder.cell s = some v ∧ P.kind v = k ∧ P.kind (f v) = k

/-- The argument is not the payload of the holder at `a`. -/
def Source.Apart (a : A) : Source A V → Prop
  | .value _ => True
  | .copy b _ | .move b _ => b ≠ a

/-- If the argument is the payload of the holder at `a`, it is passed as it is. -/
def Source.Plain (a : A) : Source A V → Prop
  | .value _ => True
  | .copy b f | .move b f => b = a → f = id

/-- What the holders hold. -/
def World.held (w : World A S K) : A → Option V := fun a => (w.mem a).bind Holder.cell

/-- What the argument is, if the holders hold `h`. -/
def Source.taken (h : A → Option V) : Source A V → Option V
  | .value v => some v
  | .copy b f | .move b f => (h b).map f

/-- What the holders still hold when the argument has been read. -/
def Source.left [DecidableEq A] (h : A → Option V) : Source A V → A → Option V
  | .value _ | .copy _ _ => h
  | .move b _ => Function.update h b ((h b).map (P.after .movedFrom))

/-- What they hold if the payload's code touched the argument, when it is a moved one. -/
def Source.leftBy [DecidableEq A] (t : Touch) (h : A → Option V) : Source A V → A → Option V
  | .value _ | .copy _ _ => h
  | .move b _ => Function.update h b ((h b).map (P.after t))

/-- The argument is there, of kind `k`, and so is what it is made into. -/
def Source.OfKind (kind : V → K) (h : A → Option V) (k : K) : Source A V → Prop
  | .value v => kind v = k
  | .copy b f | .move b f => ∃ v, h b = some v ∧ kind v = k ∧ kind (f v) = k

/-- The world in which a constructor has read its argument. -/
def Source.leaves [DecidableEq A] (w : World A S K) : Source A V → World A S K
  | .value _ | .copy _ _ => w.tick
  | .move b _ => w.tick.act [] b ((w.mem b).map fun t =>
      Holder.setCell t ((Holder.cell t).map (P.after .movedFrom)))

/-- The phase of a holder's storage, by what is in its cell. -/
def cellPhase (s : S) : Phase K := (Holder.cell s).elim .raw fun v => .live (P.kind v)

variable {P}

theorem Touched.refl (s : S) : Touched P s s := .inl rfl

theorem Touched.cellPhase_eq {s s' : S} (h : Touched P s s') : cellPhase P s' = cellPhase P s := by
  rcases h with rfl | ⟨v, v', hv, hk, rfl⟩
  · rfl
  · simp [cellPhase, hv, hk]

theorem Touched.overwrite {s : S} {v v' : V} (hv : Holder.cell s = some v)
    (hk : P.kind v' = P.kind v) : Touched P s (Holder.setCell s (some v')) :=
  .inr ⟨v, v', hv, hk, rfl⟩

theorem Touched.trans {s₁ s₂ s₃ : S} (h : Touched P s₁ s₂) (h' : Touched P s₂ s₃) :
    Touched P s₁ s₃ := by
  rcases h with rfl | ⟨v, v', hv, hk, rfl⟩
  · exact h'
  · rcases h' with rfl | ⟨u, u', hu, hk', rfl⟩
    · exact .inr ⟨v, v', hv, hk, rfl⟩
    · rw [Holder.cell_setCell] at hu
      cases hu
      exact .inr ⟨v, u', hv, hk'.trans hk, Holder.setCell_setCell ..⟩

theorem World.held_eq {w : World A S K} {a : A} {s : S} (ha : w.mem a = some s) :
    w.held a = Holder.cell s := by
  rw [World.held, ha, Option.bind_some]

theorem World.held_act [DecidableEq A] (w : World A S K) (es : List (Event A K)) (a : A)
    (s : Option S) : (w.act es a s).held = Function.update w.held a (s.bind Holder.cell) := by
  funext b
  rcases eq_or_ne b a with rfl | hb
  · rw [Function.update_self, World.held, World.act_mem_self]
  · rw [Function.update_of_ne hb, World.held, World.act_mem_of_ne _ _ _ hb, World.held]

/-- What is not there cannot be the argument. -/
theorem Source.OfKind.apart {kind : V → K} {h : A → Option V} {k : K} {src : Source A V} {a : A}
    (hsrc : src.OfKind kind h k) (ha : h a = none) : src.Apart a := by
  cases src with
  | value v => trivial
  | copy b f | move b f =>
      obtain ⟨v, hb, -⟩ := hsrc
      rintro rfl
      rw [ha] at hb
      cases hb

/-- Reading an argument from somewhere else does not depend on what is at `a`. -/
theorem Source.taken_update [DecidableEq A] {src : Source A V} {a : A} (hap : src.Apart a)
    (h : A → Option V) (o : Option V) : src.taken (Function.update h a o) = src.taken h := by
  cases src with
  | value v => rfl
  | copy b f | move b f =>
      simp only [Source.taken, Function.update_of_ne (show b ≠ a from hap)]

theorem Source.left_update [DecidableEq A] {src : Source A V} {a : A} (hap : src.Apart a)
    (h : A → Option V) (o : Option V) :
    src.left P (Function.update h a o) = Function.update (src.left P h) a o := by
  cases src with
  | value v => rfl
  | copy b f => rfl
  | move b f =>
      have hne : b ≠ a := hap
      simp only [Source.left, Function.update_of_ne hne]
      exact Function.update_comm hne.symm ..

theorem Source.held_leaves [DecidableEq A] (w : World A S K) (src : Source A V) :
    (src.leaves P w).held = src.left P w.held := by
  cases src with
  | value v => rfl
  | copy b f => rfl
  | move b f =>
      rw [Source.leaves, World.held_act, Source.left]
      refine congrArg (Function.update w.held b) ?_
      rw [World.held]
      cases w.mem b with
      | none => rfl
      | some t => exact Holder.cell_setCell ..

/-- Reading an argument from somewhere else leaves `a` alone. -/
theorem Source.mem_leaves [DecidableEq A] {src : Source A V} {a : A} (hap : src.Apart a)
    (w : World A S K) : (src.leaves P w).mem a = w.mem a := by
  cases src with
  | value v => rfl
  | copy b f => rfl
  | move b f => exact World.act_mem_of_ne _ _ _ (Ne.symm hap)

theorem touched_refl (w : World A S K) (b : A) : Option.Rel (Touched P) (w.mem b) (w.mem b) := by
  cases w.mem b with
  | none => exact .none
  | some s => exact .some (Touched.refl s)

theorem Similar.tick (w : World A S K) : Similar P w w.tick := ⟨touched_refl w, 1, fun _ => rfl⟩

theorem Similar.trans {w₁ w₂ w₃ : World A S K} (h : Similar P w₁ w₂) (h' : Similar P w₂ w₃) :
    Similar P w₁ w₃ := by
  refine ⟨fun b => ?_, ?_⟩
  · have hb := h.touched b
    have hb' := h'.touched b
    generalize w₁.mem b = x₁ at hb ⊢
    generalize w₂.mem b = x₂ at hb hb'
    generalize w₃.mem b = x₃ at hb' ⊢
    cases hb with
    | none => cases hb'; exact .none
    | some t => cases hb' with | some t' => exact .some (t.trans t')
  · obtain ⟨m, hm⟩ := h.replies
    obtain ⟨m', hm'⟩ := h'.replies
    exact ⟨m' + m, fun n => by rw [hm', hm, Nat.add_assoc]⟩

theorem Similar.mem {w w' : World A S K} (h : Similar P w w') {b : A} {s : S}
    (hb : w.mem b = some s) : ∃ s', w'.mem b = some s' ∧ Touched P s s' := by
  have := h.touched b
  rw [hb] at this
  generalize w'.mem b = x at this
  cases this with | some t => exact ⟨_, rfl, t⟩

theorem Similar.mem_of {w w' : World A S K} (h : Similar P w w') {b : A} {s' : S}
    (hb : w'.mem b = some s') : ∃ s, w.mem b = some s ∧ Touched P s s' := by
  have := h.touched b
  rw [hb] at this
  generalize w.mem b = x at this
  cases this with | some t => exact ⟨_, rfl, t⟩

theorem Similar.mem_none {w w' : World A S K} (h : Similar P w w') {b : A}
    (hb : w.mem b = none) : w'.mem b = none := by
  have := h.touched b
  rw [hb] at this
  generalize w'.mem b = x at this
  cases this; rfl

theorem Similar.noCtorThrows {w w' : World A S K} (h : Similar P w w') (hw : w.NoCtorThrows) :
    w'.NoCtorThrows := by
  obtain ⟨m, hm⟩ := h.replies
  intro n
  rw [hm]
  exact hw (n + m)

/-- An empty cell is left alone. -/
theorem Similar.mem_raw {w w' : World A S K} (h : Similar P w w') {b : A} {s : S}
    (hb : w.mem b = some s) (hs : Holder.cell s = none) : w'.mem b = some s := by
  obtain ⟨s', hb', rfl | ⟨v, _, hv, _⟩⟩ := h.mem hb
  · exact hb'
  · rw [hs] at hv; cases hv

end Similar

/-- What is being constructed cannot be the argument. -/
theorem Source.Readable.apart [Holder S V] {P : Payload V K} {w : World A S K} {k : K} {a : A}
    {src : Source A V} (h : src.Readable P w k) (ha : w.mem a = none) : src.Apart a := by
  cases src with
  | value v => trivial
  | copy b f | move b f =>
      obtain ⟨s, v, hb, -⟩ := h
      rintro rfl
      rw [ha] at hb
      cases hb

/-- What is of another kind cannot be the argument. -/
theorem Source.Readable.apart_of_kind [Holder S V] {P : Payload V K} {w : World A S K} {k : K}
    {a : A} {s : S} {v : V} {src : Source A V} (h : src.Readable P w k) (ha : w.mem a = some s)
    (hv : Holder.cell s = some v) (hk : P.kind v ≠ k) : src.Apart a := by
  cases src with
  | value v => trivial
  | copy b f | move b f =>
      obtain ⟨t, u, hb, hu, hku, -⟩ := h
      rintro rfl
      obtain rfl : s = t := Option.some.inj (ha.symm.trans hb)
      obtain rfl : v = u := Option.some.inj (hv.symm.trans hu)
      exact hk hku

/-- What happens at `a` leaves the argument alone, if it is somewhere else. -/
theorem Source.Readable.act [DecidableEq A] [Holder S V] {P : Payload V K} {w : World A S K}
    {k : K} {a : A} {src : Source A V} (h : src.Readable P w k) (ha : src.Apart a)
    (es : List (Event A K)) (s : Option S) : src.Readable P (w.act es a s) k := by
  cases src with
  | value v => exact h
  | copy b f | move b f =>
      obtain ⟨t, v, hb, hrest⟩ := h
      exact ⟨t, v, by rw [World.act_mem_of_ne _ _ _ ha]; exact hb, hrest⟩

theorem Similar.overwrite [DecidableEq A] [Holder S V] {P : Payload V K} {w : World A S K} {b : A}
    {s : S} {v v' : V} (hb : w.mem b = some s)
    (hv : Holder.cell s = some v) (hk : P.kind v' = P.kind v) :
    Similar P w (w.act [] b (some (Holder.setCell s (some v')))) := by
  refine ⟨fun c => ?_, 0, fun _ => rfl⟩
  rcases eq_or_ne c b with rfl | hc
  · rw [World.act_mem_self, hb]
    exact .some (Touched.overwrite hv hk)
  · rw [World.act_mem_of_ne _ _ _ hc]
    exact touched_refl w c

/-! ## The log and the cells agree

`Tracks` relates the log to the cells alone; what the other fields of a holder
say about its cell is each class's own business. -/

section Tracks
variable [DecidableEq A] [DecidableEq K] [Holder S V] (P : Payload V K)

/-- The log is accepted, and it says of every cell what is in it. -/
def Tracks (w : World A S K) : Prop := monitor start w.log = some (w.phases (cellPhase P))

variable {P}

theorem tracks_init (replies : Nat → Reply) : Tracks P (World.init replies : World A S K) := rfl

theorem Tracks.tick {w : World A S K} (h : Tracks P w) : Tracks P w.tick := h

/-- Legal events at `a` that leave its cell as they say keep the log right. -/
theorem Tracks.act {w : World A S K} (h : Tracks P w) {es : List (Event A K)} {a : A}
    {s : Option S} (hloc : ∀ e ∈ es, e.loc = a)
    (hrun : es.foldlM Phase.next ((w.mem a).elim .absent (cellPhase P))
      = some (s.elim .absent (cellPhase P))) :
    Tracks P (w.act es a s) := by
  unfold Tracks at h ⊢
  rw [World.act_log, monitor_append, h, Option.bind_some, World.phases_act]
  exact monitor_local es _ _ hloc hrun

theorem Tracks.acquire {w : World A S K} (h : Tracks P w) {a : A} {s : S}
    (ha : w.mem a = none) (hs : Holder.cell s = none) :
    Tracks P (w.act [.acquire a] a (some s)) := by
  refine h.act (by simp [Event.loc]) ?_
  simp [ha, cellPhase, hs, Phase.next]

theorem Tracks.release {w : World A S K} (h : Tracks P w) {a : A} {s : S}
    (ha : w.mem a = some s) (hs : Holder.cell s = none) :
    Tracks P (w.act [.release a] a none) := by
  refine h.act (by simp [Event.loc]) ?_
  simp [ha, cellPhase, hs, Phase.next]

theorem Tracks.construct {w : World A S K} (h : Tracks P w) {a : A} {s s' : S} {v : V}
    (ha : w.mem a = some s) (hs : Holder.cell s = none) (hs' : Holder.cell s' = some v) :
    Tracks P (w.act [.construct a (P.kind v)] a (some s')) := by
  refine h.act (by simp [Event.loc]) ?_
  simp [ha, cellPhase, hs, hs', Phase.next]

theorem Tracks.destroy {w : World A S K} (h : Tracks P w) {a : A} {s s' : S} {v : V}
    (ha : w.mem a = some s) (hs : Holder.cell s = some v) (hs' : Holder.cell s' = none) :
    Tracks P (w.act [.destroy a (P.kind v)] a (some s')) := by
  refine h.act (by simp [Event.loc]) ?_
  simp [ha, cellPhase, hs, hs', Phase.next]

theorem Tracks.quiet {w : World A S K} (h : Tracks P w) {a : A} {s s' : S}
    (ha : w.mem a = some s) (hs : cellPhase P s' = cellPhase P s) :
    Tracks P (w.act [] a (some s')) := by
  refine h.act (by simp) ?_
  simp [ha, hs]

theorem Tracks.overwrite {w : World A S K} (h : Tracks P w) {b : A} {s : S} {v v' : V}
    (hb : w.mem b = some s) (hv : Holder.cell s = some v) (hk : P.kind v' = P.kind v) :
    Tracks P (w.act [] b (some (Holder.setCell s (some v')))) :=
  h.quiet hb (Touched.overwrite hv hk).cellPhase_eq

/-- Values do not matter to the log. -/
theorem Tracks.similar {w w' : World A S K} (h : Tracks P w) (hs : Similar P w w')
    (hlog : w'.log = w.log) : Tracks P w' := by
  unfold Tracks at h ⊢
  rw [hlog, h]
  refine congrArg some (funext fun b => ?_)
  have hb := hs.touched b
  rw [World.phases, World.phases]
  generalize w.mem b = x at hb ⊢
  generalize w'.mem b = y at hb ⊢
  cases hb with
  | none => rfl
  | some htouch => exact htouch.cellPhase_eq.symm

/-- The monitor stops at a second object in one cell. -/
theorem Tracks.construct_over {w : World A S K} (h : Tracks P w) {a : A} {s : S} {k k' : K}
    (ha : w.mem a = some s) (hs : cellPhase P s = .live k') {o : Option S} :
    monitor start (w.act [.construct a k] a o).log = none := by
  have hphase : w.phases (cellPhase P) a = .live k' := by rw [World.phases, ha, ← hs]; rfl
  rw [World.act_log, monitor_append, h, Option.bind_some, monitor_cons, observe]
  simp only [Event.loc, hphase, Phase.next, Option.map_none, Option.bind_none]

/-! ### The calls into the payload

Each rule says where the call leaves the log and the cells, whichever way it
ends; the rest of a proof about a class goes on from there. -/

section Rules
variable {w : World A S K} {Q : Unit → World A S K → Prop} {E : Stop → World A S K → Prop}
  {a : A} {k : K} {s : S}

/-- The argument is read and the constructor replies; `built` is the object coming
to life, in a world that still looks like the one the call began in. -/
theorem ends_constructFrom_similar {src : Source A V} (hsrc : src.Readable P w k)
    (built : ∀ w₁ v, Similar P w w₁ → w₁.log = w.log → P.kind v = k →
      Ends (construct P a v) w₁ Q E)
    (hE : (w.replies 0).ctorThrows = true → ∀ w₁, Similar P w w₁ → w₁.log = w.log →
      E .exception w₁) :
    Ends (constructFrom P a k src) w Q E := by
  have hw₀ : Similar P w w.tick := Similar.tick w
  cases src with
  | value v =>
      simp only [constructFrom, ends_bind, ends_reply, ends_ite, ends_throw]
      exact ⟨fun ht => hE ht _ hw₀ rfl, fun _ => built _ v hw₀ rfl hsrc⟩
  | copy b f =>
      obtain ⟨t, v, hb, hv, hk, hf⟩ := hsrc
      simp only [constructFrom, ends_bind, ends_deref hb hv hk, ends_reply, ends_ite, ends_throw]
      exact ⟨fun ht => hE ht _ hw₀ rfl, fun _ => built _ (f v) hw₀ rfl hf⟩
  | move b f =>
      obtain ⟨t, v, hb, hv, hk, hf⟩ := hsrc
      have hb₀ : w.tick.mem b = some t := hb
      simp only [constructFrom, ends_bind, ends_deref hb hv hk, ends_reply, ends_ite, ends_throw,
        overwrite, ends_perform hb₀]
      have left : ∀ t' : Touch, Similar P w
          (w.tick.act [] b (some (Holder.setCell t (some (P.after t' v))))) := fun t' =>
        hw₀.trans (Similar.overwrite hb₀ hv (P.kind_after ..))
      exact ⟨fun ht => hE ht _ (left _) (List.append_nil _),
        fun _ => built _ (f v) (left _) (List.append_nil _) hf⟩

theorem ends_constructFrom_of (h : Tracks P w) {src : Source A V} (hsrc : src.Readable P w k)
    (built : ∀ w₁ v, Tracks P w₁ → Similar P w w₁ → P.kind v = k → Ends (construct P a v) w₁ Q E)
    (hE : (w.replies 0).ctorThrows = true → ∀ w₁, Tracks P w₁ → Similar P w w₁ →
      E .exception w₁) :
    Ends (constructFrom P a k src) w Q E :=
  ends_constructFrom_similar hsrc (fun w₁ v hw₁ hlog => built w₁ v (h.similar hw₁ hlog) hw₁)
    fun ht w₁ hw₁ hlog => hE ht w₁ (h.similar hw₁ hlog) hw₁

theorem ends_constructFrom (h : Tracks P w) (ha : w.mem a = some s) (hs : Holder.cell s = none)
    {src : Source A V} (hsrc : src.Readable P w k)
    (hQ : ∀ w₁ v, Tracks P w₁ → Similar P w w₁ → P.kind v = k →
      Q () (w₁.act [.construct a k] a (some (Holder.setCell s (some v)))))
    (hE : (w.replies 0).ctorThrows = true → ∀ w₁, Tracks P w₁ → Similar P w w₁ →
      E .exception w₁) :
    Ends (constructFrom P a k src) w Q E := by
  refine ends_constructFrom_of h hsrc ?_ hE
  intro w₁ v h₁ hw₁ hk
  rw [construct, ends_perform (hw₁.mem_raw ha hs), hk]
  exact hQ w₁ v h₁ hw₁ hk

/-- A constructor called on a cell that is not empty builds over what is there. -/
theorem ends_constructFrom_over (h : Tracks P w) (ha : w.mem a = some s) {u : V}
    (hu : Holder.cell s = some u) {src : Source A V} (hsrc : src.Readable P w k)
    (hreply : (w.replies 0).ctorThrows = false) :
    Ends (constructFrom P a k src) w (fun _ w' => monitor start w'.log = none) E := by
  refine ends_constructFrom_of h hsrc ?_ fun ht => ?_
  · intro w₁ v h₁ hw₁ _
    obtain ⟨s₁, ha₁, htouch⟩ := hw₁.mem ha
    have hlive : cellPhase P s₁ = .live (P.kind u) := by
      rw [htouch.cellPhase_eq, cellPhase, hu]
      rfl
    rw [construct, ends_perform ha₁]
    exact h₁.construct_over ha₁ hlive
  · rw [hreply] at ht
    cases ht

/-- Reading the argument is the payload's business. -/
theorem leaves_similar (h : Tracks P w) {src : Source A V} (hsrc : src.Readable P w k) :
    Tracks P (src.leaves P w) ∧ Similar P w (src.leaves P w) := by
  cases src with
  | value v => exact ⟨h.tick, Similar.tick w⟩
  | copy b f => exact ⟨h.tick, Similar.tick w⟩
  | move b f =>
      obtain ⟨t, v, hb, hv, -⟩ := hsrc
      have hb₀ : w.tick.mem b = some t := hb
      simp only [Source.leaves, hb, hv, Option.map_some]
      exact ⟨h.tick.overwrite hb₀ hv (P.kind_after ..),
        (Similar.tick w).trans (Similar.overwrite hb₀ hv (P.kind_after ..))⟩

/-- Where no constructor throws, what is built is what the argument was. -/
theorem ends_constructFrom_exact {src : Source A V} (hsrc : src.Readable P w k)
    (hreply : (w.replies 0).ctorThrows = false) :
    ∃ v, src.taken w.held = some v ∧ P.kind v = k ∧
      (Ends (constructFrom P a k src) w Q E ↔ Ends (construct P a v) (src.leaves P w) Q E) := by
  cases src with
  | value v =>
      refine ⟨v, rfl, hsrc, ?_⟩
      simp only [constructFrom, ends_bind, ends_reply, hreply, Bool.false_eq_true, if_false]
      rfl
  | copy b f =>
      obtain ⟨t, v, hb, hv, hk, hf⟩ := hsrc
      refine ⟨f v, by rw [Source.taken, World.held_eq hb, hv, Option.map_some], hf, ?_⟩
      simp only [constructFrom, ends_bind, ends_deref hb hv hk, ends_reply, hreply,
        Bool.false_eq_true, if_false]
      rfl
  | move b f =>
      obtain ⟨t, v, hb, hv, hk, hf⟩ := hsrc
      have hb₀ : w.tick.mem b = some t := hb
      refine ⟨f v, by rw [Source.taken, World.held_eq hb, hv, Option.map_some], hf, ?_⟩
      simp only [constructFrom, ends_bind, ends_deref hb hv hk, ends_reply, hreply,
        Bool.false_eq_true, if_false, overwrite, ends_perform hb₀, Source.leaves, hb, hv,
        Option.map_some]

/-- Where one may, what is built is what the argument was, if anything is. -/
theorem ends_constructFrom_read {src : Source A V} (hsrc : src.Readable P w k)
    (built : ∀ v, src.taken w.held = some v → P.kind v = k →
      Ends (construct P a v) (src.leaves P w) Q E)
    (thrown : (w.replies 0).ctorThrows = true → ∀ w₁, E .exception w₁) :
    Ends (constructFrom P a k src) w Q E := by
  cases hreply : (w.replies 0).ctorThrows with
  | false =>
      obtain ⟨v, hv, hk, hends⟩ := ends_constructFrom_exact (a := a) (Q := Q) (E := E) hsrc hreply
      exact hends.mpr (built v hv hk)
  | true =>
      cases src with
      | value v =>
          simp only [constructFrom, ends_bind, ends_reply, hreply, if_true, ends_throw]
          exact thrown hreply _
      | copy b f =>
          obtain ⟨t, v, hb, hv, hk, -⟩ := hsrc
          simp only [constructFrom, ends_bind, ends_deref hb hv hk, ends_reply, hreply, if_true,
            ends_throw]
          exact thrown hreply _
      | move b f =>
          obtain ⟨t, v, hb, hv, hk, -⟩ := hsrc
          have hb₀ : w.tick.mem b = some t := hb
          simp only [constructFrom, ends_bind, ends_deref hb hv hk, ends_reply, hreply, if_true,
            overwrite, ends_perform hb₀, ends_throw]
          exact thrown hreply _

/-- What is no longer there cannot be read. -/
theorem ends_constructFrom_gone {b : A} {src : Source A V} (hsrc : ¬ src.Apart b)
    (hb : w.mem b = some s) (hs : Holder.cell s = none) :
    Ends (constructFrom P a k src) w Q E ↔ E .undefined w := by
  cases src with
  | value v => exact absurd trivial hsrc
  | copy c f | move c f =>
      obtain rfl : c = b := not_not.mp hsrc
      simp only [constructFrom, deref, ends_bind, ends_load hb, hs, ends_throw]

/-- A constructor that throws leaves an empty cell empty. -/
theorem ends_constructFrom_raw (ha : w.mem a = some s) (hs : Holder.cell s = none)
    (src : Source A V) :
    Ends (constructFrom P a k src) w (fun _ _ => True)
      fun e w' => e = .exception → w'.mem a = some s := by
  have made : ∀ (w₁ : World A S K) (u : V), Ends (construct P a u) w₁ (fun _ _ => True)
      fun e w' => e = .exception → w'.mem a = some s := by
    intro w₁ u
    simp only [Ends, construct, perform]
    cases w₁.mem a with
    | none =>
        intro h
        cases h
    | some _ => trivial
  have read : ∀ (b : A) (f : V → Prog (World A S K) Unit),
      (∀ t u, w.mem b = some t → Holder.cell t = some u →
        Ends (f u) w (fun _ _ => True) fun e w' => e = .exception → w'.mem a = some s) →
      Ends (deref P b k >>= f) w (fun _ _ => True) fun e w' => e = .exception → w'.mem a = some s := by
    intro b f hf
    cases hb : w.mem b with
    | none =>
        simp only [Ends, deref, bind, EStateM.bind, load, hb]
        intro h
        cases h
    | some t =>
        simp only [deref, ends_bind, ends_load hb]
        cases ht : Holder.cell t with
        | none =>
            intro h
            cases h
        | some u =>
            simp only [ends_ite, ends_pure, ends_throw]
            refine ⟨fun _ => hf t u hb ht, ?_⟩
            intro _ h
            cases h
  cases src with
  | value u =>
      simp only [constructFrom, ends_bind, ends_reply, ends_ite, ends_throw]
      exact ⟨fun _ _ => ha, fun _ => made _ u⟩
  | copy b f =>
      refine read b _ fun t u hb ht => ?_
      simp only [ends_bind, ends_reply, ends_ite, ends_throw]
      exact ⟨fun _ _ => ha, fun _ => made _ (f u)⟩
  | move b f =>
      refine read b _ fun t u hb ht => ?_
      have hne : a ≠ b := by
        rintro rfl
        rw [Option.some.inj (ha.symm.trans hb), ht] at hs
        cases hs
      have hb₀ : w.tick.mem b = some t := hb
      simp only [ends_bind, ends_reply, ends_ite, ends_throw, overwrite, ends_perform hb₀]
      exact ⟨fun _ _ => (World.act_mem_of_ne _ _ _ hne).trans ha, fun _ => made _ (f u)⟩

/-- An argument from outside becomes the payload as it is. -/
theorem ends_constructFrom_value {v : V} (hreply : (w.replies 0).ctorThrows = false) :
    Ends (constructFrom P a k (.value v)) w Q E ↔ Ends (construct P a v) w.tick Q E := by
  simp only [constructFrom, ends_bind, ends_reply, hreply, Bool.false_eq_true, if_false]

variable {v : V}

/-- `w` is where the call began, `w₁` where it has got to. -/
theorem ends_overwrite {w₁ : World A S K} (h₁ : Tracks P w₁) (hw₁ : Similar P w w₁)
    (ha : w.mem a = some s) (hv : Holder.cell s = some v) {u : V} (hu : P.kind u = P.kind v)
    (hQ : ∀ w₂, Tracks P w₂ → Similar P w w₂ → Q () w₂) : Ends (overwrite a u) w₁ Q E := by
  obtain ⟨s₁, ha₁, hs₁⟩ := hw₁.mem ha
  obtain ⟨v₁, hv₁, hk₁⟩ : ∃ v₁, Holder.cell s₁ = some v₁ ∧ P.kind v₁ = P.kind v := by
    rcases hs₁ with rfl | ⟨v₀, v₁, hv₀, hk₀, rfl⟩
    · exact ⟨v, hv, rfl⟩
    · rw [hv] at hv₀
      cases hv₀
      exact ⟨v₁, Holder.cell_setCell .., hk₀⟩
  have hkind : P.kind u = P.kind v₁ := hu.trans hk₁.symm
  rw [overwrite, ends_perform ha₁]
  exact hQ _ (h₁.overwrite ha₁ hv₁ hkind) (hw₁.trans (Similar.overwrite ha₁ hv₁ hkind))

theorem ends_assignFrom (h : Tracks P w) (ha : w.mem a = some s) (hv : Holder.cell s = some v)
    (hk : P.kind v = k) {src : Source A V} (hsrc : src.Readable P w k)
    (hQ : ∀ w₁, Tracks P w₁ → Similar P w w₁ → Q () w₁)
    (hE : ∀ w₁, Tracks P w₁ → Similar P w w₁ → E .exception w₁) :
    Ends (assignFrom P a k src) w Q E := by
  have h₀ := h.tick
  have hw₀ : Similar P w w.tick := Similar.tick w
  subst hk
  cases src with
  | value u =>
      simp only [assignFrom, ends_bind, ends_deref ha hv rfl, ends_reply, ends_ite, ends_throw]
      constructor
      · intro _
        exact ends_overwrite h₀ hw₀ ha hv (P.kind_after ..) hE
      · intro _
        exact ends_overwrite h₀ hw₀ ha hv hsrc hQ
  | copy b f =>
      obtain ⟨t, u, hb, hu, hku, hf⟩ := hsrc
      simp only [assignFrom, ends_bind, ends_deref ha hv rfl, ends_deref hb hu hku, ends_reply,
        ends_ite, ends_throw]
      constructor
      · intro _
        exact ends_overwrite h₀ hw₀ ha hv (P.kind_after ..) hE
      · intro _
        refine ends_overwrite h₀ hw₀ ha hv ?_ hQ
        split
        · exact (P.kind_after ..).trans hku
        · exact hf
  | move b f =>
      obtain ⟨t, u, hb, hu, hku, hf⟩ := hsrc
      simp only [assignFrom, ends_bind, ends_deref ha hv rfl, ends_deref hb hu hku, ends_reply,
        ends_ite, ends_throw]
      constructor
      · intro _
        refine ends_overwrite h₀ hw₀ hb hu (P.kind_after ..) fun w₁ h₁ hw₁ => ?_
        exact ends_overwrite h₁ hw₁ ha hv (P.kind_after ..) hE
      · intro _
        refine ends_overwrite h₀ hw₀ hb hu (P.kind_after ..) fun w₁ h₁ hw₁ => ?_
        refine ends_overwrite h₁ hw₁ ha hv ?_ hQ
        split
        · exact (P.kind_after ..).trans hku
        · exact hf

theorem ends_swapPayload {b : A} {t : S} {u : V} (h : Tracks P w) (ha : w.mem a = some s)
    (hv : Holder.cell s = some v) (hk : P.kind v = k) (hb : w.mem b = some t)
    (hu : Holder.cell t = some u) (hku : P.kind u = k)
    (hQ : ∀ w₁, Tracks P w₁ → Similar P w w₁ → Q () w₁)
    (hE : ∀ w₁, Tracks P w₁ → Similar P w w₁ → E .exception w₁) :
    Ends (swapPayload P a b k) w Q E := by
  have h₀ := h.tick
  have hw₀ : Similar P w w.tick := Similar.tick w
  simp only [swapPayload, ends_bind, ends_deref ha hv hk, ends_deref hb hu hku, ends_reply,
    ends_ite, ends_throw]
  constructor
  · intro _
    refine ends_overwrite h₀ hw₀ ha hv (P.kind_after ..) fun w₁ h₁ hw₁ => ?_
    exact ends_overwrite h₁ hw₁ hb hu (P.kind_after ..) hE
  · intro _
    refine ends_overwrite h₀ hw₀ ha hv (hku.trans hk.symm) fun w₁ h₁ hw₁ => ?_
    refine ends_overwrite h₁ hw₁ hb hu ?_ hQ
    split
    · exact (P.kind_after ..).trans (hk.trans hku.symm)
    · exact hk.trans hku.symm

end Rules

end Tracks

/-! ## Classes that keep a promise about their fields

What the fields of a holder say about its cell is the class's own promise
(`FieldInv`); all it has to do with the payload's code is to survive it.  Together
with the log this is the invariant of the class (`Intact`): it holds between any two
calls into the payload, and so wherever an exception may leave. -/

/-- A promise about the fields of a holder that does not depend on the value held. -/
structure FieldInv (S : Type) {V K : Type} [Holder S V] (P : Payload V K) where
  holds : S → Prop
  touched : ∀ {s s' : S}, Touched P s s' → holds s → holds s'

/-- The same holders are there. -/
def SameHolders (w w' : World A S K) : Prop := ∀ a, w'.mem a = none ↔ w.mem a = none

theorem SameHolders.trans {w w' w'' : World A S K} (h : SameHolders w w')
    (h' : SameHolders w' w'') : SameHolders w w'' := fun a => (h' a).trans (h a)

theorem SameHolders.of_similar [Holder S V] {P : Payload V K} {w w' : World A S K}
    (h : Similar P w w') : SameHolders w w' := by
  intro a
  constructor
  · intro ha
    cases hs : w.mem a with
    | none => rfl
    | some s =>
        obtain ⟨s', hs', -⟩ := h.mem hs
        rw [ha] at hs'
        cases hs'
  · exact h.mem_none

section Intact
variable [DecidableEq A] [DecidableEq K] [Holder S V] {P : Payload V K}

omit [DecidableEq K] in
theorem SameHolders.act {w : World A S K} {a : A} {s s' : S} (ha : w.mem a = some s)
    (es : List (Event A K)) : SameHolders w (w.act es a (some s')) := by
  intro c
  rcases eq_or_ne c a with rfl | hc
  · simp [ha]
  · rw [World.act_mem_of_ne _ _ _ hc]

/-- The log is right about the cells, and every holder keeps the promise. -/
structure Intact (I : FieldInv S P) (w : World A S K) : Prop where
  tracks : Tracks P w
  fields : ∀ a s, w.mem a = some s → I.holds s

/-- The same but for the holder at `a`, which is in the middle of something. -/
structure IntactBut (I : FieldInv S P) (a : A) (w : World A S K) : Prop where
  tracks : Tracks P w
  fields : ∀ c s, c ≠ a → w.mem c = some s → I.holds s

variable {I : FieldInv S P} {w w' : World A S K} {a : A}

namespace IntactBut

/-- The payload's code changes values and nothing else. -/
theorem similar (h : IntactBut I a w) (ht : Tracks P w') (hs : Similar P w w') :
    IntactBut I a w' where
  tracks := ht
  fields c s' hc hs' := by
    obtain ⟨s, hs₀, htouch⟩ := hs.mem_of hs'
    exact I.touched htouch (h.fields c s hc hs₀)

/-- The holder at `a` has come out of it with its promise kept. -/
theorem done (h : IntactBut I a w) {es : List (Event A K)} {s : S}
    (ht : Tracks P (w.act es a (some s))) (hs : I.holds s) : Intact I (w.act es a (some s)) where
  tracks := ht
  fields c t hc := by
    rcases eq_or_ne c a with rfl | hne
    · rw [World.act_mem_self] at hc
      cases hc
      exact hs
    · rw [World.act_mem_of_ne _ _ _ hne] at hc
      exact h.fields c t hne hc

/-- The holder at `a` has gone. -/
theorem gone (h : IntactBut I a w) {es : List (Event A K)} (ht : Tracks P (w.act es a none)) :
    Intact I (w.act es a none) where
  tracks := ht
  fields c t hc := by
    rcases eq_or_ne c a with rfl | hne
    · rw [World.act_mem_self] at hc
      cases hc
    · rw [World.act_mem_of_ne _ _ _ hne] at hc
      exact h.fields c t hne hc

end IntactBut

namespace Intact

theorem init (replies : Nat → Reply) : Intact I (World.init replies : World A S K) where
  tracks := tracks_init replies
  fields _ _ := nofun

theorem tick (h : Intact I w) : Intact I w.tick := ⟨h.tracks, h.fields⟩

theorem but (h : Intact I w) : IntactBut I a w := ⟨h.tracks, fun c s _ => h.fields c s⟩

/-- Events at one holder put nobody else in the middle of anything. -/
theorem begin_ (h : Intact I w) {es : List (Event A K)} {o : Option S}
    (ht : Tracks P (w.act es a o)) : IntactBut I a (w.act es a o) where
  tracks := ht
  fields c t hne hc := by
    rw [World.act_mem_of_ne _ _ _ hne] at hc
    exact h.fields c t hc

/-- Events at one holder, if they leave it with its promise kept. -/
theorem act (h : Intact I w) {es : List (Event A K)} {s : S}
    (ht : Tracks P (w.act es a (some s))) (hs : I.holds s) : Intact I (w.act es a (some s)) :=
  h.but.done ht hs

/-- Events that end with the holder gone. -/
theorem removed (h : Intact I w) {es : List (Event A K)} (ht : Tracks P (w.act es a none)) :
    Intact I (w.act es a none) := h.but.gone ht

/-- Storage for a new holder, its cell empty. -/
theorem acquired (h : Intact I w) {s : S} (ha : w.mem a = none) (hs : Holder.cell s = none)
    (hI : I.holds s) : Intact I (w.act [.acquire a] a (some s)) :=
  h.act (h.tracks.acquire ha hs) hI

/-- The storage of a holder whose cell is empty is given back. -/
theorem released (h : Intact I w) {s : S} (ha : w.mem a = some s) (hs : Holder.cell s = none) :
    Intact I (w.act [.release a] a none) := h.removed (h.tracks.release ha hs)

/-- The payload's code changes values and nothing else. -/
theorem similar (h : Intact I w) (ht : Tracks P w') (hs : Similar P w w') : Intact I w' where
  tracks := ht
  fields a s' ha := by
    obtain ⟨s, hs₀, htouch⟩ := hs.mem_of ha
    exact I.touched htouch (h.fields a s hs₀)

/-- When a holder is gone, every object it held was destroyed once. -/
theorem destroyedOnce (h : Intact I w) (ha : w.mem a = none) : DestroyedOnce a w.log := by
  refine DestroyedOnce.of_monitor h.tracks fun k hk => ?_
  rw [World.phases, ha] at hk
  cases hk

end Intact
end Intact

end Lifetime
