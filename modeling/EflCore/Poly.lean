/-
# `EflCore.Poly` — one of several derived classes, in place

`Poly.hpp`.  A poly has storage for one object and a number (`id_`) that stands
for the class of the object; `~0` stands for no object.  The numbers come from a
sequence, one to each class of the list `Base, Derived...`, and they are looked up by
overload resolution, in two ways:

    idValue<T>                       NodeValues(static_cast<T*>(nullptr)), at compile time
    NodeValues(TypeC<D>{}, n, data)  the node of `D`: if `n` is its number, run `~D` and say yes

`clear_` reads the number back.  Zero is `Base`, and `~Base` is called through the base
pointer; any other number is offered to the node of each derived class in turn.  From C++17
on that is a fold, which stops at the first node that says yes; before, it is an array
initializer (`EflCore.Poly.Cxx14`).  Everything else is the same text in both builds.

    clear_     ~0 → nothing      0 → ~Base      n → (... || NodeValues(TypeC<Derived>{}, n, data))

An assignment clears, sets the number and then constructs.  What it reads may be part of the
poly, or belong to the object in it and end with that.

**Proved here**, in the C++17 build.  As long as no constructor throws and nothing is assigned
from the poly itself, every object is destroyed once, as what it was constructed as, before the next is
constructed; `holdsAny` says whether there is one, and `downcast` finds it under its class
and under no other, with the value it was last given (`poly_run_sound` in
`EflCore.Poly.Lifetime`).
-/
import EflCore.Builtins
import EflCore.Layout
import EflCore.Lifetime.Object
import EflCore.Overload
import EflCore.Traits.StdInt

namespace EflCore

open Layout Lifetime

/-! ## The nodes -/

/-- `PolyNode<T, I>`. -/
structure PolyNode (t : Target) (C : Type) where
  T : C
  I : t.SzType

/-- The list `Base, Derived...`, with what the program knows of the classes. -/
structure PolyTypes (t : Target) (C : Type) extends Overload.Hierarchy C where
  Base : C
  Derived : List C
  virtualDtor : C → Bool
  distinct : (Base :: Derived).Nodup
  derived : ∀ D ∈ Derived, isBase Base D = true
  -- `sizeof...(Derived) + 1` is a `SzType`
  fits : Derived.length + 1 < 2 ^ t.szBits

section
variable {A C V : Type} {t : Target} [DecidableEq C] (L : PolyTypes t C)

namespace PolyTypes

/-- The classes `matchesAny` knows. -/
abbrev classes : List C := L.Base :: L.Derived

/-- `NodeValuesType`. -/
def nodes : List (PolyNode t C) :=
  List.zipWith PolyNode.mk L.classes (mkSzSeq t (L.Derived.length + 1))

def emptyState : t.SzType := ~~~0#_

/-- `idValue<T>`, where it is well-formed: the call of the overload set with a `T*`. -/
def idValue? (T : C) : Option t.SzType := do
  let i ← L.resolve (L.nodes.map PolyNode.T) T
  pure (← L.nodes[i]?).I

/-- The node whose third overload takes a `TypeC<D>`. -/
def nodeOf (D : C) : Option (PolyNode t C) := L.nodes.find? fun node => node.T = D

/-- The types `idValue` is well-formed for. -/
abbrev Named : Type := { T : C // (L.idValue? T).isSome = true }

/-- The types `matchesAny` is true of. -/
abbrev Listed : Type := { T : C // T ∈ L.classes }

/-- `Base`, as a class of the list. -/
def base : L.Listed := ⟨L.Base, List.mem_cons_self⟩

/-- `idValue<T>`. -/
def idValue (T : L.Named) : t.SzType := (L.idValue? T.1).get T.2

/-! ### The numbers are places in the list -/

variable {L}

omit [DecidableEq C] in
theorem getElem?_nodes {i : Nat} {T : C} (hi : L.classes[i]? = some T) :
    L.nodes[i]? = some ⟨T, BitVec.ofNat _ i⟩ := by
  obtain ⟨hlt, -⟩ : ∃ h : i < L.Derived.length + 1, _ := List.getElem?_eq_some_iff.mp hi
  have hseq : (mkSzSeq t (L.Derived.length + 1))[i]? = some (BitVec.ofNat _ i) := by
    rw [mkSzSeq, List.getElem?_map, List.getElem?_range hlt, Option.map_some]
  rw [nodes, List.getElem?_zipWith, hi, hseq]

omit [DecidableEq C] in
theorem map_nodes : L.nodes.map PolyNode.T = L.classes := by
  refine List.ext_getElem? fun i => ?_
  rw [List.getElem?_map]
  cases hi : L.classes[i]? with
  | some T => rw [getElem?_nodes hi, Option.map_some]
  | none => rw [nodes, List.getElem?_zipWith, hi]; rfl

/-- The place of a class in the list. -/
theorem getElem?_place {T : C} (hT : T ∈ L.classes) :
    L.classes[L.classes.idxOf T]? = some T := List.getElem?_idxOf hT

theorem idValue?_listed {T : C} (hT : T ∈ L.classes) :
    L.idValue? T = some (BitVec.ofNat _ (L.classes.idxOf T)) := by
  have hplace := getElem?_place hT
  simp only [idValue?, map_nodes, Overload.Hierarchy.resolve_listed L.distinct hplace,
    getElem?_nodes hplace, Option.bind_eq_bind, Option.bind_some, Option.pure_def]

/-- `idValue` is well-formed for every class of the list. -/
def Listed.named (T : L.Listed) : L.Named :=
  ⟨T.1, by rw [idValue?_listed T.2]; rfl⟩

theorem idValue_eq (T : L.Listed) :
    L.idValue T.named = BitVec.ofNat _ (L.classes.idxOf T.1) :=
  Option.get_of_eq_some _ (idValue?_listed T.2)

theorem toNat_idValue (T : L.Listed) : (L.idValue T.named).toNat = L.classes.idxOf T.1 := by
  have hlt : L.classes.idxOf T.1 < L.Derived.length + 1 := List.idxOf_lt_length_of_mem T.2
  rw [idValue_eq, BitVec.toNat_ofNat, Nat.mod_eq_of_lt (hlt.trans L.fits)]

/-- Different classes have different numbers. -/
theorem idValue_inj {T U : L.Listed} : L.idValue T.named = L.idValue U.named ↔ T.1 = U.1 := by
  rw [← BitVec.toNat_inj, toNat_idValue, toNat_idValue, List.idxOf_inj T.2]

/-- No class has the number of the empty state. -/
theorem idValue_ne_emptyState (T : L.Listed) : L.idValue T.named ≠ emptyState := by
  have hlt : L.classes.idxOf T.1 < L.Derived.length + 1 := List.idxOf_lt_length_of_mem T.2
  intro h
  have htoNat := congrArg BitVec.toNat h
  rw [toNat_idValue, emptyState, BitVec.toNat_not, BitVec.toNat_zero] at htoNat
  have := L.fits
  omega

/-- Zero is `Base`. -/
theorem idValue_eq_zero (T : L.Listed) : L.idValue T.named = 0#_ ↔ T.1 = L.Base := by
  rw [← BitVec.toNat_inj, toNat_idValue, BitVec.toNat_zero]
  have hbase : L.classes.idxOf L.Base = 0 := List.idxOf_cons_self
  rw [← hbase, List.idxOf_inj T.2]

/-- The third overload that takes a `TypeC<T>` is that of the node with the number of `T`. -/
theorem nodeOf_listed (T : L.Listed) : L.nodeOf T.1 = some ⟨T.1, L.idValue T.named⟩ := by
  have hplace := getElem?_nodes (getElem?_place T.2)
  have hfound : (L.nodes.find? fun node => node.T = T.1).isSome = true :=
    List.find?_isSome.mpr ⟨_, List.mem_of_getElem? hplace, decide_eq_true rfl⟩
  obtain ⟨node, hnode⟩ := Option.isSome_iff_exists.mp hfound
  have hdec := List.find?_some hnode
  have hT : node.T = T.1 := of_decide_eq_true hdec
  obtain ⟨j, hj⟩ := List.mem_iff_getElem?.mp (List.mem_of_find?_eq_some hnode)
  have hclass : L.classes[j]? = some node.T := by
    rw [← map_nodes, List.getElem?_map, hj, Option.map_some]
  rw [hT] at hclass
  obtain ⟨hlt, -⟩ := List.getElem?_eq_some_iff.mp hclass
  obtain rfl : j = L.classes.idxOf T.1 :=
    (List.getElem?_inj hlt L.distinct).mp (hclass.trans (getElem?_place T.2).symm)
  rw [nodeOf, hnode, idValue_eq, ← hj, hplace]

end PolyTypes

/-! ## The class -/

structure Poly (t : Target) (V : Type) where
  data_ : Option V
  id_ : t.SzType
  deriving DecidableEq

instance : Holder (Poly t V) V where
  cell := Poly.data_
  setCell s c := { s with data_ := c }
  cell_setCell _ _ := rfl
  setCell_setCell _ _ _ := rfl

abbrev PolyWorld (A : Type) (t : Target) (V C : Type) : Type := World A (Poly t V) C

namespace Poly

def holdsAny (s : Poly t V) : Bool := !(s.id_ == PolyTypes.emptyState)

variable {L} in
def holdsType (T : L.Named) (s : Poly t V) : Bool := s.id_ == L.idValue T

variable {L} in
/-- `downcast<T>()&` of the poly at `a`: the null pointer, or that of the storage. -/
def downcast (T : L.Listed) (a : A) (s : Poly t V) : Option A :=
  if !s.holdsType T.named then none else some a

variable [DecidableEq A] (P : Payload V C)

/-- `id_ = n`. -/
def setId (a : A) (n : t.SzType) : Prog (PolyWorld A t V C) Unit :=
  perform [] a fun s => { s with id_ := n }

/-- `~T()` called through a `T*` to the storage.  If it is virtual it is the destructor
of the object that is there, which is a `T` or derived from `T`. -/
def destruct (T : C) (a : A) : Prog (PolyWorld A t V C) Unit := do
  match (← load a).data_ with
  | some v =>
      if L.virtualDtor T then
        if P.kind v = T ∨ L.isBase T (P.kind v) then destroy a (P.kind v) else throw .undefined
      else
        destroy a T
  | none => throw .undefined

/-- The third overload of a node. -/
def nodeCall (node : PolyNode t C) (n : t.SzType) (a : A) : Prog (PolyWorld A t V C) Bool := do
  if n == node.I then
    destruct L P node.T a
    pure true
  else
    pure false

/-- `NodeValues(TypeC<D>{}, n, data)`; with no node for `D` it does not compile. -/
def nodeValues (D : C) (n : t.SzType) (a : A) : Prog (PolyWorld A t V C) Bool :=
  match L.nodeOf D with
  | some node => nodeCall L P node n a
  | none => throw .undefined

/-- An element of the array `dd`. -/
def ddElement (n : t.SzType) (a : A) (D : C) : Prog (PolyWorld A t V C) Bool :=
  if n == L.idValue L.base.named then nodeValues L P D n a else pure false

variable (cxx17 : Bool)

def clear_ (a : A) : Prog (PolyWorld A t V C) Unit := do
  let s ← load a
  if !s.holdsAny then
    pure ()
  else if s.id_ == 0#_ then
    destruct L P L.Base a
  else if cxx17 then
    let _ ← Prog.foldOr (L.Derived.map fun D => nodeValues L P D s.id_ a)
  else
    let _ ← L.Derived.mapM (ddElement L P s.id_ a)

def clear (a : A) : Prog (PolyWorld A t V C) Unit :=
  Prog.noexcept do
    clear_ L P cxx17 a
    setId a PolyTypes.emptyState

/-- `Poly()`. -/
def ctor (a : A) : Prog (PolyWorld A t V C) Unit := acquire a ⟨none, PolyTypes.emptyState⟩

variable {L} in
/-- `Poly(const T& value)` and `Poly(T&& value)`. -/
def ofValue (a : A) (T : L.Listed) (value : Source A V) : Prog (PolyWorld A t V C) Unit := do
  acquire a ⟨none, L.idValue T.named⟩
  (constructFrom P a T.1 value).unwinding (release a)

variable {L} in
/-- `new (data_.data) T(value)`.  What is in the storage is no object from there on, whether
it was destroyed or not. -/
def new_ (a : A) (T : L.Listed) (value : Source A V) : Prog (PolyWorld A t V C) Unit := do
  perform [] a fun s => { s with data_ := none }
  constructFrom P a T.1 value

variable {L} in
/-- `operator=(const T& value)` and `operator=(T&& value)`.  If what the argument is belongs to
the object in the poly (`owned`), it has ended when the destructor of that object has run. -/
def assign (a : A) (T : L.Listed) (value : Source A V) (owned : Bool) :
    Prog (PolyWorld A t V C) Unit := do
  let held := (← load a).data_.isSome
  clear L P cxx17 a
  let destroyed := held && (← load a).data_.isNone
  setId a (L.idValue T.named)
  if owned && destroyed then throw .undefined
  new_ P a T value

/-- `~Poly()`. -/
def dtor (a : A) : Prog (PolyWorld A t V C) Unit := do
  clear L P cxx17 a
  release a

end Poly

/-! ## Runs

In a run a value comes from outside the poly it is given to: from outside all polys, or from
the object in another one. -/

inductive PolyOp (A V : Type) (L : PolyTypes t C) where
  | default (a : A)
  | ofCopy (a : A) (T : L.Listed) (value : Source A V)
  | ofMove (a : A) (T : L.Listed) (value : Source A V)
  | assignCopy (a : A) (T : L.Listed) (value : Source A V)
  | assignMove (a : A) (T : L.Listed) (value : Source A V)
  | clear (a : A)
  | destroy (a : A)

namespace PolyOp
variable {L} [DecidableEq A] (P : Payload V C)

def run (cxx17 : Bool) : PolyOp A V L → Prog (PolyWorld A t V C) Unit
  | default a => Poly.ctor a
  | ofCopy a T value | ofMove a T value => Poly.ofValue P a T value
  | assignCopy a T value | assignMove a T value => Poly.assign P cxx17 a T value false
  | clear a => Poly.clear L P cxx17 a
  | destroy a => Poly.dtor L P cxx17 a

/-- Polys are constructed where there is none and used where there is one, and a value
is there to be read. -/
def Legal (w : PolyWorld A t V C) : PolyOp A V L → Prop
  | default a => w.mem a = none
  | ofCopy a T value | ofMove a T value => w.mem a = none ∧ value.Readable P w T.1
  | assignCopy a T value | assignMove a T value =>
      w.mem a ≠ none ∧ value.Readable P w T.1 ∧ value.Apart a
  | clear a | destroy a => w.mem a ≠ none

/-- What the polys hold after a call, as its user sees it: the value last given. -/
def after (h : A → Option V) : PolyOp A V L → A → Option V
  | default a | clear a | destroy a => Function.update h a none
  | ofCopy a _ value | ofMove a _ value | assignCopy a _ value | assignMove a _ value =>
      Function.update (value.left P h) a (value.taken h)

def lastGiven (ops : List (PolyOp A V L)) : A → Option V := ops.foldl (after P) fun _ => none

end PolyOp

/-- One call, in the C++17 build. -/
def polyStep [DecidableEq A] (P : Payload V C) (w : PolyWorld A t V C) (op : PolyOp A V L)
    (w' : PolyWorld A t V C) : Prop := op.Legal P w ∧ op.run P true w = .ok () w'

/-- What a run should keep, if the polys are to hold `h`. -/
structure PolySound [DecidableEq A] (P : Payload V C) (h : A → Option V)
    (w : PolyWorld A t V C) : Prop where
  tracks : ∃ φ, monitor start w.log = some φ ∧
    ∀ a k, φ a = .live k ↔ ∃ v, h a = some v ∧ P.kind v = k
  once : ∀ a, h a = none → DestroyedOnce a w.log
  holdsAny : ∀ a s, w.mem a = some s → (s.holdsAny = true ↔ ∃ v, h a = some v)
  downcast : ∀ a s (T : L.Listed), w.mem a = some s →
    (s.downcast T a ≠ none ↔ ∃ v, h a = some v ∧ P.kind v = T.1)
  yields : ∀ a s (T : L.Listed) p, w.mem a = some s → s.downcast T a = some p →
    ∃ v, h a = some v ∧ deref P p T.1 w = .ok v w

end
end EflCore
