/-
# `EflCore.Lifetime.Monitor` — pieces of storage, and the objects that live in them

A program acts on a piece of storage in four ways: it acquires it, constructs an
object in it, destroys that object, and gives the storage back.  This module
says in which order the four may come, once, for every program.

    phase      event           next phase
    absent     acquire l       raw
    raw        construct l k   live k
    live k     destroy l k     raw
    raw        release l       absent

Everything else is a lifetime error, and the monitor stops at it: constructing
over a live object, destroying where nothing lives or by the destructor of
another kind, giving storage back with an object still in it.  A log is
therefore good exactly when the monitor reaches its end, and what it reaches
says which objects are alive.

**Proved here.**

    accepted log                 ⟹  at each location the object events are
                                     construct k₁, destroy k₁, construct k₂, …   (`monitor_lives`)
    accepted log, l not live at the end
                                 ⟹  every object built at l was destroyed once   (`DestroyedOnce.of_monitor`)
    a rejected log stays rejected, however it goes on                            (`monitor_append_none`)

Nothing here knows which program writes the log.
-/
import Mathlib.Data.List.Basic
import Mathlib.Data.List.Induction
import Mathlib.Logic.Function.Basic

namespace Lifetime

/-- What a program does to the storage at `l`; `k` is the kind of object. -/
inductive Event (L K : Type) where
  | acquire (l : L)
  | construct (l : L) (k : K)
  | destroy (l : L) (k : K)
  | release (l : L)
  deriving DecidableEq, Repr

/-- The state of one piece of storage. -/
inductive Phase (K : Type) where
  | absent
  | raw
  | live (k : K)
  deriving DecidableEq, Repr

section
variable {L K : Type} [DecidableEq L] [DecidableEq K]

/-- The storage an event is about. -/
def Event.loc : Event L K → L
  | .acquire l | .construct l _ | .destroy l _ | .release l => l

/-- One event, seen by the storage it is about; `none` is a lifetime error. -/
def Phase.next : Phase K → Event L K → Option (Phase K)
  | .absent, .acquire _ => some .raw
  | .raw, .construct _ k => some (.live k)
  | .live k, .destroy _ k' => if k' = k then some .raw else none
  | .raw, .release _ => some .absent
  | _, _ => none

/-- One event, seen by all storage. -/
def observe (φ : L → Phase K) (e : Event L K) : Option (L → Phase K) :=
  ((φ e.loc).next e).map (Function.update φ e.loc)

/-- A whole log, read from the phases `φ`. -/
def monitor (φ : L → Phase K) (log : List (Event L K)) : Option (L → Phase K) :=
  log.foldlM observe φ

/-- Before the program starts no storage is acquired. -/
def start : L → Phase K := fun _ => .absent

/-! ## Reading a log piece by piece -/

@[simp] theorem monitor_nil (φ : L → Phase K) : monitor φ [] = some φ := rfl

theorem monitor_cons (φ : L → Phase K) (e : Event L K) (log : List (Event L K)) :
    monitor φ (e :: log) = (observe φ e).bind fun ψ => monitor ψ log := rfl

theorem monitor_append (φ : L → Phase K) (xs ys : List (Event L K)) :
    monitor φ (xs ++ ys) = (monitor φ xs).bind fun ψ => monitor ψ ys :=
  List.foldlM_append

/-- Once the monitor has stopped it does not start again. -/
theorem monitor_append_none {φ : L → Phase K} {xs : List (Event L K)}
    (h : monitor φ xs = none) (ys : List (Event L K)) : monitor φ (xs ++ ys) = none := by
  rw [monitor_append, h, Option.bind_none]

theorem observe_eq_some {φ ψ : L → Phase K} {e : Event L K} :
    observe φ e = some ψ ↔
      ∃ p, (φ e.loc).next e = some p ∧ Function.update φ e.loc p = ψ := by
  simp only [observe, Option.map_eq_some_iff]

/-- Events about one location move that location and nothing else. -/
theorem monitor_local {a : L} :
    ∀ (es : List (Event L K)) (φ : L → Phase K) (p : Phase K),
      (∀ e ∈ es, e.loc = a) → es.foldlM Phase.next (φ a) = some p →
      monitor φ es = some (Function.update φ a p)
  | [], φ, p, _, h => by
      have : φ a = p := Option.some.inj h
      rw [monitor_nil, ← this, Function.update_eq_self]
  | e :: es, φ, p, hloc, h => by
      have ha : e.loc = a := hloc e List.mem_cons_self
      rw [List.foldlM_cons] at h
      obtain ⟨q, hq, hrest⟩ := Option.bind_eq_some_iff.mp h
      have hobs : observe φ e = some (Function.update φ a q) :=
        observe_eq_some.mpr ⟨q, by rw [ha]; exact hq, by rw [ha]⟩
      have htail : monitor (Function.update φ a q) es
          = some (Function.update (Function.update φ a q) a p) :=
        monitor_local es _ p (fun e' he' => hloc e' (List.mem_cons_of_mem _ he'))
          (by rw [Function.update_self]; exact hrest)
      rw [monitor_cons, hobs, Option.bind_some, htail, Function.update_idem]

/-! ## What an accepted log says about one location

The object events at `l`, taken out of the log: whole lives, one after the
other, and at the end the construction of the object that is still alive. -/

/-- Constructions and destructions at `l`, in order. -/
def objectsAt (l : L) (log : List (Event L K)) : List (Event L K) :=
  log.filter fun e => match e with
    | .construct l' _ | .destroy l' _ => l' = l
    | _ => false

/-- One whole life after the other. -/
def lives (l : L) (ks : List K) : List (Event L K) :=
  ks.flatMap fun k => [.construct l k, .destroy l k]

/-- The life that has begun and not ended. -/
def Phase.pending (l : L) : Phase K → List (Event L K)
  | .live k => [.construct l k]
  | _ => []

/-- Every object constructed at `l` was destroyed exactly once, as what it was
constructed as, and before the next one was constructed there. -/
def DestroyedOnce (l : L) (log : List (Event L K)) : Prop :=
  ∃ ks, objectsAt l log = lives l ks

omit [DecidableEq K] in
theorem objectsAt_append (l : L) (xs ys : List (Event L K)) :
    objectsAt l (xs ++ ys) = objectsAt l xs ++ objectsAt l ys :=
  List.filter_append ..

omit [DecidableEq L] [DecidableEq K] in
theorem lives_snoc (l : L) (ks : List K) (k : K) :
    lives l (ks ++ [k]) = lives l ks ++ [.construct l k, .destroy l k] := by
  simp only [lives, List.flatMap_append, List.flatMap_cons, List.flatMap_nil, List.append_nil]

omit [DecidableEq L] in
/-- All that storage lets happen to it. -/
theorem Phase.next_cases {p q : Phase K} {e : Event L K} (h : p.next e = some q) :
    (∃ l, e = .acquire l ∧ p = .absent ∧ q = .raw) ∨
    (∃ l k, e = .construct l k ∧ p = .raw ∧ q = .live k) ∨
    (∃ l k, e = .destroy l k ∧ p = .live k ∧ q = .raw) ∨
    (∃ l, e = .release l ∧ p = .raw ∧ q = .absent) := by
  cases e with
  | acquire l =>
      cases p with
      | absent => exact .inl ⟨l, rfl, rfl, (Option.some.inj h).symm⟩
      | raw | live k => cases h
  | construct l k =>
      cases p with
      | raw => exact .inr (.inl ⟨l, k, rfl, rfl, (Option.some.inj h).symm⟩)
      | absent | live k => cases h
  | destroy l k =>
      cases p with
      | live k₀ =>
          rw [Phase.next] at h
          split at h
          · next hk =>
            subst hk
            exact .inr (.inr (.inl ⟨l, k, rfl, rfl, (Option.some.inj h).symm⟩))
          · cases h
      | absent | raw => cases h
  | release l =>
      cases p with
      | raw => exact .inr (.inr (.inr ⟨l, rfl, rfl, (Option.some.inj h).symm⟩))
      | absent | live k => cases h

omit [DecidableEq K] in
theorem objectsAt_of_ne {e : Event L K} {l : L} (h : e.loc ≠ l) : objectsAt l [e] = [] := by
  cases e with
  | acquire l' | release l' => rfl
  | construct l' k | destroy l' k =>
      have hne : l' ≠ l := h
      simp only [objectsAt, List.filter_cons, decide_eq_false hne, List.filter_nil]
      rfl

/-- One event keeps the shape: it opens a life, closes the open one, or is not
an object event at `l`. -/
theorem lives_observe {φ ψ : L → Phase K} {e : Event L K} (h : observe φ e = some ψ)
    (l : L) (ks : List K) :
    ∃ ks', lives l ks ++ (φ l).pending l ++ objectsAt l [e]
      = lives l ks' ++ (ψ l).pending l := by
  obtain ⟨p, hp, rfl⟩ := observe_eq_some.mp h
  by_cases hl : e.loc = l
  · subst hl
    rw [Function.update_self]
    rcases Phase.next_cases hp with ⟨l, rfl, hφ, rfl⟩ | ⟨l, k, rfl, hφ, rfl⟩ |
      ⟨l, k, rfl, hφ, rfl⟩ | ⟨l, rfl, hφ, rfl⟩
    · exact ⟨ks, by rw [hφ]; simp [Phase.pending, objectsAt]⟩
    · exact ⟨ks, by rw [hφ]; simp [Event.loc, Phase.pending, objectsAt]⟩
    · exact ⟨ks ++ [k], by rw [hφ]; simp [lives_snoc, Event.loc, Phase.pending, objectsAt]⟩
    · exact ⟨ks, by rw [hφ]; simp [Phase.pending, objectsAt]⟩
  · refine ⟨ks, ?_⟩
    rw [objectsAt_of_ne hl, List.append_nil, Function.update_of_ne (Ne.symm hl)]

/-- An accepted log is, at each location, whole lives and then the open one. -/
theorem monitor_lives {log : List (Event L K)} {φ : L → Phase K}
    (h : monitor start log = some φ) (l : L) :
    ∃ ks, objectsAt l log = lives l ks ++ (φ l).pending l := by
  induction log using List.reverseRecOn generalizing φ with
  | nil =>
      obtain rfl : start = φ := Option.some.inj h
      exact ⟨[], rfl⟩
  | append_singleton log e ih =>
      rw [monitor_append] at h
      obtain ⟨ψ, hψ, he⟩ := Option.bind_eq_some_iff.mp h
      have hobs : observe ψ e = some φ := by
        rw [monitor_cons] at he
        obtain ⟨χ, hχ, hnil⟩ := Option.bind_eq_some_iff.mp he
        rw [hχ, ← hnil]; rfl
      obtain ⟨ks, hks⟩ := ih hψ
      obtain ⟨ks', hks'⟩ := lives_observe hobs l ks
      exact ⟨ks', by rw [objectsAt_append, hks, hks']⟩

theorem DestroyedOnce.of_monitor {log : List (Event L K)} {φ : L → Phase K}
    (h : monitor start log = some φ) {l : L} (hl : ∀ k, φ l ≠ .live k) :
    DestroyedOnce l log := by
  obtain ⟨ks, hks⟩ := monitor_lives h l
  refine ⟨ks, ?_⟩
  rw [hks]
  cases hφ : φ l with
  | absent | raw => exact List.append_nil _
  | live k => exact absurd hφ (hl k)

end

end Lifetime
