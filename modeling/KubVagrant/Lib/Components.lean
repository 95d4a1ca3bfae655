import Mathlib.Data.List.Basic
import Mathlib.Logic.Function.Basic

/-!
# Systems of independent components

A system has a component for every key, each with its own state, and a trace of events that
are labelled with the component they happen in.  An event changes the state of its component
only, and makes it put out messages.

`state_run` and `output_run` are the projection theorems: in any interleaving a component
goes through the states, and puts out the messages, that it would alone, on its own events.
What one component does cannot be seen from another, whatever the order.

## Main definitions

* `Component` — how one component reacts.
* `Component.run` — a component alone.
* `events` — the events of one component in a trace.
* `System.run` — the system on a trace.
-/

namespace Unix

universe u v w x
variable {κ : Type u} {ε : Type v} {σ : Type w} {μ : Type x}

/-- How a component reacts to an event: its next state, and the messages it puts out. -/
structure Component (σ : Type w) (ε : Type v) (μ : Type x) where
  next : σ → ε → σ
  emit : σ → ε → List μ

namespace Component

/-- A component alone: the state after some events. -/
def run (c : Component σ ε μ) (s : σ) (es : List ε) : σ := es.foldl c.next s

/-- A component alone: the messages it puts out on some events. -/
def output (c : Component σ ε μ) : σ → List ε → List μ
  | _, [] => []
  | s, e :: es => c.emit s e ++ c.output (c.next s e) es

@[simp] theorem run_nil (c : Component σ ε μ) (s : σ) : c.run s [] = s := rfl
@[simp] theorem run_cons (c : Component σ ε μ) (s : σ) (e : ε) (es : List ε) :
    c.run s (e :: es) = c.run (c.next s e) es := rfl
@[simp] theorem output_nil (c : Component σ ε μ) (s : σ) : c.output s [] = [] := rfl
@[simp] theorem output_cons (c : Component σ ε μ) (s : σ) (e : ε) (es : List ε) :
    c.output s (e :: es) = c.emit s e ++ c.output (c.next s e) es := rfl

theorem run_append (c : Component σ ε μ) (s : σ) (es es' : List ε) :
    c.run s (es ++ es') = c.run (c.run s es) es' := List.foldl_append

end Component

/-! ## Traces of labelled events -/

section Events
variable [DecidableEq κ]

/-- The events that carry a label, in order. -/
def events (k : κ) (tr : List (κ × ε)) : List ε := (tr.filter fun e => e.1 = k).map Prod.snd

@[simp] theorem events_nil (k : κ) : events k ([] : List (κ × ε)) = [] := rfl
@[simp] theorem events_cons_self (k : κ) (e : ε) (tr : List (κ × ε)) :
    events k ((k, e) :: tr) = e :: events k tr := by simp [events]
theorem events_cons_of_ne {k k' : κ} (h : k' ≠ k) (e : ε) (tr : List (κ × ε)) :
    events k ((k', e) :: tr) = events k tr := by simp [events, h]
@[simp] theorem events_append (k : κ) (tr tr' : List (κ × ε)) :
    events k (tr ++ tr') = events k tr ++ events k tr' := by simp [events]

theorem events_map_self (k : κ) (es : List ε) :
    events k (es.map fun e => (k, e)) = es := by
  induction es with
  | nil => rfl
  | cons e es ih => rw [List.map_cons, events_cons_self, ih]

theorem events_map_of_ne {k k' : κ} (h : k' ≠ k) (es : List ε) :
    events k (es.map fun e => (k', e)) = [] := by
  induction es with
  | nil => rfl
  | cons e es ih => rw [List.map_cons, events_cons_of_ne h, ih]

theorem events_flatMap {α : Type*} (k : κ) (l : List α) (f : α → List (κ × ε)) :
    events k (l.flatMap f) = l.flatMap fun a => events k (f a) := by
  induction l with
  | nil => rfl
  | cons a l ih => rw [List.flatMap_cons, events_append, ih, List.flatMap_cons]

/-- A loop in which only one round does something. -/
theorem flatMap_eq_of_nodup {α β : Type*} [DecidableEq α] {l : List α} (hl : l.Nodup)
    {x : α} {f : α → List β} (h : ∀ y ∈ l, y ≠ x → f y = []) :
    l.flatMap f = if x ∈ l then f x else [] := by
  induction l with
  | nil => simp
  | cons y l ih =>
    rw [List.nodup_cons] at hl
    have hrest := ih hl.2 fun z hz => h z (by simp [hz])
    rw [List.flatMap_cons, hrest]
    by_cases hy : y = x
    · subst hy
      simp [hl.1]
    · have hnil : f y = [] := h y (by simp) hy
      simp [hnil, Ne.symm hy]

end Events

/-! ## The system -/

namespace System
variable [DecidableEq κ] {c : κ → Component σ ε μ}

/-- One event. -/
def step (c : κ → Component σ ε μ) (s : κ → σ) (e : κ × ε) : κ → σ :=
  Function.update s e.1 ((c e.1).next (s e.1) e.2)

/-- The states after a trace. -/
def run (c : κ → Component σ ε μ) (s : κ → σ) (tr : List (κ × ε)) : κ → σ := tr.foldl (step c) s

/-- The messages of a trace, each with the component that put it out. -/
def output (c : κ → Component σ ε μ) : (κ → σ) → List (κ × ε) → List (κ × μ)
  | _, [] => []
  | s, e :: tr => ((c e.1).emit (s e.1) e.2).map (fun m => (e.1, m)) ++ output c (step c s e) tr

@[simp] theorem run_nil (s : κ → σ) : run c s [] = s := rfl
theorem run_append (s : κ → σ) (tr tr' : List (κ × ε)) :
    run c s (tr ++ tr') = run c (run c s tr) tr' := List.foldl_append

/-- **Projection of states**: a component goes through its own events only. -/
theorem state_run (s : κ → σ) (tr : List (κ × ε)) (k : κ) :
    run c s tr k = (c k).run (s k) (events k tr) := by
  induction tr generalizing s with
  | nil => rfl
  | cons e tr ih =>
    rcases e with ⟨k', e⟩
    have hrest : run c s ((k', e) :: tr) k =
        (c k).run (step c s (k', e) k) (events k tr) := ih (step c s (k', e))
    rw [hrest]
    by_cases hk : k' = k
    · subst hk
      simp [step]
    · rw [events_cons_of_ne hk, step, Function.update_of_ne (Ne.symm hk)]

/-- **Projection of messages**: what a component puts out does not depend on the others. -/
theorem output_run (s : κ → σ) (tr : List (κ × ε)) (k : κ) :
    events k (output c s tr) = (c k).output (s k) (events k tr) := by
  induction tr generalizing s with
  | nil => rfl
  | cons e tr ih =>
    rcases e with ⟨k', e⟩
    rw [output, events_append, ih]
    by_cases hk : k' = k
    · subst hk
      rw [events_map_self, events_cons_self]
      simp [step]
    · rw [events_map_of_ne hk, events_cons_of_ne hk, step, Function.update_of_ne (Ne.symm hk)]
      rfl

end System

end Unix
