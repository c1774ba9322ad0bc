import Mathlib

/-!
# Runs of labelled transition systems

States reachable by finitely many labelled steps, the induction rule that
turns a step lemma into a run lemma, the projection of an instrumented
system onto the system it observes and the replay of a given list of labels.
States and labels are arbitrary.
-/

namespace BlockIpc.TransitionRuns

variable {σ τ ι κ : Type*}

/-- States reached by a finite run from an initial state. -/
inductive Reachable (init : σ → Prop) (step : σ → ι → σ → Prop) : σ → Prop
  /-- The empty run. -/
  | start {s : σ} (h : init s) : Reachable init step s
  /-- A run followed by one more labelled step. -/
  | next {s t : σ} {a : ι} (hr : Reachable init step s) (h : step s a t) : Reachable init step t

variable {init : σ → Prop} {step : σ → ι → σ → Prop}

/-- A property that holds initially and that every step from a reachable
state preserves holds in every reachable state. -/
theorem Reachable.invariant {I : σ → Prop} (h0 : ∀ s, init s → I s)
    (hs : ∀ s a t, Reachable init step s → I s → step s a t → I t) {s : σ} (hr : Reachable init step s) : I s := by
  induction hr with
  | start h => exact h0 _ h
  | next hr h ih => exact hs _ _ _ hr ih h

/-- A run of an instrumented system is a run of the observed system. -/
theorem Reachable.project {init' : τ → Prop} {step' : τ → κ → τ → Prop} (f : σ → τ) (h0 : ∀ s, init s → init' (f s))
    (hs : ∀ s a t, step s a t → ∃ b, step' (f s) b (f t))
    {s : σ} (hr : Reachable init step s) : Reachable init' step' (f s) := by
  induction hr with
  | start h => exact Reachable.start (h0 _ h)
  | next _ h ih =>
    obtain ⟨b,hb⟩ := hs _ _ _ h
    exact Reachable.next ih hb

/-- A guarded step is taken under its guard, to its target. -/
theorem of_guard {c : Prop} [Decidable c] {s t : σ} (h : (if c then some s else none)=some t) : c ∧ s=t :=
  (Option.ite_none_right_eq_some.mp h).imp_right Option.some.inj

/-- Execute a list of labels by a partial step function. -/
def replay (f : σ → ι → Option σ) : σ → List ι → Option σ
  | s,[] => some s
  | s,a::as => (f s a).bind (fun t => replay f t as)

/-- An executed list of labels is a run. -/
theorem Reachable.replay {f : σ → ι → Option σ} (hf : ∀ s a t, f s a=some t → step s a t) {s t : σ}
    {as : List ι} (hr : Reachable init step s) (h : replay f s as=some t) : Reachable init step t := by
  induction as generalizing s with
  | nil => exact Option.some.inj h ▸ hr
  | cons a as ih =>
    obtain ⟨u,hu,ht⟩ := Option.bind_eq_some_iff.mp h
    exact ih (Reachable.next hr (hf s a u hu)) ht

/-- A list of labels that ends in a state with a decidable property shows that such a state is reached. -/
theorem exists_run {f : σ → ι → Option σ} {P : σ → Prop} [DecidablePred P] (hf : ∀ s a t, f s a=some t → step s a t)
    {s : σ} (h0 : init s) (as : List ι) (h : (replay f s as).any (fun t => decide (P t))=true) :
    ∃ t, Reachable init step t ∧ P t := by
  obtain ⟨t,ht,hp⟩ := (Option.any_eq_true _ _).mp h
  exact ⟨t,Reachable.replay hf (Reachable.start h0) ht,of_decide_eq_true hp⟩

end BlockIpc.TransitionRuns
