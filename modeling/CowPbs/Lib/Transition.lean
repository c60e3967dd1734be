import Mathlib

/-!
# Runs of a labelled transition system

A system is a predicate `init` on its states and a relation `step s e t` : the event
`e` takes `s` to `t`. `Run` keeps the list of events, `Reachable` forgets it. A
condition `C s e` on the state before a step restricts the system (`Guarded`), and a run
of the restricted system is a run all of whose steps meet the condition.

The rules are the usual ones : a predicate that holds at the start and is kept by every
step holds at every reachable state (`Reachable.invariant`), also when the step lemma
uses an invariant proved before (`Reachable.invariant_of`), and a predicate on the
trace and the state follows the run event by event (`Run.invariant`). A condition that needs
the history of a run is one on each of its events and those before it (`Along`). If the steps
are those of a function, a list of events is run by `exec`.
-/

namespace Transition

variable {σ ε : Type*}

/-- The states reached from `init` by `step`. -/
inductive Reachable (init : σ → Prop) (step : σ → ε → σ → Prop) : σ → Prop
  | init {s : σ} (h : init s) : Reachable init step s
  | step {s t : σ} {e : ε} (h : Reachable init step s) (hs : step s e t) : Reachable init step t

/-- The events `es` lead from `s` to the last state. -/
inductive Run (step : σ → ε → σ → Prop) (s : σ) : List ε → σ → Prop
  | nil : Run step s [] s
  | snoc {es : List ε} {t u : σ} {e : ε} (h : Run step s es t) (hs : step t e u) :
    Run step s (es ++ [e]) u

/-- The steps of `step` that meet the condition `C` on the state before them. -/
def Guarded (step : σ → ε → σ → Prop) (C : σ → ε → Prop) (s : σ) (e : ε) (t : σ) : Prop :=
  step s e t ∧ C s e

/-- Each event of the list meets the condition, with the events before it. -/
def Along (P : List ε → ε → Prop) (es : List ε) : Prop :=
  ∀ pre e post, es = pre ++ e :: post → P pre e

variable {init : σ → Prop} {step : σ → ε → σ → Prop}

section Along

variable {P : List ε → ε → Prop}

/-- An event of a list with one more event is the last or one before it. -/
theorem snoc_eq_append {es pre post : List ε} {e x : ε} (h : es ++ [e] = pre ++ x :: post) :
    (post = [] ∧ es = pre ∧ e = x) ∨ ∃ post', post = post' ++ [e] ∧ es = pre ++ x :: post' := by
  rcases List.eq_nil_or_concat post with rfl | ⟨post', y, rfl⟩
  · obtain ⟨rfl, heq⟩ := List.append_inj' h rfl
    exact .inl ⟨rfl, rfl, (List.cons.inj heq).1⟩
  · have h' : es ++ [e] = (pre ++ x :: post') ++ [y] := by simpa using h
    obtain ⟨rfl, heq⟩ := List.append_inj' h' rfl
    obtain ⟨rfl, -⟩ := List.cons.inj heq
    exact .inr ⟨post', by simp, rfl⟩

theorem along_nil : Along P [] := by
  intro pre e post h
  simp at h

theorem along_append {es : List ε} {e : ε} : Along P (es ++ [e]) ↔ Along P es ∧ P es e := by
  constructor
  · intro h
    refine ⟨fun pre x post hes => h pre x (post ++ [e]) (by simp [hes]), h es e [] rfl⟩
  · rintro ⟨hall, hlast⟩ pre x post hes
    rcases snoc_eq_append hes with ⟨-, rfl, rfl⟩ | ⟨post', -, hpre⟩
    · exact hlast
    · exact hall pre x post' hpre

instance [∀ pre e, Decidable (P pre e)] (es : List ε) : Decidable (Along P es) :=
  decidable_of_iff (∀ i : Fin es.length, P (es.take i) (es.get i)) <| by
    constructor
    · intro h pre e post hes
      have hi : pre.length < es.length := by simp [hes]
      have := h ⟨pre.length, hi⟩
      simpa [hes] using this
    · intro h i
      refine h _ _ (es.drop (i + 1)) ?_
      rw [List.get_eq_getElem, ← List.drop_eq_getElem_cons, List.take_append_drop]

end Along

namespace Reachable

/-- What holds initially and is kept by every step holds of every reachable state. -/
theorem invariant {I : σ → Prop} (h0 : ∀ s, init s → I s)
    (hs : ∀ s e t, I s → step s e t → I t) {s : σ} (h : Reachable init step s) : I s := by
  induction h with
  | init h => exact h0 _ h
  | step _ hst ih => exact hs _ _ _ ih hst

/-- An invariant whose step lemma uses that the state before the step is reachable. -/
theorem invariant_of {I : σ → Prop} (h0 : ∀ s, init s → I s)
    (hs : ∀ s e t, Reachable init step s → I s → step s e t → I t) {s : σ}
    (h : Reachable init step s) : I s := by
  induction h with
  | init h => exact h0 _ h
  | step hr hst ih => exact hs _ _ _ hr ih hst

/-- Fewer steps reach fewer states. -/
theorem mono {step' : σ → ε → σ → Prop} (hs : ∀ s e t, step s e t → step' s e t) {s : σ}
    (h : Reachable init step s) : Reachable init step' s := by
  induction h with
  | init h => exact .init h
  | step _ hst ih => exact .step ih (hs _ _ _ hst)

theorem of_guarded {C : σ → ε → Prop} {s : σ} (h : Reachable init (Guarded step C) s) :
    Reachable init step s :=
  h.mono fun _ _ _ h => h.1

end Reachable

namespace Run

/-- Induction along a run, with the trace so far. -/
theorem invariant {s : σ} {I : List ε → σ → Prop} (h0 : I [] s)
    (hs : ∀ es t e u, Run step s es t → I es t → step t e u → I (es ++ [e]) u)
    {es : List ε} {t : σ} (h : Run step s es t) : I es t := by
  induction h with
  | nil => exact h0
  | snoc hr hst ih => exact hs _ _ _ _ hr ih hst

/-- A run with a step before it. -/
theorem cons {s t u : σ} {e : ε} {es : List ε} (hs : step s e t) (h : Run step t es u) :
    Run step s (e :: es) u := by
  induction h with
  | nil => exact .snoc .nil hs
  | snoc _ hst ih => exact .snoc ih hst

/-- One run after another. -/
theorem append {s t u : σ} {es es' : List ε} (h : Run step s es t) (h' : Run step t es' u) :
    Run step s (es ++ es') u := by
  induction h' with
  | nil => simpa using h
  | snoc _ hst ih =>
    rw [← List.append_assoc]
    exact .snoc ih hst

/-- A run is empty or has a first step. -/
theorem cons_cases {s u : σ} {es : List ε} (h : Run step s es u) :
    (es = [] ∧ u = s) ∨ ∃ e t es', es = e :: es' ∧ step s e t ∧ Run step t es' u := by
  induction h with
  | nil => exact .inl ⟨rfl, rfl⟩
  | @snoc es t u e _ hst ih =>
    rcases ih with ⟨rfl, rfl⟩ | ⟨e', t', es', rfl, hs', hr⟩
    · exact .inr ⟨e, u, [], rfl, hst, .nil⟩
    · exact .inr ⟨e', t', es' ++ [e], rfl, hs', hr.snoc hst⟩

theorem of_guarded {C : σ → ε → Prop} {s t : σ} {es : List ε}
    (h : Run (Guarded step C) s es t) : Run step s es t := by
  induction h with
  | nil => exact .nil
  | snoc _ hst ih => exact .snoc ih hst.1

theorem reachable {s : σ} (h0 : init s) {es : List ε} {t : σ} (h : Run step s es t) :
    Reachable init step t := by
  induction h with
  | nil => exact .init h0
  | snoc _ hst ih => exact .step ih hst

end Run

/-- The moves of a function, made in this order. -/
def exec (move : σ → ε → Option σ) (s : σ) : List ε → Option σ
  | [] => some s
  | e :: es => (move s e).bind fun t => exec move t es

theorem run_of_exec {move : σ → ε → Option σ} {s t : σ} {es : List ε}
    (h : exec move s es = some t) : Run (fun s e t => move s e = some t) s es t := by
  induction es generalizing s with
  | nil =>
    obtain rfl := Option.some.inj h
    exact .nil
  | cons e es ih =>
    obtain ⟨u, hu, ht⟩ := Option.bind_eq_some_iff.1 h
    exact (ih ht).cons hu

end Transition
