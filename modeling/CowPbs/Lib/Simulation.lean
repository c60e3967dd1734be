import Mathlib
import CowPbs.Lib.Transition

/-!
# Simulation

Two systems with the same events. A relation `R` between their states is a simulation if
each step of the first system from related states is a step of the second, with the same event,
to related states (`Simulates`). Then each run of the first is a run of the second
(`Run.simulate`), and what holds in every reachable state of the second holds in the related
ones of the first (`Reachable.simulate`). Where the second state is a function of the first,
which has an invariant, one needs a step lemma for both (`simulates_of_map`).

If the second system is coarser, some events of the first are steps that it does not see, and
the others have a name there (`vis`). Then a run of the first is a run of the second with the
events that can be seen (`Run.simulate_vis`).
-/

namespace Transition

variable {σ τ ε : Type*} {init : σ → Prop} {init' : τ → Prop} {step : σ → ε → σ → Prop}
  {step' : τ → ε → τ → Prop} {R : σ → τ → Prop} {I : σ → Prop} {f : σ → τ}

/-- Each step of the first system is one of the second. -/
def Simulates (R : σ → τ → Prop) (step : σ → ε → σ → Prop) (step' : τ → ε → τ → Prop) : Prop :=
  ∀ s u e t, R s u → step s e t → ∃ v, step' u e v ∧ R t v

theorem Run.simulate (h : Simulates R step step') {s t : σ} {u : τ} {es : List ε} (hR : R s u)
    (hr : Run step s es t) : ∃ v, Run step' u es v ∧ R t v := by
  induction hr with
  | nil => exact ⟨u, .nil, hR⟩
  | snoc _ hst ih =>
    obtain ⟨v, hv, hRv⟩ := ih
    obtain ⟨w, hw, hRw⟩ := h _ v _ _ hRv hst
    exact ⟨w, hv.snoc hw, hRw⟩

theorem Reachable.simulate (h : Simulates R step step') (h0 : ∀ s, init s → ∃ u, init' u ∧ R s u)
    {s : σ} (hr : Reachable init step s) : ∃ u, Reachable init' step' u ∧ R s u := by
  induction hr with
  | init hs =>
    obtain ⟨u, hu, hR⟩ := h0 _ hs
    exact ⟨u, .init hu, hR⟩
  | step _ hst ih =>
    obtain ⟨u, hu, hR⟩ := ih
    obtain ⟨v, hv, hRv⟩ := h _ u _ _ hR hst
    exact ⟨v, hu.step hv, hRv⟩

/-- A function of the states that have the invariant. -/
theorem simulates_of_map (h : ∀ s e t, I s → step s e t → I t ∧ step' (f s) e (f t)) :
    Simulates (fun s u => I s ∧ u = f s) step step' := by
  rintro s u e t ⟨hI, rfl⟩ hst
  obtain ⟨hIt, hst'⟩ := h s e t hI hst
  exact ⟨f t, hst', hIt, rfl⟩

/-- Each step of the first system is one of the second, or one that it does not see. -/
def SimulatesVis {ε' : Type*} (vis : ε → Option ε') (R : σ → τ → Prop) (step : σ → ε → σ → Prop)
    (step' : τ → ε' → τ → Prop) : Prop :=
  ∀ s u e t, R s u → step s e t →
    (vis e).elim (R t u) fun e' => ∃ v, step' u e' v ∧ R t v

theorem Run.simulate_vis {ε' : Type*} {vis : ε → Option ε'} {step' : τ → ε' → τ → Prop}
    (h : SimulatesVis vis R step step') {s t : σ} {u : τ} {es : List ε} (hR : R s u)
    (hr : Run step s es t) : ∃ v, Run step' u (es.filterMap vis) v ∧ R t v := by
  induction hr with
  | nil => exact ⟨u, .nil, hR⟩
  | @snoc es t t' e _ hst ih =>
    obtain ⟨v, hv, hRv⟩ := ih
    have hstep := h _ v _ _ hRv hst
    rw [List.filterMap_append]
    cases he : vis e with
    | none =>
      rw [he] at hstep
      refine ⟨v, ?_, hstep⟩
      simpa [he] using hv
    | some e' =>
      rw [he] at hstep
      obtain ⟨w, hw, hRw⟩ := hstep
      refine ⟨w, ?_, hRw⟩
      simpa [he] using hv.snoc hw

end Transition
