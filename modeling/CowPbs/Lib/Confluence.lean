import Mathlib
import CowPbs.Lib.Transition

/-!
# Runs that do not depend on the scheduling

Threads that take turns in any order, each with at most one move in a state. A condition
`calm` on the moves says when a move does not race with another thread. If a calm move
commutes with the moves of the other threads (`Confluent`), then one run of calm moves that
comes to its end decides every other run : each of its moves is calm as well, and it ends
in the same state (`Confluent.end_unique`). So the condition has to be checked along one
run only.
-/

open Transition

namespace Confluence

variable {σ ε τ : Type*}

/-- A thread has one move in a state, and a calm move commutes with those of the other
threads; whether these are calm can be seen after it. -/
structure Confluent (step : σ → ε → σ → Prop) (calm : σ → ε → Prop) (thread : ε → τ)
    (Inv : σ → Prop) : Prop where
  inv : ∀ s e t, Inv s → step s e t → Inv t
  det : ∀ s e f t u, step s e t → step s f u → thread e = thread f → e = f ∧ t = u
  comm : ∀ s e f t u, Inv s → step s f t → calm s f → step s e u → thread e ≠ thread f →
    ∃ e' v, step t e' v ∧ (calm t e' → calm s e ∧ ∃ f', step u f' v ∧ calm u f')

namespace Confluent

variable {step : σ → ε → σ → Prop} {calm : σ → ε → Prop} {thread : ε → τ} {Inv : σ → Prop}

/-- A first move can be brought forward in a calm run that comes to its end. -/
theorem bring_forward (h : Confluent step calm thread Inv) {es : List ε} {s u t : σ} {e : ε}
    (hI : Inv s) (hr : Run (Guarded step calm) s es u) (hu : ∀ e t, ¬step u e t)
    (hs : step s e t) : calm s e ∧ ∃ es', Run (Guarded step calm) t es' u := by
  induction es generalizing s e t with
  | nil =>
    rcases hr.cons_cases with ⟨-, rfl⟩ | ⟨f, s', es', hes, -⟩
    · exact (hu _ _ hs).elim
    · cases hes
  | cons f es ih =>
    rcases hr.cons_cases with ⟨hes, -⟩ | ⟨f, s', es', hes, ⟨hf, hc⟩, hr'⟩
    · cases hes
    · cases hes
      by_cases hth : thread e = thread f
      · obtain ⟨rfl, rfl⟩ := h.det _ _ _ _ _ hs hf hth
        exact ⟨hc, _, hr'⟩
      · obtain ⟨e', v, he', hback⟩ := h.comm _ _ _ _ _ hI hf hc hs hth
        obtain ⟨hce', es'', hv⟩ := ih (h.inv _ _ _ hI hf) hr' he'
        obtain ⟨hce, f', hf', hcf'⟩ := hback hce'
        exact ⟨hce, _, hv.cons ⟨hf', hcf'⟩⟩

/-- Every run from the same state has been going to the end of the calm one. -/
theorem run_joins (h : Confluent step calm thread Inv) {es es' : List ε} {s u t : σ}
    (hI : Inv s) (hr : Run (Guarded step calm) s es u) (hu : ∀ e t, ¬step u e t)
    (hr' : Run step s es' t) : Inv t ∧ ∃ es'', Run (Guarded step calm) t es'' u := by
  induction hr' with
  | nil => exact ⟨hI, es, hr⟩
  | snoc _ hst ih =>
    obtain ⟨hIt, es'', ht⟩ := ih
    exact ⟨h.inv _ _ _ hIt hst, (h.bring_forward hIt ht hu hst).2⟩

/-- If a calm run comes to its end, every run that comes to an end does so in the same
state. -/
theorem end_unique (h : Confluent step calm thread Inv) {es es' : List ε} {s u t : σ}
    (hI : Inv s) (hr : Run (Guarded step calm) s es u) (hu : ∀ e t, ¬step u e t)
    (hr' : Run step s es' t) (ht : ∀ e u, ¬step t e u) : t = u := by
  obtain ⟨-, es'', htu⟩ := h.run_joins hI hr hu hr'
  rcases htu.cons_cases with ⟨-, rfl⟩ | ⟨e, v, -, -, ⟨hst, -⟩, -⟩
  · rfl
  · exact (ht _ _ hst).elim

end Confluent

end Confluence
