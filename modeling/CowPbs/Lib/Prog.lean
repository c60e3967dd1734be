import Mathlib
import CowPbs.Lib.Outcome

/-!
# Programs on a state that may stop with a message

A program reads and writes a state and returns a value, or stops with a message. `wp E c Q`
holds of the states from which `c` returns with `Q`, or stops with a message of `E` : where
`E` is `Never` the program does not stop, and where `E` is everything only what it returns
is of interest. Programs are deterministic, so one such statement says what a run that is
there has done (`wp_ok`), and that there is one (`wp_exists`).

The rules follow the constructs : `wp_seq` for a sequence, the simp lemmas for the
primitives, `wp_forRange` and `wp_forReturn` for loops with a counter.
-/

open Outcome

/-- A program over states `σ` that returns an `α`. -/
abbrev Prog (σ α : Type) := StateT σ (Except String) α

namespace Prog

variable {σ α β ρ : Type} {E E' : String → Prop} {s t : σ}

/-- No message. -/
def Never (_ : String) : Prop :=
  False

/-- From `s`, the program returns `a` in a state `t` with `Q a t`, or stops with a message
of `E`. -/
def wp (E : String → Prop) (c : Prog σ α) (Q : α → σ → Prop) (s : σ) : Prop :=
  Ends E (fun r => Q r.1 r.2) (c s)

theorem wp_ok {c : Prog σ α} {Q : α → σ → Prop} {a : α} (h : wp E c Q s)
    (hc : c s = .ok (a, t)) : Q a t :=
  h.of_ok hc

/-- A run that is known. -/
theorem wp_of_eq {c : Prog σ α} {Q : α → σ → Prop} {a : α} (hc : c s = .ok (a, t)) :
    wp E c Q s ↔ Q a t := by
  rw [wp, hc]
  rfl

theorem wp_exists {c : Prog σ α} {Q : α → σ → Prop} (h : wp Never c Q s) :
    ∃ a t, c s = .ok (a, t) ∧ Q a t := by
  unfold wp at h
  cases hc : c s with
  | ok r => exact ⟨r.1, r.2, rfl, h.of_ok hc⟩
  | error e =>
    rw [hc] at h
    exact h.elim

theorem wp_mono {c : Prog σ α} {Q Q' : α → σ → Prop} (h : wp E c Q s)
    (hQ : ∀ a t, Q a t → Q' a t) : wp E c Q' s :=
  h.mono fun r => hQ r.1 r.2

theorem wp_weaken {c : Prog σ α} {Q : α → σ → Prop} (h : wp E c Q s) (hE : ∀ e, E e → E' e) :
    wp E' c Q s := by
  unfold wp at h ⊢
  cases hc : c s with
  | ok r =>
    rw [hc] at h
    exact h
  | error e =>
    rw [hc] at h
    exact hE e h

/-- Two facts about one run. -/
theorem wp_and {c : Prog σ α} {Q Q' : α → σ → Prop} (h : wp E c Q s) (h' : wp E' c Q' s) :
    wp E c (fun a t => Q a t ∧ Q' a t) s := by
  unfold wp at h h' ⊢
  cases hc : c s with
  | ok r =>
    rw [hc] at h h'
    exact ⟨h, h'⟩
  | error e =>
    rw [hc] at h
    exact h

/-! ## Primitives -/

@[simp] theorem wp_pure (a : α) (Q : α → σ → Prop) : wp E (pure a : Prog σ α) Q s ↔ Q a s :=
  Iff.rfl

theorem wp_bind (c : Prog σ α) (f : α → Prog σ β) (Q : β → σ → Prop) :
    wp E (c >>= f) Q s ↔ wp E c (fun a t => wp E (f a) Q t) s := by
  show Ends E _ (c s >>= fun x => f x.1 x.2) ↔ Ends E _ (c s)
  cases c s <;> rfl

@[simp] theorem wp_throw (e : String) (Q : α → σ → Prop) :
    wp E (throw e : Prog σ α) Q s ↔ E e :=
  Iff.rfl

@[simp] theorem wp_get (Q : σ → σ → Prop) : wp E (get : Prog σ σ) Q s ↔ Q s s :=
  Iff.rfl

@[simp] theorem wp_set (t : σ) (Q : PUnit → σ → Prop) :
    wp E (set t : Prog σ PUnit) Q s ↔ Q ⟨⟩ t :=
  Iff.rfl

@[simp] theorem wp_modify (f : σ → σ) (Q : PUnit → σ → Prop) :
    wp E (modify f : Prog σ PUnit) Q s ↔ Q ⟨⟩ (f s) :=
  Iff.rfl

theorem wp_ite (p : Prop) [Decidable p] (c d : Prog σ α) (Q : α → σ → Prop) :
    wp E (if p then c else d) Q s ↔ (p → wp E c Q s) ∧ (¬p → wp E d Q s) := by
  split_ifs with h <;> simp [h]

/-- The program stops with the message if `c` holds. -/
def panicIf (c : Prop) [Decidable c] (msg : String) : Prog σ Unit :=
  if c then throw msg else pure ()

theorem wp_panicIf (c : Prop) [Decidable c] (msg : String) (Q : Unit → σ → Prop) :
    wp E (panicIf c msg) Q s ↔ (c → E msg) ∧ (¬c → Q () s) := by
  rw [panicIf, wp_ite, wp_throw, wp_pure]

theorem panicIf_false {c : Prop} [Decidable c] (h : ¬c) (msg : String) :
    (panicIf c msg : Prog σ Unit) = pure () :=
  if_neg h

/-- The second half of a sequence, from what is known of the first. -/
theorem wp_seq {c : Prog σ α} {f : α → Prog σ β} {P : α → σ → Prop} {Q : β → σ → Prop}
    (h : wp E c P s) (hf : ∀ a t, P a t → wp E (f a) Q t) : wp E (c >>= f) Q s := by
  rw [wp_bind]
  exact wp_mono h hf

/-! ## Loops -/

/-- `body i`, `body (i + 1)` and so on, `n` turns. -/
def forRange (body : ℕ → Prog σ Unit) : ℕ → ℕ → Prog σ Unit
  | 0, _ => pure ()
  | n + 1, i => do
    body i
    forRange body n (i + 1)

/-- The same, for a body that may return from the loop with a value. -/
def forReturn (body : ℕ → Prog σ (Option ρ)) : ℕ → ℕ → Prog σ (Option ρ)
  | 0, _ => pure none
  | n + 1, i => do
    match ← body i with
    | some r => pure (some r)
    | none => forReturn body n (i + 1)

theorem wp_forRange {body : ℕ → Prog σ Unit} (I : ℕ → σ → Prop) (n i : ℕ) (h : I i s)
    (hbody : ∀ j t, i ≤ j → j < i + n → I j t → wp E (body j) (fun _ => I (j + 1)) t) :
    wp E (forRange body n i) (fun _ => I (i + n)) s := by
  induction n generalizing i s with
  | zero => exact h
  | succ n ih =>
    refine wp_seq (hbody i s le_rfl (by omega) h) fun _ t ht => ?_
    rw [show i + (n + 1) = i + 1 + n by omega]
    exact ih (i + 1) ht fun j t hj hj' => hbody j t (by omega) (by omega)

theorem wp_forReturn {body : ℕ → Prog σ (Option ρ)} (I : ℕ → σ → Prop) (R : ρ → σ → Prop)
    (n i : ℕ) (h : I i s)
    (hbody : ∀ j t, i ≤ j → j < i + n → I j t →
      wp E (body j) (fun o t => o.elim (I (j + 1) t) fun r => R r t) t) :
    wp E (forReturn body n i) (fun o t => o.elim (I (i + n) t) fun r => R r t) s := by
  induction n generalizing i s with
  | zero => exact h
  | succ n ih =>
    refine wp_seq (hbody i s le_rfl (by omega) h) fun o t ht => ?_
    cases o with
    | some r => exact ht
    | none =>
      rw [show i + (n + 1) = i + 1 + n by omega]
      exact ih (i + 1) ht fun j t hj hj' => hbody j t (by omega) (by omega)

end Prog
