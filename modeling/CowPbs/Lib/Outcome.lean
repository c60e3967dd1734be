import Mathlib

/-!
# Programs that return or stop with an error

`Ends E P x` : the program `x` returns a value with `P`, or stops with an error in `E`. With
the errors that may happen in `E` it is the triple of a program without a precondition, and
`Ends.bind` is its rule for one program after another.
-/

namespace Outcome

variable {ε α β : Type*} {E : ε → Prop} {P Q : α → Prop} {R : β → Prop} {x : Except ε α}

/-- `x` returns a value with `P`, or stops with an error of `E`. -/
def Ends (E : ε → Prop) (P : α → Prop) : Except ε α → Prop
  | .ok a => P a
  | .error e => E e

namespace Ends

theorem ok {a : α} (h : P a) : Ends E P (.ok a) :=
  h

theorem error {e : ε} (h : E e) : Ends E P (.error e) :=
  h

theorem mono (h : Ends E P x) (hPQ : ∀ a, P a → Q a) : Ends E Q x := by
  cases x with
  | ok a => exact hPQ a h
  | error e => exact h

theorem imp {E' : ε → Prop} (h : Ends E P x) (hE : ∀ e, E e → E' e) (hPQ : ∀ a, P a → Q a) :
    Ends E' Q x := by
  cases x with
  | ok a => exact hPQ a h
  | error e => exact hE e h

theorem and {E' : ε → Prop} (h : Ends E P x) (h' : Ends E' Q x) :
    Ends (fun e => E e ∧ E' e) (fun a => P a ∧ Q a) x := by
  cases x with
  | ok a => exact ⟨h, h'⟩
  | error e => exact ⟨h, h'⟩

theorem bind {f : α → Except ε β} (h : Ends E P x) (hf : ∀ a, P a → Ends E R (f a)) :
    Ends E R (x.bind f) := by
  cases x with
  | ok a => exact hf a h
  | error e => exact h

theorem of_ok {a : α} (h : Ends E P x) (hx : x = .ok a) : P a := by
  subst hx
  exact h

theorem ok_of_toOption {a : α} (h : x.toOption = some a) : x = .ok a := by
  cases x with
  | ok b => exact congrArg Except.ok (Option.some.inj h)
  | error e => cases h

theorem not_error {e : ε} (h : Ends E P x) (he : ¬E e) : x ≠ .error e := by
  rintro rfl
  exact he h

end Ends

end Outcome
