import Mathlib

/-!
# Signed arithmetic without overflow

An `int` operation of C has a meaning only where its exact result is an `int`, and a
division only where the divisor is not 0. The operations here give that result, or `none`.
What they give, if anything, is the exact result (`ofInt_eq_some`), so an expression built
from them has the value of the same expression over the integers, or some operation in it
overflows.
-/

namespace CInt

variable {a b r : Int32} {z : ℤ}

/-- The value is one of an `int`. -/
def InRange (z : ℤ) : Prop :=
  -2 ^ 31 ≤ z ∧ z < 2 ^ 31

instance (z : ℤ) : Decidable (InRange z) :=
  inferInstanceAs (Decidable (_ ∧ _))

/-- The `int` of value `z`. -/
def ofInt (z : ℤ) : Option Int32 :=
  if InRange z then some (Int32.ofInt z) else none

def add (a b : Int32) : Option Int32 :=
  ofInt (a.toInt + b.toInt)

def sub (a b : Int32) : Option Int32 :=
  ofInt (a.toInt - b.toInt)

def mul (a b : Int32) : Option Int32 :=
  ofInt (a.toInt * b.toInt)

/-- Division truncates. -/
def div (a b : Int32) : Option Int32 :=
  if b = 0 then none else ofInt (a.toInt.tdiv b.toInt)

theorem toInt_inRange (a : Int32) : InRange a.toInt :=
  ⟨a.le_toInt, a.toInt_lt⟩

theorem toInt_ofInt (h : InRange z) : (Int32.ofInt z).toInt = z :=
  Int32.toInt_ofInt_of_le h.1 h.2

theorem ofInt_eq_some : ofInt z = some r ↔ r.toInt = z := by
  unfold ofInt
  constructor
  · intro h
    split_ifs at h with hz
    cases h
    exact toInt_ofInt hz
  · rintro rfl
    rw [if_pos (toInt_inRange r), Int32.ofInt_toInt]

theorem ofInt_isSome : (∃ r, ofInt z = some r) ↔ InRange z := by
  constructor
  · rintro ⟨r, hr⟩
    rw [← ofInt_eq_some.1 hr]
    exact toInt_inRange r
  · exact fun h => ⟨_, if_pos h⟩

theorem add_eq_some : add a b = some r ↔ r.toInt = a.toInt + b.toInt :=
  ofInt_eq_some

theorem sub_eq_some : sub a b = some r ↔ r.toInt = a.toInt - b.toInt :=
  ofInt_eq_some

theorem mul_eq_some : mul a b = some r ↔ r.toInt = a.toInt * b.toInt :=
  ofInt_eq_some

theorem div_eq_some : div a b = some r ↔ b ≠ 0 ∧ r.toInt = a.toInt.tdiv b.toInt := by
  unfold div
  split_ifs with hb
  · simp [hb]
  · simp [hb, ofInt_eq_some]

/-! ## The machine's operations -/

theorem bmod_eq (h : InRange z) : z.bmod (2 ^ 32) = z :=
  Int.bmod_eq_of_le (by norm_num; exact h.1) (by norm_num; exact h.2)

/-- Where an operation has a meaning, the machine computes it. -/
theorem add_eq (h : add a b = some r) : a + b = r := by
  rw [add_eq_some] at h
  rw [← Int32.toInt_inj, Int32.toInt_add, ← h, bmod_eq (toInt_inRange r)]

theorem sub_eq (h : sub a b = some r) : a - b = r := by
  rw [sub_eq_some] at h
  rw [← Int32.toInt_inj, Int32.toInt_sub, ← h, bmod_eq (toInt_inRange r)]

theorem mul_eq (h : mul a b = some r) : a * b = r := by
  rw [mul_eq_some] at h
  rw [← Int32.toInt_inj, Int32.toInt_mul, ← h, bmod_eq (toInt_inRange r)]

theorem div_eq (h : div a b = some r) : a / b = r := by
  obtain ⟨-, h⟩ := div_eq_some.1 h
  rw [← Int32.toInt_inj, Int32.toInt_div, ← h, bmod_eq (toInt_inRange r)]

end CInt
