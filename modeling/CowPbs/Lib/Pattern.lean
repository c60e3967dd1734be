import Mathlib

/-!
# Patterns

A pattern is a list of items : a symbol, or any number of symbols, each of which is a given one
or any. Its language is the product of the languages of the items, in the Kleene algebra of
languages. A pattern that is not anchored at one end may have any symbols there (`Anchored`).

The rules are those of a matcher that reads the text from the left : each says of a word in the
product that it is in the rest of the product, or what its first symbol is.
-/

open Computability

namespace Pattern

variable {α : Type*} {r : Language α} {w : List α} {x : α}

/-- One symbol. -/
inductive Atom (α : Type*)
  | any
  | lit (x : α)
  deriving DecidableEq

inductive Item (α : Type*)
  | one (a : Atom α)
  | star (a : Atom α)
  deriving DecidableEq

def Atom.Accepts : Atom α → α → Prop
  | any, _ => True
  | lit x, y => x = y

def Atom.lang (a : Atom α) : Language α :=
  {w | ∃ x, a.Accepts x ∧ w = [x]}

def Item.lang : Item α → Language α
  | one a => a.lang
  | star a => a.lang∗

/-- The language of a list of items. -/
def lang (l : List (Item α)) : Language α :=
  (l.map Item.lang).prod

/-- What may stand at an end. -/
def ending (anchored : Bool) : Language α :=
  if anchored then 1 else ⊤

/-- A pattern, with anchors. -/
structure Anchored (α : Type*) where
  atStart : Bool
  items : List (Item α)
  atEnd : Bool

def Anchored.lang (p : Anchored α) : Language α :=
  ending p.atStart * (Pattern.lang p.items * ending p.atEnd)

variable {a : Atom α} {l : List (Item α)}

theorem lang_nil : lang ([] : List (Item α)) = 1 :=
  rfl

theorem lang_cons {i : Item α} : lang (i :: l) = i.lang * lang l := by
  unfold lang
  rw [List.map_cons, List.prod_cons]

/-- A word of a product that starts with an atom starts with its symbol. -/
theorem Atom.mem_mul : w ∈ a.lang * r ↔ ∃ x w', w = x :: w' ∧ a.Accepts x ∧ w' ∈ r := by
  rw [Language.mem_mul]
  constructor
  · rintro ⟨_, ⟨x, hx, rfl⟩, w', hw', rfl⟩
    exact ⟨x, w', rfl, hx, hw'⟩
  · rintro ⟨x, w', rfl, hx, hw'⟩
    exact ⟨[x], ⟨x, hx, rfl⟩, w', hw', rfl⟩

/-- A repetition is empty, or starts with the symbol and goes on. -/
theorem Atom.mem_star_mul : w ∈ a.lang∗ * r ↔
    w ∈ r ∨ ∃ x w', w = x :: w' ∧ a.Accepts x ∧ w' ∈ a.lang∗ * r := by
  have hstar : a.lang∗ * r = r + a.lang * (a.lang∗ * r) := by
    conv_lhs => rw [← Language.one_add_self_mul_kstar_eq_kstar]
    rw [add_mul, one_mul, mul_assoc]
  conv_lhs => rw [hstar]
  rw [Language.mem_add, Atom.mem_mul]

/-- Where any symbols may come first, the rest starts here or later. -/
theorem mem_top_mul : w ∈ (⊤ : Language α) * r ↔
    w ∈ r ∨ ∃ x w', w = x :: w' ∧ w' ∈ (⊤ : Language α) * r := by
  simp only [Language.mem_mul]
  constructor
  · rintro ⟨u, -, v, hv, rfl⟩
    cases u with
    | nil => exact .inl hv
    | cons x u => exact .inr ⟨x, u ++ v, rfl, u, trivial, v, hv, rfl⟩
  · rintro (hw | ⟨x, _, rfl, u, -, v, hv, rfl⟩)
    · exact ⟨[], trivial, w, hw, rfl⟩
    · exact ⟨x :: u, trivial, v, hv, rfl⟩

end Pattern
