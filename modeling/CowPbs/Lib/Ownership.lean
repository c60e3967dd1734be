import Mathlib

/-!
# Cells with one owner

Places refer to cells, each to one cell or to none, and a cell is in use or free. `Owns`
says that the cells in use are those some place refers to, and that no two places refer to
the same cell, so that a cell in use has exactly one owner (`Owns.mem_iff`). A free cell can
be given to an empty place (`Owns.give`), and the cell of a place can be freed (`Owns.take`).
-/

open Function

namespace Ownership

variable {ρ β : Type*}

/-- The cells in use are those the places refer to, each one from one place. -/
structure Owns (place : ρ → Option β) (used : Set β) : Prop where
  unique : ∀ r r' b, place r = some b → place r' = some b → r = r'
  mem_used : ∀ r b, place r = some b → b ∈ used
  owned : ∀ b ∈ used, ∃ r, place r = some b

variable {place place' : ρ → Option β} {used used' : Set β} {r : ρ} {b : β}

namespace Owns

/-- A cell is in use if and only if exactly one place refers to it. -/
theorem mem_iff (h : Owns place used) : b ∈ used ↔ ∃! r, place r = some b := by
  constructor
  · intro hb
    obtain ⟨r, hr⟩ := h.owned b hb
    exact ⟨r, hr, fun r' hr' => h.unique r' r b hr' hr⟩
  · rintro ⟨r, hr, -⟩
    exact h.mem_used r b hr

theorem congr (h : Owns place used) (hp : ∀ r, place' r = place r)
    (hu : ∀ b, b ∈ used' ↔ b ∈ used) : Owns place' used' := by
  obtain rfl : place' = place := funext hp
  obtain rfl : used' = used := Set.ext hu
  exact h

theorem empty (hp : ∀ r, place r = none) (hu : ∀ b, b ∉ used) : Owns place used where
  unique := fun r r' b hr => by simp [hp r] at hr
  mem_used := fun r b hr => by simp [hp r] at hr
  owned := fun b hb => absurd hb (hu b)

/-- A free cell is given to an empty place. -/
theorem give (h : Owns place used) (hb : b ∉ used) (hr : place r = none)
    (hr' : place' r = some b) (hp : ∀ q, q ≠ r → place' q = place q)
    (hu : ∀ c, c ∈ used' ↔ c = b ∨ c ∈ used) : Owns place' used' := by
  -- what the new map says of a place
  have hcase : ∀ q c, place' q = some c → q = r ∧ c = b ∨ q ≠ r ∧ place q = some c := by
    intro q c hq
    by_cases hqr : q = r
    · subst hqr
      exact .inl ⟨rfl, Option.some.inj (hq.symm.trans hr')⟩
    · exact .inr ⟨hqr, (hp q hqr).symm.trans hq⟩
  constructor
  · intro q q' c hq hq'
    rcases hcase q c hq with ⟨rfl, rfl⟩ | ⟨-, hqc⟩
    · rcases hcase q' c hq' with ⟨rfl, -⟩ | ⟨-, hqc'⟩
      · rfl
      · exact absurd (h.mem_used q' c hqc') hb
    · rcases hcase q' c hq' with ⟨-, rfl⟩ | ⟨-, hqc'⟩
      · exact absurd (h.mem_used q c hqc) hb
      · exact h.unique q q' c hqc hqc'
  · intro q c hq
    rcases hcase q c hq with ⟨-, rfl⟩ | ⟨-, hqc⟩
    · exact (hu c).2 (.inl rfl)
    · exact (hu c).2 (.inr (h.mem_used q c hqc))
  · intro c hc
    rcases (hu c).1 hc with rfl | hc
    · exact ⟨r, hr'⟩
    · obtain ⟨q, hq⟩ := h.owned c hc
      have hqr : q ≠ r := by
        rintro rfl
        simp [hr] at hq
      exact ⟨q, (hp q hqr).trans hq⟩

/-- The cell of a place is freed. -/
theorem take (h : Owns place used) (hr : place r = some b) (hr' : place' r = none)
    (hp : ∀ q, q ≠ r → place' q = place q)
    (hu : ∀ c, c ∈ used' ↔ c ≠ b ∧ c ∈ used) : Owns place' used' := by
  have hcase : ∀ q c, place' q = some c → q ≠ r ∧ place q = some c := by
    intro q c hq
    have hqr : q ≠ r := by
      rintro rfl
      simp [hr'] at hq
    exact ⟨hqr, (hp q hqr).symm.trans hq⟩
  constructor
  · intro q q' c hq hq'
    exact h.unique q q' c (hcase q c hq).2 (hcase q' c hq').2
  · intro q c hq
    obtain ⟨hqr, hqc⟩ := hcase q c hq
    have hcb : c ≠ b := by
      rintro rfl
      exact hqr (h.unique q r c hqc hr)
    exact (hu c).2 ⟨hcb, h.mem_used q c hqc⟩
  · intro c hc
    obtain ⟨hcb, hc⟩ := (hu c).1 hc
    obtain ⟨q, hq⟩ := h.owned c hc
    have hqr : q ≠ r := by
      rintro rfl
      exact hcb (Option.some.inj (hq.symm.trans hr))
    exact ⟨q, (hp q hqr).trans hq⟩

/-- The cell of a place passes to an empty one. -/
theorem pass {r' : ρ} (h : Owns place used) (hr : place r = some b) (hr' : place r' = none)
    (ht : place' r = none) (ht' : place' r' = some b)
    (hp : ∀ q, q ≠ r → q ≠ r' → place' q = place q) (hu : ∀ c, c ∈ used' ↔ c ∈ used) :
    Owns place' used' := by
  have hcase : ∀ q c, place' q = some c →
      q = r' ∧ c = b ∨ q ≠ r ∧ q ≠ r' ∧ place q = some c := by
    intro q c hq
    by_cases hqr' : q = r'
    · subst hqr'
      exact .inl ⟨rfl, Option.some.inj (hq.symm.trans ht')⟩
    · have hqr : q ≠ r := by
        rintro rfl
        simp [ht] at hq
      exact .inr ⟨hqr, hqr', (hp q hqr hqr').symm.trans hq⟩
  constructor
  · intro q q' c hq hq'
    rcases hcase q c hq with ⟨rfl, rfl⟩ | ⟨hqr, -, hqc⟩
    · rcases hcase q' c hq' with ⟨rfl, -⟩ | ⟨hqr', -, hqc'⟩
      · rfl
      · exact absurd (h.unique q' r c hqc' hr) hqr'
    · rcases hcase q' c hq' with ⟨-, rfl⟩ | ⟨-, -, hqc'⟩
      · exact absurd (h.unique q r c hqc hr) hqr
      · exact h.unique q q' c hqc hqc'
  · intro q c hq
    rcases hcase q c hq with ⟨-, rfl⟩ | ⟨-, -, hqc⟩
    · exact (hu c).2 (h.mem_used r c hr)
    · exact (hu c).2 (h.mem_used q c hqc)
  · intro c hc
    obtain ⟨q, hq⟩ := h.owned c ((hu c).1 hc)
    by_cases hqr : q = r
    · subst hqr
      obtain rfl := Option.some.inj (hq.symm.trans hr)
      exact ⟨r', ht'⟩
    · have hqr' : q ≠ r' := by
        rintro rfl
        simp [hr'] at hq
      exact ⟨q, (hp q hqr hqr').trans hq⟩

section Family

variable {κ : Type*} {f : κ → ρ} {g : κ → β}

/-- Different free cells are given to different empty places. -/
theorem giveAll (h : Owns place used) (hg : Injective g) (hb : ∀ k, g k ∉ used)
    (hr : ∀ k, place (f k) = none) (hr' : ∀ k, place' (f k) = some (g k))
    (hp : ∀ q, (∀ k, q ≠ f k) → place' q = place q)
    (hu : ∀ c, c ∈ used' ↔ (∃ k, c = g k) ∨ c ∈ used) : Owns place' used' := by
  have hcase : ∀ q c, place' q = some c →
      (∃ k, q = f k ∧ c = g k) ∨ (∀ k, q ≠ f k) ∧ place q = some c := by
    intro q c hq
    by_cases hqf : ∃ k, q = f k
    · obtain ⟨k, rfl⟩ := hqf
      exact .inl ⟨k, rfl, Option.some.inj (hq.symm.trans (hr' k))⟩
    · have hqf' : ∀ k, q ≠ f k := not_exists.1 hqf
      exact .inr ⟨hqf', (hp q hqf').symm.trans hq⟩
  constructor
  · intro q q' c hq hq'
    rcases hcase q c hq with ⟨k, rfl, rfl⟩ | ⟨-, hqc⟩
    · rcases hcase q' _ hq' with ⟨k', rfl, hk⟩ | ⟨-, hqc'⟩
      · rw [hg hk]
      · exact absurd (h.mem_used q' _ hqc') (hb k)
    · rcases hcase q' c hq' with ⟨k', rfl, rfl⟩ | ⟨-, hqc'⟩
      · exact absurd (h.mem_used q _ hqc) (hb k')
      · exact h.unique q q' c hqc hqc'
  · intro q c hq
    rcases hcase q c hq with ⟨k, -, rfl⟩ | ⟨-, hqc⟩
    · exact (hu _).2 (.inl ⟨k, rfl⟩)
    · exact (hu c).2 (.inr (h.mem_used q c hqc))
  · intro c hc
    rcases (hu c).1 hc with ⟨k, rfl⟩ | hc
    · exact ⟨f k, hr' k⟩
    · obtain ⟨q, hq⟩ := h.owned c hc
      have hqf : ∀ k, q ≠ f k := by
        rintro k rfl
        simp [hr k] at hq
      exact ⟨q, (hp q hqf).trans hq⟩

/-- The cells of some places are freed. -/
theorem takeAll (h : Owns place used) (hr : ∀ k, place (f k) = some (g k))
    (hr' : ∀ k, place' (f k) = none) (hp : ∀ q, (∀ k, q ≠ f k) → place' q = place q)
    (hu : ∀ c, c ∈ used' ↔ (∀ k, c ≠ g k) ∧ c ∈ used) : Owns place' used' := by
  have hcase : ∀ q c, place' q = some c → (∀ k, q ≠ f k) ∧ place q = some c := by
    intro q c hq
    have hqf : ∀ k, q ≠ f k := by
      rintro k rfl
      simp [hr' k] at hq
    exact ⟨hqf, (hp q hqf).symm.trans hq⟩
  constructor
  · intro q q' c hq hq'
    exact h.unique q q' c (hcase q c hq).2 (hcase q' c hq').2
  · intro q c hq
    obtain ⟨hqf, hqc⟩ := hcase q c hq
    refine (hu c).2 ⟨?_, h.mem_used q c hqc⟩
    rintro k rfl
    exact hqf k (h.unique q (f k) _ hqc (hr k))
  · intro c hc
    obtain ⟨hcg, hc⟩ := (hu c).1 hc
    obtain ⟨q, hq⟩ := h.owned c hc
    have hqf : ∀ k, q ≠ f k := by
      rintro k rfl
      exact hcg k (Option.some.inj (hq.symm.trans (hr k)))
    exact ⟨q, (hp q hqf).trans hq⟩

end Family

end Owns

end Ownership
