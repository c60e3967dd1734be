import Mathlib

/-!
# Scanning for the first minimum

`pick` keeps a candidate while a list is scanned : an element that passes the test `P`
replaces the candidate if there is none yet, or if its key is strictly smaller. The
scan ends with a candidate iff some element passed, and the candidate is the first of
the elements with the smallest key (`foldl_pick_isFirstMin`).
-/

set_option linter.unusedSectionVars false

namespace Scan

variable {ι κ : Type*} [LinearOrder κ] (P : ι → Prop) [DecidablePred P] (key : ι → κ)

/-- One step of the scan, with the candidate so far. -/
def pick (best : Option ι) (i : ι) : Option ι :=
  if P i then
    match best with
    | none => some i
    | some b => if key i < key b then some i else some b
  else best

/-- `best` is the first element of least key among the elements of `l` that pass `P`;
there is none iff none passes. -/
def IsFirstMin (l : List ι) : Option ι → Prop
  | none => ∀ i ∈ l, ¬P i
  | some b => P b ∧ ∃ pre post, l = pre ++ b :: post ∧ (∀ i ∈ pre, P i → key b < key i) ∧
      ∀ i ∈ post, P i → key b ≤ key i

variable {P key}

theorem IsFirstMin.snoc {l : List ι} {best : Option ι} (h : IsFirstMin P key l best) (i : ι) :
    IsFirstMin P key (l ++ [i]) (pick P key best i) := by
  unfold pick
  split_ifs with hP
  · cases best with
    | none =>
      refine ⟨hP, l, [], rfl, fun j hj hPj => (h j hj hPj).elim, ?_⟩
      simp
    | some b =>
      obtain ⟨hPb, pre, post, rfl, hpre, hpost⟩ := h
      dsimp only
      split_ifs with hlt
      · refine ⟨hP, pre ++ b :: post, [], rfl, fun j hj hPj => ?_, by simp⟩
        rcases List.mem_append.mp hj with hj | hj
        · exact hlt.trans (hpre j hj hPj)
        · rcases List.mem_cons.mp hj with rfl | hj
          · exact hlt
          · exact lt_of_lt_of_le hlt (hpost j hj hPj)
      · refine ⟨hPb, pre, post ++ [i], by simp, hpre, fun j hj hPj => ?_⟩
        rcases List.mem_append.mp hj with hj | hj
        · exact hpost j hj hPj
        · rw [List.mem_singleton.mp hj]
          exact not_lt.mp hlt
  · cases best with
    | none =>
      intro j hj
      rcases List.mem_append.mp hj with hj | hj
      · exact h j hj
      · rwa [List.mem_singleton.mp hj]
    | some b =>
      obtain ⟨hPb, pre, post, rfl, hpre, hpost⟩ := h
      refine ⟨hPb, pre, post ++ [i], by simp, hpre, fun j hj hPj => ?_⟩
      rcases List.mem_append.mp hj with hj | hj
      · exact hpost j hj hPj
      · rw [List.mem_singleton.mp hj] at hPj
        exact (hP hPj).elim

theorem IsFirstMin.foldl {best : Option ι} :
    ∀ {pre : List ι} (l : List ι), IsFirstMin P key pre best →
      IsFirstMin P key (pre ++ l) (l.foldl (pick P key) best) := by
  intro pre l
  induction l generalizing pre best with
  | nil => simp
  | cons i l ih =>
    intro h
    have := ih (h.snoc i)
    simpa using this

/-- The scan of a list ends at its first minimum. -/
theorem foldl_pick_isFirstMin (l : List ι) :
    IsFirstMin P key l (l.foldl (pick P key) none) := by
  have h0 : IsFirstMin P key [] none := by simp [IsFirstMin]
  simpa using h0.foldl l

/-- The candidate of a scan passes the test, and has the least key. -/
theorem IsFirstMin.le {l : List ι} {b : ι} (h : IsFirstMin P key l (some b)) {i : ι}
    (hi : i ∈ l) (hP : P i) : key b ≤ key i := by
  obtain ⟨-, pre, post, rfl, hpre, hpost⟩ := h
  rcases List.mem_append.mp hi with hi | hi
  · exact (hpre i hi hP).le
  · rcases List.mem_cons.mp hi with rfl | hi
    · exact le_rfl
    · exact hpost i hi hP

theorem IsFirstMin.isSome_iff {l : List ι} {best : Option ι} (h : IsFirstMin P key l best) :
    best.isSome ↔ ∃ i ∈ l, P i := by
  cases best with
  | none => simpa [IsFirstMin] using h
  | some b =>
    obtain ⟨hPb, pre, post, rfl, -⟩ := h
    simpa using ⟨b, by simp, hPb⟩

/-- On a strictly increasing list, an element before the candidate has a larger key. -/
theorem IsFirstMin.lt_of_lt [LinearOrder ι] {l : List ι} (hl : l.Pairwise (· < ·)) {b : ι}
    (h : IsFirstMin P key l (some b)) {i : ι} (hi : i ∈ l) (hP : P i) (hlt : i < b) :
    key b < key i := by
  obtain ⟨-, pre, post, rfl, hpre, -⟩ := h
  rcases List.mem_append.mp hi with hi | hi
  · exact hpre i hi hP
  · rcases List.mem_cons.mp hi with rfl | hi
    · exact (lt_irrefl _ hlt).elim
    · have := List.rel_of_pairwise_cons (List.pairwise_append.mp hl).2.1 hi
      exact (lt_asymm hlt this).elim

end Scan
