import Mathlib

/-!
# Runs of characters

The loop `while (s < es && p(*s)) s++;` over a list. It passes the longest run from `s` on whose
characters all have `p` (`drop_skipWhile`), which is what is between its two ends
(`slice_skipWhile`).
-/

namespace Runs

variable {α : Type} {p : α → Bool} {l : List α} {i : ℕ}

/-- The index of the first character of `l` without `p`, or of its end, where `l` starts at `i`. -/
def pass (p : α → Bool) : List α → ℕ → ℕ
  | [], i => i
  | c :: l, i => if p c then pass p l (i + 1) else i

/-- The index of the first character from `i` on without `p`, or the end. -/
def skipWhile (p : α → Bool) (l : List α) (i : ℕ) : ℕ :=
  pass p (l.drop i) i

/-- The characters from `i` to `j`. -/
def slice (l : List α) (i j : ℕ) : List α :=
  (l.drop i).take (j - i)

theorem pass_eq (p : α → Bool) (l : List α) (i : ℕ) : pass p l i = i + (l.takeWhile p).length := by
  fun_induction pass p l i with
  | case1 => rfl
  | case2 i c l hp ih =>
    rw [ih, List.takeWhile_cons_of_pos hp, List.length_cons]
    omega
  | case3 i c l hp =>
    rw [List.takeWhile_cons_of_neg hp]
    rfl

theorem skipWhile_eq (p : α → Bool) (l : List α) (i : ℕ) :
    skipWhile p l i = i + ((l.drop i).takeWhile p).length :=
  pass_eq p (l.drop i) i

theorem le_skipWhile : i ≤ skipWhile p l i := by
  rw [skipWhile_eq]
  exact Nat.le_add_right _ _

theorem skipWhile_le (h : i ≤ l.length) : skipWhile p l i ≤ l.length := by
  have hle := (List.takeWhile_prefix p (l := l.drop i)).length_le
  rw [List.length_drop] at hle
  rw [skipWhile_eq]
  omega

theorem drop_skipWhile : l.drop (skipWhile p l i) = (l.drop i).dropWhile p := by
  have h : (l.drop i).takeWhile p ++ (l.drop i).dropWhile p = l.drop i :=
    List.takeWhile_append_dropWhile
  rw [skipWhile_eq, ← List.drop_drop]
  generalize (l.drop i).takeWhile p = run, (l.drop i).dropWhile p = rest at *
  rw [← h, List.drop_left]

theorem slice_skipWhile : slice l i (skipWhile p l i) = (l.drop i).takeWhile p := by
  have h : (l.drop i).takeWhile p ++ (l.drop i).dropWhile p = l.drop i :=
    List.takeWhile_append_dropWhile
  rw [slice, skipWhile_eq, Nat.add_sub_cancel_left]
  generalize (l.drop i).takeWhile p = run at *
  rw [← h, List.take_left]

/-- All of a run has `p`. -/
theorem of_mem_run {j : ℕ} {c : α} (hi : i ≤ j) (hj : j < skipWhile p l i) (hc : l[j]? = some c) :
    p c = true := by
  have hmem : c ∈ (l.drop i).takeWhile p := by
    rw [← slice_skipWhile, slice]
    refine List.mem_of_getElem? (i := j - i) ?_
    rw [List.getElem?_take_of_lt (by omega), List.getElem?_drop, Nat.add_sub_cancel' hi, hc]
  exact List.mem_takeWhile_imp hmem

/-- The character after a run. -/
theorem not_of_end {c : α} (hc : l[skipWhile p l i]? = some c) : p c = false := by
  have h : (l.drop (skipWhile p l i)).head? = some c := by
    rw [List.head?_drop, hc]
  rw [drop_skipWhile] at h
  have := List.head?_dropWhile_not p (l.drop i)
  rw [h] at this
  simpa using this

theorem getElem?_slice {j k : ℕ} (h : i + k < j) : (slice l i j)[k]? = l[i + k]? := by
  rw [slice, List.getElem?_take_of_lt (by omega), List.getElem?_drop]

/-- A run is known by its end. -/
theorem takeWhile_eq_slice {j : ℕ} {c : α} (hij : i ≤ j) (hp : ∀ c ∈ slice l i j, p c = true)
    (hj : l[j]? = some c) (hc : p c = false) : (l.drop i).takeWhile p = slice l i j := by
  have hcut : l.drop i = slice l i j ++ l.drop j := by
    rw [slice, ← Nat.add_sub_cancel' hij, ← List.drop_drop, Nat.add_sub_cancel_left,
      List.take_append_drop]
  obtain ⟨hlt, hc'⟩ := List.getElem?_eq_some_iff.1 hj
  rw [hcut, List.takeWhile_append_of_pos hp, List.drop_eq_getElem_cons hlt,
    List.takeWhile_cons_of_neg (by rw [hc', hc]; exact Bool.false_ne_true), List.append_nil]

end Runs
