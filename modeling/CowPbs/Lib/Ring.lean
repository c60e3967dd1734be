import Mathlib

/-!
# Rings with free-running counters

A ring of `N` cells is indexed by counters of `k` bits that are never reset and wrap, where
`N` divides `2 ^ k`. `window N d r len` is the contents of the `len` cells from the
counter `r` on. The cell at either end of the window is told apart from the others as long as
the window is not longer than the ring (`index_ne`), so that storing a cell behind a window
that is not full adds it there and changes nothing else (`window_push`), and taking one away in
front moves `r` (`window_pop`).
-/

open Function

namespace Ring

variable {α : Type*} {k N len : ℕ} {d : ℕ → α} {r w : BitVec k} {x : α}

/-- The cell a counter stands for. -/
def index (N : ℕ) (c : BitVec k) : ℕ :=
  c.toNat % N

/-- The counter `i` after `r`. -/
def at_ (r : BitVec k) (i : ℕ) : BitVec k :=
  r + BitVec.ofNat k i

/-- The `len` cells from the counter `r` on. -/
def window (N : ℕ) (d : ℕ → α) (r : BitVec k) (len : ℕ) : List α :=
  (List.range len).map fun i => d (index N (at_ r i))

theorem at_zero : at_ r 0 = r :=
  BitVec.add_zero r

theorem at_one {i : ℕ} : at_ (r + 1) i = at_ r (i + 1) := by
  rw [at_, at_, BitVec.add_assoc, Nat.add_comm i 1, BitVec.ofNat_add]
  rfl

/-- The counter that is `(w - r)` after `r` is `w`. -/
theorem at_sub : at_ r (w - r).toNat = w := by
  rw [at_, BitVec.ofNat_toNat, BitVec.setWidth_eq, BitVec.add_comm, BitVec.sub_add_cancel]

theorem toNat_at {i : ℕ} : (at_ r i).toNat = (r.toNat + i) % 2 ^ k := by
  rw [at_, BitVec.toNat_add, BitVec.toNat_ofNat, Nat.add_mod_mod]

theorem index_at (hN : N ∣ 2 ^ k) {i : ℕ} : index N (at_ r i) = (r.toNat + i) % N := by
  rw [index, toNat_at, Nat.mod_mod_of_dvd _ hN]

/-- Counters less than a whole ring apart have different cells. -/
theorem index_ne (hN : N ∣ 2 ^ k) {i j : ℕ} (hij : i < j) (hj : j < i + N) :
    index N (at_ r i) ≠ index N (at_ r j) := by
  rw [index_at hN, index_at hN]
  intro h
  have hmod : (r.toNat + i) ≡ (r.toNat + j) [MOD N] := h
  have hdvd := (Nat.modEq_iff_dvd' (by omega)).1 hmod
  have hle := Nat.le_of_dvd (by omega) hdvd
  omega

@[simp]
theorem length_window : (window N d r len).length = len := by
  simp [window]

@[simp]
theorem window_zero : window N d r 0 = [] :=
  rfl

theorem window_succ :
    window N d r (len + 1) = window N d r len ++ [d (index N (at_ r len))] := by
  simp only [window, List.range_succ, List.map_append, List.map_cons, List.map_nil]

theorem window_pop :
    window N d r (len + 1) = d (index N r) :: window N d (r + 1) len := by
  simp only [window, List.range_succ_eq_map, List.map_cons, List.map_map, at_zero]
  congr 1
  refine List.map_congr_left fun i _ => ?_
  rw [comp_apply, at_one]

/-- Only the cells of the window matter. -/
theorem window_congr {d' : ℕ → α}
    (h : ∀ i < len, d' (index N (at_ r i)) = d (index N (at_ r i))) :
    window N d' r len = window N d r len :=
  List.map_congr_left fun i hi => h i (List.mem_range.1 hi)

/-- The cell behind a window that is not full is not one of its cells. -/
theorem window_store (hN : N ∣ 2 ^ k) (hlen : len < N) :
    window N (update d (index N (at_ r len)) x) r len = window N d r len := by
  refine window_congr fun i hi => ?_
  exact update_of_ne (index_ne hN hi (by omega)) _ _

/-- A cell is stored behind a window that is not full. -/
theorem window_push (hN : N ∣ 2 ^ k) (hlen : len < N) :
    window N (update d (index N (at_ r len)) x) r (len + 1) = window N d r len ++ [x] := by
  rw [window_succ, update_self, window_store hN hlen]

/-- The front of a window is a window. -/
theorem take_window {i : ℕ} (hi : i ≤ len) :
    (window N d r len).take i = window N d r i := by
  rw [window, ← List.map_take, List.take_range, Nat.min_eq_left hi]
  rfl

/-- One window behind another. -/
theorem window_add {len' : ℕ} :
    window N d r (len + len') = window N d r len ++ window N d (at_ r len) len' := by
  induction len' with
  | zero => simp
  | succ n ih =>
    rw [← Nat.add_assoc, window_succ, window_succ, ih, List.append_assoc]
    congr 3
    rw [at_, at_, at_, BitVec.ofNat_add, BitVec.add_assoc]

/-! ## The distance of two counters -/

theorem toNat_succ_sub (h : (w - r).toNat + 1 < 2 ^ k) :
    (w + 1 - r).toNat = (w - r).toNat + 1 := by
  have hadd : w + 1 - r = (w - r) + 1 := by
    rw [BitVec.sub_eq_add_neg, BitVec.sub_eq_add_neg, BitVec.add_assoc, BitVec.add_assoc,
      BitVec.add_comm 1]
  have hk : 1 < 2 ^ k := Nat.lt_of_le_of_lt (Nat.le_add_left 1 _) h
  have hone : (1 : BitVec k).toNat = 1 := by
    simp [Nat.mod_eq_of_lt hk]
  rw [hadd, BitVec.toNat_add, hone, Nat.mod_eq_of_lt h]

theorem toNat_sub_succ (h : (w - r).toNat ≠ 0) : (w - (r + 1)).toNat = (w - r).toNat - 1 := by
  have hk : (w - r).toNat < 2 ^ k := (w - r).isLt
  have hsub : w - r = (w - (r + 1)) + 1 := by
    rw [BitVec.sub_eq_add_neg, BitVec.sub_eq_add_neg, BitVec.neg_add, BitVec.add_assoc,
      BitVec.sub_eq_add_neg, BitVec.add_assoc, BitVec.add_comm (-1), BitVec.add_right_neg,
      BitVec.add_zero]
  have hone : (1 : BitVec k).toNat = 1 := by
    have hk1 : 1 < 2 ^ k := by omega
    simp [Nat.mod_eq_of_lt hk1]
  have hlt := (w - (r + 1)).isLt
  have hadd := congrArg BitVec.toNat hsub
  rw [BitVec.toNat_add, hone] at hadd
  by_cases hmax : (w - (r + 1)).toNat + 1 < 2 ^ k
  · rw [Nat.mod_eq_of_lt hmax] at hadd
    omega
  · have heq : (w - (r + 1)).toNat + 1 = 2 ^ k := by omega
    rw [heq, Nat.mod_self] at hadd
    exact absurd hadd h

theorem toNat_pred_sub (h : (w - r).toNat ≠ 0) : (w - 1 - r).toNat = (w - r).toNat - 1 := by
  have hk : (w - r).toNat < 2 ^ k := (w - r).isLt
  have hone : (1 : BitVec k).toNat = 1 := by
    have hk1 : 1 < 2 ^ k := by omega
    simp [Nat.mod_eq_of_lt hk1]
  have hle : 1 ≤ w - r := by
    rw [BitVec.le_def, hone]
    exact Nat.one_le_iff_ne_zero.2 h
  rw [show w - 1 - r = w - r - 1 from sub_right_comm w 1 r, BitVec.toNat_sub_of_le hle, hone]

theorem toNat_sub_eq_zero : (w - r).toNat = 0 ↔ r = w := by
  constructor
  · intro h
    have h0 : w - r = 0 := BitVec.eq_of_toNat_eq (by simpa using h)
    have hw := at_sub (r := r) (w := w)
    rw [h0] at hw
    rw [← hw, at_]
    simp
  · rintro rfl
    simp

/-! ## A counter between two others -/

variable {m : BitVec k}

theorem toNat_sub_sub (h : (m - r).toNat ≤ (w - r).toNat) :
    (w - m).toNat = (w - r).toNat - (m - r).toNat := by
  have hsub : w - m = (w - r) - (m - r) := (sub_sub_sub_cancel_right w m r).symm
  rw [hsub, BitVec.toNat_sub_of_le h]

/-- A counter inside the window cuts it in two. -/
theorem window_split (h : (m - r).toNat ≤ (w - r).toNat) :
    window N d r (w - r).toNat =
      window N d r (m - r).toNat ++ window N d m (w - m).toNat := by
  have hlen : (w - r).toNat = (m - r).toNat + (w - m).toNat := by
    rw [toNat_sub_sub h, Nat.add_sub_cancel' h]
  rw [hlen, window_add, at_sub]

end Ring
