import Mathlib

/-!
# Writes to a list

`overlay l off bs` is the list `l` with `bs` in the places from `off` on, and as long as it has to
be for that. Of a sequence of such writes, `lastWrite` gives what the last one to a place has put
there. A list of records of one width is cut into them by `records`, and a record that is written is
one entry of the list of records (`records_overlay`).
-/

namespace Overlay

variable {α : Type*} {l bs : List α} {off x : ℕ}

/-- `bs` in the places of `l` from `off` on. -/
def overlay (l : List α) (off : ℕ) (bs : List α) : List α :=
  l.take off ++ bs ++ l.drop (off + bs.length)

@[simp]
theorem overlay_nil : overlay l off [] = l := by
  simp [overlay]

theorem length_overlay (h : off ≤ l.length) :
    (overlay l off bs).length = Max.max l.length (off + bs.length) := by
  simp only [overlay, List.length_append, List.length_take, List.length_drop]
  omega

theorem getElem?_overlay (h : off ≤ l.length) :
    (overlay l off bs)[x]? = if off ≤ x ∧ x < off + bs.length then bs[x - off]? else l[x]? := by
  have htake : (l.take off).length = off := List.length_take_of_le h
  rw [overlay, List.append_assoc]
  by_cases h₁ : x < off
  · rw [if_neg (by omega), List.getElem?_append_left (by omega), List.getElem?_take_of_lt h₁]
  · rw [List.getElem?_append_right (by omega), htake]
    by_cases h₂ : x < off + bs.length
    · rw [if_pos (by omega), List.getElem?_append_left (by omega)]
    · rw [if_neg (by omega), List.getElem?_append_right (by omega), List.getElem?_drop]
      congr 1
      omega

/-- What the write `w` puts into the place `x`. -/
def written (w : ℕ × List α) (x : ℕ) : Option α :=
  if w.1 ≤ x then w.2[x - w.1]? else none

/-- What the last write of `ws` to the place `x` puts there. -/
def lastWrite (ws : List (ℕ × List α)) (x : ℕ) : Option α :=
  ws.foldl (fun o w => written w x <|> o) none

theorem lastWrite_append {ws : List (ℕ × List α)} {w : ℕ × List α} :
    lastWrite (ws ++ [w]) x = (written w x <|> lastWrite ws x) :=
  List.foldl_append ..

/-- A write in the list or at its end, or of nothing. -/
theorem getElem?_overlay_written (h : bs = [] ∨ off ≤ l.length) :
    (overlay l off bs)[x]? = (written (off, bs) x <|> l[x]?) := by
  unfold written
  rcases h with rfl | hle
  · simp
  · rw [getElem?_overlay hle]
    by_cases h₁ : off ≤ x
    · by_cases h₂ : x < off + bs.length
      · have hx : x - off < bs.length := by omega
        simp [h₁, h₂, List.getElem?_eq_getElem hx]
      · have hx : bs.length ≤ x - off := by omega
        simp [h₁, h₂, List.getElem?_eq_none hx]
    · simp [h₁]

/-! ## Records of one width -/

/-- The list cut into parts of the width `w`. -/
def records (w : ℕ) (l : List α) : List (List α) :=
  (List.range (l.length / w)).map fun k => (l.drop (k * w)).take w

@[simp]
theorem length_records {w : ℕ} : (records w l).length = l.length / w := by
  rw [records, List.length_map, List.length_range]

theorem getElem?_records {w k : ℕ} :
    (records w l)[k]? = if k < l.length / w then some ((l.drop (k * w)).take w) else none := by
  unfold records
  by_cases h : k < l.length / w
  · simp [h]
  · simp [h]

/-- A record that is written where one begins, or at the end. -/
theorem records_overlay {w k : ℕ} (hw : 0 < w) (hl : w ∣ l.length) (hk : k * w ≤ l.length)
    (hbs : bs.length = w) : records w (overlay l (k * w) bs) = overlay (records w l) k [bs] := by
  obtain ⟨q, hq⟩ := hl
  have hkq : k ≤ q := Nat.le_of_mul_le_mul_right (by rwa [Nat.mul_comm q, ← hq]) hw
  have hdiv : l.length / w = q := by rw [hq, Nat.mul_div_cancel_left _ hw]
  have hlen : (overlay l (k * w) bs).length / w = Max.max q (k + 1) := by
    have hmax : Max.max (w * q) (k * w + w) = w * Max.max q (k + 1) := by
      rw [← Nat.succ_mul, Nat.mul_comm _ w, Nat.mul_max_mul_left]
    rw [length_overlay hk, hbs, hq, hmax, Nat.mul_div_cancel_left _ hw]
  refine List.ext_getElem? fun j => ?_
  rw [getElem?_records, hlen, getElem?_overlay (by rw [length_records, hdiv]; exact hkq),
    getElem?_records, hdiv, List.length_singleton]
  have hslice : ∀ j, j * w + w ≤ k * w ∨ k * w + w ≤ j * w →
      ((overlay l (k * w) bs).drop (j * w)).take w = (l.drop (j * w)).take w := by
    refine fun j hj => List.ext_getElem? fun x => ?_
    rw [List.getElem?_take, List.getElem?_take]
    split_ifs with hx
    · rw [List.getElem?_drop, List.getElem?_drop, getElem?_overlay hk, if_neg (by omega)]
    · rfl
  rcases Nat.lt_trichotomy j k with hj | rfl | hj
  · have hle : (j + 1) * w ≤ k * w := Nat.mul_le_mul_right w hj
    rw [Nat.succ_mul] at hle
    rw [if_pos (by omega), if_neg (by omega), if_pos (by omega), hslice j (.inl hle)]
  · have htake : (l.take (j * w)).length = j * w := List.length_take_of_le hk
    rw [if_pos (by omega), if_pos (by omega), Nat.sub_self, overlay, List.append_assoc,
      List.drop_left' htake, List.take_left' hbs]
    rfl
  · have hle : (k + 1) * w ≤ j * w := Nat.mul_le_mul_right w hj
    rw [Nat.succ_mul] at hle
    have hiff : j < Max.max q (k + 1) ↔ j < q := by omega
    rw [if_neg (c := k ≤ j ∧ j < k + 1) (by omega), hslice j (.inr hle)]
    simp only [hiff]

end Overlay
