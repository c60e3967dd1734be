import Mathlib

/-!
# Redo records

A redo record is a list of writes to a store. `apply` makes them one after the other. What the
record says is there after it has been applied, whatever of it has been applied before
(`apply_update`), so that a recovery which is interrupted may start again; and once every
write of the record has been made, applying it does nothing (`apply_of_agree`).
-/

open Function

namespace Redo

variable {β α : Type*} [DecidableEq β] {ws : List (β × α)} {d d' : β → α} {x b : β} {v : α}

/-- The writes are made in order. -/
def apply (ws : List (β × α)) (d : β → α) : β → α :=
  ws.foldl (fun d w => update d w.1 w.2) d

@[simp] theorem apply_nil : apply [] d = d := rfl

@[simp] theorem apply_cons (w : β × α) : apply (w :: ws) d = apply ws (update d w.1 w.2) := rfl

theorem apply_append (ws' : List (β × α)) : apply (ws ++ ws') d = apply ws' (apply ws d) :=
  List.foldl_append ..

/-- A key without a write keeps its value. -/
theorem apply_of_notMem (h : x ∉ ws.map Prod.fst) : apply ws d x = d x := by
  induction ws generalizing d with
  | nil => rfl
  | cons w ws ih =>
    rw [List.map_cons, List.mem_cons, not_or] at h
    rw [apply_cons, ih h.2, update_of_ne h.1]

/-- What was at a key with a write does not matter. -/
theorem apply_congr (h : x ∈ ws.map Prod.fst ∨ d x = d' x) : apply ws d x = apply ws d' x := by
  induction ws generalizing d d' with
  | nil => simpa using h
  | cons w ws ih =>
    rw [apply_cons, apply_cons]
    apply ih
    by_cases hx : x = w.1
    · exact .inr (by simp [hx])
    · rw [List.map_cons, List.mem_cons] at h
      rcases h with (h | h) | h
      · exact (hx h).elim
      · exact .inl h
      · exact .inr (by simpa [hx] using h)

/-- A write of the record may have been made before. -/
theorem apply_update (h : b ∈ ws.map Prod.fst) : apply ws (update d b v) = apply ws d := by
  funext x
  apply apply_congr
  by_cases hx : x = b
  · exact .inl (hx ▸ h)
  · exact .inr (update_of_ne hx ..)

/-- All the writes of the record have been made. -/
theorem apply_of_agree (h : ∀ w ∈ ws, d w.1 = w.2) : apply ws d = d := by
  induction ws with
  | nil => rfl
  | cons w ws ih =>
    have hw : update d w.1 w.2 = d := by
      rw [← h w List.mem_cons_self, update_eq_self]
    rw [apply_cons, hw]
    exact ih fun w' hw' => h w' (List.mem_cons_of_mem _ hw')

/-- With one write to each key the record says what is there. -/
theorem apply_of_mem (hnd : (ws.map Prod.fst).Nodup) (h : (x, v) ∈ ws) : apply ws d x = v := by
  induction ws generalizing d with
  | nil => cases h
  | cons w ws ih =>
    rw [List.map_cons, List.nodup_cons] at hnd
    rcases List.mem_cons.1 h with rfl | h
    · rw [apply_cons, apply_of_notMem hnd.1, update_self]
    · exact ih hnd.2 h

end Redo
