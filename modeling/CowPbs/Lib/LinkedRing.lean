import Mathlib

/-!
# Doubly linked rings

The pointers `next` and `prev` of some nodes, one of which is the head of a ring. `Links`
says that the pointers lead from one node through a list of others to a last one and back,
and `Ring` that they lead from the head through the list back to the head. A node is taken
out of the ring (`Ptrs.unlink`) and put in after the head (`Ptrs.insert`) by the assignments
a program makes, one after the other; and a walk along `next` or `prev` finds the first or the
last of the list (`IsRing.walk_next`, `IsRing.walk_prev`).
-/

set_option linter.unusedSectionVars false

open Function

namespace LinkedRing

variable {α : Type*} [DecidableEq α] {a b h x : α} {l l₁ l₂ : List α}

/-- The pointers of the nodes. -/
structure Ptrs (α : Type*) where
  next : α → α
  prev : α → α

namespace Ptrs

/-- The ring of the head alone. -/
def single (h : α) : Ptrs α where
  next := fun _ => h
  prev := fun _ => h

/-- The neighbours of `x` are linked to each other. -/
def unlink (r : Ptrs α) (x : α) : Ptrs α :=
  let r := { r with prev := update r.prev (r.next x) (r.prev x) }
  { r with next := update r.next (r.prev x) (r.next x) }

/-- `x` is put in after the head. -/
def insert (r : Ptrs α) (h x : α) : Ptrs α :=
  let r := { r with next := update r.next x (r.next h) }
  let r := { r with prev := update r.prev x h }
  let r := { r with prev := update r.prev (r.next h) x }
  { r with next := update r.next h x }

/-- The pointers the other way round. -/
def flip (r : Ptrs α) : Ptrs α where
  next := r.prev
  prev := r.next

end Ptrs

variable {r r' : Ptrs α}

/-- The pointers lead from `a` through the list to `b`, and back. -/
def Links (r : Ptrs α) (a : α) : List α → α → Prop
  | [], b => r.next a = b ∧ r.prev b = a
  | x :: l, b => r.next a = x ∧ r.prev x = a ∧ Links r x l b

theorem links_append : Links r a (l₁ ++ x :: l₂) b ↔ Links r a l₁ x ∧ Links r x l₂ b := by
  induction l₁ generalizing a with
  | nil => simp only [List.nil_append, Links, and_assoc]
  | cons y l₁ ih => simp only [List.cons_append, Links, ih, and_assoc]

/-- Only the pointers along the way matter. -/
theorem Links.congr (hl : Links r a l b) (hn : ∀ y ∈ a :: l, r'.next y = r.next y)
    (hp : ∀ y ∈ l ++ [b], r'.prev y = r.prev y) : Links r' a l b := by
  induction l generalizing a with
  | nil =>
    refine ⟨?_, ?_⟩
    · rw [hn a (by simp), hl.1]
    · rw [hp b (by simp), hl.2]
  | cons y l ih =>
    refine ⟨?_, ?_, ih hl.2.2 (fun z hz => hn z (by simp [hz])) fun z hz => hp z (by simp [hz])⟩
    · rw [hn a (by simp), hl.1]
    · rw [hp y (by simp), hl.2.1]

theorem Links.flip (hl : Links r a l b) : Links r.flip b l.reverse a := by
  induction l generalizing a with
  | nil => exact ⟨hl.2, hl.1⟩
  | cons y l ih =>
    rw [List.reverse_cons]
    exact links_append.2 ⟨ih hl.2.2, hl.2.1, hl.1⟩

theorem Links.next_mem (hl : Links r a l b) : r.next a ∈ l ++ [b] := by
  cases l with
  | nil => simp [hl.1]
  | cons y l => simp [hl.1]

theorem Links.prev_mem (hl : Links r a l b) : r.prev b ∈ a :: l := by
  have := hl.flip.next_mem
  simpa [Ptrs.flip, or_comm] using this

/-- The pointers lead from the head through the list back to the head. -/
structure IsRing (r : Ptrs α) (h : α) (l : List α) : Prop where
  links : Links r h l h
  nodup : (h :: l).Nodup

theorem Ptrs.unlink_eq : r.unlink x =
    ⟨update r.next (r.prev x) (r.next x), update r.prev (r.next x) (r.prev x)⟩ := by
  by_cases hx : x = r.next x
  · simp [unlink, ← hx]
  · simp [unlink, hx]

/-- What lies around `x` is linked. -/
theorem Links.unlink {s e : α} (h₁ : Links r s l₁ x) (h₂ : Links r x l₂ e)
    (hs : (s :: (l₁ ++ x :: l₂)).Nodup) (he : (l₁ ++ x :: l₂ ++ [e]).Nodup) :
    Links (r.unlink x) s (l₁ ++ l₂) e := by
  rw [Ptrs.unlink_eq]
  induction l₁ generalizing s with
  | nil =>
    obtain ⟨-, hprev⟩ := h₁
    rw [hprev]
    cases l₂ with
    | nil => exact ⟨by simpa using h₂.1, by simp [h₂.1]⟩
    | cons y l₂ =>
      obtain ⟨hn, -, hl⟩ := h₂
      rw [hn]
      refine ⟨by simp, by simp, hl.congr (fun z hz => ?_) fun z hz => ?_⟩
      · refine update_of_ne ?_ ..
        rintro rfl
        simp at hs hz
        grind
      · refine update_of_ne ?_ ..
        rintro rfl
        simp at he hz
        grind
  | cons y l₁ ih =>
    obtain ⟨hn, hp, hl⟩ := h₁
    have hprev : r.prev x ∈ y :: l₁ := hl.prev_mem
    have hnext : r.next x ∈ l₂ ++ [e] := h₂.next_mem
    refine ⟨?_, ?_, ih hl (List.nodup_cons.1 hs).2 (List.nodup_cons.1 he).2⟩
    · simp only
      rw [update_of_ne, hn]
      intro heq
      rw [← heq] at hprev
      exact (List.nodup_cons.1 hs).1 (by simp at hprev ⊢; tauto)
    · simp only
      rw [update_of_ne, hp]
      intro heq
      rw [← heq] at hnext
      exact (List.nodup_cons.1 he).1 (by simp at hnext ⊢; tauto)

namespace IsRing

theorem single : IsRing (Ptrs.single h) h [] :=
  ⟨⟨rfl, rfl⟩, by simp⟩

/-- A node is taken out. -/
theorem unlink (hr : IsRing r h (l₁ ++ x :: l₂)) : IsRing (r.unlink x) h (l₁ ++ l₂) := by
  obtain ⟨h₁, h₂⟩ := links_append.1 hr.links
  have hsub : (h :: (l₁ ++ l₂)).Sublist (h :: (l₁ ++ x :: l₂)) :=
    ((List.Sublist.refl l₁).append (List.sublist_cons_self x l₂)).cons_cons h
  refine ⟨h₁.unlink h₂ hr.nodup ?_, hr.nodup.sublist hsub⟩
  exact (List.perm_append_singleton h _).nodup_iff.2 hr.nodup

/-- A node is put in after the head. -/
theorem insert (hr : IsRing r h l) (hx : x ∉ h :: l) : IsRing (r.insert h x) h (x :: l) := by
  have hxh : x ≠ h := fun he => hx (by simp [he])
  have hxl : x ∉ l := fun he => hx (by simp [he])
  refine ⟨?_, (List.Perm.swap h x l).nodup_iff.1 (List.nodup_cons.2 ⟨hx, hr.nodup⟩)⟩
  have heq : r.insert h x = ⟨update (update r.next x (r.next h)) h x,
      update (update r.prev x h) (r.next h) x⟩ := by
    simp [Ptrs.insert, hxh.symm]
  rw [heq]
  have hn := hr.links.next_mem
  have hxn : x ≠ r.next h := by
    rintro rfl
    simp at hn
    tauto
  refine ⟨by simp, by simp [hxn], ?_⟩
  cases l with
  | nil =>
    obtain ⟨hn, hp⟩ := hr.links
    exact ⟨by simp [hxh, hn], by simp [hn]⟩
  | cons y l =>
    obtain ⟨hn, hp, hl⟩ := hr.links
    have hnd := hr.nodup
    refine ⟨by simp [hxh, hn], by simp [hn], hl.congr (fun z hz => ?_) fun z hz => ?_⟩
    · have hzh : z ≠ h := by
        rintro rfl
        exact (List.nodup_cons.1 hnd).1 hz
      have hzx : z ≠ x := by
        rintro rfl
        exact hxl hz
      simp [hzh, hzx]
    · have hzy : z ≠ r.next h := by
        rw [hn]
        rintro rfl
        simp at hnd hz
        grind
      have hzx : z ≠ x := by
        rintro rfl
        simp at hz
        grind
      simp [hzy, hzx]

end IsRing

/-! ## Walks -/

/-- The first node with the property, along the pointers from `x` to the head, in at most `n`
steps. -/
def walk (f : α → α) (h : α) (P : α → Bool) : ℕ → α → Option α
  | 0, _ => none
  | n + 1, x => if x = h then none else if P x then some x else walk f h P n (f x)

theorem walk_of_links {P : α → Bool} {n : ℕ} (hl : Links r a l h) (hh : h ∉ l)
    (hn : l.length < n) : walk r.next h P n (r.next a) = l.find? P := by
  induction l generalizing a n with
  | nil =>
    obtain ⟨n, rfl⟩ := Nat.exists_eq_succ_of_ne_zero (Nat.ne_zero_of_lt hn)
    simp [walk, hl.1]
  | cons y l ih =>
    obtain ⟨n, rfl⟩ := Nat.exists_eq_succ_of_ne_zero (Nat.ne_zero_of_lt hn)
    obtain ⟨hy, -, hl⟩ := hl
    rw [List.mem_cons, not_or] at hh
    have hn : l.length < n := by simpa using hn
    rw [walk, hy, if_neg (Ne.symm hh.1), List.find?_cons, ih hl hh.2 hn]
    cases P y <;> simp

/-- A walk along `next` finds the first of the list. -/
theorem IsRing.walk_next {P : α → Bool} {n : ℕ} (hr : IsRing r h l) (hn : l.length < n) :
    walk r.next h P n (r.next h) = l.find? P :=
  walk_of_links hr.links (List.nodup_cons.1 hr.nodup).1 hn

/-- A walk along `prev` finds the last of the list. -/
theorem IsRing.walk_prev {P : α → Bool} {n : ℕ} (hr : IsRing r h l) (hn : l.length < n) :
    walk r.prev h P n (r.prev h) = l.reverse.find? P := by
  refine walk_of_links hr.links.flip ?_ (by simpa using hn)
  simpa using (List.nodup_cons.1 hr.nodup).1

end LinkedRing
