import Mathlib

/-!
# Singly linked rings

The pointers `next` lead from a node through a list of others to a last one (`Leads`). Where the
last one is the first the list is a ring, which may be read from any of its nodes
(`Leads.rotate`), and each node has one before it (`Leads.injOn`). A node is taken out or put in by
an assignment to the node before it (`Leads.remove`, `Leads.replace`).
-/

open Function

namespace Chain

variable {α : Type*} {next next' : α → α} {a b x y : α} {l l₁ l₂ m : List α}

/-- The pointers lead from `a` through the list to `b`. -/
def Leads (next : α → α) (a : α) (l : List α) (b : α) : Prop :=
  (a :: l).map next = l ++ [b]

theorem leads_nil : Leads next a [] b ↔ next a = b := by
  simp [Leads]

theorem leads_cons : Leads next a (x :: l) b ↔ next a = x ∧ Leads next x l b := by
  simp [Leads]

theorem leads_append : Leads next a (l₁ ++ x :: l₂) b ↔ Leads next a l₁ x ∧ Leads next x l₂ b := by
  induction l₁ generalizing a with
  | nil => rw [List.nil_append, leads_cons, leads_nil]
  | cons y l₁ ih => rw [List.cons_append, leads_cons, leads_cons, ih, and_assoc]

namespace Leads

/-- Only the pointers along the way matter. -/
theorem congr (h : Leads next a l b) (hn : ∀ y ∈ a :: l, next' y = next y) : Leads next' a l b := by
  rw [Leads, ← h]
  exact List.map_congr_left hn

/-- The way goes on from another node. -/
theorem head (h : Leads next a l b) (ha : next' x = next a) (hn : ∀ y ∈ l, next' y = next y) :
    Leads next' x l b := by
  rw [Leads, List.map_cons, ha, List.map_congr_left hn]
  exact h

/-- The first node after `a`. -/
theorem next_eq (h : Leads next a l b) : next a = (l ++ [b]).head (by simp) := by
  cases l with
  | nil => exact leads_nil.1 h
  | cons x l => exact (leads_cons.1 h).1

/-- The way from a node on it. -/
theorem from_mem (h : Leads next a l b) (hl : a :: l = l₁ ++ x :: l₂) : Leads next x l₂ b := by
  cases l₁ with
  | nil =>
    obtain ⟨rfl, rfl⟩ := List.cons.inj hl
    exact h
  | cons y l₁ =>
    obtain ⟨rfl, rfl⟩ := List.cons.inj hl
    exact (leads_append.1 h).2

/-- The way from a node on it is another one. -/
theorem replace (h : Leads next a l b) (hl : a :: l = l₁ ++ x :: l₂)
    (hn : ∀ y ∈ l₁, next' y = next y) (hm : Leads next' x m b) :
    ∃ l', a :: l' = l₁ ++ x :: m ∧ Leads next' a l' b := by
  cases l₁ with
  | nil =>
    obtain ⟨rfl, -⟩ := List.cons.inj hl
    exact ⟨m, rfl, hm⟩
  | cons y l₁ =>
    obtain ⟨rfl, rfl⟩ := List.cons.inj hl
    exact ⟨l₁ ++ x :: m, rfl, leads_append.2 ⟨(leads_append.1 h).1.congr hn, hm⟩⟩

/-- A ring, from another of its nodes. -/
theorem rotate (h : Leads next a l a) (hx : x ∈ a :: l) :
    ∃ m, Leads next x m x ∧ (x :: m).Perm (a :: l) := by
  rcases List.mem_cons.1 hx with rfl | hx
  · exact ⟨l, h, .refl _⟩
  · obtain ⟨l₁, l₂, rfl⟩ := List.append_of_mem hx
    obtain ⟨h₁, h₂⟩ := leads_append.1 h
    refine ⟨l₂ ++ a :: l₁, leads_append.2 ⟨h₂, h₁⟩, ?_⟩
    rw [← List.cons_append, ← List.cons_append]
    exact List.perm_append_comm

/-- Each node of a ring is after one other. -/
theorem injOn (h : Leads next a l a) (hnd : (a :: l).Nodup) (hx : x ∈ a :: l) (hy : y ∈ a :: l)
    (hxy : next x = next y) : x = y := by
  have hmap : ((a :: l).map next).Nodup := by
    rw [h]
    exact (List.perm_append_singleton a l).nodup_iff.2 hnd
  exact List.inj_on_of_nodup_map hmap hx hy hxy

theorem next_mem (h : Leads next a l a) (hx : x ∈ a :: l) : next x ∈ a :: l := by
  have hmem : next x ∈ (a :: l).map next := List.mem_map_of_mem hx
  rw [h] at hmem
  exact (List.perm_append_singleton a l).mem_iff.1 hmem

/-- A node is passed by the one before it. -/
theorem remove [DecidableEq α] (h : Leads next a (l₁ ++ x :: l₂) b)
    (hnd : (a :: (l₁ ++ x :: l₂)).Nodup) :
    ∃ w ∈ a :: l₁, next w = x ∧ Leads (update next w (next x)) a (l₁ ++ l₂) b := by
  induction l₁ generalizing a with
  | nil =>
    rw [List.nil_append, leads_cons] at h
    obtain ⟨ha, hx⟩ := h
    refine ⟨a, List.mem_cons_self, ha, hx.head (update_self ..) fun y hy => update_of_ne ?_ _ _⟩
    rintro rfl
    exact (List.nodup_cons.1 hnd).1 (by simp [hy])
  | cons y l₁ ih =>
    rw [List.cons_append, leads_cons] at h
    have hnd' := (List.nodup_cons.1 hnd).2
    obtain ⟨w, hw, hwx, hl⟩ := ih h.2 hnd'
    refine ⟨w, List.mem_cons_of_mem _ hw, hwx, ?_⟩
    rw [List.cons_append, leads_cons]
    refine ⟨(update_of_ne ?_ _ _).trans h.1, hl⟩
    rintro rfl
    refine (List.nodup_cons.1 hnd).1 ?_
    rw [List.cons_append, ← List.cons_append]
    exact List.mem_append_left _ hw

end Leads

end Chain
