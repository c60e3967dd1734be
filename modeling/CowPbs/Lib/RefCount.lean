import Mathlib

/-!
# Reference counts

Holders have references to objects, each a multiset of them, and each object has a counter.
`Counts` says that the counter of an object is the number of references to it. A holder that
gets a reference raises the counter (`Counts.acquire`), one that gives it up lowers it
(`Counts.release`), and a reference may pass from one place of a holder to another
(`Counts.congr`). An object with a reference has a positive counter (`Counts.pos`), and one whose
counter is 1 has a single holder (`Counts.unique`).
-/

set_option linter.unusedSectionVars false

open Function

namespace RefCount

variable {κ β : Type*} [Fintype κ] [DecidableEq κ] [DecidableEq β]

/-- The counter of each object is the number of references to it. -/
def Counts (held : κ → Multiset β) (ref : β → ℤ) : Prop :=
  ∀ b, ref b = ∑ k, ((held k).count b : ℤ)

namespace Counts

variable {held held' : κ → Multiset β} {ref ref' : β → ℤ} {k j : κ} {b : β}

theorem congr (h : Counts held ref) (hk : ∀ j, held' j = held j) (hr : ∀ c, ref' c = ref c) :
    Counts held' ref' := by
  intro c
  rw [hr c, h c]
  exact Finset.sum_congr rfl fun j _ => by rw [hk j]

/-- The references of one holder change, and the counters by as much. -/
theorem change (h : Counts held ref) (hk : ∀ j, j ≠ k → held' j = held j)
    (hr : ∀ c, ref' c - ref c = (held' k).count c - (held k).count c) : Counts held' ref' := by
  intro c
  have hsum : ∑ j, (((held' j).count c : ℤ) - (held j).count c) =
      (held' k).count c - (held k).count c := by
    refine Finset.sum_eq_single k (fun j _ hj => ?_) fun hk => absurd (Finset.mem_univ k) hk
    rw [hk j hj, sub_self]
  have hc := h c
  have hd := hr c
  rw [Finset.sum_sub_distrib] at hsum
  linarith

/-- A holder gets a reference. -/
theorem acquire (h : Counts held ref) (hk : ∀ j, j ≠ k → held' j = held j)
    (hb : held' k = b ::ₘ held k) (hr : ∀ c, ref' c = if c = b then ref b + 1 else ref c) :
    Counts held' ref' := by
  refine h.change hk fun c => ?_
  rw [hr c, hb, Multiset.count_cons]
  split_ifs with hc
  · subst hc
    push_cast
    ring
  · push_cast
    ring

/-- A holder gives up a reference. -/
theorem release (h : Counts held ref) (hk : ∀ j, j ≠ k → held' j = held j)
    (hb : held k = b ::ₘ held' k) (hr : ∀ c, ref' c = if c = b then ref b - 1 else ref c) :
    Counts held' ref' := by
  refine h.change hk fun c => ?_
  rw [hr c, hb, Multiset.count_cons]
  split_ifs with hc
  · subst hc
    push_cast
    ring
  · push_cast
    ring

/-- A reference passes from one holder to another. -/
theorem pass (h : Counts held ref) (hother : ∀ i, i ≠ k → i ≠ j → held' i = held i) (hkj : k ≠ j)
    (hk : held k = b ::ₘ held' k) (hj : held' j = b ::ₘ held j) : Counts held' ref := by
  have hrel : Counts (update held k (held' k)) fun c => if c = b then ref b - 1 else ref c :=
    h.release (fun i hi => update_of_ne hi _ _) (by rw [update_self, hk]) fun _ => rfl
  refine hrel.acquire (k := j) (b := b) (fun i hi => ?_) ?_ fun c => ?_
  · by_cases hik : i = k
    · rw [hik, update_self]
    · rw [update_of_ne hik, hother i hik hi]
  · rw [update_of_ne hkj.symm, hj]
  · by_cases hc : c = b
    · rw [if_pos hc, if_pos rfl, hc, sub_add_cancel]
    · rw [if_neg hc, if_neg hc]

theorem count_le (h : Counts held ref) : ((held k).count b : ℤ) ≤ ref b := by
  rw [h b]
  exact Finset.single_le_sum (f := fun k => ((held k).count b : ℤ))
    (fun j _ => Int.natCast_nonneg _) (Finset.mem_univ k)

theorem nonneg (h : Counts held ref) : 0 ≤ ref b := by
  rw [h b]
  exact Finset.sum_nonneg fun j _ => Int.natCast_nonneg _

theorem pos (h : Counts held ref) (hb : b ∈ held k) : 1 ≤ ref b := by
  have hle := h.count_le (k := k) (b := b)
  have hpos := Multiset.count_pos.2 hb
  omega

/-- Two holders of one object count twice. -/
theorem unique (h : Counts held ref) (hr : ref b = 1) (hk : b ∈ held k) (hj : b ∈ held j) :
    j = k := by
  by_contra hne
  have hpos := Multiset.count_pos.2 hk
  have hpos' := Multiset.count_pos.2 hj
  have hle := Finset.add_le_sum (f := fun k => ((held k).count b : ℤ))
    (fun j _ => Int.natCast_nonneg _) (Finset.mem_univ j) (Finset.mem_univ k) hne
  rw [← h b, hr] at hle
  omega

/-- A single reference is held once. -/
theorem count_eq_one (h : Counts held ref) (hr : ref b = 1) (hk : b ∈ held k) :
    (held k).count b = 1 := by
  have hle := h.count_le (k := k) (b := b)
  have hpos := Multiset.count_pos.2 hk
  omega

theorem not_mem (h : Counts held ref) (hr : ref b = 0) : b ∉ held k := by
  intro hb
  have hpos := h.pos hb
  omega

end Counts

/-! ## Tables of references -/

section Table

variable {γ : Type*} [Fintype γ] [DecidableEq γ]

/-- The references in a table. -/
def table (o : γ → Option β) : Multiset β :=
  ∑ i, ((o i).toList : Multiset β)

variable {o : γ → Option β} {i : γ} {b : β}

theorem mem_table : b ∈ table o ↔ ∃ i, o i = some b := by
  simp [table, Multiset.mem_sum]

theorem table_empty (h : ∀ i, o i = none) : table o = 0 :=
  Finset.sum_eq_zero fun i _ => by simp [h i]

/-- A reference is stored in an empty entry. -/
theorem table_store (h : o i = none) : table (update o i (some b)) = b ::ₘ table o := by
  have hrest : ∑ j ∈ Finset.univ.erase i, ((update o i (some b) j).toList : Multiset β) =
      ∑ j ∈ Finset.univ.erase i, ((o j).toList : Multiset β) := by
    refine Finset.sum_congr rfl fun j hj => ?_
    rw [update_of_ne (Finset.ne_of_mem_erase hj)]
  rw [table, table, ← Finset.add_sum_erase _ _ (Finset.mem_univ i), hrest, update_self,
    ← Finset.add_sum_erase _ _ (Finset.mem_univ i), h]
  simp

/-- An entry is cleared. -/
theorem table_clear (h : o i = some b) : table o = b ::ₘ table (update o i none) := by
  have hstore := table_store (b := b) (update_self i none o)
  rwa [update_idem, ← h, update_eq_self] at hstore

/-- The number of references to an object is that of the entries that hold one. -/
theorem count_table : (table o).count b = (Finset.univ.filter fun i => o i = some b).card := by
  rw [table, Multiset.count_sum', Finset.card_filter]
  refine Finset.sum_congr rfl fun i _ => ?_
  cases hi : o i with
  | none => simp
  | some c => simp [Multiset.count_singleton, eq_comm]

end Table

end RefCount
