import Mathlib
import CowPbs.Lib.Overlay

/-!
# Maps in a table with holes

A table of slots that are empty or hold a key with a value. A new key goes into the first empty
slot, or into a new one at the end (`put`), and a key is removed by emptying its slot
(`remove`). As long as a key is put in only if it is not there the keys are pairwise different, and
the table is a finite map (`find_put`, `find_remove`).
-/

open Overlay

namespace SlotTable

variable {κ ν : Type*} [DecidableEq κ] {t t₁ t₂ : List (Option (κ × ν))} {k k' : κ} {v : ν}
  {e : Option (κ × ν)}

/-- The slot holds the key. -/
def Holds (k : κ) (e : Option (κ × ν)) : Prop :=
  ∃ v, e = some (k, v)

instance (k : κ) (e : Option (κ × ν)) : Decidable (Holds k e) :=
  match e with
  | none => isFalse fun ⟨_, h⟩ => nomatch h
  | some x => decidable_of_iff (x.1 = k)
    ⟨fun h => ⟨x.2, by rw [← h]⟩, fun ⟨_, h⟩ => congrArg Prod.fst (Option.some.inj h)⟩

/-- The value of the first slot with the key. -/
def find (k : κ) : List (Option (κ × ν)) → Option ν
  | [] => none
  | none :: t => find k t
  | some x :: t => if x.1 = k then some x.2 else find k t

/-- The key goes into the first empty slot. -/
def put (k : κ) (v : ν) : List (Option (κ × ν)) → List (Option (κ × ν))
  | [] => [some (k, v)]
  | none :: t => some (k, v) :: t
  | some x :: t => some x :: put k v t

/-- The first slot with the key is emptied. -/
def remove (k : κ) : List (Option (κ × ν)) → List (Option (κ × ν))
  | [] => []
  | none :: t => none :: remove k t
  | some x :: t => if x.1 = k then none :: t else some x :: remove k t

/-- The keys are pairwise different. -/
def Distinct (t : List (Option (κ × ν))) : Prop :=
  t.Pairwise fun e e' => ∀ k, Holds k e → ¬Holds k e'

theorem find_eq_none_iff : find k t = none ↔ ∀ e ∈ t, ¬Holds k e := by
  fun_induction find k t with
  | case1 => simp
  | case2 t ih =>
    rw [ih, List.forall_mem_cons]
    exact (and_iff_right fun ⟨_, h⟩ => nomatch h).symm
  | case3 x t hx =>
    exact iff_of_false nofun fun h => h _ List.mem_cons_self ⟨x.2, by rw [← hx]⟩
  | case4 x t hx ih =>
    rw [ih, List.forall_mem_cons]
    exact (and_iff_right fun ⟨_, h⟩ => hx (congrArg Prod.fst (Option.some.inj h))).symm

theorem mem_of_find (h : find k t = some v) : some (k, v) ∈ t := by
  fun_induction find k t with
  | case1 => cases h
  | case2 t ih => exact List.mem_cons_of_mem _ (ih h)
  | case3 x t hx =>
    rw [← Option.some.inj h, ← hx]
    exact List.mem_cons_self
  | case4 x t hx ih => exact List.mem_cons_of_mem _ (ih h)

omit [DecidableEq κ] in
theorem mem_put (h : e ∈ put k v t) : e = some (k, v) ∨ e ∈ t := by
  fun_induction put k v t with
  | case1 => exact .inl (List.mem_singleton.1 h)
  | case2 t => exact (List.mem_cons.1 h).imp id (List.mem_cons_of_mem _)
  | case3 x t ih =>
    rcases List.mem_cons.1 h with h | h
    · exact .inr (h ▸ List.mem_cons_self)
    · exact (ih h).imp id (List.mem_cons_of_mem _)

theorem mem_remove (h : e ∈ remove k t) : e = none ∨ e ∈ t := by
  fun_induction remove k t with
  | case1 => cases h
  | case2 t ih =>
    rcases List.mem_cons.1 h with h | h
    · exact .inl h
    · exact (ih h).imp id (List.mem_cons_of_mem _)
  | case3 x t => exact (List.mem_cons.1 h).imp id (List.mem_cons_of_mem _)
  | case4 x t hx ih =>
    rcases List.mem_cons.1 h with h | h
    · exact .inr (h ▸ List.mem_cons_self)
    · exact (ih h).imp id (List.mem_cons_of_mem _)

theorem find_put (h : find k t = none) :
    find k' (put k v t) = if k = k' then some v else find k' t := by
  fun_induction put k v t with
  | case1 => rfl
  | case2 t => rfl
  | case3 x t ih =>
    rw [find] at h ⊢
    split_ifs at h with hx
    rw [ih h, find]
    by_cases hk : k = k'
    · rw [if_pos hk, if_pos hk, if_neg (hk ▸ hx)]
    · rw [if_neg hk, if_neg hk]

theorem distinct_put (ht : Distinct t) (h : find k t = none) : Distinct (put k v t) := by
  have hnot := find_eq_none_iff.1 h
  have hkey : ∀ {k' : κ}, Holds k' (some (k, v)) → k' = k := fun ⟨_, h⟩ =>
    (congrArg Prod.fst (Option.some.inj h)).symm
  fun_induction put k v t with
  | case1 => exact List.pairwise_singleton _ _
  | case2 t =>
    refine List.pairwise_cons.2 ⟨fun e he k' hk' hk'' => ?_, (List.pairwise_cons.1 ht).2⟩
    obtain rfl := hkey hk'
    exact hnot e (List.mem_cons_of_mem _ he) hk''
  | case3 x t ih =>
    obtain ⟨hx, ht⟩ := List.pairwise_cons.1 ht
    have hnot' := fun e he => hnot e (List.mem_cons_of_mem _ he)
    refine List.pairwise_cons.2 ⟨fun e he k' hk' hk'' => ?_, ih ht (find_eq_none_iff.2 hnot') hnot'⟩
    rcases mem_put he with rfl | he
    · obtain rfl := hkey hk''
      exact hnot _ List.mem_cons_self hk'
    · exact hx e he k' hk' hk''

theorem find_remove (ht : Distinct t) :
    find k' (remove k t) = if k = k' then none else find k' t := by
  fun_induction remove k t with
  | case1 => exact (ite_self _).symm
  | case2 t ih => exact ih (List.pairwise_cons.1 ht).2
  | case3 x t hx =>
    obtain ⟨hx', _⟩ := List.pairwise_cons.1 ht
    rw [find, find, hx]
    split_ifs with hk
    · exact find_eq_none_iff.2 fun e he => hx' e he k' ⟨x.2, by rw [← hk, ← hx]⟩
    · rfl
  | case4 x t hx ih =>
    rw [find, find, ih (List.pairwise_cons.1 ht).2]
    split_ifs with h₁ h₂
    · exact absurd (h₁.trans h₂.symm) hx
    · rfl
    · rfl
    · rfl

theorem distinct_remove (ht : Distinct t) : Distinct (remove k t) := by
  have hnone : ∀ k', ¬Holds k' (none : Option (κ × ν)) := fun k' ⟨_, h⟩ => nomatch h
  fun_induction remove k t with
  | case1 => exact .nil
  | case2 t ih =>
    exact List.pairwise_cons.2 ⟨fun e he k' hk' => absurd hk' (hnone k'),
      ih (List.pairwise_cons.1 ht).2⟩
  | case3 x t =>
    exact List.pairwise_cons.2 ⟨fun e he k' hk' => absurd hk' (hnone k'),
      (List.pairwise_cons.1 ht).2⟩
  | case4 x t hx ih =>
    obtain ⟨hx', ht⟩ := List.pairwise_cons.1 ht
    refine List.pairwise_cons.2 ⟨fun e he k' hk' hk'' => ?_, ih ht⟩
    rcases mem_remove he with rfl | he
    · exact hnone k' hk''
    · exact hx' e he k' hk' hk''

/-! ## By index -/

/-- The first empty slot, or the end. -/
def hole : List (Option (κ × ν)) → ℕ
  | [] => 0
  | none :: _ => 0
  | some _ :: t => hole t + 1

omit [DecidableEq κ] in
theorem hole_le : hole t ≤ t.length := by
  fun_induction hole t with
  | case1 => exact le_rfl
  | case2 t => exact Nat.zero_le _
  | case3 x t ih => exact Nat.succ_le_succ ih

omit [DecidableEq κ] in
theorem hole_lt_iff : hole t < t.length ↔ none ∈ t := by
  fun_induction hole t with
  | case1 => simp
  | case2 t => simp
  | case3 x t ih => simpa using ih

omit [DecidableEq κ] in
theorem put_eq : put k v t = overlay t (hole t) [some (k, v)] := by
  fun_induction put k v t with
  | case1 => rfl
  | case2 t => rfl
  | case3 x t ih =>
    rw [ih, hole]
    rfl

/-- The index of the first slot with the key. -/
def index (k : κ) : List (Option (κ × ν)) → ℕ
  | [] => 0
  | none :: t => index k t + 1
  | some x :: t => if x.1 = k then 0 else index k t + 1

theorem remove_eq (h : find k t ≠ none) :
    index k t < t.length ∧
      remove k t = overlay t (index k t) [none] := by
  fun_induction remove k t with
  | case1 => exact absurd rfl h
  | case2 t ih =>
    obtain ⟨hlt, heq⟩ := ih h
    rw [heq, index]
    exact ⟨Nat.succ_lt_succ hlt, rfl⟩
  | case3 x t hx =>
    rw [index, if_pos hx]
    exact ⟨Nat.succ_pos _, rfl⟩
  | case4 x t hx ih =>
    rw [find, if_neg hx] at h
    obtain ⟨hlt, heq⟩ := ih h
    rw [heq, index, if_neg hx]
    exact ⟨Nat.succ_lt_succ hlt, rfl⟩

theorem remove_eq_self (h : find k t = none) : remove k t = t := by
  fun_induction remove k t with
  | case1 => rfl
  | case2 t ih => rw [ih h]
  | case3 x t hx =>
    rw [find, if_pos hx] at h
    cases h
  | case4 x t hx ih =>
    rw [find, if_neg hx] at h
    rw [ih h]

end SlotTable
