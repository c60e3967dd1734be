import Mathlib

/-!
# Lock tables

A lock table says who holds each lock. When the code of every party determines which
locks it holds (`held`), the table is right if the two agree (`Owns`), and that is kept by
acquiring, releasing and doing neither.

Locks that are taken in increasing order cannot deadlock : the party that holds the
greatest lock that is held is not waiting for another (`exists_not_blocked`).
-/

set_option linter.unusedSectionVars false

open Function

namespace Locks

variable {R C : Type*} [DecidableEq R]

/-- The table agrees with what the parties hold. -/
def Owns (lock : R → Option C) (held : C → Set R) : Prop :=
  ∀ r c, lock r = some c ↔ r ∈ held c

namespace Owns

variable {lock : R → Option C} {held held' : C → Set R} {r : R} {c d : C}

/-- No lock is held twice. -/
theorem unique (h : Owns lock held) (hc : r ∈ held c) (hd : r ∈ held d) : c = d :=
  Option.some.inj (((h r c).2 hc).symm.trans ((h r d).2 hd))

/-- A lock that is free is held by nobody. -/
theorem not_mem (h : Owns lock held) (hr : lock r = none) : r ∉ held c := by
  rw [← h r c, hr]
  exact nofun

theorem congr (h : Owns lock held) (hc : ∀ d, held' d = held d) : Owns lock held' := by
  intro r d
  rw [hc d]
  exact h r d

theorem acquire (h : Owns lock held) (hr : lock r = none) (hc : held' c = insert r (held c))
    (ho : ∀ d, d ≠ c → held' d = held d) : Owns (update lock r (some c)) held' := by
  intro x d
  by_cases hx : x = r
  · subst hx
    rw [update_self, Option.some.injEq]
    refine ⟨fun hd => by rw [← hd, hc]; exact Set.mem_insert _ _, fun hd => ?_⟩
    by_contra hne
    rw [ho d (Ne.symm hne)] at hd
    exact h.not_mem hr hd
  · rw [update_of_ne hx, h x d]
    by_cases hd : d = c
    · rw [hd, hc, Set.mem_insert_iff, or_iff_right hx]
    · rw [ho d hd]

theorem release (h : Owns lock held) (hr : r ∈ held c) (hc : held' c = held c \ {r})
    (ho : ∀ d, d ≠ c → held' d = held d) : Owns (update lock r none) held' := by
  intro x d
  by_cases hd : d = c
  · rw [hd, hc, Set.mem_sdiff, Set.mem_singleton_iff]
    by_cases hx : x = r
    · simp [hx]
    · rw [update_of_ne hx, h x c, and_iff_left hx]
  · rw [ho d hd]
    by_cases hx : x = r
    · subst hx
      simp only [update_self, reduceCtorEq, false_iff]
      exact fun hd' => hd (h.unique hd' hr)
    · rw [update_of_ne hx, h x d]

end Owns

/-- If every party that holds a lock and is blocked waits for a lock that is held and
greater than all it holds, some party that holds a lock is not blocked. -/
theorem exists_not_blocked [Finite R] [LinearOrder R] {lock : R → Option C}
    (blocked : C → Prop)
    (hb : ∀ r c, lock r = some c → blocked c → ∃ r', r < r' ∧ (lock r').isSome)
    {r : R} (hr : (lock r).isSome) : ∃ r c, lock r = some c ∧ ¬blocked c := by
  obtain ⟨m, hm⟩ := (Set.toFinite {x | (lock x).isSome}).exists_maximal ⟨r, hr⟩
  obtain ⟨c, hc⟩ := Option.isSome_iff_exists.1 hm.prop
  refine ⟨m, c, hc, fun hbl => ?_⟩
  obtain ⟨r', hlt, hr'⟩ := hb m c hc hbl
  exact (hm.le_of_ge hr' hlt.le).not_gt hlt

end Locks
