import Mathlib
import CowPbs.Lib.Rescan

/-!
# The chains of wake-ups of the two simulators

Each second main of concurrency/1.c asks `free_barista` for the first, the second, the third
free barista and so on, writes each answer into `wake_up_index` of the one before, and wakes
the first. concurrency/2.c does the same with `free_machine`. The functions here are those
of the source on arrays of `int`s, with the index -1 as `none`.

A scan clears `special_flag` of everybody it counts, so a worker who is free by that flag
alone is not counted by the next scan, which then passes over the free worker after it. The
chain reaches all free workers if and only if there is no free worker after one who is free
by the flag alone (`wake_chains_iff`).
-/

open Function Rescan

namespace CowPbs

variable {n : ℕ}

/-! ## The scans -/

/-- The scan for the `no`-th worker `i` with `works i` who is idle, or whose `special_flag`
is 1. -/
def findFree (works idle : Fin n → Bool) :
    List (Fin n) → ℤ → (Fin n → ℤ) → Option (Fin n) × (Fin n → ℤ)
  | [], _, flag => (none, flag)
  | i :: xs, no, flag =>
    if works i ∧ (idle i ∨ flag i = 1) then
      if no - 1 = 0 then (some i, update flag i 0)
      else findFree works idle xs (no - 1) (update flag i 0)
    else findFree works idle xs no flag

/-- The globals and arguments that `free_machine` reads, besides `special_flag`. -/
structure Machines (n : ℕ) where
  tmr : ℤ
  machineStart : Fin n → ℤ
  machineEnd : Fin n → ℤ
  finishTimeOrder : Fin n → ℤ

namespace Machines

/-- `machine_start[i] <= tmr && tmr <= machine_end[i]`. -/
def works (m : Machines n) (i : Fin n) : Bool :=
  m.machineStart i ≤ m.tmr ∧ m.tmr ≤ m.machineEnd i

/-- `finish_time_order[i] < tmr`. -/
def idle (m : Machines n) (i : Fin n) : Bool :=
  m.finishTimeOrder i < m.tmr

/-- `free_machine`. -/
def freeMachine (m : Machines n) (no : ℤ) (flag : Fin n → ℤ) : Option (Fin n) × (Fin n → ℤ) :=
  findFree m.works m.idle (List.finRange n) no flag

end Machines

/-- The globals that `free_barista` reads, besides `special_flag`. -/
structure Baristas (n : ℕ) where
  tmr : ℤ
  finishTimeOrder : Fin n → ℤ

namespace Baristas

/-- `finish_time_order[i] <= tmr`. -/
def idle (c : Baristas n) (i : Fin n) : Bool :=
  c.finishTimeOrder i ≤ c.tmr

/-- `free_barista`. -/
def freeBarista (c : Baristas n) (no : ℤ) (flag : Fin n → ℤ) : Option (Fin n) × (Fin n → ℤ) :=
  findFree (fun _ => true) c.idle (List.finRange n) no flag

end Baristas

/-! ## The loop of main -/

/-- The loop `while (temp != -1)`, for at most `fuel` turns : `special_flag` and
`wake_up_index` after it. -/
def chainLoop (scan : ℤ → (Fin n → ℤ) → Option (Fin n) × (Fin n → ℤ)) :
    ℕ → ℤ → Option (Fin n) → (Fin n → ℤ) → (Fin n → Option (Fin n)) →
      Option ((Fin n → ℤ) × (Fin n → Option (Fin n)))
  | _, _, none, flag, wake => some (flag, wake)
  | 0, _, some _, _, _ => none
  | fuel + 1, count, some temp, flag, wake =>
    let (temp2, flag) := scan count flag
    chainLoop scan fuel (count + 1) temp2 flag (update wake temp temp2)

/-- Main builds its chain : `first_free`, and `wake_up_index`. No worker is counted twice, so
there are at most `n` turns. -/
def buildChain (scan : ℤ → (Fin n → ℤ) → Option (Fin n) × (Fin n → ℤ)) (flag : Fin n → ℤ)
    (wake : Fin n → Option (Fin n)) : Option (Option (Fin n) × (Fin n → Option (Fin n))) :=
  let (firstFree, flag) := scan 1 flag
  (chainLoop scan n 2 firstFree flag wake).map fun r => (firstFree, r.2)

/-- Main's loop ends, and following the chain visits the workers `l`, and then ends. -/
def ChainVisits (scan : ℤ → (Fin n → ℤ) → Option (Fin n) × (Fin n → ℤ)) (flag : Fin n → ℤ)
    (wake : Fin n → Option (Fin n)) (l : List (Fin n)) : Prop :=
  ∃ firstFree wakeUp, buildChain scan flag wake = some (firstFree, wakeUp) ∧
    Visits wakeUp firstFree l

/-- Those who count as free, in order. -/
def freeWorkers (works idle : Fin n → Bool) (flag : Fin n → ℤ) : List (Fin n) :=
  (List.finRange n).filter fun i => works i ∧ (idle i ∨ flag i = 1)

/-- No free worker comes after one who is free by the flag alone. -/
def FlagLast (works idle : Fin n → Bool) (flag : Fin n → ℤ) : Prop :=
  ∀ i j, i < j → works i → ¬idle i → flag i = 1 → ¬(works j ∧ (idle j ∨ flag j = 1))

/-! ## The scans are those of `Rescan` -/

/-- The flags that are set. -/
def flagged (flag : Fin n → ℤ) (i : Fin n) : Bool :=
  flag i = 1

theorem flagged_update (flag : Fin n → ℤ) (i : Fin n) :
    flagged (update flag i 0) = update (flagged flag) i false := by
  funext j
  by_cases hj : j = i
  · subst hj
    simp [flagged]
  · simp [flagged, update_of_ne hj]

theorem findFree_eq (works idle : Fin n → Bool) (xs : List (Fin n)) (no : ℕ) (flag : Fin n → ℤ) :
    (findFree works idle xs (no + 1 : ℕ) flag).1 =
        (Rescan.find idle (xs.filter works) (no + 1) (flagged flag)).1 ∧
      flagged (findFree works idle xs (no + 1 : ℕ) flag).2 =
        (Rescan.find idle (xs.filter works) (no + 1) (flagged flag)).2 := by
  induction xs generalizing no flag with
  | nil => exact ⟨rfl, rfl⟩
  | cons i xs ih =>
    by_cases hw : works i = true
    · rw [List.filter_cons_of_pos hw]
      by_cases hfree : idle i = true ∨ flag i = 1
      · have hready : (idle i || flagged flag i) = true := by
          simpa [flagged] using hfree
        rw [findFree, if_pos ⟨hw, hfree⟩, Rescan.find, if_pos hready]
        cases no with
        | zero => exact ⟨rfl, flagged_update flag i⟩
        | succ no =>
          rw [if_neg (by push_cast; omega), if_neg (by omega), ← flagged_update]
          have := ih no (update flag i 0)
          simpa using this
      · have hready : ¬(idle i || flagged flag i) = true := by
          simpa [flagged] using hfree
        rw [findFree, if_neg fun h => hfree h.2, Rescan.find, if_neg hready]
        exact ih no flag
    · rw [List.filter_cons_of_neg hw, findFree, if_neg fun h => hw h.1]
      exact ih no flag

section Loop

variable {scan : ℤ → (Fin n → ℤ) → Option (Fin n) × (Fin n → ℤ)}
  {scan' : ℕ → (Fin n → Bool) → Option (Fin n) × (Fin n → Bool)}

theorem chainLoop_none (fuel : ℕ) (count : ℤ) (flag : Fin n → ℤ)
    (wake : Fin n → Option (Fin n)) : chainLoop scan fuel count none flag wake = some (flag, wake) := by
  cases fuel <;> rfl

/-- Main's loop links those that the rescans find. -/
theorem chainLoop_eq
    (hscan : ∀ no flag, (scan (no + 1 : ℕ) flag).1 = (scan' (no + 1) (flagged flag)).1 ∧
      flagged (scan (no + 1 : ℕ) flag).2 = (scan' (no + 1) (flagged flag)).2)
    (fuel count : ℕ) (i : Fin n) (flag : Fin n → ℤ) (wake : Fin n → Option (Fin n))
    (hlen : (chain scan' fuel (count + 1) (flagged flag)).1.length < fuel) :
    ∃ flag', chainLoop scan fuel (count + 1 : ℕ) (some i) flag wake =
      some (flag', link (i :: (chain scan' fuel (count + 1) (flagged flag)).1) wake) := by
  induction fuel generalizing count i flag wake with
  | zero => exact absurd hlen (Nat.not_lt_zero _)
  | succ fuel ih =>
    obtain ⟨h₁, h₂⟩ := hscan count flag
    rw [chain] at hlen ⊢
    rw [chainLoop]
    generalize hfound : scan (count + 1 : ℕ) flag = found at h₁ h₂
    obtain ⟨temp2, flag₂⟩ := found
    dsimp only at h₁ h₂ ⊢
    generalize hfound' : scan' (count + 1) (flagged flag) = found' at h₁ h₂ hlen ⊢
    obtain ⟨temp2', flag₂'⟩ := found'
    dsimp only at h₁ h₂
    subst h₁ h₂
    cases temp2 with
    | none => exact ⟨flag₂, chainLoop_none ..⟩
    | some j =>
      have hlen' : (chain scan' fuel (count + 1 + 1) (flagged flag₂)).1.length < fuel := by
        simpa [next] using hlen
      obtain ⟨flag', h⟩ := ih (count + 1) j flag₂ (update wake i (some j)) hlen'
      refine ⟨flag', ?_⟩
      have hcount : ((count + 1 : ℕ) : ℤ) + 1 = (count + 1 + 1 : ℕ) := by push_cast; ring
      rw [hcount, h]
      rfl

end Loop

section Main

variable {works idle : Fin n → Bool}

/-- What main's chain visits is the walk of the rescans. -/
theorem chainVisits_walk (works idle : Fin n → Bool) (flag : Fin n → ℤ)
    (wake : Fin n → Option (Fin n)) :
    ChainVisits (findFree works idle (List.finRange n)) flag wake
      (Rescan.walk idle (flagged flag) 0 0 ((List.finRange n).filter works)) := by
  have hnd : ((List.finRange n).filter works).Nodup := (List.nodup_finRange n).filter _
  have hlen : ((List.finRange n).filter works).length ≤ n := by
    simpa using List.length_filter_le works (List.finRange n)
  have hscan := findFree_eq works idle (List.finRange n)
  have hwalk : (Rescan.walk idle (flagged flag) 0 0 ((List.finRange n).filter works)).length ≤ n :=
    ((walk_sublist ..).length_le.trans (List.length_filter_le ..)).trans hlen
  obtain ⟨h₁, h₂⟩ := hscan 0 flag
  -- the first call, and the calls of the loop
  have hchain : (chain (Rescan.find idle ((List.finRange n).filter works)) (n + 1) 1
      (flagged flag)).1 = Rescan.walk idle (flagged flag) 0 0 ((List.finRange n).filter works) :=
    congrArg Prod.fst (chain_eq_walk hnd (Nat.lt_succ_of_le hlen))
  rw [chain] at hchain
  unfold ChainVisits buildChain
  generalize hfound : findFree works idle (List.finRange n) 1 flag = found at *
  obtain ⟨first, flag₁⟩ := found
  rw [Nat.zero_add] at h₁ h₂
  generalize hfound' : Rescan.find idle ((List.finRange n).filter works) 1 (flagged flag) = found'
    at h₁ h₂ hchain
  obtain ⟨first', flag₁'⟩ := found'
  dsimp only at h₁ h₂ ⊢
  subst h₁ h₂
  cases first with
  | none =>
    rw [chainLoop_none, ← hchain]
    exact ⟨none, wake, rfl, .stop⟩
  | some i =>
    have hl : (chain (Rescan.find idle ((List.finRange n).filter works)) n (1 + 1)
        (flagged flag₁)).1.length < n := by
      rw [← hchain] at hwalk
      simpa [next] using hwalk
    obtain ⟨flag', h⟩ := chainLoop_eq hscan n 1 i flag₁ wake hl
    have hline : i :: (chain (Rescan.find idle ((List.finRange n).filter works)) n (1 + 1)
        (flagged flag₁)).1 = Rescan.walk idle (flagged flag) 0 0 ((List.finRange n).filter works) :=
      hchain
    have h2 : ((1 + 1 : ℕ) : ℤ) = 2 := rfl
    rw [h2] at h
    refine ⟨some i, _, by rw [h]; rfl, ?_⟩
    rw [hline]
    have hw : (Rescan.walk idle (flagged flag) 0 0 ((List.finRange n).filter works)).Nodup :=
      ((walk_sublist ..).nodup (hnd.filter _))
    have := (linked_link hw wake).visits
    rwa [← hline] at this ⊢

/-- What the chain visits is determined. -/
theorem ChainVisits.unique {scan : ℤ → (Fin n → ℤ) → Option (Fin n) × (Fin n → ℤ)}
    {flag : Fin n → ℤ} {wake : Fin n → Option (Fin n)} {l l' : List (Fin n)}
    (h : ChainVisits scan flag wake l) (h' : ChainVisits scan flag wake l') : l = l' := by
  obtain ⟨first, wakeUp, heq, hv⟩ := h
  obtain ⟨first', wakeUp', heq', hv'⟩ := h'
  obtain ⟨rfl, rfl⟩ : first = first' ∧ wakeUp = wakeUp' := by
    simpa using heq.symm.trans heq'
  exact hv.unique hv'

theorem freeWorkers_eq (works idle : Fin n → Bool) (flag : Fin n → ℤ) :
    freeWorkers works idle flag =
      ((List.finRange n).filter works).filter fun i => idle i || flagged flag i := by
  rw [freeWorkers, List.filter_filter]
  refine List.filter_congr fun i _ => ?_
  simp [flagged, Bool.and_comm]

theorem flagLast_iff (works idle : Fin n → Bool) (flag : Fin n → ℤ) :
    LastFlagged idle (flagged flag) ((List.finRange n).filter works) ↔
      FlagLast works idle flag := by
  unfold LastFlagged FlagLast Flagged flagged
  constructor
  · intro h i j hij hwi hidle hflag ⟨hwj, hj⟩
    have := h i (by simp [hwi]) ⟨by simpa using hidle, by simpa using hflag⟩ j (by simp [hwj]) hij
    rcases hj with hj | hj
    · rw [this.1] at hj
      cases hj
    · simp [hj] at this
  · intro h i hi hfi j hj hij
    have hwi : works i = true := (List.mem_filter.1 hi).2
    have hwj : works j = true := (List.mem_filter.1 hj).2
    have := h i j hij hwi (by simp [hfi.1]) (by simpa using hfi.2)
    simp only [hwj, true_and, not_or] at this
    exact ⟨by simpa using this.1, by simpa using this.2⟩

/-- The chain visits all free workers if and only if no free worker comes after one who is
free by the flag alone. -/
theorem chainVisits_iff (works idle : Fin n → Bool) (flag : Fin n → ℤ)
    (wake : Fin n → Option (Fin n)) :
    ChainVisits (findFree works idle (List.finRange n)) flag wake (freeWorkers works idle flag) ↔
      FlagLast works idle flag := by
  have hw := chainVisits_walk works idle flag wake
  have hsorted : ((List.finRange n).filter works).Pairwise (· < ·) :=
    (List.pairwise_lt_finRange n).filter _
  rw [← flagLast_iff, ← walk_eq_filter_iff hsorted, ← freeWorkers_eq]
  constructor
  · exact fun h => hw.unique h
  · intro h
    rwa [h] at hw

end Main

/-- Following `first_free` and `wake_up_index` as main has filled them in visits exactly the
free machines, or baristas, in order, and ends with -1, if and only if no free one comes
after one that is free by its `special_flag` alone. -/
theorem wake_chains_iff (m : Machines n) (c : Baristas n) (flag : Fin n → ℤ)
    (wake : Fin n → Option (Fin n)) :
    (ChainVisits m.freeMachine flag wake (freeWorkers m.works m.idle flag) ↔
      FlagLast m.works m.idle flag) ∧
    (ChainVisits c.freeBarista flag wake (freeWorkers (fun _ => true) c.idle flag) ↔
      FlagLast (fun _ => true) c.idle flag) :=
  ⟨chainVisits_iff m.works m.idle flag wake, chainVisits_iff (fun _ => true) c.idle flag wake⟩

/-- Machine 0 has been given an order and machine 1 has none : the chain ends with machine 0,
and machine 1 is not woken. -/
theorem wake_chain_short : ∃ (m : Machines 2) (flag : Fin 2 → ℤ),
    freeWorkers m.works m.idle flag = [0, 1] ∧
    ChainVisits m.freeMachine flag (fun _ => none) [0] ∧
    ¬ChainVisits m.freeMachine flag (fun _ => none) (freeWorkers m.works m.idle flag) := by
  let m : Machines 2 := ⟨4, fun _ => 0, fun _ => 9, fun i => if i = 0 then 7 else -1⟩
  let flag : Fin 2 → ℤ := fun i => if i = 0 then 1 else 0
  have hshort : ChainVisits m.freeMachine flag (fun _ => none) [0] :=
    ⟨some 0, fun _ => none, by decide, .go .stop⟩
  have hfree : freeWorkers m.works m.idle flag = [0, 1] := by decide
  refine ⟨m, flag, hfree, hshort, fun h => ?_⟩
  rw [hfree] at h
  exact absurd (hshort.unique h) (by decide)

end CowPbs
