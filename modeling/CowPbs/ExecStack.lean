import Mathlib
import CowPbs.Exec

/-!
# The arguments of a new program

What `exec` leaves on the stack (`ArgStack`) : the strings, each with its zero, below one
another in the last page, and below them the array of pointers to them. The arguments are
refused if they do not fit into the page (`placeStack_isSome_iff`).
-/

open Bytes

namespace CowPbs

variable {top base sp sp' sz : ℕ} {argv : List (List Byte)} {arg : List Byte} {addrs addrs' : List ℕ}
  {m m' : Mem}

/-- The strings lie between `sp` and `top`, each below the one before it. -/
structure Placed (top : ℕ) (argv : List (List Byte)) (addrs : List ℕ) (sp : ℕ) (m : Mem) :
    Prop where
  length : addrs.length = argv.length
  string : ∀ x ∈ argv.zip addrs, load m x.2 (x.1.length + 1) = x.1 ++ [0]
  within : ∀ x ∈ argv.zip addrs, sp ≤ x.2 ∧ x.2 + (x.1.length + 1) ≤ top ∧ x.2 % 16 = 0
  apart : (argv.zip addrs).Pairwise fun x y => y.2 + (y.1.length + 1) ≤ x.2
  le : sp ≤ top

theorem Placed.nil : Placed top [] [] top m :=
  ⟨rfl, nofun, nofun, .nil, le_rfl⟩

theorem below_add_le {n : ℕ} (h : n ≤ sp) : below sp n + n ≤ sp := by
  unfold below
  omega

theorem below_mod (sp n : ℕ) : below sp n % 16 = 0 :=
  Nat.mul_mod_left ..

/-- A store below the stack pointer leaves the strings alone. -/
theorem Placed.store {l : List Byte} {a : ℕ} (h : Placed top argv addrs sp m)
    (ha : a + l.length ≤ sp) : Placed top argv addrs a (store m a l) where
  length := h.length
  string x hx := by
    have hlow := (h.within x hx).1
    exact (load_congr fun y hy _ => store_of_outside (.inr (by omega))).trans (h.string x hx)
  within x hx := by
    obtain ⟨hlow, hhigh, hmod⟩ := h.within x hx
    exact ⟨by omega, hhigh, hmod⟩
  apart := h.apart
  le := by
    have := h.le
    omega

/-- One more string. -/
theorem Placed.push (h : Placed top argv addrs sp m) (hroom : arg.length + 1 ≤ sp) :
    Placed top (argv ++ [arg]) (addrs ++ [below sp (arg.length + 1)]) (below sp (arg.length + 1))
      (Bytes.store m (below sp (arg.length + 1)) (arg ++ [0])) := by
  have hend := below_add_le hroom
  have hlen : (arg ++ [0]).length = arg.length + 1 := by simp
  have hst := h.store (l := arg ++ [0]) (a := below sp (arg.length + 1)) (by omega)
  have hzip : (argv ++ [arg]).zip (addrs ++ [below sp (arg.length + 1)]) =
      argv.zip addrs ++ [(arg, below sp (arg.length + 1))] :=
    List.zip_append h.length.symm
  refine ⟨by simp [h.length], fun x hx => ?_, fun x hx => ?_, ?_, hst.le⟩
  · rw [hzip] at hx
    rcases List.mem_append.1 hx with hx | hx
    · exact hst.string x hx
    · rw [List.mem_singleton.1 hx, ← hlen]
      exact load_store
  · rw [hzip] at hx
    rcases List.mem_append.1 hx with hx | hx
    · exact hst.within x hx
    · rw [List.mem_singleton.1 hx]
      exact ⟨le_rfl, hend.trans h.le, below_mod ..⟩
  · rw [hzip, List.pairwise_append]
    refine ⟨h.apart, List.pairwise_singleton .., fun x hx y hy => ?_⟩
    rw [List.mem_singleton.1 hy]
    exact hend.trans (h.within x hx).1

theorem Placed.placeArgs {rest : List (List Byte)} (h : Placed top argv addrs sp m)
    (hrun : placeArgs base rest sp addrs m = some (sp', addrs', m')) :
    Placed top (argv ++ rest) addrs' sp' m' := by
  -- Induction on the arguments that are not placed yet.
  induction rest generalizing argv sp addrs m with
  | nil =>
    obtain ⟨rfl, rfl, rfl⟩ : sp = sp' ∧ addrs = addrs' ∧ m = m' := by
      simpa [CowPbs.placeArgs] using hrun
    rwa [List.append_nil]
  | cons arg rest ih =>
    rw [CowPbs.placeArgs] at hrun
    split_ifs at hrun with hmax hroom
    have hnext := ih (h.push (by omega)) hrun
    rwa [List.append_assoc, List.singleton_append] at hnext

end CowPbs
