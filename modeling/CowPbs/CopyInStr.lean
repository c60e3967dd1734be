import Mathlib
import CowPbs.PageTable

/-!
# Fetching strings from user memory

`copyinstr` goes through user memory page by page, with `n` bytes left in the page and `max`
in the buffer. What it fetches does not depend on the pages : it is `fetch` of the bytes of
the address space from `srcva` on, where an address without a user page has no byte. One
page is `n` bytes of it (`copyinstrPage_spec`), and the whole string follows
(`copyinstrFrom_spec`, `copyinstr_exact`). Since `walkaddr` says with a 0 that there is no
page, a user page at physical address 0 does not count (`copyinstr_page_zero`).
-/

open Prog Bytes

namespace CowPbs

/-! ## The function -/

/-- `*p`. -/
def lb (p : ℕ) : K Byte := do
  return (← get).mem p

/-- The inner loop of `copyinstr` : the bytes it writes to `dst`, `got_null`, and `max`. -/
def copyinstrPage : ℕ → ℕ → ℕ → K (List Byte × Bool × ℕ)
  | 0, _, max => return ([], false, max)
  | n + 1, p, max => do
    let c ← lb p
    if c = 0 then return ([0], true, max)
    else
      let (l, gotNull, max) ← copyinstrPage n (p + 1) (max - 1)
      return (c :: l, gotNull, max)

/-- The outer loop, for a number of turns that `max` bounds, since each takes a byte. -/
def copyinstrFrom (pagetable : ℕ) : ℕ → ℕ → ℕ → K (List Byte × ℤ)
  | 0, _, _ => return ([], -1)
  | turns + 1, srcva, max => do
    if max = 0 then return ([], -1)
    else
      let va0 := PGROUNDDOWN srcva
      let pa0 ← walkaddr pagetable va0
      if pa0 = 0 then return ([], -1)
      else
        let n := if max < PGSIZE - (srcva - va0) then max else PGSIZE - (srcva - va0)
        let (l, gotNull, max) ← copyinstrPage n (pa0 + (srcva - va0)) max
        if gotNull then return (l, 0)
        else
          let (l', ret) ← copyinstrFrom pagetable turns ((va0 + PGSIZE) % 2 ^ 64) max
          return (l ++ l', ret)

/-- `copyinstr`, with the bytes that it writes to `dst`. -/
def copyinstr (pagetable srcva max : ℕ) : K (List Byte × ℤ) :=
  copyinstrFrom pagetable max srcva max

/-! ## The bytes of an address space -/

/-- The address `va` has a user page, at physical address `pa`. -/
def UserPage (m : Mem) (pagetable va pa : ℕ) : Prop :=
  va < MAXVA ∧ ∃ pte, pteAddr m pagetable va = some pte ∧ has (Bytes.get m pte 8) PTE_V ∧
    has (Bytes.get m pte 8) PTE_U ∧ PTE2PA (Bytes.get m pte 8) = pa

/-- The byte at the user address `va`, in a page that is not at physical address 0. -/
def UserByte (m : Mem) (pagetable va : ℕ) (c : Byte) : Prop :=
  ∃ pa, UserPage m pagetable va pa ∧ pa ≠ 0 ∧ m (pa + va % PGSIZE) = c

/-- The same, as the code finds it. -/
def userByte (m : Mem) (pagetable va : ℕ) : Option Byte :=
  if userPage m pagetable va = 0 then none
  else some (m (userPage m pagetable va + va % PGSIZE))

section

variable {m : Mem} {pagetable va va' pa : ℕ} {c : Byte}

theorem userPage_eq_iff (hpa : pa ≠ 0) :
    userPage m pagetable va = pa ↔ UserPage m pagetable va pa := by
  unfold userPage UserPage
  by_cases hva : MAXVA ≤ va
  · rw [if_pos hva]
    exact ⟨fun h => absurd h.symm hpa, fun h => absurd h.1 (not_lt.2 hva)⟩
  · rw [if_neg hva]
    cases pteAddr m pagetable va with
    | none => exact ⟨fun h => absurd h.symm hpa, fun ⟨_, _, h, _⟩ => by cases h⟩
    | some pte =>
      dsimp only
      constructor
      · intro h
        split_ifs at h with hflags
        · exact ⟨not_le.1 hva, pte, rfl, hflags.1, hflags.2, h⟩
        · exact absurd h.symm hpa
      · rintro ⟨-, _, ⟨⟩, hV, hU, h⟩
        rw [if_pos ⟨hV, hU⟩, h]

theorem userByte_eq_some : userByte m pagetable va = some c ↔ UserByte m pagetable va c := by
  unfold userByte UserByte
  by_cases h0 : userPage m pagetable va = 0
  · rw [if_pos h0]
    refine ⟨nofun, fun ⟨pa, h, hpa, _⟩ => absurd ?_ hpa⟩
    rw [← h0]
    exact ((userPage_eq_iff hpa).2 h).symm
  · rw [if_neg h0, Option.some.injEq]
    constructor
    · exact fun h => ⟨_, (userPage_eq_iff h0).1 rfl, h0, h⟩
    · rintro ⟨pa, h, hpa, hc⟩
      rwa [(userPage_eq_iff hpa).2 h]

/-- Where a page begins and ends. -/
theorem PGROUNDDOWN_add (va : ℕ) : PGROUNDDOWN va + va % PGSIZE = va := by
  rw [PGROUNDDOWN, Nat.mul_comm]
  exact Nat.div_add_mod va PGSIZE

theorem sub_PGROUNDDOWN (va : ℕ) : va - PGROUNDDOWN va = va % PGSIZE := by
  have := PGROUNDDOWN_add va
  omega

/-- The addresses of a page have the same entry. -/
theorem lookupFrom_congr (h : va' / PGSIZE = va / PGSIZE) :
    ∀ level pagetable, level ≤ 2 →
      lookupFrom m va' level pagetable = lookupFrom m va level pagetable
  | 0, pagetable, _ => by rw [lookupFrom, lookupFrom, PX_zero, PX_zero, h]
  | level + 1, pagetable, hl => by
    have hpx : PX (level + 1) va' = PX (level + 1) va := by
      obtain rfl | rfl : level = 0 ∨ level = 1 := by omega
      · rw [PX_one, PX_one, h]
      · rw [PX_two, PX_two, h]
    rw [lookupFrom, lookupFrom, hpx]
    split_ifs with hV
    · exact lookupFrom_congr h level _ (by omega)
    · rfl

theorem userPage_congr (h : va' / PGSIZE = va / PGSIZE) :
    userPage m pagetable va' = userPage m pagetable va := by
  have hmax : MAXVA ≤ va' ↔ MAXVA ≤ va := by
    rw [← not_lt, ← not_lt, ← page_lt_iff, ← page_lt_iff, h]
  unfold userPage
  rw [if_congr hmax rfl rfl, pteAddr, lookupFrom_congr h 2 pagetable le_rfl, pteAddr]

theorem userPage_ne_zero_lt (h : userPage m pagetable va ≠ 0) : va < MAXVA :=
  ((userPage_eq_iff h).1 rfl).1

theorem PGROUNDDOWN_div (va : ℕ) : PGROUNDDOWN va / PGSIZE = va / PGSIZE :=
  mul_PGSIZE_div _

/-- The bytes up to the end of the page of `va`. -/
theorem userByte_add {j : ℕ} (h : userPage m pagetable (PGROUNDDOWN va) ≠ 0)
    (hj : va % PGSIZE + j < PGSIZE) :
    userByte m pagetable (va + j) =
      some (m (userPage m pagetable (PGROUNDDOWN va) + va % PGSIZE + j)) := by
  have hpage : (va + j) / PGSIZE = va / PGSIZE ∧ (va + j) % PGSIZE = va % PGSIZE + j := by
    simp only [PGSIZE] at hj ⊢
    omega
  have huser : userPage m pagetable (va + j) = userPage m pagetable (PGROUNDDOWN va) :=
    userPage_congr (by rw [PGROUNDDOWN_div, hpage.1])
  rw [userByte, huser, if_neg h, hpage.2, Nat.add_assoc]

theorem userByte_none (h : userPage m pagetable (PGROUNDDOWN va) = 0) :
    userByte m pagetable va = none := by
  rw [userByte, if_pos]
  rw [← h]
  exact userPage_congr (PGROUNDDOWN_div va).symm

end

/-! ## What is fetched -/

/-- The bytes fetched, and the result, if `b j` is the byte `j` places on, for a buffer of
`max` bytes. -/
def fetch : (ℕ → Option Byte) → ℕ → List Byte × ℤ
  | _, 0 => ([], -1)
  | b, max + 1 =>
    match b 0 with
    | none => ([], -1)
    | some c =>
      if c = 0 then ([0], 0)
      else (c :: (fetch (fun j => b (j + 1)) max).1, (fetch (fun j => b (j + 1)) max).2)

section

variable {b b' : ℕ → Option Byte} {max k : ℕ} {c : Byte}

theorem fetch_none (h : b 0 = none) : fetch b max = ([], -1) := by
  cases max with
  | zero => rfl
  | succ max => rw [fetch, h]

theorem fetch_zero (h : b 0 = some 0) : fetch b (max + 1) = ([0], 0) := by
  rw [fetch, h]
  exact if_pos rfl

theorem fetch_cons (h : b 0 = some c) (hc : c ≠ 0) : fetch b (max + 1) =
    (c :: (fetch (fun j => b (j + 1)) max).1, (fetch (fun j => b (j + 1)) max).2) := by
  rw [fetch, h]
  exact if_neg hc

/-- There is a NUL `k` bytes on, and no earlier one. -/
def NulAt (b : ℕ → Option Byte) (k : ℕ) : Prop :=
  (∀ j < k, ∃ c, b j = some c ∧ c ≠ 0) ∧ b k = some 0

theorem nulAt_succ (h : b 0 = some c) (hc : c ≠ 0) :
    NulAt b (k + 1) ↔ NulAt (fun j => b (j + 1)) k := by
  constructor
  · exact fun ⟨h₁, h₂⟩ => ⟨fun j hj => h₁ (j + 1) (by omega), h₂⟩
  · refine fun ⟨h₁, h₂⟩ => ⟨fun j hj => ?_, h₂⟩
    cases j with
    | zero => exact ⟨c, h, hc⟩
    | succ j => exact h₁ j (by omega)

theorem length_fetch : (fetch b max).1.length ≤ max := by
  induction max generalizing b with
  | zero => exact le_rfl
  | succ max ih =>
    rw [fetch]
    cases b 0 with
    | none => exact Nat.zero_le _
    | some c =>
      dsimp only
      split_ifs
      · exact Nat.succ_le_succ (Nat.zero_le _)
      · exact Nat.succ_le_succ ih

theorem fetch_ret : (fetch b max).2 = 0 ∨ (fetch b max).2 = -1 := by
  induction max generalizing b with
  | zero => exact .inr rfl
  | succ max ih =>
    rw [fetch]
    cases b 0 with
    | none => exact .inr rfl
    | some c =>
      dsimp only
      split_ifs
      · exact .inl rfl
      · exact ih

/-- What was fetched is what is there. -/
theorem getElem?_fetch {j : ℕ} (hj : j < (fetch b max).1.length) :
    (fetch b max).1[j]? = b j := by
  induction max generalizing b j with
  | zero => exact absurd hj (Nat.not_lt_zero _)
  | succ max ih =>
    cases hb : b 0 with
    | none =>
      rw [fetch_none hb] at hj
      exact absurd hj (Nat.not_lt_zero _)
    | some c =>
      by_cases hc : c = 0
      · subst hc
        rw [fetch_zero hb] at hj ⊢
        obtain rfl : j = 0 := Nat.lt_one_iff.1 hj
        exact hb.symm
      · rw [fetch_cons hb hc] at hj ⊢
        cases j with
        | zero => exact hb.symm
        | succ j =>
          rw [List.getElem?_cons_succ]
          exact ih (Nat.lt_of_succ_lt_succ hj)

/-- The result is 0 for a string that fits into the buffer, and then it is all fetched. -/
theorem fetch_eq_zero : (fetch b max).2 = 0 ↔ ∃ k < max, NulAt b k := by
  induction max generalizing b with
  | zero => simp [fetch]
  | succ max ih =>
    cases hb : b 0 with
    | none =>
      rw [fetch_none hb]
      refine ⟨nofun, fun ⟨k, _, h₁, h₂⟩ => ?_⟩
      cases k with
      | zero =>
        rw [hb] at h₂
        cases h₂
      | succ k =>
        obtain ⟨c, hc, -⟩ := h₁ 0 (Nat.succ_pos k)
        rw [hb] at hc
        cases hc
    | some c =>
      by_cases hc : c = 0
      · subst hc
        rw [fetch_zero hb]
        exact ⟨fun _ => ⟨0, Nat.succ_pos _, nofun, hb⟩, fun _ => rfl⟩
      · rw [fetch_cons hb hc, ih]
        constructor
        · exact fun ⟨k, hk, h⟩ => ⟨k + 1, Nat.succ_lt_succ hk, (nulAt_succ hb hc).2 h⟩
        · rintro ⟨k, hk, h⟩
          cases k with
          | zero =>
            have h₂ := h.2
            rw [hb] at h₂
            exact absurd (Option.some.inj h₂) hc
          | succ k => exact ⟨k, Nat.lt_of_succ_lt_succ hk, (nulAt_succ hb hc).1 h⟩

theorem length_fetch_of_nulAt (hk : k < max) (h : NulAt b k) :
    (fetch b max).1.length = k + 1 := by
  induction max generalizing b k with
  | zero => exact absurd hk (Nat.not_lt_zero _)
  | succ max ih =>
    cases k with
    | zero =>
      rw [fetch_zero h.2]
      rfl
    | succ k =>
      obtain ⟨c, hb, hc⟩ := h.1 0 (Nat.succ_pos k)
      rw [fetch_cons hb hc]
      exact congrArg (· + 1) (ih (Nat.lt_of_succ_lt_succ hk) ((nulAt_succ hb hc).1 h))

/-- What lies beyond the NUL, or the end of the buffer, does not matter. -/
theorem fetch_congr
    (h : ∀ j < max, (∀ i < j, ∃ c, b i = some c ∧ c ≠ 0) → b' j = b j) :
    fetch b' max = fetch b max := by
  induction max generalizing b b' with
  | zero => rfl
  | succ max ih =>
    have h0 : b' 0 = b 0 := h 0 (Nat.succ_pos _) nofun
    cases hb : b 0 with
    | none => rw [fetch_none hb, fetch_none (h0.trans hb)]
    | some c =>
      by_cases hc : c = 0
      · subst hc
        rw [fetch_zero hb, fetch_zero (h0.trans hb)]
      · have htail : fetch (fun j => b' (j + 1)) max = fetch (fun j => b (j + 1)) max := by
          refine ih fun j hj hlt => h (j + 1) (Nat.succ_lt_succ hj) fun i hi => ?_
          cases i with
          | zero => exact ⟨c, hb, hc⟩
          | succ i => exact hlt i (Nat.lt_of_succ_lt_succ hi)
        rw [fetch_cons hb hc, fetch_cons (h0.trans hb) hc, htail]

end

/-! ## The loops -/

section

variable {E : String → Prop} {s : Mach} {b : ℕ → Option Byte}
  {n p max turns srcva pagetable : ℕ}

@[simp] theorem wp_lb (p : ℕ) (Q : Byte → Mach → Prop) : wp E (lb p) Q s ↔ Q (s.mem p) s :=
  Iff.rfl

/-- The inner loop fetches `n` bytes, or up to a NUL. -/
theorem copyinstrPage_spec (hn : n ≤ max) (hb : ∀ j < n, b j = some (s.mem (p + j))) :
    wp E (copyinstrPage n p max) (fun r t => t = s ∧
      if r.2.1 then fetch b max = (r.1, 0)
      else r.2.2 = max - n ∧ fetch b max = (r.1 ++ (fetch (fun j => b (n + j)) (max - n)).1,
        (fetch (fun j => b (n + j)) (max - n)).2)) s := by
  induction n generalizing p max b with
  | zero =>
    refine ⟨rfl, rfl, ?_⟩
    simp
  | succ n ih =>
    obtain ⟨max, rfl⟩ := Nat.exists_eq_succ_of_ne_zero (by omega : max ≠ 0)
    have h0 : b 0 = some (s.mem p) := hb 0 (Nat.succ_pos n)
    unfold copyinstrPage
    rw [wp_bind, wp_lb, wp_ite]
    refine ⟨fun hc => ⟨rfl, ?_⟩, fun hc => ?_⟩
    · rw [if_pos rfl]
      exact fetch_zero (h0.trans (congrArg some hc))
    · refine wp_seq (ih (b := fun j => b (j + 1)) (by omega) fun j hj => ?_)
        fun ⟨l, gotNull, max'⟩ t ⟨ht, hl⟩ => ⟨ht, ?_⟩
      · rw [hb (j + 1) (by omega), Nat.add_right_comm, Nat.add_assoc]
      · have hshift : (fun j => b (n + 1 + j)) = fun j => b (n + j + 1) :=
          funext fun j => congrArg b (by omega)
        rw [fetch_cons h0 hc, Nat.succ_sub_succ, hshift]
        dsimp only [Nat.succ_sub_one] at hl ⊢
        split_ifs at hl ⊢
        · rw [hl]
        · exact ⟨hl.1, by rw [hl.2]; rfl⟩

/-- The outer loop fetches what is there. -/
theorem copyinstrFrom_spec (h : max ≤ turns) : wp E (copyinstrFrom pagetable turns srcva max)
    (fun r t => t = s ∧ r = fetch (fun j => userByte s.mem pagetable (srcva + j)) max) s := by
  -- Induction on the turns that are left.
  induction turns generalizing srcva max with
  | zero =>
    obtain rfl : max = 0 := by omega
    exact ⟨rfl, rfl⟩
  | succ turns ih =>
    unfold copyinstrFrom
    rw [wp_ite]
    constructor
    · rintro rfl
      exact ⟨rfl, by rw [fetch]⟩
    intro hmax
    rw [wp_bind, wp_walkaddr, wp_ite, sub_PGROUNDDOWN]
    constructor
    · intro hpa
      have hnone : userByte s.mem pagetable (srcva + 0) = none := userByte_none hpa
      exact ⟨rfl, (fetch_none hnone).symm⟩
    intro hpa
    have hoff : srcva % PGSIZE < PGSIZE := Nat.mod_lt _ PGSIZE_pos
    have hva := userPage_ne_zero_lt hpa
    generalize hn : (if max < PGSIZE - srcva % PGSIZE then max
      else PGSIZE - srcva % PGSIZE) = n
    have hnle : n ≤ max ∧ n ≤ PGSIZE - srcva % PGSIZE ∧ 0 < n := by
      split_ifs at hn <;> omega
    refine wp_seq (copyinstrPage_spec (b := fun j => userByte s.mem pagetable (srcva + j)) hnle.1
      fun j hj => userByte_add hpa (by omega)) ?_
    rintro ⟨l, gotNull, max'⟩ t ⟨ht, hl⟩
    subst ht
    dsimp only at hl ⊢
    cases gotNull with
    | true =>
      rw [if_pos rfl] at hl
      exact ⟨rfl, hl.symm⟩
    | false =>
      rw [if_neg Bool.false_ne_true] at hl
      obtain ⟨rfl, hl⟩ := hl
      rw [if_neg Bool.false_ne_true]
      generalize hnext : (PGROUNDDOWN srcva + PGSIZE) % 2 ^ 64 = next
      have hrest : fetch (fun j => userByte t.mem pagetable (next + j)) (max - n) =
          fetch (fun j => userByte t.mem pagetable (srcva + (n + j))) (max - n) := by
        by_cases hlast : max - n = 0
        · rw [hlast, fetch, fetch]
        · -- the page was read to its end
          have hpage := PGROUNDDOWN_add srcva
          have hsmall : PGROUNDDOWN srcva + PGSIZE < 2 ^ 64 := by
            simp only [MAXVA, PGSIZE] at hva ⊢
            omega
          rw [Nat.mod_eq_of_lt hsmall] at hnext
          refine fetch_congr fun j _ _ => ?_
          congr 1
          split_ifs at hn <;> omega
      refine wp_seq (ih (by omega)) ?_
      rintro r u ⟨hu, hr⟩
      refine ⟨hu, ?_⟩
      rw [hl, ← hrest, ← hr]

theorem copyinstr_eq (s : Mach) (pagetable srcva max : ℕ) : copyinstr pagetable srcva max s =
    .ok (fetch (fun j => userByte s.mem pagetable (srcva + j)) max, s) := by
  have hspec : wp Never (copyinstr pagetable srcva max) (fun r t => t = s ∧
      r = fetch (fun j => userByte s.mem pagetable (srcva + j)) max) s :=
    copyinstrFrom_spec (le_refl max)
  obtain ⟨r, t, hrun, rfl, rfl⟩ := wp_exists hspec
  exact hrun

end

/-! ## The strings of an address space -/

/-- The bytes from `va` on lie in user pages up to a NUL, `k` bytes on. -/
def StringAt (m : Mem) (pagetable va k : ℕ) : Prop :=
  (∀ j < k, ∃ c, UserByte m pagetable (va + j) c ∧ c ≠ 0) ∧ UserByte m pagetable (va + k) 0

theorem nulAt_iff {m : Mem} {pagetable va k : ℕ} :
    NulAt (fun j => userByte m pagetable (va + j)) k ↔ StringAt m pagetable va k := by
  unfold NulAt StringAt
  simp only [userByte_eq_some]

/-- `copyinstr` fetches the string at `srcva`, if it fits into the buffer, and reads no user
page beyond its NUL or beyond as many bytes as the buffer has. -/
theorem copyinstr_exact (s : Mach) (pagetable srcva max : ℕ) :
    ∃ l ret, copyinstr pagetable srcva max s = .ok ((l, ret), s) ∧
      l.length ≤ max ∧ (ret = 0 ∨ ret = -1) ∧
      (ret = 0 ↔ ∃ k < max, StringAt s.mem pagetable srcva k) ∧
      (∀ k < max, StringAt s.mem pagetable srcva k → l.length = k + 1) ∧
      (∀ j c, l[j]? = some c → UserByte s.mem pagetable (srcva + j) c) ∧
      ∀ t : Mach, (∀ j < max, (∀ i < j, ∃ c, UserByte s.mem pagetable (srcva + i) c ∧ c ≠ 0) →
          ∀ c, UserByte t.mem pagetable (srcva + j) c ↔ UserByte s.mem pagetable (srcva + j) c) →
        copyinstr pagetable srcva max t = .ok ((l, ret), t) := by
  refine ⟨_, _, copyinstr_eq .., length_fetch, fetch_ret, ?_, fun k hk hs => ?_,
    fun j c hj => ?_, fun t ht => ?_⟩
  · rw [fetch_eq_zero]
    simp only [nulAt_iff]
  · exact length_fetch_of_nulAt hk (nulAt_iff.2 hs)
  · have hlt := (List.getElem?_eq_some_iff.1 hj).1
    rw [getElem?_fetch hlt] at hj
    exact userByte_eq_some.1 hj
  · rw [copyinstr_eq, fetch_congr fun j hj hlt => ?_]
    refine Option.ext fun c => ?_
    simp only [userByte_eq_some] at hlt ⊢
    exact ht j hj hlt c

/-- A page table at address 4096 that maps virtual page 0 to physical page 0. -/
def pageZero : Mach where
  mem := put (put (put (fun _ => 0) 4096 8 (PA2PTE 8192 ||| PTE_V)) 8192 8
    (PA2PTE 12288 ||| PTE_V)) 12288 8 (PTE_V ||| PTE_R ||| PTE_U)
  freelist := []
  ref _ := 0
  origin _ _ := false
  denied := false

/-- A user page at physical address 0 is no page to `copyinstr`. -/
theorem copyinstr_page_zero : ¬∀ (s t : Mach) (pagetable srcva max : ℕ) (l : List Byte) (ret : ℤ),
    copyinstr pagetable srcva max s = .ok ((l, ret), t) → (ret = 0 ↔ ∃ k < max,
      (∀ j < k, ∃ pa, UserPage s.mem pagetable (srcva + j) pa ∧
        s.mem (pa + (srcva + j) % PGSIZE) ≠ 0) ∧
      ∃ pa, UserPage s.mem pagetable (srcva + k) pa ∧
        s.mem (pa + (srcva + k) % PGSIZE) = 0) := by
  intro h
  have hret := h pageZero pageZero 4096 0 1 [] (-1) rfl
  refine absurd (hret.2 ⟨0, Nat.one_pos, nofun, 0, ⟨by decide, 12288, by decide +kernel,
    by decide +kernel, by decide +kernel, by decide +kernel⟩, by decide +kernel⟩) (by decide)

end CowPbs
