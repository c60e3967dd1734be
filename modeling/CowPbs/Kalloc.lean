import Mathlib
import CowPbs.Lib.Bytes
import CowPbs.Lib.Prog
import CowPbs.Riscv

/-!
# Physical memory and the page allocator

kalloc.c. Memory is a byte for each physical address, the free list is the list of the
addresses on it (its links lie in the free pages, which nobody reads), and
`no_of_ref_array` counts modulo `2 ^ 32`. The locks are left out : each function here runs
under them from its first to its last access. A panic stops the machine with its message.

`Alloc refs s` is what the allocator promises when page `n` has `refs n` owners : the count
of the page is that number, and a page is on the free list, once, if and only if it has
none. `kalloc` gives a page its first owner, `increase_no_of_ref` one more, and `kfree`
takes one away.
-/

open Function Prog Bytes

namespace CowPbs

/-- Where the linker put the kernel : `end`, and the trampoline page in its text. -/
class Layout where
  kend : ℕ
  trampoline : ℕ
  kernbase_le : KERNBASE ≤ trampoline
  trampoline_lt : trampoline < kend
  trampoline_mod : trampoline % PGSIZE = 0
  kend_le : kend ≤ PHYSTOP

/-- Physical memory, with the variables of kalloc.c. -/
structure Mach where
  mem : Mem
  /-- `kmem.freelist`. -/
  freelist : List ℕ
  /-- `no_of_ref_array`. -/
  ref : ℕ → ℕ
  /-- Not in the kernel : for a page table, the virtual pages that were mapped with `PTE_W` when
  they were created. -/
  origin : ℕ → ℕ → Bool
  /-- Not in the kernel : whether `kalloc` has returned 0. -/
  denied : Bool

/-- A kernel function. -/
abbrev K := Prog Mach

/-! ## Memory -/

/-- `memset(pa, c, PGSIZE)`. -/
def fill (m : Mem) (pa : ℕ) (c : Byte) : Mem :=
  fun x => if pa ≤ x ∧ x < pa + PGSIZE then c else m x

/-- `*(uint64*)a`. -/
def ld (a : ℕ) : K ℕ := do
  return Bytes.get (← get).mem a 8

/-- `*(uint64*)a = w`. -/
def sd (a w : ℕ) : K Unit :=
  modify fun s => { s with mem := put s.mem a 8 w }

def memset (pa : ℕ) (c : Byte) : K Unit :=
  modify fun s => { s with mem := fill s.mem pa c }

/-- `memmove` of the bytes `src`. -/
def memmove (dst : ℕ) (src : List Byte) : K Unit :=
  modify fun s => { s with mem := store s.mem dst src }

section

variable {E : String → Prop} {s : Mach}

@[simp] theorem wp_ld (a : ℕ) (Q : ℕ → Mach → Prop) :
    wp E (ld a) Q s ↔ Q (Bytes.get s.mem a 8) s :=
  Iff.rfl

@[simp] theorem wp_sd (a w : ℕ) (Q : Unit → Mach → Prop) :
    wp E (sd a w) Q s ↔ Q () { s with mem := put s.mem a 8 w } :=
  Iff.rfl

@[simp] theorem wp_memset (pa : ℕ) (c : Byte) (Q : Unit → Mach → Prop) :
    wp E (memset pa c) Q s ↔ Q () { s with mem := fill s.mem pa c } :=
  Iff.rfl

@[simp] theorem wp_memmove (dst : ℕ) (src : List Byte) (Q : Unit → Mach → Prop) :
    wp E (memmove dst src) Q s ↔ Q () { s with mem := store s.mem dst src } :=
  Iff.rfl

end

/-! ## The allocator -/

/-- `no_of_ref_array[pa >> 12]--`. -/
def decr (c : ℕ) : ℕ :=
  (c + (2 ^ 32 - 1)) % 2 ^ 32

/-- `increase_no_of_ref`. -/
def increaseNoOfRef (pa : ℕ) : K Unit :=
  modify fun s => { s with ref := update s.ref (pa >>> 12) ((s.ref (pa >>> 12) + 1) % 2 ^ 32) }

/-- `kfree(pa)`, past its panic. -/
def Mach.kfree (s : Mach) (pa : ℕ) : Mach :=
  let c := decr (s.ref (pa >>> 12))
  if 0 < c then { s with ref := update s.ref (pa >>> 12) c }
  else
    { s with
      ref := update s.ref (pa >>> 12) 0
      mem := fill s.mem pa 1
      freelist := pa :: s.freelist }

/-- `kalloc` : the address of a page, unless memory has run out. -/
def kalloc : K (Option ℕ) := do
  match (← get).freelist with
  | [] =>
    modify fun s => { s with denied := true }
    return none
  | r :: next =>
    modify fun s => { s with freelist := next }
    memset r 5
    modify fun s => { s with ref := update s.ref (r >>> 12) 1 }
    return some r

section

variable [Layout]

/-- `kfree`. -/
def kfree (pa : ℕ) : K Unit :=
  if pa % PGSIZE ≠ 0 ∨ pa < Layout.kend ∨ PHYSTOP ≤ pa then throw "kfree"
  else modify fun s => s.kfree pa

/-- `freerange`, with the `initialize_no_of_ref_array` at its end. -/
def freerange (paStart paEnd : ℕ) : K Unit := do
  let p := PGROUNDUP paStart
  forRange (fun i => do
    memset (p + i * PGSIZE) 1
    modify fun s => { s with freelist := (p + i * PGSIZE) :: s.freelist })
    ((paEnd - p) / PGSIZE) 0
  forRange (fun i => modify fun s => { s with ref := update s.ref ((p + i * PGSIZE) >>> 12) 0 })
    ((paEnd - p) / PGSIZE) 0

/-- `kinit`. -/
def kinit : K Unit :=
  freerange Layout.kend PHYSTOP

end

/-! ## Pages -/

section Pages

variable {m m' : Mem} {n k a x : ℕ}

theorem PGSIZE_pos : 0 < PGSIZE := by
  decide

theorem mul_PGSIZE_shift (n : ℕ) : (n * PGSIZE) >>> 12 = n := by
  rw [Nat.shiftRight_eq_div_pow]
  exact Nat.mul_div_cancel n PGSIZE_pos

theorem mul_PGSIZE_div (n : ℕ) : n * PGSIZE / PGSIZE = n :=
  Nat.mul_div_cancel n PGSIZE_pos

theorem mul_PGSIZE_inj (h : n * PGSIZE = k * PGSIZE) : n = k :=
  Nat.eq_of_mul_eq_mul_right PGSIZE_pos h

/-- An address of page `n`. -/
theorem page_add (n : ℕ) (hk : k < PGSIZE) : (n * PGSIZE + k) / PGSIZE = n := by
  rw [Nat.add_comm, Nat.add_mul_div_right _ _ PGSIZE_pos, Nat.div_eq_of_lt hk, Nat.zero_add]

theorem mem_page_iff : n * PGSIZE ≤ x ∧ x < n * PGSIZE + PGSIZE ↔ x / PGSIZE = n := by
  rw [Nat.div_eq_iff PGSIZE_pos]
  have := PGSIZE_pos
  omega

theorem fill_apply : fill m (n * PGSIZE) 0 x = if x / PGSIZE = n then 0 else m x :=
  if_congr mem_page_iff rfl rfl

theorem fill_of_ne {c : Byte} (h : x / PGSIZE ≠ n) : fill m (n * PGSIZE) c x = m x :=
  if_neg fun hx => h (mem_page_iff.1 hx)

/-- A store inside page `n`. -/
theorem store_of_ne {l : List Byte} (hl : k + l.length ≤ PGSIZE) (h : x / PGSIZE ≠ n) :
    store m (n * PGSIZE + k) l x = m x := by
  refine store_of_outside ?_
  by_contra hx
  exact h (mem_page_iff.1 ⟨by omega, by omega⟩)

/-! ## The words of a page -/

/-- Entry `i` of the table in page `n`. -/
def entry (m : Mem) (n i : ℕ) : ℕ :=
  Bytes.get m (n * PGSIZE + 8 * i) 8

variable {i j p w : ℕ}

/-- A word of a page lies in that page. -/
theorem word_page (hi : i < 512) (h₁ : n * PGSIZE + 8 * i ≤ x)
    (h₂ : x < n * PGSIZE + 8 * i + 8) : x / PGSIZE = n := by
  refine mem_page_iff.1 ⟨by omega, ?_⟩
  have : PGSIZE = 4096 := rfl
  omega

theorem entry_lt : entry m n i < 2 ^ 64 :=
  get_lt

theorem entry_congr (hi : i < 512) (h : ∀ x, x / PGSIZE = n → m' x = m x) :
    entry m' n i = entry m n i :=
  get_congr fun x h₁ h₂ => h x (word_page hi h₁ h₂)

theorem entry_put (hw : w < 2 ^ 64) : entry (put m (n * PGSIZE + 8 * i) 8 w) n i = w :=
  get_put_of_lt hw

theorem put_of_ne (hi : i < 512) (h : x / PGSIZE ≠ n) :
    put m (n * PGSIZE + 8 * i) 8 w x = m x := by
  refine put_of_outside ?_
  by_contra hx
  exact h (word_page hi (by omega) (by omega))

theorem entry_put_of_ne (hi : i < 512) (hj : j < 512) (h : (p, j) ≠ (n, i)) :
    entry (put m (n * PGSIZE + 8 * i) 8 w) p j = entry m p j := by
  by_cases hp : p = n
  · subst hp
    have hij : j ≠ i := fun hij => h (by rw [hij])
    exact get_put_of_disjoint (by omega)
  · refine entry_congr hj fun x hx => put_of_ne hi ?_
    rw [hx]
    exact hp

theorem entry_fill_zero (hi : i < 512) : entry (fill m (n * PGSIZE) 0) n i = 0 :=
  get_eq_zero fun x h₁ h₂ => by rw [fill_apply, if_pos (word_page hi h₁ h₂)]

end Pages

/-! ## Owners of pages -/

theorem decr_eq {c : ℕ} (h : 0 < c) (hc : c < 2 ^ 32) : decr c = c - 1 := by
  unfold decr
  omega

section

variable [Layout] {refs : ℕ → ℕ} {s t : Mach} {n : ℕ} {E : String → Prop}

/-- The page lies in `[PGROUNDUP(end), PHYSTOP)`, which `kinit` gave to the allocator. -/
def Managed (n : ℕ) : Prop :=
  Layout.kend ≤ n * PGSIZE ∧ n * PGSIZE < PHYSTOP

theorem Managed.lt (h : Managed n) : n < 2 ^ 44 := by
  have h₂ := h.2
  rw [PHYSTOP_eq, PGSIZE] at h₂
  omega

theorem Managed.pos (h : Managed n) : 0 < n := by
  have h₁ := h.1
  have h₂ := Layout.kernbase_le
  have h₃ := Layout.trampoline_lt
  simp only [PGSIZE, KERNBASE] at h₁ h₂
  omega

/-- Page `n` has `refs n` owners, and the allocator knows. -/
structure Alloc (refs : ℕ → ℕ) (s : Mach) : Prop where
  nodup : s.freelist.Nodup
  free : ∀ pa, pa ∈ s.freelist ↔ ∃ n, pa = n * PGSIZE ∧ Managed n ∧ refs n = 0
  count : ∀ n, Managed n → s.ref n = refs n
  owned : ∀ n, refs n ≠ 0 → Managed n
  bound : ∀ n, refs n < 2 ^ 32

namespace Alloc

theorem mem_free (h : Alloc refs s) (n : ℕ) :
    n * PGSIZE ∈ s.freelist ↔ Managed n ∧ refs n = 0 := by
  rw [h.free]
  constructor
  · rintro ⟨m, hm, hm'⟩
    rwa [mul_PGSIZE_inj hm]
  · exact fun hn => ⟨n, rfl, hn⟩

/-- The allocator does not read the pages. -/
theorem congr {refs' : ℕ → ℕ} (h : Alloc refs s) (hrefs : ∀ n, refs' n = refs n)
    (hf : t.freelist = s.freelist) (hr : t.ref = s.ref) : Alloc refs' t := by
  obtain rfl : refs' = refs := funext hrefs
  exact ⟨hf ▸ h.nodup, hf ▸ h.free, hr ▸ h.count, h.owned, h.bound⟩

/-- The number of owners of one page changes. -/
theorem change {k : ℕ} (h : Alloc refs s) (hn : Managed n) (hk : k < 2 ^ 32) (href : t.ref n = k)
    (hother : ∀ m ≠ n, t.ref m = s.ref m) (hnd : t.freelist.Nodup)
    (hfree : ∀ pa, pa ∈ t.freelist ↔
      (pa ∈ s.freelist ∧ pa ≠ n * PGSIZE) ∨ (pa = n * PGSIZE ∧ k = 0)) :
    Alloc (update refs n k) t where
  nodup := hnd
  free pa := by
    rw [hfree, h.free]
    constructor
    · rintro (⟨⟨m, rfl, hm, hm0⟩, hne⟩ | ⟨rfl, hk0⟩)
      · have hmn : m ≠ n := by
          rintro rfl
          exact hne rfl
        exact ⟨m, rfl, hm, by rw [update_of_ne hmn, hm0]⟩
      · exact ⟨n, rfl, hn, by rw [update_self, hk0]⟩
    · rintro ⟨m, rfl, hm, hm0⟩
      by_cases hmn : m = n
      · subst hmn
        rw [update_self] at hm0
        exact .inr ⟨rfl, hm0⟩
      · rw [update_of_ne hmn] at hm0
        exact .inl ⟨⟨m, rfl, hm, hm0⟩, fun heq => hmn (mul_PGSIZE_inj heq)⟩
  count m hm := by
    by_cases hmn : m = n
    · subst hmn
      rw [update_self, href]
    · rw [update_of_ne hmn, hother m hmn, h.count m hm]
  owned m hm := by
    by_cases hmn : m = n
    · exact hmn ▸ hn
    · rw [update_of_ne hmn] at hm
      exact h.owned m hm
  bound m := by
    by_cases hmn : m = n
    · subst hmn
      rwa [update_self]
    · rw [update_of_ne hmn]
      exact h.bound m

end Alloc

/-- `kalloc` has taken the page `n` off the free list, in state `s`. -/
structure Kalloced (refs : ℕ → ℕ) (s t : Mach) (n : ℕ) : Prop where
  managed : Managed n
  free : refs n = 0
  alloc : Alloc (update refs n 1) t
  mem : ∀ x, x / PGSIZE ≠ n → t.mem x = s.mem x
  freelist : s.freelist = n * PGSIZE :: t.freelist
  denied : t.denied = s.denied

/-- A failed `kalloc` leaves everything as it is. -/
structure Denied (s t : Mach) : Prop where
  mem : t.mem = s.mem
  freelist : t.freelist = s.freelist
  ref : t.ref = s.ref
  empty : s.freelist = []
  denied : t.denied = true

/-- What `kalloc` returned, and did. -/
def KallocPost (refs : ℕ → ℕ) (s : Mach) (o : Option ℕ) (t : Mach) : Prop :=
  match o with
  | none => Denied s t
  | some pa => ∃ n, pa = n * PGSIZE ∧ Kalloced refs s t n

theorem kalloc_spec (h : Alloc refs s) : wp E kalloc (KallocPost refs s) s := by
  unfold kalloc
  rw [wp_bind, wp_get]
  cases hl : s.freelist with
  | nil => exact ⟨rfl, hl.symm ▸ rfl, rfl, hl, rfl⟩
  | cons r next =>
    obtain ⟨n, rfl, hman, h0⟩ := (h.free r).1 (by rw [hl]; exact List.mem_cons_self)
    have hnd := h.nodup
    rw [hl, List.nodup_cons] at hnd
    refine ⟨n, rfl, hman, h0, ?_, fun x hx => fill_of_ne hx, hl, rfl⟩
    refine h.change hman (by norm_num) ?_ (fun m hm => ?_) hnd.2 fun pa => ?_
    · show update s.ref ((n * PGSIZE) >>> 12) 1 n = 1
      rw [mul_PGSIZE_shift, update_self]
    · show update s.ref ((n * PGSIZE) >>> 12) 1 m = s.ref m
      rw [mul_PGSIZE_shift, update_of_ne hm]
    · rw [hl, List.mem_cons]
      constructor
      · intro hpa
        refine .inl ⟨.inr hpa, ?_⟩
        rintro rfl
        exact hnd.1 hpa
      · rintro (⟨hpa | hpa, hne⟩ | ⟨-, h1⟩)
        · exact absurd hpa hne
        · exact hpa
        · exact absurd h1 (by norm_num)

theorem kfree_ok (hn : Managed n) (Q : Unit → Mach → Prop) :
    wp E (kfree (n * PGSIZE)) Q s ↔ Q () (s.kfree (n * PGSIZE)) := by
  have hok : ¬(n * PGSIZE % PGSIZE ≠ 0 ∨ n * PGSIZE < Layout.kend ∨ PHYSTOP ≤ n * PGSIZE) := by
    have := hn.1
    have := hn.2
    have := Nat.mul_mod_left n PGSIZE
    omega
  rw [kfree, if_neg hok]
  exact wp_modify ..

/-- One owner of page `n` less. -/
structure Kfreed (refs : ℕ → ℕ) (s t : Mach) (n : ℕ) : Prop where
  alloc : Alloc (update refs n (refs n - 1)) t
  /-- A page that still has owners keeps its bytes, and so does every other page. -/
  mem : ∀ x, (x / PGSIZE = n → 2 ≤ refs n) → t.mem x = s.mem x
  freelist : s.freelist.length ≤ t.freelist.length
  denied : t.denied = s.denied

theorem kfree_spec (h : Alloc refs s) (hn : refs n ≠ 0) :
    wp E (kfree (n * PGSIZE)) (fun _ t => Kfreed refs s t n) s := by
  have hman := h.owned n hn
  have hb := h.bound n
  have hc : decr (s.ref n) = refs n - 1 := by
    rw [h.count n hman, decr_eq (by omega) hb]
  have hnew : n * PGSIZE ∉ s.freelist := fun hm => hn ((h.mem_free n).1 hm).2
  rw [kfree_ok hman]
  unfold Mach.kfree
  rw [mul_PGSIZE_shift, hc]
  dsimp only
  split_ifs with hpos
  · refine ⟨h.change hman (by omega) (update_self ..) (fun m hm => update_of_ne hm ..) h.nodup
      fun pa => ?_, fun _ _ => rfl, le_rfl, rfl⟩
    constructor
    · refine fun hpa => .inl ⟨hpa, ?_⟩
      rintro rfl
      exact hnew hpa
    · rintro (⟨hpa, -⟩ | ⟨-, h0⟩)
      · exact hpa
      · omega
  · have h0 : refs n - 1 = 0 := by omega
    refine ⟨?_, fun x hx => fill_of_ne fun hxn => ?_, by simp, rfl⟩
    · rw [h0]
      refine h.change hman (by norm_num) (update_self ..) (fun m hm => update_of_ne hm ..)
        (List.nodup_cons.2 ⟨hnew, h.nodup⟩) fun pa => ?_
      rw [List.mem_cons]
      constructor
      · rintro (rfl | hpa)
        · exact .inr ⟨rfl, rfl⟩
        · refine .inl ⟨hpa, ?_⟩
          rintro rfl
          exact hnew hpa
      · rintro (⟨hpa, -⟩ | ⟨hpa, -⟩)
        · exact .inr hpa
        · exact .inl hpa
    · have := hx hxn
      omega

/-- One more owner, for a page that has one. -/
theorem increaseNoOfRef_spec (h : Alloc refs s) (hn : refs n ≠ 0) (hlt : refs n + 1 < 2 ^ 32) :
    wp E (increaseNoOfRef (n * PGSIZE)) (fun _ t => Alloc (update refs n (refs n + 1)) t ∧
      t.mem = s.mem ∧ t.freelist = s.freelist ∧ t.denied = s.denied) s := by
  have hman := h.owned n hn
  have hnew : n * PGSIZE ∉ s.freelist := fun hm => hn ((h.mem_free n).1 hm).2
  unfold increaseNoOfRef
  rw [wp_modify, mul_PGSIZE_shift]
  refine ⟨h.change hman hlt ?_ (fun m hm => update_of_ne hm ..) h.nodup fun pa => ?_, rfl, rfl, rfl⟩
  · dsimp only
    rw [update_self, h.count n hman, Nat.mod_eq_of_lt hlt]
  · constructor
    · refine fun hpa => .inl ⟨hpa, ?_⟩
      rintro rfl
      exact hnew hpa
    · rintro (⟨hpa, -⟩ | ⟨-, h0⟩)
      · exact hpa
      · omega

end

end CowPbs
