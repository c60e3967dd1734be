import Mathlib

/-!
# Pages, addresses and page-table entries

The macros of riscv.h and memlayout.h. Addresses and entries are natural numbers below
`2 ^ 64`, and where the C arithmetic can leave that range the model wraps it. A page is
named by its number, the address shifted by `PGSHIFT`.

An entry is a page number (`frame`) and ten flag bits. `has e PTE_W` is the test
`e & PTE_W`, and the lemmas say what each rewrite of an entry in the kernel does to its
page and to its flags.
-/

namespace CowPbs

/-! ## Constants -/

/-- Bytes per page. -/
def PGSIZE : ℕ := 4096

/-- One beyond the highest possible virtual address. -/
def MAXVA : ℕ := 2 ^ 38

def KERNBASE : ℕ := 0x80000000

/-- The end of the RAM the kernel uses. -/
def PHYSTOP : ℕ := KERNBASE + 128 * 1024 * 1024

def TRAMPOLINE : ℕ := MAXVA - PGSIZE

def TRAPFRAME : ℕ := TRAMPOLINE - PGSIZE

def PGROUNDUP (sz : ℕ) : ℕ := (sz + (PGSIZE - 1)) % 2 ^ 64 / PGSIZE * PGSIZE

def PGROUNDDOWN (a : ℕ) : ℕ := a / PGSIZE * PGSIZE

/-! ## Entries -/

def PTE_V : ℕ := 2 ^ 0

def PTE_R : ℕ := 2 ^ 1

def PTE_W : ℕ := 2 ^ 2

def PTE_X : ℕ := 2 ^ 3

def PTE_U : ℕ := 2 ^ 4

/-- The copy-on-write bit, one of the two bits left to software. -/
def PTE_CW : ℕ := 2 ^ 8

def PA2PTE (pa : ℕ) : ℕ := (pa >>> 12) <<< 10

def PTE2PA (pte : ℕ) : ℕ := ((pte >>> 10) <<< 12) % 2 ^ 64

def PTE_FLAGS (pte : ℕ) : ℕ := pte &&& 0x3FF

/-- The index of `va` in the page table of a level. -/
def PX (level va : ℕ) : ℕ := (va >>> (12 + 9 * level)) &&& 0x1FF

/-- `e & flag`, as a condition. -/
def has (e flag : ℕ) : Bool := e &&& flag != 0

/-- `e & ~flag`, on 64 bits. -/
def clear (e flag : ℕ) : ℕ := e &&& (2 ^ 64 - 1 - flag)

/-- What `change_flag_from_write_to_cow` stores in place of the entry `e`. -/
def cowOf (e : ℕ) : ℕ := clear (e ||| PTE_CW) PTE_W

/-- `modify_flag_cow_to_write`, on the `uint` that holds the flags of an entry. -/
def writeOf (flags : ℕ) : ℕ := (flags ||| PTE_W) &&& (2 ^ 32 - 1 - PTE_CW)

/-- `flags2perm` of exec.c : the permissions of a program segment. -/
def flags2perm (flags : ℕ) : ℕ :=
  (if has flags 1 then PTE_X else 0) ||| (if has flags 2 then PTE_W else 0)

/-! ## The page and the flags of an entry -/

/-- The number of the page an entry points to. -/
def frame (e : ℕ) : ℕ := (e >>> 10) % 2 ^ 52

section Entries

variable {e f n : ℕ}

theorem has_two_pow (e k : ℕ) : has e (2 ^ k) = e.testBit k := by
  unfold has
  rw [Nat.and_two_pow]
  cases e.testBit k <;> simp

@[simp] theorem has_V (e : ℕ) : has e PTE_V = e.testBit 0 := has_two_pow e 0

@[simp] theorem has_R (e : ℕ) : has e PTE_R = e.testBit 1 := has_two_pow e 1

@[simp] theorem has_W (e : ℕ) : has e PTE_W = e.testBit 2 := has_two_pow e 2

@[simp] theorem has_U (e : ℕ) : has e PTE_U = e.testBit 4 := has_two_pow e 4

@[simp] theorem has_CW (e : ℕ) : has e PTE_CW = e.testBit 8 := has_two_pow e 8

theorem ne_zero_of_testBit {k : ℕ} (h : e.testBit k = true) : e ≠ 0 := by
  rintro rfl
  simp at h

@[simp] theorem has_X (e : ℕ) : has e PTE_X = e.testBit 3 := has_two_pow e 3

theorem PTE2PA_eq (e : ℕ) : PTE2PA e = frame e * PGSIZE := by
  rw [PTE2PA, frame, Nat.shiftLeft_eq, show 2 ^ 64 = 2 ^ 52 * 2 ^ 12 by norm_num,
    Nat.mul_mod_mul_right]
  rfl

theorem PA2PTE_lt {pa : ℕ} (h : pa < 2 ^ 64) : PA2PTE pa < 2 ^ 62 := by
  rw [PA2PTE, Nat.shiftLeft_eq, Nat.shiftRight_eq_div_pow]
  omega

theorem testBit_flags (e : ℕ) {k : ℕ} (hk : k < 10) : (PTE_FLAGS e).testBit k = e.testBit k := by
  rw [PTE_FLAGS, show (0x3FF : ℕ) = 2 ^ 10 - 1 from rfl, Nat.testBit_and,
    Nat.testBit_two_pow_sub_one]
  simp [hk]

theorem flags_lt (e : ℕ) : PTE_FLAGS e < 2 ^ 10 :=
  Nat.lt_of_le_of_lt Nat.and_le_right (by norm_num)

/-- The entry for the page of `pa` with flags `f`. -/
theorem frame_PA2PTE {pa : ℕ} (hpa : pa < 2 ^ 64) (hf : f < 2 ^ 10) :
    frame (PA2PTE pa ||| f) = pa / PGSIZE := by
  rw [frame, PA2PTE, Nat.shiftRight_or_distrib, Nat.shiftLeft_shiftRight,
    Nat.shiftRight_eq_div_pow f, Nat.div_eq_of_lt hf, Nat.or_zero, Nat.shiftRight_eq_div_pow,
    Nat.mod_eq_of_lt (by omega)]
  rfl

theorem testBit_PA2PTE (pa f : ℕ) {k : ℕ} (hk : k < 10) :
    (PA2PTE pa ||| f).testBit k = f.testBit k := by
  rw [Nat.testBit_or, PA2PTE, Nat.testBit_shiftLeft]
  simp [Nat.not_le.2 hk]

theorem flags_PA2PTE (pa : ℕ) (hf : f < 2 ^ 10) : PTE_FLAGS (PA2PTE pa ||| f) = f := by
  rw [PTE_FLAGS, PA2PTE, ← Nat.shiftLeft_add_eq_or_of_lt hf,
    show (0x3FF : ℕ) = 2 ^ 10 - 1 from rfl, Nat.and_two_pow_sub_one_eq_mod, Nat.shiftLeft_eq,
    Nat.mul_add_mod_of_lt hf]

theorem frame_clear {b : ℕ} (hb : b < 2 ^ 10) : frame (clear e b) = frame e := by
  have hmask : (2 ^ 64 - 1 - b) >>> 10 = 2 ^ 54 - 1 := by
    rw [Nat.shiftRight_eq_div_pow]
    omega
  rw [frame, clear, Nat.shiftRight_and_distrib, hmask, Nat.and_two_pow_sub_one_eq_mod, frame,
    Nat.shiftRight_eq_div_pow]
  omega

theorem testBit_clear (e : ℕ) {j k : ℕ} (hj : j < 64) (hk : k < 64) :
    (clear e (2 ^ j)).testBit k = (e.testBit k && decide (k ≠ j)) := by
  have hmask : (2 ^ 64 - 1 - 2 ^ j) = 2 ^ 64 - (2 ^ j + 1) := by omega
  rw [clear, Nat.testBit_and, hmask,
    Nat.testBit_two_pow_sub_succ (Nat.pow_lt_pow_right (by norm_num) hj), Nat.testBit_two_pow]
  simp [hk, eq_comm]

theorem frame_cowOf (e : ℕ) : frame (cowOf e) = frame e := by
  rw [cowOf, frame_clear (by norm_num [PTE_W]), frame, Nat.shiftRight_or_distrib]
  simp [PTE_CW, frame]

theorem testBit_cowOf (e : ℕ) {k : ℕ} (hk : k < 10) :
    (cowOf e).testBit k = ((e.testBit k || decide (k = 8)) && decide (k ≠ 2)) := by
  rw [cowOf, PTE_W, testBit_clear _ (by norm_num) (by omega), Nat.testBit_or, PTE_CW,
    Nat.testBit_two_pow]
  simp [eq_comm]

theorem testBit_writeOf (f : ℕ) {k : ℕ} (hk : k < 10) :
    (writeOf f).testBit k = ((f.testBit k || decide (k = 2)) && decide (k ≠ 8)) := by
  have hmask : (2 ^ 32 - 1 - PTE_CW) = 2 ^ 32 - (2 ^ 8 + 1) := by norm_num [PTE_CW]
  rw [writeOf, Nat.testBit_and, Nat.testBit_or, hmask,
    Nat.testBit_two_pow_sub_succ (by norm_num), PTE_W, Nat.testBit_two_pow, Nat.testBit_two_pow]
  simp [show k < 32 by omega, eq_comm]

theorem writeOf_lt (hf : f < 2 ^ 10) : writeOf f < 2 ^ 10 :=
  Nat.lt_of_le_of_lt Nat.and_le_left (Nat.or_lt_two_pow hf (by norm_num [PTE_W]))

end Entries

/-! ## Addresses -/

theorem PHYSTOP_eq : PHYSTOP = 0x88000 * 4096 := by
  decide

theorem PX_eq (level va : ℕ) : PX level va = va / 2 ^ (12 + 9 * level) % 512 := by
  rw [PX, Nat.shiftRight_eq_div_pow, show (0x1FF : ℕ) = 2 ^ 9 - 1 from rfl,
    Nat.and_two_pow_sub_one_eq_mod]

theorem PX_lt (level va : ℕ) : PX level va < 512 := by
  rw [PX_eq]
  exact Nat.mod_lt _ (by norm_num)

theorem PGROUNDUP_eq {sz : ℕ} (h : sz < 2 ^ 63) :
    PGROUNDUP sz = (sz + 4095) / 4096 * 4096 := by
  rw [PGROUNDUP, PGSIZE, Nat.mod_eq_of_lt (by omega)]

end CowPbs
