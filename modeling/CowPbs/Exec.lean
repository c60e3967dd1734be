import Mathlib
import CowPbs.OsInv

/-!
# `exec`

`exec` builds a new address space from a file : the segments of the program, a guard page, and
a stack with the arguments. The file is what `readi` copies for an offset and a length.
`execImage` is the part up to the point where nothing can fail any more; there the new
address space is committed, or given back.

`execSpec` says, without page tables, what the new memory is : a memory of zeros with the
bytes of the segments and of the arguments stored into it. `execImage_spec` : the kernel
builds exactly this memory, or leaves everything as it was.
-/

set_option linter.unusedSectionVars false

open Function Prog Bytes Radix

namespace CowPbs

/-! ## The format of the file -/

def ELF_MAGIC : ℕ := 0x464C457F

def ELF_PROG_LOAD : ℕ := 1

/-- Max exec arguments. -/
def MAXARG : ℕ := 32

/-- The number in `w` bytes of `l` from byte `k` on. -/
def field (l : List Byte) (k w : ℕ) : ℕ :=
  ofBytes ((l.drop k).take w)

/-- The fields of `struct elfhdr` that `exec` reads. -/
structure ElfHdr where
  magic : ℕ
  entry : ℕ
  phoff : ℕ
  phnum : ℕ

/-- `sizeof(struct elfhdr)`. -/
def ELFHDR_SIZE : ℕ := 64

def ElfHdr.decode (l : List Byte) : ElfHdr where
  magic := field l 0 4
  entry := field l 24 8
  phoff := field l 32 8
  phnum := field l 56 2

/-- The fields of `struct proghdr` that `exec` reads. -/
structure ProgHdr where
  type : ℕ
  flags : ℕ
  off : ℕ
  vaddr : ℕ
  filesz : ℕ
  memsz : ℕ

/-- `sizeof(struct proghdr)`. -/
def PROGHDR_SIZE : ℕ := 56

def ProgHdr.decode (l : List Byte) : ProgHdr where
  type := field l 0 4
  flags := field l 4 4
  off := field l 8 8
  vaddr := field l 16 8
  filesz := field l 32 8
  memsz := field l 40 8

/-- What `readi` copies for an offset and a length. It may be less than was asked for. -/
abbrev Reader := ℕ → ℕ → List Byte

/-! ## The functions -/

/-- A `uint` counter that goes up by `PGSIZE` is back at its start after so many turns. -/
def LOADSEG_TURNS : ℕ := 2 ^ 20

section

variable [Layout]

/-- The loop of `loadseg` from the offset `i` on. The counter is a `uint` : a loop that is not
at its end after `LOADSEG_TURNS` turns never is. -/
def loadsegFrom (pagetable va : ℕ) (readi : Reader) (offset sz : ℕ) : ℕ → ℕ → K ℤ
  | 0, _ => throw "loadseg: endless"
  | turns + 1, i =>
    if i < sz then do
      let pa ← walkaddr pagetable ((va + i) % 2 ^ 64)
      if pa = 0 then throw "loadseg: address should exist"
      else
        let n := if sz - i < PGSIZE then sz - i else PGSIZE
        let bytes := readi ((offset + i) % 2 ^ 32) n
        memmove pa bytes
        if bytes.length ≠ n then return -1
        else loadsegFrom pagetable va readi offset sz turns ((i + PGSIZE) % 2 ^ 32)
    else return 0

/-- `loadseg`. -/
def loadseg (pagetable va : ℕ) (readi : Reader) (offset sz : ℕ) : K ℤ :=
  loadsegFrom pagetable va readi offset sz (LOADSEG_TURNS + 1) 0

/-- A turn of the loop of `exec` over the program headers : whether it goes on, and `sz`. -/
def loadTurn (pagetable : ℕ) (readi : Reader) (off sz : ℕ) : K (Bool × ℕ) :=
  let bytes := readi off PROGHDR_SIZE
  let ph := ProgHdr.decode bytes
  if bytes.length ≠ PROGHDR_SIZE then return (false, sz)
  else if ph.type ≠ ELF_PROG_LOAD then return (true, sz)
  else if ph.memsz < ph.filesz then return (false, sz)
  else if (ph.vaddr + ph.memsz) % 2 ^ 64 < ph.vaddr then return (false, sz)
  else if ph.vaddr % PGSIZE ≠ 0 then return (false, sz)
  else do
    let sz1 ← uvmalloc pagetable sz ((ph.vaddr + ph.memsz) % 2 ^ 64) (flags2perm ph.flags)
    if sz1 = 0 then return (false, sz)
    else
      let r ← loadseg pagetable ph.vaddr readi (ph.off % 2 ^ 32) (ph.filesz % 2 ^ 32)
      if r < 0 then return (false, sz1)
      else return (true, sz1)

/-- The loop over the program headers. -/
def loadTurns (pagetable : ℕ) (readi : Reader) : ℕ → ℕ → ℕ → K (Bool × ℕ)
  | 0, _, sz => return (true, sz)
  | turns + 1, off, sz => do
    let (more, sz) ← loadTurn pagetable readi off sz
    if more then loadTurns pagetable readi turns ((off + PROGHDR_SIZE) % 2 ^ 32) sz
    else return (false, sz)

/-- `sp -= n; sp -= sp % 16`. -/
def push (sp n : ℕ) : ℕ :=
  let sp := (sp + 2 ^ 64 - n % 2 ^ 64) % 2 ^ 64
  sp - sp % 16

/-- The loop over the arguments, with `argc`, `sp` and `ustack`. -/
def pushArgs (pagetable stackbase : ℕ) : List (List Byte) → ℕ → List ℕ → K (Option (ℕ × List ℕ))
  | [], sp, ustack => return some (sp, ustack)
  | arg :: argv, sp, ustack =>
    if MAXARG ≤ ustack.length then return none
    else
      let sp := push sp (arg.length + 1)
      if sp < stackbase then return none
      else do
        let r ← copyout pagetable sp (arg ++ [0])
        if r < 0 then return none
        else pushArgs pagetable stackbase argv sp (ustack ++ [sp])

/-- The arguments and the array of pointers to them, and where that array is. -/
def pushStack (pagetable sz : ℕ) (argv : List (List Byte)) : K (Option ℕ) := do
  let stackbase := sz - PGSIZE
  match ← pushArgs pagetable stackbase argv sz [] with
  | none => return none
  | some (sp, ustack) =>
    let sp := push sp ((ustack.length + 1) * 8)
    if sp < stackbase then return none
    else
      let r ← copyout pagetable sp ((ustack ++ [0]).flatMap (toBytes 8))
      if r < 0 then return none
      else return some sp

/-- A new address space that is ready. -/
structure Image where
  pagetable : ℕ
  sz : ℕ
  entry : ℕ
  sp : ℕ

/-- `exec` up to the point from which nothing can fail. -/
def execImage (trapframe : ℕ) (readi : Reader) (argv : List (List Byte)) : K (Option Image) :=
  let bytes := readi 0 ELFHDR_SIZE
  let elf := ElfHdr.decode bytes
  if bytes.length ≠ ELFHDR_SIZE then return none
  else if elf.magic ≠ ELF_MAGIC then return none
  else do
    match ← procPagetable trapframe with
    | none => return none
    | some pagetable =>
      let (more, sz) ← loadTurns pagetable readi elf.phnum (elf.phoff % 2 ^ 32) 0
      if more then
        let sz := PGROUNDUP sz
        let sz1 ← uvmalloc pagetable sz ((sz + 2 * PGSIZE) % 2 ^ 64) PTE_W
        if sz1 = 0 then
          procFreepagetable pagetable sz
          return none
        else
          uvmclear pagetable (sz1 - 2 * PGSIZE)
          match ← pushStack pagetable sz1 argv with
          | none =>
            procFreepagetable pagetable sz1
            return none
          | some sp => return some ⟨pagetable, sz1, elf.entry, sp⟩
      else
        procFreepagetable pagetable sz
        return none

end

namespace Os

variable [Layout]

/-- `exec` by the process `p`, where `file` is what `namei` finds. -/
def exec (p : Slot) (file : Option Reader) (argv : List (List Byte)) : Prog Os ℤ :=
  match file with
  | none => return -1
  | some readi => do
    let s ← get
    let q := s.procs.proc p
    match ← lift (execImage (q.trapframe.getD 0) readi argv) with
    | none => return -1
    | some image =>
      lift (sd (q.trapframe.getD 0 + A1) image.sp)
      change p fun q => { q with pagetable := some image.pagetable, sz := image.sz }
      lift (sd (q.trapframe.getD 0 + EPC) image.entry)
      lift (sd (q.trapframe.getD 0 + SP) image.sp)
      lift (procFreepagetable (q.pagetable.getD 0) q.sz)
      return argv.length

end Os

/-! ## What the new memory is -/

/-- The bytes of a segment, if the file has them all. -/
def segBytes (readi : Reader) (offset sz : ℕ) : ℕ → ℕ → Option (List Byte)
  | 0, _ => some []
  | turns + 1, i =>
    if i < sz then
      let n := if sz - i < PGSIZE then sz - i else PGSIZE
      let bytes := readi ((offset + i) % 2 ^ 32) n
      if bytes.length ≠ n then none
      else (segBytes readi offset sz turns (i + PGSIZE)).map (bytes ++ ·)
    else some []

/-- The size and the memory after a program header. -/
def loadStep (readi : Reader) (off : ℕ) (old : ℕ × Mem) : Option (ℕ × Mem) :=
  let bytes := readi off PROGHDR_SIZE
  let ph := ProgHdr.decode bytes
  if bytes.length ≠ PROGHDR_SIZE then none
  else if ph.type ≠ ELF_PROG_LOAD then some old
  else if ph.memsz < ph.filesz then none
  else if 2 ^ 64 ≤ ph.vaddr + ph.memsz then none
  else if ph.vaddr % PGSIZE ≠ 0 then none
  else if Max.max old.1 (ph.vaddr + ph.memsz) = 0 then none
  else (segBytes readi (ph.off % 2 ^ 32) (ph.filesz % 2 ^ 32) LOADSEG_TURNS 0).map fun bytes =>
    (Max.max old.1 (ph.vaddr + ph.memsz), store old.2 ph.vaddr bytes)

/-- The size and the memory after all program headers. -/
def loadSteps (readi : Reader) : ℕ → ℕ → ℕ × Mem → Option (ℕ × Mem)
  | 0, _, old => some old
  | turns + 1, off, old =>
    (loadStep readi off old).bind (loadSteps readi turns ((off + PROGHDR_SIZE) % 2 ^ 32))

/-- Where `n` bytes go below `sp`. -/
def below (sp n : ℕ) : ℕ :=
  (sp - n) / 16 * 16

/-- The arguments below `sp`, with the addresses they get. -/
def placeArgs (stackbase : ℕ) : List (List Byte) → ℕ → List ℕ → Mem → Option (ℕ × List ℕ × Mem)
  | [], sp, ustack, m => some (sp, ustack, m)
  | arg :: argv, sp, ustack, m =>
    if MAXARG ≤ ustack.length then none
    else if sp < stackbase + (arg.length + 1) then none
    else
      let a := below sp (arg.length + 1)
      placeArgs stackbase argv a (ustack ++ [a]) (store m a (arg ++ [0]))

/-- The stack, with the stack pointer. -/
def placeStack (sz : ℕ) (argv : List (List Byte)) (m : Mem) : Option (ℕ × Mem) :=
  (placeArgs (sz - PGSIZE) argv sz [] m).bind fun (sp, ustack, m) =>
    let n := (ustack.length + 1) * 8
    if sp < sz - PGSIZE + n then none
    else some (below sp n, store m (below sp n) ((ustack ++ [0]).flatMap (toBytes 8)))

/-- The new memory, with its size and the registers. -/
structure Loaded where
  sz : ℕ
  entry : ℕ
  sp : ℕ
  mem : Mem

/-- The program and its arguments, where the file is in order and the arguments fit. -/
def execSpec (readi : Reader) (argv : List (List Byte)) : Option Loaded :=
  let bytes := readi 0 ELFHDR_SIZE
  let elf := ElfHdr.decode bytes
  if bytes.length ≠ ELFHDR_SIZE then none
  else if elf.magic ≠ ELF_MAGIC then none
  else (loadSteps readi elf.phnum (elf.phoff % 2 ^ 32) (0, fun _ => 0)).bind fun (sz, m) =>
    (placeStack (PGROUNDUP sz + 2 * PGSIZE) argv m).map fun (sp, m) =>
      ⟨PGROUNDUP sz + 2 * PGSIZE, elf.entry, sp, m⟩

section

variable [Layout] {F F' F'' : Forest ℕ} {kern : ℕ → ℕ} {s t u : Mach} {r v va k k' n tf sz : ℕ}
  {g : ℕ → Prop} {m m' : Mem} {l : List Byte} {E : String → Prop}

/-! ## An address space that is being built -/

/-- The new page table `n` has `k` pages of its own, which show `m`, and are the user's but
for the guard pages `g`. -/
structure Building (n tf k : ℕ) (g : ℕ → Prop) (m : Mem) (F : Forest ℕ) (kern : ℕ → ℕ) (s : Mach)
    (F' : Forest ℕ) (t : Mach) : Prop where
  vm : Vm F' kern t
  saved : Saved F kern s F' kern t
  free : owners F kern n = 0
  roots : F'.roots = insert n F.roots
  same : SameBut n F F'
  space : Space F' n k tf
  own : ∀ v < k, (F'.pte n v).testBit 8 = false
  user : ∀ v < k, ¬g v → (F'.pte n v).testBit 4 = true
  hidden : ∀ v < k, g v → (F'.pte n v).testBit 4 = false
  fresh : ∀ v < k, owners F kern (frame (F'.pte n v)) = 0
  view : ∀ va < k * PGSIZE, view t.mem n va = some (m va)
  zero : ∀ va, k * PGSIZE ≤ va → m va = 0

namespace Building

theorem start (h : NewSpace n tf F kern s F' t) :
    Building n tf 0 g (fun _ => 0) F kern s F' t where
  vm := h.vm
  saved := h.saved
  free := h.free
  roots := h.roots
  same := h.same
  space := h.space
  own := nofun
  user := nofun
  hidden := nofun
  fresh := nofun
  view va hva := absurd hva (by omega)
  zero _ _ := rfl

theorem root (h : Building n tf k g m F kern s F' t) : n ∈ F'.roots :=
  h.space.root

theorem le (h : Building n tf k g m F kern s F' t) : k ≤ 2 ^ 24 :=
  h.vm.sized_le h.root h.space.sized

theorem mapped (h : Building n tf k g m F kern s F' t) (hv : v < k) : F'.pte n v ≠ 0 := by
  have hU := UPAGES_eq
  have := h.le
  exact (h.space.sized v (by omega)).2 hv

/-- The pages are all different. -/
theorem le_memory (h : Building n tf k g m F kern s F' t) : k ≤ 2 ^ 15 := by
  have hU := UPAGES_eq
  have hle := h.le
  have hmem : ∀ v < k, 0x80000 ≤ frame (F'.pte n v) ∧ frame (F'.pte n v) < 0x88000 := by
    intro v hv
    have hman := h.vm.managed (h.vm.owners_frame h.root (by omega) (h.mapped hv))
    have h₁ := hman.1
    have h₂ := hman.2
    have h₃ := Layout.kernbase_le
    have h₄ := Layout.trampoline_lt
    rw [PHYSTOP_eq] at h₂
    simp only [PGSIZE, KERNBASE] at h₁ h₂ h₃
    omega
  have hcard : (Finset.range k).card ≤ (Finset.Ico 0x80000 0x88000).card := by
    refine Finset.card_le_card_of_injOn (fun v => frame (F'.pte n v)) (fun v hv => ?_)
      fun v hv w hw heq => ?_
    · exact Finset.mem_coe.2 (Finset.mem_Ico.2 (hmem v (Finset.mem_range.1 hv)))
    · have hv := Finset.mem_range.1 hv
      have hw := Finset.mem_range.1 hw
      have hone := (h.vm.leaf n h.root w (by omega) (h.mapped hw)).once (h.own w hw)
      exact (Prod.mk.inj (Forest.eq_of_maps_le_one h.root (by omega) (h.mapped hw) h.root
        (by omega) (h.mapped hv) heq hone.le)).2
  rw [Finset.card_range, Nat.card_Ico] at hcard
  omega

/-- A store to one of the pages. -/
theorem store (h : Building n tf k g m F kern s F' t) {o : ℕ} (hv : v < k)
    (ho : o + l.length ≤ PGSIZE) :
    Building n tf k g (Bytes.store m (v * PGSIZE + o) l) F kern s F'
      { t with mem := Bytes.store t.mem (frame (F'.pte n v) * PGSIZE + o) l } := by
  have hU := UPAGES_eq
  have hle := h.le
  have hst := h.vm.stored_page h.root (by omega) (h.mapped hv) (h.own v hv) ho
  have hend : v * PGSIZE + PGSIZE ≤ k * PGSIZE := by
    rw [← Nat.succ_mul]
    exact Nat.mul_le_mul_right PGSIZE hv
  refine ⟨hst.vm, h.saved.write (h.fresh v hv) fun x hx => store_of_ne ho hx, h.free, h.roots,
    h.same, h.space, h.own, h.user, h.hidden, h.fresh, fun va hva => ?_, fun va hva => ?_⟩
  · have htop : va < TRAPFRAME := by
      have : TRAPFRAME = (2 ^ 26 - 2) * PGSIZE := by decide
      have := Nat.mul_le_mul_right PGSIZE hle
      omega
    rw [hst.view n h.root va htop]
    by_cases hin : v * PGSIZE + o ≤ va ∧ va < v * PGSIZE + o + l.length
    · have hlt : va - (v * PGSIZE + o) < l.length := by omega
      rw [if_pos ⟨rfl, hin⟩, Bytes.store, if_pos hin.1, List.getElem?_eq_getElem hlt,
        Option.getD_some]
    · rw [if_neg fun hbad => hin hbad.2, h.view va hva, store_of_outside (by omega)]
  · rw [store_of_outside (by omega), h.zero va hva]

/-- More pages, from `uvmalloc`. -/
theorem grow {xperm : ℕ} (h : Building n tf k g m F kern s F' t) (hg : ∀ v, ¬g v) (hk : k ≤ k')
    (hperm : xperm < 2 ^ 8)
    (hu : Grew n k k' (PTE_R ||| PTE_U ||| xperm) F' kern t F'' u) :
    Building n tf k' g m F kern s F'' u := by
  have hU := UPAGES_eq
  have hV := VPAGES_eq
  have hle := h.le
  have hroot : n ∈ F''.roots := hu.roots.symm ▸ h.root
  have hsized := hu.sized h.space.sized hk
  have hle' := hu.vm.sized_le hroot hsized
  have hperm' : PTE_R ||| PTE_U ||| xperm < 2 ^ 8 := Nat.or_lt_two_pow (by decide) hperm
  have hnew : ∀ {v i}, v < k' → ¬v < k → i < 10 → (F''.pte n v).testBit i =
      ((PTE_R ||| PTE_U ||| xperm).testBit i || decide (i = 0)) := by
    intro v i hv hvk hi
    obtain ⟨q, hq, -, -, -⟩ := hu.page v (by omega) hv
    rw [hq, testBit_pageEntryOf hi]
  have hold : ∀ {v}, v < k → F''.pte n v = F'.pte n v := fun hv =>
    hu.other n _ (by omega) (by omega)
  refine ⟨hu.vm, h.saved.trans hu.saved, h.free, hu.roots.trans h.roots, h.same.trans hu.sameBut,
    ⟨hroot, hsized, ?_, ?_⟩, fun v hv => ?_, fun v hv hgv => ?_, fun v _ hgv => absurd hgv (hg v),
    fun v hv => ?_, fun va hva => ?_, fun va hva => ?_⟩
  · rw [hu.other n _ (by omega) (by omega), h.space.trapframe]
  · rw [hu.other n _ (by omega) (by omega), h.space.trampoline]
  · by_cases hvk : v < k
    · rw [hold hvk, h.own v hvk]
    · rw [hnew hv hvk (by norm_num), Nat.testBit_lt_two_pow hperm']
      rfl
  · by_cases hvk : v < k
    · rw [hold hvk, h.user v hvk hgv]
    · rw [hnew hv hvk (by norm_num), Nat.testBit_or, Nat.testBit_or]
      rfl
  · by_cases hvk : v < k
    · rw [hold hvk, h.fresh v hvk]
    · obtain ⟨q, hq, hlt, hfree, -⟩ := hu.page v (by omega) hv
      rw [hq, frame_pageEntryOf hlt (hperm'.trans (by norm_num))]
      by_contra hne
      exact (h.saved q hne).1 hfree
  · have hvk' : va / PGSIZE < k' := (Nat.div_lt_iff_lt_mul PGSIZE_pos).2 hva
    by_cases hvk : va / PGSIZE < k
    · rw [h.vm.view_kept hu.vm h.root hroot (by omega) (hold hvk) hu.saved.kept, h.view va]
      exact (Nat.div_lt_iff_lt_mul PGSIZE_pos).1 hvk
    · obtain ⟨q, hq, hlt, -, hzero⟩ := hu.page _ (not_lt.1 hvk) hvk'
      have hne : F''.pte n (va / PGSIZE) ≠ 0 := (hsized _ (by omega)).2 hvk'
      rw [hu.vm.view_mapped hroot (by omega) hne, hq,
        frame_pageEntryOf hlt (hperm'.trans (by norm_num)), hzero _ (page_offset q va), h.zero]
      exact (Nat.le_div_iff_mul_le PGSIZE_pos).1 (not_lt.1 hvk)
  · exact h.zero va ((Nat.mul_le_mul_right PGSIZE hk).trans hva)

/-- `uvmalloc` ran out of memory. -/
theorem unchanged (h : Building n tf k g m F kern s F' t) (hu : Unchanged n F' kern t F'' u) :
    Building n tf k g m F kern s F'' u := by
  have hU := UPAGES_eq
  have hV := VPAGES_eq
  have hle := h.le
  have hroot : n ∈ F''.roots := hu.roots.symm ▸ h.root
  have hold : ∀ {v}, v < VPAGES → F''.pte n v = F'.pte n v := fun hv => hu.pte n _ hv
  refine ⟨hu.vm, h.saved.trans hu.saved, h.free, hu.roots.trans h.roots, h.same.trans hu.sameBut,
    ⟨hroot, fun v hv => ?_, ?_, ?_⟩, fun v hv => ?_, fun v hv hgv => ?_, fun v hv hgv => ?_,
    fun v hv => ?_, fun va hva => ?_, h.zero⟩
  · rw [hold (by omega), h.space.sized v hv]
  · rw [hold (by omega), h.space.trapframe]
  · rw [hold (by omega), h.space.trampoline]
  · rw [hold (by omega), h.own v hv]
  · rw [hold (by omega), h.user v hv hgv]
  · rw [hold (by omega), h.hidden v hv hgv]
  · rw [hold (by omega), h.fresh v hv]
  · have hvk : va / PGSIZE < k := (Nat.div_lt_iff_lt_mul PGSIZE_pos).2 hva
    rw [h.vm.view_kept hu.vm h.root hroot (by omega) (hold (by omega)) hu.saved.kept, h.view va hva]

/-- It is given back. -/
theorem abandon (h : Building n tf (pages sz) g m F kern s F' t) (hvm : Vm F kern s) :
    wp E (procFreepagetable (n * PGSIZE) sz) (fun _ u => (∃ F'', Restored F kern s F'' u) ∧
      u.denied = t.denied) t := by
  have hnr : n ∉ F.roots := hvm.tables.rep.not_root (owners_eq_zero.1 h.free).1
  exact wp_mono (procFreepagetable_spec h.vm h.space) fun _ u ⟨F'', hrem⟩ =>
    ⟨⟨F'', hrem.restored hvm hnr h.saved h.roots h.same⟩, hrem.denied⟩

end Building

/-! ## Loading -/

omit [Layout] in
theorem segBytes_nil {readi : Reader} {offset turns i : ℕ} (h : sz ≤ i) :
    segBytes readi offset sz turns i = some [] := by
  cases turns with
  | zero => rfl
  | succ turns => exact if_neg (by omega)

/-- What `walkaddr` finds for an address of the new memory. -/
theorem Building.userPage (h : Building n tf k g m F kern s F' t) (hv : v < k) (hg : ¬g v) :
    CowPbs.userPage t.mem (n * PGSIZE) (v * PGSIZE) = frame (F'.pte n v) * PGSIZE ∧
      frame (F'.pte n v) * PGSIZE ≠ 0 := by
  have hU := UPAGES_eq
  have hUV := UPAGES_le
  have hle := h.le
  have hva : v * PGSIZE < MAXVA := by
    rw [← page_lt_iff, mul_PGSIZE_div]
    omega
  have hl := h.vm.leaf n h.root v (by omega) (h.mapped hv)
  have hman := h.vm.managed (h.vm.owners_frame h.root (by omega) (h.mapped hv))
  refine ⟨?_, (Nat.mul_pos hman.pos PGSIZE_pos).ne'⟩
  rw [h.vm.tables.userPage_eq h.root hva, mul_PGSIZE_div, has_V, has_U, hl.valid, h.user v hv hg,
    if_pos ⟨rfl, rfl⟩]

theorem loadsegFrom_spec {readi : Reader} {offset turns i : ℕ}
    (hread : ∀ off n, (readi off n).length ≤ n)
    (h : Building n tf k g m F kern s F' t) (hg : ∀ v, ¬g v) (hva : va % PGSIZE = 0)
    (hsz : va + sz ≤ k * PGSIZE) (hi : i % PGSIZE = 0) (hturns : sz ≤ i + turns * PGSIZE) :
    wp E (loadsegFrom (n * PGSIZE) va readi offset sz (turns + 1) i) (fun ret u =>
      u.denied = t.denied ∧ ∃ m', Building n tf k g m' F kern s F' u ∧
        ((ret = 0 ∧ ∃ bytes, segBytes readi offset sz turns i = some bytes ∧
            bytes.length = sz - i ∧ m' = store m (va + i) bytes) ∨
          (ret = -1 ∧ segBytes readi offset sz turns i = none))) t := by
  have hmem := Nat.mul_le_mul_right PGSIZE h.le_memory
  have hP : PGSIZE = 4096 := rfl
  -- Induction on the turns : each but the last reads a whole page.
  induction turns generalizing m t i with
  | zero =>
    unfold loadsegFrom
    rw [if_neg (by omega)]
    refine ⟨rfl, m, h, .inl ⟨rfl, [], rfl, ?_, ?_⟩⟩
    · rw [List.length_nil]
      omega
    · rw [store_nil]
  | succ turns ih =>
    unfold loadsegFrom
    rw [wp_ite]
    constructor
    · intro hlt
      -- the page that the turn reads
      have hpage : (va + i) % 2 ^ 64 = (va + i) / PGSIZE * PGSIZE := by
        rw [Nat.mod_eq_of_lt (by omega), Nat.div_mul_cancel]
        exact Nat.dvd_of_mod_eq_zero (by rw [Nat.add_mod, hva, hi]; rfl)
      have hv : (va + i) / PGSIZE < k := (Nat.div_lt_iff_lt_mul PGSIZE_pos).2 (by omega)
      obtain ⟨huser, hne⟩ := h.userPage hv (hg _)
      rw [wp_bind, wp_walkaddr, hpage, huser, wp_ite]
      refine ⟨fun h0 => absurd h0 hne, fun _ => ?_⟩
      dsimp only
      generalize hn : (if sz - i < PGSIZE then sz - i else PGSIZE) = len
      have hlen : 0 < len ∧ len ≤ PGSIZE ∧ (len = sz - i ∨ len = PGSIZE ∧ PGSIZE ≤ sz - i) := by
        split_ifs at hn <;> omega
      generalize hb : readi ((offset + i) % 2 ^ 32) len = bytes
      have hbytes : bytes.length ≤ len := hb ▸ hread _ _
      have hst := h.store (l := bytes) (o := 0) hv (by omega)
      have haddr : (va + i) / PGSIZE * PGSIZE + 0 = va + i := by
        rw [Nat.add_zero, ← hpage, Nat.mod_eq_of_lt (by omega)]
      rw [haddr, Nat.add_zero] at hst
      have hseg : segBytes readi offset sz (turns + 1) i =
          if bytes.length ≠ len then none
          else (segBytes readi offset sz turns (i + PGSIZE)).map (bytes ++ ·) := by
        conv_lhs => unfold segBytes
        rw [if_pos hlt]
        dsimp only
        rw [hn, hb]
      rw [wp_bind, wp_memmove, wp_ite, hseg]
      constructor
      · intro hshort
        exact ⟨rfl, _, hst, .inr ⟨rfl, if_pos hshort⟩⟩
      · intro hfull
        rw [not_not] at hfull
        have hwrap : (i + PGSIZE) % 2 ^ 32 = i + PGSIZE := Nat.mod_eq_of_lt (by omega)
        rw [hwrap]
        rw [Nat.succ_mul] at hturns
        have hrem : len + (sz - (i + PGSIZE)) = sz - i := by omega
        have hi' : (i + PGSIZE) % PGSIZE = 0 := by rw [Nat.add_mod_right, hi]
        refine wp_mono (ih hst hi' (by omega)) fun ret u ⟨hden, m', hb', hret⟩ =>
          ⟨hden, m', hb', ?_⟩
        rw [if_neg (not_not.2 hfull)]
        rcases hret with ⟨rfl, rest, hrest, hrlen, rfl⟩ | ⟨rfl, hnone⟩
        · refine .inl ⟨rfl, bytes ++ rest, by rw [hrest]; rfl, ?_, ?_⟩
          · rw [List.length_append, hrlen, hfull, hrem]
          · by_cases hlast : rest = []
            · rw [hlast, store_nil, List.append_nil]
            · have hpos := List.length_pos_iff.2 hlast
              have hend : va + (i + PGSIZE) = va + i + bytes.length := by omega
              rw [hend, store_append]
        · exact .inr ⟨rfl, by rw [hnone]; rfl⟩
    · intro hge
      refine ⟨rfl, m, h, .inl ⟨rfl, [], segBytes_nil (by omega), ?_, ?_⟩⟩
      · rw [List.length_nil]
        omega
      · rw [store_nil]

omit [Layout] in
theorem field_lt (l : List Byte) (k w : ℕ) : field l k w < 256 ^ w :=
  (ofBytes_lt).trans_le (Nat.pow_le_pow_right (by norm_num) (List.length_take_le ..))

omit [Layout] in
theorem ProgHdr.vaddr_lt (l : List Byte) : (ProgHdr.decode l).vaddr < 2 ^ 64 :=
  field_lt l 16 8

omit [Layout] in
theorem ProgHdr.memsz_lt (l : List Byte) : (ProgHdr.decode l).memsz < 2 ^ 64 :=
  field_lt l 40 8

theorem flags2perm_lt (flags : ℕ) : flags2perm flags < 2 ^ 8 := by
  unfold flags2perm
  split_ifs <;> decide

/-- How far the loop over the program headers has come. -/
def LoadPost (n tf : ℕ) (g : ℕ → Prop) (F : Forest ℕ) (kern : ℕ → ℕ) (s t : Mach)
    (spec : Option (ℕ × Mem)) (more : Bool) (sz : ℕ) (u : Mach) : Prop :=
  ∃ F' m', Building n tf (pages sz) g m' F kern s F' u ∧
    ((more = true ∧ spec = some (sz, m') ∧ u.denied = t.denied) ∨
      (more = false ∧ (spec = none ∨ u.denied = true)))

theorem loadTurn_spec {readi : Reader} {off : ℕ} (hread : ∀ off n, (readi off n).length ≤ n)
    (h : Building n tf (pages sz) g m F kern s F' t) (hg : ∀ v, ¬g v) :
    wp E (loadTurn (n * PGSIZE) readi off sz) (fun o u =>
      LoadPost n tf g F kern s t (loadStep readi off (sz, m)) o.1 o.2 u) t := by
  unfold loadTurn loadStep
  dsimp only
  generalize readi off PROGHDR_SIZE = bytes
  have hvaddr := ProgHdr.vaddr_lt bytes
  have hmemsz := ProgHdr.memsz_lt bytes
  generalize ProgHdr.decode bytes = ph at hvaddr hmemsz ⊢
  have hstop : ∀ {spec}, spec = none → LoadPost n tf g F kern s t spec false sz t :=
    fun hspec => ⟨F', m, h, .inr ⟨rfl, .inl hspec⟩⟩
  by_cases hlen : bytes.length ≠ PROGHDR_SIZE
  · rw [if_pos hlen, if_pos hlen]
    exact hstop rfl
  rw [if_neg hlen, if_neg hlen]
  by_cases htype : ph.type ≠ ELF_PROG_LOAD
  · rw [if_pos htype, if_pos htype]
    exact ⟨F', m, h, .inl ⟨rfl, rfl, rfl⟩⟩
  rw [if_neg htype, if_neg htype]
  by_cases hfile : ph.memsz < ph.filesz
  · rw [if_pos hfile, if_pos hfile]
    exact hstop rfl
  rw [if_neg hfile, if_neg hfile]
  by_cases hwrap : 2 ^ 64 ≤ ph.vaddr + ph.memsz
  · rw [if_pos (c := 2 ^ 64 ≤ _) hwrap, if_pos (by omega)]
    exact hstop rfl
  have hend : (ph.vaddr + ph.memsz) % 2 ^ 64 = ph.vaddr + ph.memsz := Nat.mod_eq_of_lt (by omega)
  rw [if_neg (c := 2 ^ 64 ≤ _) hwrap, hend, if_neg (by omega)]
  by_cases halign : ph.vaddr % PGSIZE ≠ 0
  · rw [if_pos halign, if_pos halign]
    exact hstop rfl
  rw [if_neg halign, if_neg halign]
  -- the segment goes into memory that is there
  have hseg : ∀ {F₁ : Forest ℕ} {w : Mach} {sz1 : ℕ}, w.denied = t.denied →
      Building n tf (pages sz1) g m F kern s F₁ w → sz1 ≠ 0 → ph.vaddr + ph.memsz ≤ sz1 →
      wp E (do
        let r ← loadseg (n * PGSIZE) ph.vaddr readi (ph.off % 2 ^ 32) (ph.filesz % 2 ^ 32)
        if r < 0 then return (false, sz1)
        else return (true, sz1)) (fun o u =>
          LoadPost n tf g F kern s t ((segBytes readi (ph.off % 2 ^ 32) (ph.filesz % 2 ^ 32)
            LOADSEG_TURNS 0).map fun bytes => (sz1, store m ph.vaddr bytes)) o.1 o.2 u) w := by
    intro F₁ w sz1 hden hb hne hle
    have hfilesz := Nat.mod_le ph.filesz (2 ^ 32)
    have hlt := Nat.mod_lt ph.filesz (show 0 < 2 ^ 32 by norm_num)
    have hpages : sz1 ≤ pages sz1 * PGSIZE := by
      simp only [pages, PGSIZE]
      omega
    have hturns : ph.filesz % 2 ^ 32 ≤ 0 + LOADSEG_TURNS * PGSIZE := by
      have : LOADSEG_TURNS * PGSIZE = 2 ^ 32 := by decide
      omega
    refine wp_seq (loadsegFrom_spec hread hb hg (not_not.1 halign) (by omega) rfl hturns)
      ?_
    rintro ret u ⟨hden', m', hb', hret⟩
    rcases hret with ⟨rfl, data, hdata, -, rfl⟩ | ⟨rfl, hnone⟩
    · rw [if_neg (lt_irrefl 0), wp_pure, hdata]
      exact ⟨F₁, _, hb', .inl ⟨rfl, rfl, hden'.trans hden⟩⟩
    · rw [if_pos (by norm_num), wp_pure, hnone]
      exact ⟨F₁, _, hb', .inr ⟨rfl, .inl rfl⟩⟩
  have hperm := flags2perm_lt ph.flags
  refine wp_seq (uvmalloc_spec h.vm h.root h.space.sized hperm) fun sz1 w hw => ?_
  rcases hw with ⟨hlt, rfl, rfl⟩ | ⟨hle, rfl, F₁, hgrew⟩ | ⟨hle, rfl, hden, F₁, hun⟩
  · -- the segment ends below what is mapped
    rw [Nat.max_eq_left hlt.le, if_neg (by omega), if_neg (by omega)]
    exact hseg rfl h (by omega) hlt.le
  · have hb := h.grow hg (pages_mono hle) hperm hgrew
    rw [Nat.max_eq_right hle]
    by_cases h0 : ph.vaddr + ph.memsz = 0
    · rw [if_pos h0, if_pos h0, wp_pure]
      have hsz : sz = ph.vaddr + ph.memsz := by omega
      refine ⟨F₁, m, ?_, .inr ⟨rfl, .inl rfl⟩⟩
      rwa [hsz]
    · rw [if_neg h0, if_neg h0]
      exact hseg hgrew.denied hb h0 le_rfl
  · rw [if_pos rfl, wp_pure]
    exact ⟨F₁, m, h.unchanged hun, .inr ⟨rfl, .inr hden⟩⟩

theorem loadTurns_spec {readi : Reader} {turns off : ℕ}
    (hread : ∀ off n, (readi off n).length ≤ n)
    (h : Building n tf (pages sz) g m F kern s F' t) (hg : ∀ v, ¬g v) :
    wp E (loadTurns (n * PGSIZE) readi turns off sz) (fun o u =>
      LoadPost n tf g F kern s t (loadSteps readi turns off (sz, m)) o.1 o.2 u) t := by
  induction turns generalizing off sz m F' t with
  | zero => exact ⟨F', m, h, .inl ⟨rfl, rfl, rfl⟩⟩
  | succ turns ih =>
    refine wp_seq (loadTurn_spec hread h hg) fun ⟨more, sz'⟩ u ⟨F₁, m₁, hb, hmore⟩ => ?_
    rw [loadSteps]
    rcases hmore with ⟨hmore, hspec, hden⟩ | ⟨hmore, hbad⟩
    · dsimp only at hmore hspec ⊢
      rw [hmore, hspec, Option.bind_some, if_pos rfl]
      refine wp_mono (ih hb) fun o w ⟨F₂, m₂, hb₂, hres⟩ => ⟨F₂, m₂, hb₂, ?_⟩
      rwa [hden] at hres
    · dsimp only at hmore ⊢
      rw [hmore, if_neg (by decide), wp_pure]
      refine ⟨F₁, m₁, hb, .inr ⟨rfl, hbad.imp_left fun hnone => ?_⟩⟩
      rw [hnone]
      rfl

/-! ## The stack -/

/-- The page below the stack is not the user's any more. -/
theorem Building.guard (h : Building n tf k g m F kern s F' t) (hg : ∀ w, ¬g w) (hv : v < k) :
    wp E (uvmclear (n * PGSIZE) (v * PGSIZE)) (fun _ u => u.denied = t.denied ∧
      ∃ F'', Building n tf k (fun w => w = v) m F kern s F'' u) t := by
  have hU := UPAGES_eq
  have hV := VPAGES_eq
  have hle := h.le
  have hbit : ∀ {i}, i < 10 → i ≠ 4 → (clear (F'.pte n v) PTE_U).testBit i =
      (F'.pte n v).testBit i := fun hi hi4 => by
    rw [PTE_U, testBit_clear _ (by norm_num) (by omega)]
    simp [hi4]
  have hframe : frame (clear (F'.pte n v) PTE_U) = frame (F'.pte n v) :=
    frame_clear (by norm_num [PTE_U])
  have hvalid := (h.vm.leaf n h.root v (by omega) (h.mapped hv)).valid
  have hself : (F'.setPte n v (clear (F'.pte n v) PTE_U)).pte n v = clear (F'.pte n v) PTE_U :=
    Forest.pte_setPte_self
  have hother : ∀ {w}, w < VPAGES → w ≠ v →
      (F'.setPte n v (clear (F'.pte n v) PTE_U)).pte n w = F'.pte n w := fun hw hwv =>
    Forest.pte_setPte_of_ne (by omega) hw fun heq => hwv (Prod.mk.inj heq).2
  have hnew : clear (F'.pte n v) PTE_U ≠ 0 :=
    ne_zero_of_testBit (k := 0) ((hbit (by norm_num) (by norm_num)).trans hvalid)
  refine wp_mono (uvmclear_spec h.vm h.root (by omega) (h.mapped hv)) ?_
  rintro _ u ⟨hvm, hsaved, hden⟩
  refine ⟨hden, _, hvm, h.saved.trans hsaved, h.free, h.roots,
    h.same.trans (.setPte (by omega)), ⟨h.root, fun w hw => ?_, ?_, ?_⟩, fun w hw => ?_,
    fun w hw hwv => ?_, fun w hw hwv => ?_, fun w hw => ?_, fun va hva => ?_, h.zero⟩
  · by_cases hwv : w = v
    · rw [hwv, hself]
      exact iff_of_true hnew hv
    · rw [hother (by omega) hwv, h.space.sized w hw]
  · rw [hother (by omega) (by omega), h.space.trapframe]
  · rw [hother (by omega) (by omega), h.space.trampoline]
  · by_cases hwv : w = v
    · rw [hwv, hself, hbit (by norm_num) (by norm_num), h.own v hv]
    · rw [hother (by omega) hwv, h.own w hw]
  · rw [hother (by omega) hwv, h.user w hw (hg w)]
  · rw [hwv, hself, PTE_U, testBit_clear _ (by norm_num) (by norm_num)]
    simp
  · by_cases hwv : w = v
    · rw [hwv, hself, hframe, h.fresh v hv]
    · rw [hother (by omega) hwv, h.fresh w hw]
  · have hvk : va / PGSIZE < k := (Nat.div_lt_iff_lt_mul PGSIZE_pos).2 hva
    rw [← h.view va hva]
    by_cases hwv : va / PGSIZE = v
    · refine h.vm.view_congr hvm h.root h.root (by omega) ?_ ?_ hsaved.kept
      · rw [hwv, hself]
        exact iff_of_true (h.mapped hv) hnew
      · rw [hwv, hself, hframe]
    · exact h.vm.view_kept hvm h.root h.root (by omega) (hother (by omega) hwv) hsaved.kept

theorem copyoutFrom_nil (pagetable turns dstva : ℕ) (s : Mach) :
    copyoutFrom pagetable turns dstva [] s = .ok (0, s) := by
  cases turns <;> rfl

/-- `copyout` to an address that is too high. -/
theorem wp_copyout_high {pagetable dstva : ℕ} {src : List Byte} (hsrc : src ≠ [])
    (hva : MAXVA ≤ PGROUNDDOWN dstva) (Q : ℤ → Mach → Prop) :
    wp E (copyout pagetable dstva src) Q s ↔ Q (-1) s := by
  obtain ⟨b, src, rfl⟩ := List.exists_cons_of_ne_nil hsrc
  have htrap : writeTrap (PGROUNDDOWN dstva) pagetable s = .ok (-1, s) := by
    unfold writeTrap
    rw [if_pos (checkValidAdd_iff.2 (.inl hva))]
    rfl
  unfold copyout
  rw [List.length_cons, copyoutFrom, if_neg (List.cons_ne_nil _ _), wp_bind, wp_of_eq htrap,
    if_pos (by norm_num), wp_pure]

/-- `copyout` within one page of the new memory. -/
theorem Building.copyout (h : Building n tf k g m F kern s F' t) {o : ℕ} (hv : v < k) (hv0 : 0 < v)
    (hg : ¬g v) (hl : l ≠ []) (ho : o + l.length ≤ PGSIZE) :
    wp E (copyout (n * PGSIZE) (v * PGSIZE + o) l) (fun ret u => ret = 0 ∧ u.denied = t.denied ∧
      Building n tf k g (Bytes.store m (v * PGSIZE + o) l) F kern s F' u) t := by
  have hU := UPAGES_eq
  have hUV := UPAGES_le
  have hle := h.le
  have hpos := List.length_pos_iff.2 hl
  have hva : v * PGSIZE < MAXVA := by
    rw [← page_lt_iff, mul_PGSIZE_div]
    omega
  have hdown : PGROUNDDOWN (v * PGSIZE + o) = v * PGSIZE := by
    rw [PGROUNDDOWN, page_add v (by omega)]
  obtain ⟨huser, hne⟩ := h.userPage hv hg
  obtain ⟨turns, hturns⟩ : ∃ turns, l.length = turns + 1 := ⟨l.length - 1, by omega⟩
  unfold CowPbs.copyout
  rw [hturns, copyoutFrom, if_neg hl, hdown]
  dsimp only
  rw [Nat.add_sub_cancel_left]
  have hcow : (F'.pte n (v * PGSIZE / PGSIZE)).testBit 8 = false := by
    rw [mul_PGSIZE_div, h.own v hv]
  refine wp_seq (writeTrap_spec h.vm.tables h.root fun _ hc => by rw [hcow] at hc; cases hc)
    fun ret u htr => ?_
  -- the page is there, and not copy-on-write
  cases htr with
  | invalid hbad =>
    have := Nat.mul_pos hv0 PGSIZE_pos
    omega
  | absent _ _ hnone =>
    rw [mul_PGSIZE_div] at hnone
    exact absurd (h.vm.tables.pte_eq_zero hnone) (h.mapped hv)
  | denied _ _ hc =>
    rw [hcow] at hc
    cases hc
  | broken _ _ hc =>
    rw [hcow] at hc
    cases hc
  | direct =>
    have hmin : Min.min (PGSIZE - o) l.length = l.length := by omega
    rw [if_neg (by norm_num), wp_bind, wp_walkaddr, huser, if_neg hne, hmin, List.take_length, List.drop_length, wp_bind, wp_memmove,
      wp_of_eq (copyoutFrom_nil ..)]
    exact ⟨rfl, rfl, h.store hv ho⟩

omit [Layout] in
theorem push_eq_below {sp n : ℕ} (hsp : sp < 2 ^ 64) (hn : n ≤ sp) : push sp n = below sp n := by
  unfold push below
  dsimp only
  omega

omit [Layout] in
/-- Without room the address is below the stack, or not an address. -/
theorem push_of_no_room {sp n base : ℕ} (hsp : sp < 2 ^ 40) (hn : n < 2 ^ 63)
    (hroom : sp < base + n) : push sp n < base ∨ MAXVA ≤ PGROUNDDOWN (push sp n) := by
  have hmax : MAXVA = 2 ^ 38 := by decide
  unfold push
  rw [hmax]
  simp only [PGROUNDDOWN, PGSIZE]
  omega

omit [Layout] in
theorem below_bounds {sp n base : ℕ} (hbase : base % 16 = 0) (hroom : base + n ≤ sp) :
    base ≤ below sp n ∧ below sp n + n ≤ sp := by
  unfold below
  omega

/-- How far the stack has come : the address `sp` is in the stack page. -/
structure OnStack (n tf k : ℕ) (m : Mem) (F : Forest ℕ) (kern : ℕ → ℕ) (s t : Mach) (sp : ℕ)
    (u : Mach) : Prop where
  building : ∃ F', Building n tf k (fun w => w = k - 2) m F kern s F' u
  low : (k - 1) * PGSIZE ≤ sp
  high : sp ≤ k * PGSIZE
  denied : u.denied = t.denied

/-- Bytes are pushed, or there is no room for them. -/
theorem OnStack.push {α : Type} {sp : ℕ} {cont : K (Option α)} {Q : Option α → Mach → Prop}
    (h : OnStack n tf k m F kern s t sp u) (hk : 2 ≤ k) (hl : l ≠ []) (hlen : l.length < 2 ^ 63)
    (hnone : sp < (k - 1) * PGSIZE + l.length → Q none u)
    (hcont : (k - 1) * PGSIZE + l.length ≤ sp → push sp l.length = below sp l.length →
      ∀ w, OnStack n tf k (store m (below sp l.length) l) F kern s t (below sp l.length) w →
        wp E cont Q w) :
    wp E (if push sp l.length < (k - 1) * PGSIZE then return none
      else do
        let r ← copyout (n * PGSIZE) (push sp l.length) l
        if r < 0 then return none else cont) Q u := by
  obtain ⟨F', hb⟩ := h.building
  have hP : PGSIZE = 4096 := rfl
  have hle := h.high.trans (Nat.mul_le_mul_right PGSIZE hb.le)
  have hpage : k * PGSIZE = (k - 1) * PGSIZE + PGSIZE := by
    rw [← Nat.succ_mul, Nat.succ_eq_add_one, Nat.sub_add_cancel (by omega)]
  have halign : (k - 1) * PGSIZE % 16 = 0 := by
    rw [Nat.mul_mod]
    exact Nat.mod_eq_zero_of_dvd (Dvd.dvd.mul_left ⟨0, rfl⟩ _)
  have hhigh := h.high
  rw [wp_ite]
  by_cases hroom : sp < (k - 1) * PGSIZE + l.length
  · refine ⟨fun _ => hnone hroom, fun hge => ?_⟩
    have hva := (push_of_no_room (by omega) hlen hroom).resolve_left hge
    rw [wp_bind, wp_copyout_high hl hva, if_pos (by norm_num), wp_pure]
    exact hnone hroom
  · have hpush : CowPbs.push sp l.length = below sp l.length := push_eq_below (by omega) (by omega)
    obtain ⟨hlow, hend⟩ := below_bounds halign (not_lt.1 hroom)
    rw [hpush]
    refine ⟨fun hlt => absurd hlt (by omega), fun _ => ?_⟩
    have haddr : below sp l.length = (k - 1) * PGSIZE + (below sp l.length - (k - 1) * PGSIZE) := by
      omega
    rw [haddr]
    refine wp_seq (hb.copyout (by omega) (by omega) (by omega) hl (by omega))
      fun ret w ⟨hret, hden, hb'⟩ => ?_
    rw [← haddr] at hb'
    rw [hret, if_neg (lt_irrefl 0)]
    exact hcont (not_lt.1 hroom) hpush w
      ⟨⟨F', hb'⟩, hlow, by omega, hden.trans h.denied⟩

theorem pushArgs_spec {argv : List (List Byte)} {sp : ℕ} {ustack : List ℕ}
    (h : OnStack n tf k m F kern s t sp u) (hk : 2 ≤ k)
    (hargv : ∀ arg ∈ argv, arg.length + 1 < 2 ^ 63) :
    wp E (pushArgs (n * PGSIZE) ((k - 1) * PGSIZE) argv sp ustack) (fun o w =>
      match o with
      | none => placeArgs ((k - 1) * PGSIZE) argv sp ustack m = none ∧
          ∃ m' sp', OnStack n tf k m' F kern s t sp' w
      | some (sp', ustack') => ∃ m',
          placeArgs ((k - 1) * PGSIZE) argv sp ustack m = some (sp', ustack', m') ∧
          OnStack n tf k m' F kern s t sp' w) u := by
  -- Induction on the arguments.
  induction argv generalizing sp ustack m u with
  | nil => exact ⟨m, rfl, h⟩
  | cons arg argv ih =>
    unfold pushArgs placeArgs
    by_cases hmax : MAXARG ≤ ustack.length
    · rw [if_pos hmax, wp_pure]
      exact ⟨if_pos hmax, m, sp, h⟩
    rw [if_neg hmax]
    have hlen : (arg ++ [0]).length = arg.length + 1 := by simp
    have harg := hargv arg List.mem_cons_self
    dsimp only
    rw [if_neg hmax, ← hlen]
    refine h.push hk (by simp) (by omega) (fun hroom => ?_) fun hroom hpush w hw => ?_
    · exact ⟨if_pos hroom, m, sp, h⟩
    · rw [hpush, if_neg (not_lt.2 hroom)]
      exact ih hw fun a ha => hargv a (List.mem_cons_of_mem _ ha)

omit [Layout] in
/-- Each argument gets an address, and there are not more than `MAXARG`. -/
theorem length_placeArgs {stackbase sp sp' : ℕ} {argv : List (List Byte)} {ustack ustack' : List ℕ}
    (h : placeArgs stackbase argv sp ustack m = some (sp', ustack', m')) :
    ustack'.length = ustack.length + argv.length ∧
      (ustack.length ≤ MAXARG → ustack'.length ≤ MAXARG) := by
  induction argv generalizing sp ustack m with
  | nil =>
    obtain ⟨rfl, rfl, rfl⟩ : sp = sp' ∧ ustack = ustack' ∧ m = m' := by
      simpa [placeArgs] using h
    exact ⟨rfl, id⟩
  | cons arg argv ih =>
    rw [placeArgs] at h
    split_ifs at h with hmax hroom
    obtain ⟨hlen, hle⟩ := ih h
    rw [List.length_append, List.length_singleton] at hlen hle
    refine ⟨?_, fun _ => hle (by omega)⟩
    rw [hlen, List.length_cons]
    omega

theorem pushStack_spec {argv : List (List Byte)} (h : OnStack n tf k m F kern s t (k * PGSIZE) u)
    (hk : 2 ≤ k) (hargv : ∀ arg ∈ argv, arg.length + 1 < 2 ^ 63) :
    wp E (pushStack (n * PGSIZE) (k * PGSIZE) argv) (fun o w =>
      match o with
      | none => placeStack (k * PGSIZE) argv m = none ∧ ∃ m' sp', OnStack n tf k m' F kern s t sp' w
      | some sp => ∃ m', placeStack (k * PGSIZE) argv m = some (sp, m') ∧
          OnStack n tf k m' F kern s t sp w) u := by
  have hbase : k * PGSIZE - PGSIZE = (k - 1) * PGSIZE := (Nat.sub_one_mul k PGSIZE).symm
  unfold pushStack placeStack
  dsimp only
  rw [hbase]
  refine wp_seq (pushArgs_spec h hk hargv) fun o w ho => ?_
  cases o with
  | none =>
    obtain ⟨hnone, hst⟩ := ho
    rw [hnone]
    exact ⟨rfl, hst⟩
  | some x =>
    obtain ⟨sp, ustack⟩ := x
    obtain ⟨m₁, hplace, hst⟩ := ho
    have hlen : ((ustack ++ [0]).flatMap (toBytes 8)).length = (ustack.length + 1) * 8 := by
      rw [length_flatMap_toBytes, List.length_append, List.length_singleton]
    rw [hplace, Option.bind_some]
    dsimp only
    rw [← hlen]
    refine hst.push hk ?_ ?_ (fun hroom => ?_) fun hroom hpush w' hw' => ?_
    · refine List.length_pos_iff.1 ?_
      omega
    · have hle : ustack.length ≤ MAXARG := (length_placeArgs hplace).2 (Nat.zero_le _)
      have hmax : MAXARG = 32 := rfl
      omega
    · exact ⟨if_pos hroom, m₁, sp, hst⟩
    · rw [hpush, if_neg (not_lt.2 hroom), wp_pure]
      exact ⟨_, rfl, hw'⟩

/-! ## `exec` up to its commit -/

/-- The new address space, or everything as it was. -/
def ExecPost (tf : ℕ) (readi : Reader) (argv : List (List Byte)) (F : Forest ℕ) (kern : ℕ → ℕ)
    (s : Mach) (o : Option Image) (t : Mach) : Prop :=
  match o with
  | none => (∃ F', Restored F kern s F' t) ∧ (execSpec readi argv = none ∨ t.denied = true)
  | some image => ∃ n k m' F', image.pagetable = n * PGSIZE ∧ image.sz = k * PGSIZE ∧ 2 ≤ k ∧
      execSpec readi argv = some ⟨image.sz, image.entry, image.sp, m'⟩ ∧
      Building n tf k (fun w => w = k - 2) m' F kern s F' t ∧ t.denied = s.denied

omit [Layout] in
theorem pages_PGROUNDUP (h : sz < 2 ^ 62) : pages (PGROUNDUP sz) = pages sz ∧
    PGROUNDUP sz = pages sz * PGSIZE := by
  have hround := PGROUNDUP_pages (show sz < 2 ^ 63 by omega)
  exact ⟨by rw [hround, pages_mul], hround⟩

theorem execImage_spec {readi : Reader} {argv : List (List Byte)} (hvm : Vm F kern s)
    (htf : tf < 2 ^ 44) (hread : ∀ off n, (readi off n).length ≤ n)
    (hargv : ∀ arg ∈ argv, arg.length + 1 < 2 ^ 63) :
    wp E (execImage (tf * PGSIZE) readi argv) (ExecPost tf readi argv F kern s) s := by
  have hrefl : Restored F kern s F s :=
    ⟨hvm, .refl, rfl, rfl, fun _ _ _ => rfl⟩
  unfold execImage
  dsimp only
  by_cases hlen : (readi 0 ELFHDR_SIZE).length ≠ ELFHDR_SIZE
  · rw [if_pos hlen, wp_pure]
    exact ⟨⟨F, hrefl⟩, .inl (if_pos hlen)⟩
  by_cases hmagic : (ElfHdr.decode (readi 0 ELFHDR_SIZE)).magic ≠ ELF_MAGIC
  · rw [if_neg hlen, if_pos hmagic, wp_pure]
    exact ⟨⟨F, hrefl⟩, .inl ((if_neg hlen).trans (if_pos hmagic))⟩
  -- what the file and the arguments say
  have hspec : execSpec readi argv =
      (loadSteps readi (ElfHdr.decode (readi 0 ELFHDR_SIZE)).phnum
        ((ElfHdr.decode (readi 0 ELFHDR_SIZE)).phoff % 2 ^ 32) (0, fun _ => 0)).bind fun x =>
          (placeStack (PGROUNDUP x.1 + 2 * PGSIZE) argv x.2).map fun y =>
            ⟨PGROUNDUP x.1 + 2 * PGSIZE, (ElfHdr.decode (readi 0 ELFHDR_SIZE)).entry, y.1, y.2⟩ :=
    (if_neg hlen).trans (if_neg hmagic)
  rw [if_neg hlen, if_neg hmagic]
  refine wp_seq (procPagetable_spec hvm htf) fun o t ho => ?_
  cases o with
  | none =>
    obtain ⟨hden, hres⟩ := ho
    exact ⟨hres, .inr hden⟩
  | some pagetable =>
    obtain ⟨n, F₁, rfl, hnew⟩ := ho
    have hstart : Building n tf (pages 0) (fun _ => False) (fun _ => 0) F kern s F₁ t := .start hnew
    -- the address space is given back
    have hout : ∀ {F₂ : Forest ℕ} {g : ℕ → Prop} {m : Mem} {sz : ℕ} {u : Mach},
        Building n tf (pages sz) g m F kern s F₂ u → execSpec readi argv = none ∨ u.denied = true →
        wp E (do
          procFreepagetable (n * PGSIZE) sz
          return none) (ExecPost tf readi argv F kern s) u :=
      fun hb hbad => wp_seq (hb.abandon hvm) fun _ w hw =>
        ⟨hw.1, hbad.imp_right fun hd => hw.2.trans hd⟩
    refine wp_seq (loadTurns_spec hread hstart fun _ => id) ?_
    rintro ⟨more, sz⟩ u ⟨F₂, m, hb, hmore⟩
    rcases hmore with ⟨hmore, hload, hden⟩ | ⟨hmore, hbad⟩
    · dsimp only at hmore hload hb ⊢
      rw [hmore, if_pos rfl]
      have hle := hb.le
      have hsz : sz < 2 ^ 40 := by
        simp only [pages] at hle
        omega
      obtain ⟨hpages, hround⟩ := pages_PGROUNDUP (show sz < 2 ^ 62 by omega)
      have hP : PGSIZE = 4096 := rfl
      have hmul := Nat.mul_le_mul_right PGSIZE hb.le
      have hend : (PGROUNDUP sz + 2 * PGSIZE) % 2 ^ 64 = (pages sz + 2) * PGSIZE := by
        rw [Nat.add_mul, hround, Nat.mod_eq_of_lt]
        omega
      have hstack : execSpec readi argv = (placeStack ((pages sz + 2) * PGSIZE) argv m).map fun y =>
          ⟨(pages sz + 2) * PGSIZE, (ElfHdr.decode (readi 0 ELFHDR_SIZE)).entry, y.1, y.2⟩ := by
        rw [hspec, hload, Option.bind_some, Nat.add_mul, hround]
      have hb' : Building n tf (pages (PGROUNDUP sz)) (fun _ => False) m F kern s F₂ u := by
        rwa [hpages]
      rw [hend]
      refine wp_seq (uvmalloc_spec hb'.vm hb'.root hb'.space.sized (by decide)) fun sz1 w hw => ?_
      rw [hpages, pages_mul] at hw
      rcases hw with ⟨hlt, -, -⟩ | ⟨-, hret, F₃, hgrew⟩ | ⟨-, hret, hd, F₃, hun⟩
      · rw [hround] at hlt
        omega
      · have hgrown := hb.grow (fun _ => id) (Nat.le_add_right _ 2) (by decide) hgrew
        have hguard : (pages sz + 2) * PGSIZE - 2 * PGSIZE = pages sz * PGSIZE := by
          rw [← Nat.sub_mul, Nat.add_sub_cancel]
        rw [hret, if_neg (by omega), hguard]
        refine wp_seq (hgrown.guard (fun _ => id) (by omega)) ?_
        rintro _ x ⟨hdx, F₄, hb₄⟩
        have hst : OnStack n tf (pages sz + 2) m F kern s x ((pages sz + 2) * PGSIZE) x :=
          ⟨⟨F₄, hb₄⟩, Nat.mul_le_mul_right _ (by omega), le_rfl, rfl⟩
        refine wp_seq (pushStack_spec hst (by omega) hargv) fun o y ho => ?_
        cases o with
        | none =>
          obtain ⟨hnone, m', sp', hst'⟩ := ho
          obtain ⟨F₅, hb₅⟩ := hst'.building
          have hfive : Building n tf (pages ((pages sz + 2) * PGSIZE)) (fun w => w = pages sz + 2 - 2)
              m' F kern s F₅ y := by
            rw [pages_mul]
            exact hb₅
          exact hout hfive (.inl (by rw [hstack, hnone]; rfl))
        | some sp =>
          obtain ⟨m', hplace, hst'⟩ := ho
          obtain ⟨F₅, hb₅⟩ := hst'.building
          refine ⟨n, pages sz + 2, m', F₅, rfl, rfl, by omega, by rw [hstack, hplace]; rfl, hb₅, ?_⟩
          rw [hst'.denied, hdx, hgrew.denied, hden, hnew.denied]
      · rw [if_pos hret]
        exact hout (hb'.unchanged hun) (.inr hd)
    · dsimp only at hmore hb ⊢
      rw [hmore, if_neg (by decide)]
      refine hout hb (hbad.imp_left fun hnone => ?_)
      rw [hspec, hnone]
      rfl

end

end CowPbs
