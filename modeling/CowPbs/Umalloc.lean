import Mathlib
import CowPbs.GrowProc
import CowPbs.Lib.Chain

/-!
# The allocator of a user program

umalloc.c keeps the free blocks in a ring of headers, with `base` in it, in the order of their
addresses. A header is a pointer and a number of units of 16 bytes, the one of the header itself
included. The state is what is in the headers, `freep`, and the size of the process, which `sbrk`
changes as `sys_sbrk` and `growproc` do. Whether the kernel has the memory for more is up to `grant`.

An access to a page that the process does not have stops the program. The loops take a bound on their
turns.
-/

set_option linter.unusedSectionVars false

open Function Prog Chain Radix

namespace CowPbs.Umalloc

/-- The memory and the variables of umalloc.c. -/
structure Heap where
  /-- `s.ptr`, by the address of the header. -/
  ptr : ℕ → ℕ
  /-- `s.size`. -/
  size : ℕ → ℕ
  freep : ℕ
  /-- The size of the process. -/
  sz : ℕ

/-- Not in the program : a loop takes more turns. -/
def noTurns : String :=
  "out of turns"

/-! ## Headers -/

/-- The header at `a` is in the memory of the process. -/
def access (a : ℕ) : Prog Heap Unit := do
  panicIf (PGROUNDUP (← get).sz < a + 16) "usertrap"

def getPtr (a : ℕ) : Prog Heap ℕ := do
  access a
  return (← get).ptr a

def getSize (a : ℕ) : Prog Heap ℕ := do
  access a
  return (← get).size a

def setPtr (a v : ℕ) : Prog Heap Unit := do
  access a
  modify fun s => { s with ptr := update s.ptr a v }

def setSize (a v : ℕ) : Prog Heap Unit := do
  access a
  modify fun s => { s with size := update s.size a (v % 2 ^ 32) }

def setFreep (a : ℕ) : Prog Heap Unit :=
  modify fun s => { s with freep := a }

/-! ## `sbrk` -/

/-- `(char*)-1`. -/
def failed : ℕ :=
  2 ^ 64 - 1

/-- What `sys_sbrk` returns, and the size of the process after it. -/
def sysSbrk (granted : Bool) (sz : ℕ) (n : Int32) : ℕ × ℕ :=
  if 0 < n then if granted then (sz, addInt sz n) else (failed, sz)
  else if n < 0 then (sz, Min.min sz (addInt sz n))
  else (sz, sz)

/-- `sysSbrk` is what `growproc` makes of it. -/
theorem sysSbrk_growproc [Layout] {F : Forest ℕ} {kern : ℕ → ℕ} {s : Mach} {r sz : ℕ}
    (h : Vm F kern s) (hr : r ∈ F.roots) (hs : F.Sized r (pages sz)) (n : Int32) :
    ∃ granted ret sz' t, growproc (r * PGSIZE) sz n s = .ok ((ret, sz'), t) ∧
      sysSbrk granted sz n = (if ret < 0 then failed else sz, sz') := by
  have hsz := h.lt_of_sized hr hs
  have hspec : wp Never (growproc (r * PGSIZE) sz n)
      (fun o _ => ∃ granted, sysSbrk granted sz n = (if o.1 < 0 then failed else sz, o.2)) s := by
    unfold growproc sysSbrk
    rw [wp_ite]
    refine ⟨fun hpos => ?_, fun hpos => ?_⟩
    · have hpos' : 0 < n.toInt := Int32.lt_iff_toInt_lt.1 hpos
      have hadd := addInt_eq hsz (show 0 ≤ sz + n.toInt by omega)
      refine wp_seq (uvmalloc_spec h hr hs (by decide)) fun o t ho => ?_
      obtain ⟨hlt, -⟩ | ⟨hle, rfl, -⟩ | ⟨hle, rfl, -⟩ := ho
      · omega
      · rw [if_neg (by omega), wp_pure]
        exact ⟨true, by rw [if_pos hpos, if_pos rfl]; rfl⟩
      · rw [if_pos rfl, wp_pure]
        exact ⟨false, by rw [if_pos hpos, if_neg Bool.false_ne_true]; rfl⟩
    · rw [wp_ite]
      refine ⟨fun hneg => ?_, fun hneg => ?_⟩
      · refine wp_seq (uvmdealloc_spec h hr hs) fun o t ⟨ho, _⟩ => ?_
        rw [wp_pure, ho]
        refine ⟨true, ?_⟩
        rw [if_neg hpos, if_pos hneg]
        by_cases hle : sz ≤ addInt sz n
        · rw [if_pos hle, Nat.min_eq_left hle]
          rfl
        · rw [if_neg hle, Nat.min_eq_right (not_le.1 hle).le]
          rfl
      · exact ⟨true, by rw [if_neg hpos, if_neg hneg]; rfl⟩
  obtain ⟨⟨ret, sz'⟩, t, hrun, granted, hsb⟩ := wp_exists hspec
  exact ⟨granted, ret, sz', t, hrun, hsb⟩

/-- `sbrk`. Its parameter is an `int`. -/
def sbrk (grant : ℕ → ℕ → Bool) (n : ℕ) : Prog Heap ℕ := do
  let s ← get
  let n := Int32.ofNat n
  let r := sysSbrk (grant s.sz (addInt s.sz n)) s.sz n
  set { s with sz := r.2 }
  return r.1

/-! ## `free` -/

/-- The loop of `free`. -/
def findPrev (bp : ℕ) : ℕ → ℕ → Prog Heap ℕ
  | 0, _ => throw noTurns
  | turns + 1, p => do
    let next ← getPtr p
    if p < bp ∧ bp < next then return p
    else if next ≤ p ∧ (p < bp ∨ bp < next) then return p
    else findPrev bp turns next

/-- The header at `a` is linked to the next one at `b`, or, if that is where its block ends, the two
blocks are made one. `free` has these statements twice. -/
def join (a b : ℕ) : Prog Heap Unit := do
  let n ← getSize a
  if a + 16 * n = b then
    let m ← getSize b
    setSize a (n + m)
    let q ← getPtr b
    setPtr a q
  else setPtr a b

/-- `free`. -/
def free (turns ap : ℕ) : Prog Heap Unit := do
  let bp := ap - 16
  let p ← findPrev bp turns (← get).freep
  let next ← getPtr p
  join bp next
  join p bp
  setFreep p

/-! ## `malloc` -/

/-- `morecore`. -/
def morecore (grant : ℕ → ℕ → Bool) (turns nu : ℕ) : Prog Heap ℕ := do
  let nu := if nu < 4096 then 4096 else nu
  let p ← sbrk grant (nu * 16)
  if p = failed then return 0
  else
    setSize p nu
    free turns (p + 16)
    return (← get).freep

/-- `nunits` units of the block at `p`, which is after `prevp`. -/
def takeUnits (nunits prevp p : ℕ) : Prog Heap ℕ := do
  let n ← getSize p
  if n = nunits then
    let q ← getPtr p
    setPtr prevp q
    setFreep prevp
    return p + 16
  else
    setSize p (n - nunits)
    let p := p + 16 * (n - nunits)
    setSize p nunits
    setFreep prevp
    return p + 16

/-- The loop of `malloc`. -/
def mallocLoop (grant : ℕ → ℕ → Bool) (fuel nunits : ℕ) : ℕ → ℕ → ℕ → Prog Heap ℕ
  | 0, _, _ => throw noTurns
  | turns + 1, prevp, p => do
    if nunits ≤ (← getSize p) then takeUnits nunits prevp p
    else if p = (← get).freep then
      let p ← morecore grant fuel nunits
      if p = 0 then return 0
      else
        let q ← getPtr p
        mallocLoop grant fuel nunits turns p q
    else
      let q ← getPtr p
      mallocLoop grant fuel nunits turns p q

/-- The units of a block for `nbytes` bytes. The sum is of 64 bits. -/
def units (nbytes : ℕ) : ℕ :=
  (nbytes + 16 - 1) / 16 + 1

/-- `base.s.ptr = freep = &base` and `base.s.size = 0`, the first time. -/
def initBase (base : ℕ) : Prog Heap Unit := do
  if (← get).freep = 0 then
    setPtr base base
    setFreep base
    setSize base 0

/-- `malloc`. -/
def malloc (base : ℕ) (grant : ℕ → ℕ → Bool) (turns nbytes : ℕ) : Prog Heap ℕ := do
  initBase base
  let prevp := (← get).freep
  let p ← getPtr prevp
  mallocLoop grant turns (units nbytes) turns prevp p

/-- Memory without blocks, where `base` is at 0x3000. -/
def Heap.empty : Heap where
  ptr _ := 0
  size _ := 0
  freep := 0
  sz := 0x4000

example : (malloc 0x3000 (fun _ _ => true) 4 100 Heap.empty).toOption.map (fun r =>
    (r.1, r.2.freep, r.2.ptr 0x3000, r.2.size 0x4000, r.2.sz)) =
    some (0x4000 + 16 * 4088 + 16, 0x3000, 0x4000, 4088, 0x14000) := by
  decide +kernel

end CowPbs.Umalloc
