import Mathlib
import CowPbs.PipeFifo
import CowPbs.UserWrites

/-!
# A pipe read into user memory

The second loop of `piperead` takes a byte out of the pipe before it stores it. `pi->lock` is held
all the while, so the loop is a run of the interleaved pipe (`pipereadLoop_run`), and the bytes
that were stored are gone from the pipe and in the user's memory. If a `copyout` fails its byte is
gone too, though it is not among those that are returned (`piperead_right_iff`).
-/

set_option linter.unusedSectionVars false

open Function Prog Bytes Radix Transition

namespace CowPbs

/-- The second loop of `piperead`, with `turns` turns left. -/
def pipereadLoop [Layout] (pagetable addr : ℕ) (n : ℤ) : ℕ → ℕ → Pipe → K (ℕ × Pipe)
  | 0, i, pi => return (i, pi)
  | turns + 1, i, pi => do
    if (i : ℤ) < n ∧ ¬pi.Empty then
      let r ← copyout pagetable ((addr + i) % 2 ^ 64) [pi.head]
      if r = -1 then return (i, pi.pop)
      else pipereadLoop pagetable addr n turns (i + 1) pi.pop
    else return (i, pi)

/-- `piperead`, from where the pipe is not empty or has no writer any more. It returns the number
of bytes. -/
def piperead [Layout] (pagetable addr : ℕ) (n : ℤ) (pi : Pipe) : K (ℕ × Pipe) :=
  pipereadLoop pagetable addr n n.toNat 0 pi

/-- The `i` bytes that are returned, and no others, are out of the pipe and in user memory. -/
structure PipereadRight (r addr : ℕ) (pi : Pipe) (s : Mach) (i : ℕ) (pi' : Pipe) (t : Mach) :
    Prop where
  le : i ≤ pi.contents.length
  contents : pi'.contents = pi.contents.drop i
  view : ∀ x < TRAPFRAME, view t.mem r x =
    if addr ≤ x ∧ x < addr + i then pi.contents[x - addr]? else CowPbs.view s.mem r x

/-- Each of the bytes can be stored, one after the other. -/
def CopiesOut [Layout] (pagetable : ℕ) : ℕ → List Byte → Mach → Prop
  | _, [], _ => True
  | addr, b :: l, s => ∃ t, copyout pagetable addr [b] s = .ok (0, t) ∧
    CopiesOut pagetable (addr + 1) l t

section

variable [Layout] {F F' : Forest ℕ} {kern : ℕ → ℕ} {s t : Mach} {r k tf addr i j : ℕ} {n : ℤ}
  {pi pi' : Pipe}

/-! ## The loop and the interleaved pipe -/

/-- The loop is a run of the process that holds `pi->lock`. -/
theorem pipereadLoop_run {a : PipeChans} {p : Slot} {pagetable : ℕ} (turns : ℕ) :
    ∀ (i : ℕ) (S : PipeSys) (s : Mach), n.toNat ≤ i + turns → S.pc p = .copy i n →
      S.state p = .running →
      pipereadLoop pagetable addr n turns i S.pipe s = .ok ((j, pi'), t) →
      ∃ es S', Run (PipeSys.Step a) S es S' ∧ S'.pipe = pi' ∧
        S'.pc p = .wakeup false 0 (.ret (.read n) j) ∧ i ≤ j ∧
        deliveredBytes es = S.pipe.contents.take (j - i) := by
  induction turns with
  | zero =>
    intro i S s hn hpc hp h
    obtain ⟨⟨rfl, rfl⟩, rfl⟩ : (i = j ∧ S.pipe = pi') ∧ s = t := by
      simpa [pipereadLoop, pure, StateT.pure, Except.pure] using h
    refine ⟨[(p, .done)], _, Run.snoc .nil (.done p i n hpc hp (.inl ?_)), rfl, by simp, le_rfl, ?_⟩
    · omega
    · simp [deliveredBytes]
  | succ turns ih =>
    intro i S s hn hpc hp h
    unfold pipereadLoop at h
    by_cases hc : (i : ℤ) < n ∧ ¬S.pipe.Empty
    · rw [if_pos hc] at h
      cases hcopy : copyout pagetable ((addr + i) % 2 ^ 64) [S.pipe.head] s with
      | error e =>
        simp only [bind, StateT.bind, Except.bind, hcopy] at h
        cases h
      | ok r =>
        obtain ⟨ret, s₁⟩ := r
        simp only [bind, StateT.bind, Except.bind, hcopy] at h
        by_cases hret : ret = -1
        · rw [if_pos hret] at h
          obtain ⟨⟨rfl, rfl⟩, rfl⟩ : (i = j ∧ S.pipe.pop = pi') ∧ s₁ = t := by
            simpa [pure, StateT.pure, Except.pure] using h
          refine ⟨[(p, .badOut S.pipe.head)], _, Run.snoc .nil (.badOut p i n hpc hp hc.1 hc.2),
            rfl, by simp, le_rfl, ?_⟩
          simp [deliveredBytes]
        · rw [if_neg hret] at h
          obtain ⟨es, S', hrun, hpipe, hpc', hle, hbytes⟩ := ih (i + 1)
            ({ S with pipe := S.pipe.pop }.goto p (.copy (i + 1) n)) s₁ (by omega) (by simp) hp h
          refine ⟨(p, .get S.pipe.head) :: es, S', hrun.cons (.get p i n hpc hp hc.1 hc.2), hpipe,
            hpc', by omega, ?_⟩
          have hcons : deliveredBytes ((p, .get S.pipe.head) :: es) =
              S.pipe.head :: deliveredBytes es := rfl
          have hpop : ({ S with pipe := S.pipe.pop }.goto p (.copy (i + 1) n)).pipe =
              S.pipe.pop := rfl
          rw [hcons, hbytes, hpop, PipeSys.contents_pop hc.2,
            show j - i = (j - (i + 1)) + 1 by omega, List.take_succ_cons]
    · rw [if_neg hc] at h
      obtain ⟨⟨rfl, rfl⟩, rfl⟩ : (i = j ∧ S.pipe = pi') ∧ s = t := by
        simpa [pure, StateT.pure, Except.pure] using h
      refine ⟨[(p, .done)], _, Run.snoc .nil (.done p i n hpc hp ?_), rfl, by simp, le_rfl, ?_⟩
      · exact (not_and_or.1 hc).imp id not_not.1
      · simp [deliveredBytes]

/-! ## What the loop leaves -/

/-- From byte `i` on, the loop has stored `j` bytes of the pipe, and taken one more if there was one
that could not be stored. -/
def ReadPost (r addr i : ℕ) (n : ℤ) (pi : Pipe) (F : Forest ℕ) (kern : ℕ → ℕ) (s : Mach)
    (o : ℕ × Pipe) (t : Mach) : Prop :=
  ∃ j F', j ≤ pi.contents.length ∧ o.1 = i + j ∧
    Stored r (addr + i) (pi.contents.take j) F kern s F' t ∧
    ((CopiesOut (r * PGSIZE) (addr + i) (pi.contents.take (n.toNat - i)) s ∧
        o.2.contents = pi.contents.drop j) ∨
      (¬CopiesOut (r * PGSIZE) (addr + i) (pi.contents.take (n.toNat - i)) s ∧
        j < pi.contents.length ∧ o.2.contents = pi.contents.drop (j + 1)))

/-- The loop ends before a byte. -/
theorem ReadPost.stop (h : Vm F kern s) (hnil : pi.contents.take (n.toNat - i) = []) :
    ReadPost r addr i n pi F kern s (i, pi) s := by
  refine ⟨0, F, Nat.zero_le _, rfl, .refl h, .inl ⟨?_, rfl⟩⟩
  rw [hnil]
  trivial

theorem contents_eq_nil (h : pi.Empty) : pi.contents = [] := by
  have hz : (pi.nwrite - pi.nread).toNat = 0 := Ring.toNat_sub_eq_zero.2 h
  rw [Pipe.contents, hz, Ring.window_zero]

theorem pipereadLoop_spec (turns : ℕ) :
    ∀ (i : ℕ) (pi : Pipe) (F : Forest ℕ) (s : Mach), Vm F kern s → Space F r k tf →
      n.toNat ≤ i + turns → addr + i < 2 ^ 64 →
      wp Never (pipereadLoop (r * PGSIZE) addr n turns i pi) (ReadPost r addr i n pi F kern s) s := by
  induction turns with
  | zero =>
    intro i pi F s h hsp hn ha
    refine .stop h ?_
    rw [Nat.sub_eq_zero_of_le (by omega), List.take_zero]
  | succ turns ih =>
    intro i pi F s h hsp hn ha
    unfold pipereadLoop
    rw [wp_ite]
    refine ⟨fun hc => ?_, fun hc => ?_⟩
    · have hpop := PipeSys.contents_pop hc.2
      have htake : pi.contents.take (n.toNat - i) =
          pi.head :: pi.pop.contents.take (n.toNat - (i + 1)) := by
        rw [hpop, show n.toNat - i = (n.toNat - (i + 1)) + 1 by omega, List.take_succ_cons]
      rw [Nat.mod_eq_of_lt ha]
      have hcopy : wp Never (copyout (r * PGSIZE) (addr + i) [pi.head])
          (CopyoutPost r (addr + i) [pi.head] F kern s) s := copyoutFrom_spec h hsp le_rfl
      obtain ⟨ret, s₁, hrun, j, F₁, hst, hacc, hres⟩ := wp_exists hcopy
      rw [wp_bind, wp_of_eq hrun, wp_ite]
      rcases hres with ⟨rfl, hj, -⟩ | ⟨rfl, hj, -⟩
      · -- the byte is stored
        refine ⟨fun h0 => absurd h0 (by norm_num), fun _ => ?_⟩
        rw [hj, List.length_singleton] at hacc
        have hva := (hacc 0 Nat.zero_lt_one).2.1
        rw [page_lt_iff, Nat.add_zero] at hva
        have hM : MAXVA = 2 ^ 38 := rfl
        rw [hj, List.take_length] at hst
        refine wp_mono (ih (i + 1) pi.pop F₁ s₁ hst.vm (hst.space hsp) (by omega) (by omega))
          fun o t ⟨j', F', hle, ho, hst', hout⟩ => ?_
        have hiff : CopiesOut (r * PGSIZE) (addr + i) (pi.contents.take (n.toNat - i)) s ↔
            CopiesOut (r * PGSIZE) (addr + (i + 1))
              (pi.pop.contents.take (n.toNat - (i + 1))) s₁ := by
          rw [htake]
          constructor
          · rintro ⟨s₂, hrun₂, hrest⟩
            obtain ⟨-, rfl⟩ := Prod.mk.inj (Except.ok.inj (hrun₂.symm.trans hrun))
            exact hrest
          · exact fun hrest => ⟨s₁, hrun, hrest⟩
        have hdrop : ∀ k, pi.contents.drop (k + 1) = pi.pop.contents.drop k := fun k => by
          rw [hpop, List.drop_succ_cons]
        refine ⟨j' + 1, F', ?_, by omega, ?_, ?_⟩
        · rw [hpop, List.length_cons]
          omega
        · rw [hpop, List.take_succ_cons]
          exact hst.trans hst'
        · rw [hiff, hdrop, hdrop, hpop, List.length_cons]
          exact hout.imp id fun ⟨hno, hlt, heq⟩ => ⟨hno, by omega, heq⟩
      · -- the byte is lost
        refine ⟨fun _ => ?_, fun h0 => absurd rfl h0⟩
        obtain rfl : j = 0 := by simpa using hj
        rw [wp_pure]
        refine ⟨0, F₁, Nat.zero_le _, rfl, by simpa using hst, .inr ⟨?_, ?_, ?_⟩⟩
        · rw [htake]
          rintro ⟨s₂, hrun₂, -⟩
          obtain ⟨h0, -⟩ := Prod.mk.inj (Except.ok.inj (hrun₂.symm.trans hrun))
          exact absurd h0 (by norm_num)
        · rw [hpop]
          exact Nat.succ_pos _
        · rw [hpop]
          rfl
    · rw [wp_pure]
      refine .stop h ?_
      rcases not_and_or.1 hc with hlt | hempty
      · rw [Nat.sub_eq_zero_of_le (by omega), List.take_zero]
      · rw [contents_eq_nil (not_not.1 hempty), List.take_nil]

/-- `piperead` takes out of the pipe what it has stored, and no more, if and only if no `copyout`
of the bytes that are asked for fails. -/
theorem piperead_right_iff (h : Vm F kern s) (hsp : Space F r k tf) (ha : addr < 2 ^ 64) (n : ℤ)
    (pi : Pipe) :
    ∃ i pi' t, piperead (r * PGSIZE) addr n pi s = .ok ((i, pi'), t) ∧
      (PipereadRight r addr pi s i pi' t ↔
        CopiesOut (r * PGSIZE) addr (pi.contents.take n.toNat) s) := by
  obtain ⟨⟨i, pi'⟩, t, hrun, j, F', hle, hi, hst, hout⟩ :=
    wp_exists (pipereadLoop_spec (n := n) n.toNat 0 pi F s h hsp (by omega) ha)
  obtain rfl : i = j := by simpa using hi
  rw [Nat.add_zero, Nat.sub_zero] at hout
  rw [Nat.add_zero] at hst
  refine ⟨i, pi', t, hrun, ?_⟩
  rcases hout with ⟨hcopies, hdrop⟩ | ⟨hcopies, hlt, hdrop⟩
  · refine iff_of_true ⟨hle, hdrop, fun x hx => ?_⟩ hcopies
    rw [hst.view r hsp.root x hx, List.length_take, Nat.min_eq_left hle]
    by_cases hin : addr ≤ x ∧ x < addr + i
    · rw [if_pos ⟨rfl, hin⟩, if_pos hin, List.getElem?_take_of_lt (by omega)]
    · rw [if_neg fun h => hin h.2, if_neg hin]
  · refine iff_of_false (fun hright => ?_) hcopies
    have hlen := congrArg List.length (hright.contents.symm.trans hdrop)
    rw [List.length_drop, List.length_drop] at hlen
    omega

/-- A pipe with the byte 7 in it. -/
def onePipe : Pipe :=
  ⟨fun _ => 7, 0, 1, true, true⟩

omit [Layout] in
/-- A read of the first process to its only page, at 8. -/
theorem piperead_right_first : ∃ i pi' t,
    @piperead sixteenPages (0x87FF1 * PGSIZE) 8 1 onePipe Os.first.mach = .ok ((i, pi'), t) ∧
      (PipereadRight 0x87FF1 8 onePipe Os.first.mach i pi' t ↔
        @CopiesOut sixteenPages (0x87FF1 * PGSIZE) 8 (onePipe.contents.take 1) Os.first.mach) := by
  let _ : Layout := sixteenPages
  obtain ⟨F, tf, h, hl⟩ := Os.first_lives
  exact piperead_right_iff h.vm hl.space (by norm_num) 1 onePipe

omit [Layout] in
/-- A read to an address that is not mapped returns 0, and the byte is gone. -/
theorem piperead_not_right : (∃ F, @Os.Inv sixteenPages F Os.first) ∧
    ∀ i pi' t, @piperead sixteenPages (0x87FF1 * PGSIZE) 0x2000 1 onePipe Os.first.mach =
        .ok ((i, pi'), t) →
      i = 0 ∧ onePipe.contents = [7] ∧ pi'.contents = [] ∧
        ¬PipereadRight 0x87FF1 0x2000 onePipe Os.first.mach i pi' t := by
  refine ⟨Os.first_inv, fun i pi' t hrun => ?_⟩
  have hret : (@piperead sixteenPages (0x87FF1 * PGSIZE) 0x2000 1 onePipe
      Os.first.mach).toOption.map (fun x => (x.1.1, x.1.2.contents)) = some (0, []) := by
    decide +kernel
  rw [hrun] at hret
  obtain ⟨rfl, hnil⟩ := Prod.mk.inj (Option.some.inj hret)
  have hone : onePipe.contents = [7] := by decide
  refine ⟨rfl, hone, hnil, fun hright => ?_⟩
  have hcontents := hright.contents
  rw [hnil, hone] at hcontents
  cases hcontents

end

end CowPbs
