import Mathlib
import CowPbs.OsInv

/-!
# What the user may write

A page is the user's to write if its entry is valid, has `PTE_U`, and is writable or
copy-on-write (`UserWritable`). `write_trap` should let a store through, and `copyout`
should write, where and only where all pages are. `write_trap` takes every entry that is not
copy-on-write for a good one, and address 0 for a bad one (`writeTrap_right_iff`); `copyout`
never looks at the write bit, and never writes to page 0 (`copyout_right_iff`).
-/

set_option linter.unusedSectionVars false

open Function Prog Bytes Radix

namespace CowPbs

/-- The user may write to the virtual page `v`. -/
def UserWritable (m : Mem) (root v : ℕ) : Prop :=
  v < VPAGES ∧ ∃ e, pageEntry m root v = some e ∧ has e PTE_U = true ∧
    (has e PTE_W = true ∨ has e PTE_CW = true)

/-- The user may read the virtual page `v`. -/
def UserReadable (m : Mem) (root v : ℕ) : Prop :=
  v < VPAGES ∧ ∃ e, pageEntry m root v = some e ∧ has e PTE_U = true

section

variable [Layout] {F F' : Forest ℕ} {refs kern : ℕ → ℕ} {s t : Mach} {r v va k n tf : ℕ}
  {E : String → Prop}

theorem Tables.userReadable_iff (h : Tables F refs s) (hr : r ∈ F.roots) :
    UserReadable s.mem r v ↔
      v < VPAGES ∧ (F.pte r v).testBit 0 = true ∧ (F.pte r v).testBit 4 = true := by
  unfold UserReadable
  rw [h.pageEntry_eq hr, has_V]
  cases (F.pte r v).testBit 0 <;> simp

theorem Tables.userWritable_iff (h : Tables F refs s) (hr : r ∈ F.roots) :
    UserWritable s.mem r v ↔ UserReadable s.mem r v ∧
      ((F.pte r v).testBit 2 = true ∨ (F.pte r v).testBit 8 = true) := by
  rw [h.userReadable_iff hr]
  unfold UserWritable
  rw [h.pageEntry_eq hr, has_V]
  cases (F.pte r v).testBit 0 <;> simp [and_assoc]

/-! ## `write_trap` -/

/-- `write_trap` has decided rightly about the address `va`. -/
structure TrapRight (r va : ℕ) (s : Mach) (ret : ℤ) (t : Mach) : Prop where
  value : ret = 0 ∨ ret = -1
  iff : ret = 0 ↔ UserWritable s.mem r (va / PGSIZE)
  done : ret = 0 → ∃ e, pageEntry t.mem r (va / PGSIZE) = some e ∧ has e PTE_U = true ∧
    has e PTE_W = true ∧ has e PTE_CW = false
  undone : ret = -1 → t.mem = s.mem ∧ t.ref = s.ref

/-- Where it does : for an address of an allowed page, or of a page without an entry, but
for address 0, which must not be allowed. -/
def TrapFits (r va : ℕ) (s : Mach) : Prop :=
  (va = 0 → ¬UserWritable s.mem r 0) ∧ (0 < va → va < MAXVA →
    pteAddr s.mem (r * PGSIZE) va = none ∨ UserWritable s.mem r (va / PGSIZE))

theorem Trapped.right_iff {ret : ℤ} (h : Tables F refs s) (hr : r ∈ F.roots)
    (hmem : 0 < va → va < MAXVA → (F.pte r (va / PGSIZE)).testBit 8 = true → s.freelist ≠ [])
    (ht : Trapped r va F refs s ret t) :
    TrapRight r va s ret t ↔ TrapFits r va s := by
  have hpage : va / PGSIZE < VPAGES ↔ va < MAXVA := page_lt_iff
  have hw := h.userWritable_iff hr (v := va / PGSIZE)
  have hrd := h.userReadable_iff hr (v := va / PGSIZE)
  unfold TrapFits
  rw [h.pteAddr_eq hr]
  cases ht with
  | invalid hbad =>
    have hiff : TrapRight r va s (-1) s ↔ ¬UserWritable s.mem r (va / PGSIZE) := by
      refine ⟨fun hright hwr => absurd (hright.iff.2 hwr) (by norm_num), fun hnot => ?_⟩
      exact ⟨.inr rfl, iff_of_false (by norm_num) hnot, fun h => absurd h (by norm_num),
        fun _ => ⟨rfl, rfl⟩⟩
    rw [hiff]
    rcases hbad with hge | rfl
    · refine iff_of_true (fun hwr => ?_) ⟨fun h0 => ?_, fun _ hlt => absurd hge (not_le.2 hlt)⟩
      · have := hpage.1 hwr.1
        omega
      · rw [h0] at hge
        exact absurd hge (by decide)
    · rw [Nat.zero_div]
      simp
  | absent hlt hpos hnone =>
    have hnot : ¬UserWritable s.mem r (va / PGSIZE) := by
      rw [hw, hrd, h.pte_eq_zero hnone]
      simp
    refine iff_of_true ⟨.inr rfl, iff_of_false (by norm_num) hnot, fun h => absurd h (by norm_num),
      fun _ => ⟨rfl, rfl⟩⟩ ⟨by omega, fun _ _ => .inl (by rw [hnone]; rfl)⟩
  | @direct hlt hpos p hnode hcow =>
    rw [hnode]
    constructor
    · exact fun hright => ⟨by omega, fun _ _ => .inr (hright.iff.1 rfl)⟩
    · rintro ⟨-, hfit⟩
      have hwr := (hfit hpos hlt).resolve_left nofun
      refine ⟨.inl rfl, iff_of_true rfl hwr, fun _ => ⟨F.pte r (va / PGSIZE), ?_, ?_, ?_, ?_⟩,
        fun h => absurd h (by norm_num)⟩
      · rw [h.pageEntry_eq hr, has_V, if_pos (hrd.1 (hw.1 hwr).1).2.1]
      · rw [has_U]
        exact (hrd.1 (hw.1 hwr).1).2.2
      · rw [has_W]
        exact (hw.1 hwr).2.resolve_right (by rw [hcow]; nofun)
      · rw [has_CW, hcow]
  | denied hlt hpos hcow hden =>
    exact absurd hden.empty (hmem hpos hlt hcow)
  | @broken hlt hpos _ n hcow hb =>
    have hnode : F.node (r, tablePath (va / PGSIZE)) ≠ none := fun hnone => by
      rw [h.pte_eq_zero hnone] at hcow
      simp at hcow
    obtain ⟨p, hp⟩ := Option.ne_none_iff_exists'.1 hnode
    have hpte : (F.setPte r (va / PGSIZE) (ownEntry n (F.pte r (va / PGSIZE)))).pte r (va / PGSIZE) =
        ownEntry n (F.pte r (va / PGSIZE)) := Forest.pte_setPte_self
    rw [hp]
    constructor
    · exact fun hright => ⟨by omega, fun _ _ => .inr (hright.iff.1 rfl)⟩
    · rintro ⟨-, hfit⟩
      have hwr := (hfit hpos hlt).resolve_left nofun
      obtain ⟨-, hV, hU⟩ := hrd.1 (hw.1 hwr).1
      refine ⟨.inl rfl, iff_of_true rfl hwr, fun _ => ⟨ownEntry n (F.pte r (va / PGSIZE)), ?_, ?_,
        ?_, ?_⟩, fun h => absurd h (by norm_num)⟩
      · rw [hb.tables.pageEntry_eq hr, hpte, has_V, testBit_ownEntry (by norm_num), hV]
        rfl
      · rw [has_U, testBit_ownEntry (by norm_num), hU]
        rfl
      · rw [has_W, testBit_ownEntry (by norm_num)]
        simp
      · rw [has_CW, testBit_ownEntry (by norm_num)]
        simp

/-- `write_trap` decides rightly where it fits, if there is memory for a copy. -/
theorem writeTrap_right_iff (h : Tables F refs s) (hr : r ∈ F.roots)
    (hcow : va < MAXVA → (F.pte r (va / PGSIZE)).testBit 8 = true →
      refs (frame (F.pte r (va / PGSIZE))) ≠ 0 ∧ ¬F.Tab (frame (F.pte r (va / PGSIZE))))
    (hmem : 0 < va → va < MAXVA → (F.pte r (va / PGSIZE)).testBit 8 = true → s.freelist ≠ []) :
    ∃ ret t, writeTrap va (r * PGSIZE) s = .ok (ret, t) ∧
      (TrapRight r va s ret t ↔ TrapFits r va s) := by
  have hspec : wp Never (writeTrap va (r * PGSIZE)) (fun ret t =>
      TrapRight r va s ret t ↔ TrapFits r va s) s :=
    wp_mono (writeTrap_spec h hr hcow) fun ret t ht => ht.right_iff h hr hmem
  obtain ⟨ret, t, hrun, hright⟩ := wp_exists hspec
  exact ⟨ret, t, hrun, hright⟩

omit [Layout] in
/-- The retried store of a first process, to its only page. -/
theorem writeTrap_right_first : ∃ ret t,
    @writeTrap sixteenPages 8 (0x87FF1 * PGSIZE) Os.first.mach = .ok (ret, t) ∧
      (TrapRight 0x87FF1 8 Os.first.mach ret t ↔ TrapFits 0x87FF1 8 Os.first.mach) := by
  let _ : Layout := sixteenPages
  obtain ⟨F, tf, h, hl⟩ := Os.first_lives
  refine writeTrap_right_iff h.vm.tables hl.space.root (fun hva hcow => ?_) fun _ _ _ => ?_
  · have hv := hl.space.user_of_bit (page_lt_iff.2 hva) (.inr rfl) hcow
    have hne := ne_zero_of_testBit hcow
    exact ⟨h.vm.owners_frame hl.space.root hv hne, (h.vm.leaf _ hl.space.root _ hv hne).not_tab⟩
  · exact Os.first_runs.2.2.2.2.1

omit [Layout] in
/-- The stores of the first process that are not decided rightly. -/
theorem first_refuses :
    (@writeTrap sixteenPages 0x2000 (0x87FF1 * PGSIZE) Os.first.mach).toOption.map Prod.fst =
      some 0 ∧
    pageEntry Os.first.mach.mem 0x87FF1 (0x2000 / PGSIZE) = none ∧
    (@writeTrap sixteenPages 0 (0x87FF1 * PGSIZE) Os.first.mach).toOption.map Prod.fst =
      some (-1) ∧
    (@copyout sixteenPages (0x87FF1 * PGSIZE) 0 [1] Os.first.mach).toOption.map
      (fun x => (x.1, x.2.denied)) = some (-1, false) := by
  decide +kernel

omit [Layout] in
/-- A store beyond the end of the memory of the first process is retried for ever, and a store
to address 0 kills it, although its page 0 is writable. -/
theorem writeTrap_not_right : (∃ F, @Os.Inv sixteenPages F Os.first) ∧
    (∀ ret t, @writeTrap sixteenPages 0x2000 (0x87FF1 * PGSIZE) Os.first.mach = .ok (ret, t) →
      ret = 0 ∧ ¬TrapRight 0x87FF1 0x2000 Os.first.mach ret t) ∧
    ∀ ret t, @writeTrap sixteenPages 0 (0x87FF1 * PGSIZE) Os.first.mach = .ok (ret, t) →
      ret = -1 ∧ ¬TrapRight 0x87FF1 0 Os.first.mach ret t := by
  obtain ⟨hbeyond, hnone, hzero, -⟩ := first_refuses
  refine ⟨Os.first_inv, fun ret t hrun => ?_, fun ret t hrun => ?_⟩
  · have hret := hbeyond
    rw [hrun] at hret
    obtain rfl : ret = 0 := Option.some.inj hret
    refine ⟨rfl, fun hright => ?_⟩
    obtain ⟨-, e, he, -⟩ := hright.iff.1 rfl
    rw [hnone] at he
    cases he
  · have hret := hzero
    rw [hrun] at hret
    obtain rfl : ret = -1 := Option.some.inj hret
    refine ⟨rfl, fun hright => absurd (hright.iff.2 ?_) (by norm_num)⟩
    exact ⟨by decide, (0x87FF4 <<< 10) ||| 31, Os.first_runs.2.2.2.2.2, by decide, by decide⟩

/-! ## `copyout` -/

/-- `copyout` has written what the user could write. -/
structure CopyoutRight (r dstva : ℕ) (src : List Byte) (s : Mach) (ret : ℤ) (t : Mach) : Prop where
  iff : ret = 0 ↔ ∀ i < src.length, UserWritable s.mem r ((dstva + i) / PGSIZE)
  bytes : ret = 0 → ∀ i < src.length, view t.mem r (dstva + i) = src[i]?
  others : ret = 0 → ∀ va < MAXVA, va < dstva ∨ dstva + src.length ≤ va →
    view t.mem r va = view s.mem r va

/-- Where it does : page 0 is not in a range that the user may write, and a range of the
user's pages without page 0 has no page that the user may not write. -/
def CopyoutFits (r dstva : ℕ) (src : List Byte) (s : Mach) : Prop :=
  ((∀ i < src.length, UserWritable s.mem r ((dstva + i) / PGSIZE)) → src ≠ [] → PGSIZE ≤ dstva) ∧
    ((∀ i < src.length, PGSIZE ≤ dstva + i ∧ UserReadable s.mem r ((dstva + i) / PGSIZE)) →
      ∀ i < src.length, UserWritable s.mem r ((dstva + i) / PGSIZE))

theorem Tables.accepts_iff (h : Tables F refs s) (hr : r ∈ F.roots) :
    Accepts F r (va / PGSIZE) ↔ PGSIZE ≤ va ∧ UserReadable s.mem r (va / PGSIZE) := by
  rw [h.userReadable_iff hr, ← has_V, ← has_U]
  unfold Accepts
  refine and_congr_left fun _ => ?_
  rw [Nat.div_pos_iff]
  exact ⟨fun h => h.2, fun h => ⟨PGSIZE_pos, h⟩⟩

theorem trampoline_not_managed : ¬Managed (Layout.trampoline / PGSIZE) := by
  intro hman
  have h₁ := hman.1
  have h₂ := Layout.trampoline_lt
  rw [trampoline_mul] at h₁
  omega

/-- A store changes no other byte of the whole address space. -/
theorem Stored.view_all {l : List Byte} {x : ℕ} (h : Vm F kern s) (hsp : Space F r k tf)
    (htf : tf < 2 ^ 44) (hkern : kern tf ≠ 0) (hst : Stored r va l F kern s F' t) (hx : x < MAXVA)
    (hout : x < va ∨ va + l.length ≤ x) : CowPbs.view t.mem r x = CowPbs.view s.mem r x := by
  have hU := UPAGES_eq
  have hV := VPAGES_eq
  have hsp' := hst.space hsp
  have hxv : x / PGSIZE < VPAGES := page_lt_iff.2 hx
  by_cases hlt : x < TRAPFRAME
  · rw [hst.view r hsp.root x hlt, if_neg (by omega)]
  · have hge : UPAGES ≤ x / PGSIZE := Nat.div_le_div_right (not_lt.1 hlt)
    rw [h.tables.view_eq hsp.root, hst.vm.tables.view_eq hsp'.root]
    obtain hv | hv : x / PGSIZE = VPAGES - 2 ∨ x / PGSIZE = VPAGES - 1 := by omega
    · rw [hv, hsp.trapframe, hsp'.trapframe, frame_pageEntryOf htf (by decide), hst.kern]
      rwa [page_offset]
    · rw [hv, hsp.trampoline, hsp'.trampoline, frame_pageEntryOf trampoline_lt (by decide),
        hst.outside]
      rw [page_offset]
      exact trampoline_not_managed

theorem CopyoutPost.right_iff {dstva : ℕ} {src : List Byte} {ret : ℤ} (h : Vm F kern s)
    (hsp : Space F r k tf) (htf : tf < 2 ^ 44) (hkern : kern tf ≠ 0) (hd : t.denied = false)
    (hpost : CopyoutPost r dstva src F kern s ret t) :
    CopyoutRight r dstva src s ret t ↔ CopyoutFits r dstva src s := by
  obtain ⟨j, F', hst, hacc, hres⟩ := hpost
  have hiff : ∀ i, Accepts F r ((dstva + i) / PGSIZE) ↔
      PGSIZE ≤ dstva + i ∧ UserReadable s.mem r ((dstva + i) / PGSIZE) := fun i =>
    h.tables.accepts_iff hsp.root
  have hread : ∀ v, UserWritable s.mem r v → UserReadable s.mem r v := fun v hw =>
    ((h.tables.userWritable_iff hsp.root).1 hw).1
  -- it returns 0 if it accepts all pages
  have hret : ret = 0 ↔ ∀ i < src.length, Accepts F r ((dstva + i) / PGSIZE) := by
    obtain ⟨rfl, rfl, -⟩ | ⟨rfl, hj, hbad⟩ := hres
    · exact iff_of_true rfl hacc
    · refine iff_of_false (by norm_num) fun hall => ?_
      rw [hd] at hbad
      exact (hbad.resolve_left nofun).1 (hall j hj)
  have hdata : ret = 0 → (∀ i < src.length, view t.mem r (dstva + i) = src[i]?) ∧
      ∀ va < MAXVA, va < dstva ∨ dstva + src.length ≤ va → view t.mem r va = view s.mem r va := by
    intro h0
    obtain ⟨-, rfl, -⟩ := hres.resolve_right fun hbad => by
      rw [h0] at hbad
      exact absurd hbad.1 (by norm_num)
    rw [List.take_length] at hst
    refine ⟨fun i hi => ?_, fun x hx hout => hst.view_all h hsp htf hkern hx hout⟩
    obtain ⟨-, hv, -, hU⟩ := hacc i hi
    have hlt := hsp.user_of_bit hv (.inl rfl) (by rwa [← has_U])
    have hx : dstva + i < TRAPFRAME := by
      by_contra hge
      exact absurd hlt (not_lt.2 (Nat.div_le_div_right (not_lt.1 hge)))
    rw [hst.view r hsp.root _ hx, if_pos ⟨rfl, by omega, by omega⟩, Nat.add_sub_cancel_left]
  unfold CopyoutFits
  constructor
  · intro hright
    have hagree := hret.symm.trans hright.iff
    refine ⟨fun hw hne => ?_, fun hr => hagree.1 fun i hi => (hiff i).2 (hr i hi)⟩
    exact ((hiff 0).1 (hagree.2 hw 0 (List.length_pos_iff.2 hne))).1
  · rintro ⟨hzero, hw⟩
    refine ⟨hret.trans ⟨fun hall => hw fun i hi => (hiff i).1 (hall i hi), fun hall i hi => ?_⟩,
      fun h0 => (hdata h0).1, fun h0 => (hdata h0).2⟩
    refine (hiff i).2 ⟨?_, hread _ (hall i hi)⟩
    have := hzero hall (List.length_pos_iff.1 (by omega))
    omega

/-- `copyout` writes what the user could write where it fits, if no `kalloc` fails. -/
theorem copyout_right_iff (h : Vm F kern s) (hsp : Space F r k tf) (htf : tf < 2 ^ 44)
    (hkern : kern tf ≠ 0) (dstva : ℕ) (src : List Byte) :
    ∃ ret t, copyout (r * PGSIZE) dstva src s = .ok (ret, t) ∧ (t.denied = false →
      (CopyoutRight r dstva src s ret t ↔ CopyoutFits r dstva src s)) := by
  have hspec : wp Never (copyout (r * PGSIZE) dstva src) (CopyoutPost r dstva src F kern s) s :=
    copyoutFrom_spec h hsp le_rfl
  obtain ⟨ret, t, hrun, hpost⟩ := wp_exists hspec
  exact ⟨ret, t, hrun, fun hd => hpost.right_iff h hsp htf hkern hd⟩

omit [Layout] in
theorem copyout_right_first : ∃ ret t,
    @copyout sixteenPages (0x87FF1 * PGSIZE) 8 [1] Os.first.mach = .ok (ret, t) ∧
      (t.denied = false → (CopyoutRight 0x87FF1 8 [1] Os.first.mach ret t ↔
        CopyoutFits 0x87FF1 8 [1] Os.first.mach)) := by
  let _ : Layout := sixteenPages
  obtain ⟨F, tf, h, hl⟩ := Os.first_lives
  have hkern := Os.kern_pos hl.trapframe
  refine copyout_right_iff h.vm hl.space (h.vm.managed ?_).lt hkern.ne' 8 [1]
  intro h0
  exact hkern.ne' (owners_eq_zero.1 h0).2.1

omit [Layout] in
/-- `copyout` to address 0 fails, although page 0 of the first process is writable. -/
theorem copyout_not_right : (∃ F, @Os.Inv sixteenPages F Os.first) ∧
    ∀ ret t, @copyout sixteenPages (0x87FF1 * PGSIZE) 0 [1] Os.first.mach = .ok (ret, t) →
      ret = -1 ∧ t.denied = false ∧ ¬CopyoutRight 0x87FF1 0 [1] Os.first.mach ret t := by
  refine ⟨Os.first_inv, fun ret t hrun => ?_⟩
  obtain ⟨-, -, -, hret⟩ := first_refuses
  rw [hrun] at hret
  obtain ⟨rfl, hd⟩ := Prod.mk.inj (Option.some.inj hret)
  refine ⟨rfl, hd, fun hright => absurd (hright.iff.2 fun i hi => ?_) (by norm_num)⟩
  obtain rfl : i = 0 := Nat.lt_one_iff.1 hi
  exact ⟨by decide, (0x87FF4 <<< 10) ||| 31, Os.first_runs.2.2.2.2.2, by decide, by decide⟩

end

end CowPbs
