import Mathlib
import CowPbs.UserMemory

/-!
# Copy-on-write

`uvmcopy` gives the child the pages of the parent and marks them copy-on-write on both
sides. `write_trap` gives the process that stores to such a page a copy of its own
(`Broken`), and `copyout` does the same, with the same statements, before it writes. What is
known of the page tables before and after is in `uvmcopy_spec`, `writeTrap_spec` and
`Vm.broken`.
-/

set_option linter.unusedSectionVars false

open Function Prog Bytes Radix

namespace CowPbs

/-! ## The functions -/

/-- `check_valid_add` : whether it returns 1. -/
def checkValidAdd (add : ℕ) : Bool :=
  MAXVA ≤ add || add ≤ 0

/-- `check_if_cow_flag`. -/
def checkIfCowFlag (pte : ℕ) : K Bool := do
  let e ← ld pte
  return has (PTE_FLAGS e) PTE_CW

/-- Not in the kernel : the child's page is the parent's. -/
def inherit (old new va : ℕ) : K Unit :=
  modify fun s => { s with
    origin := update s.origin new (update (s.origin new) (va / PGSIZE)
      (s.origin old (va / PGSIZE))) }

section

variable [Layout]

/-- `allocate_new_memory`. -/
def allocateNewMemory (pa : ℕ) : K (Option ℕ) := do
  match ← kalloc with
  | none => return none
  | some mem =>
    let s ← get
    memmove mem (load s.mem pa PGSIZE)
    kfree pa
    return some mem

/-- `write_trap`. -/
def writeTrap (add pg : ℕ) : K ℤ := do
  if checkValidAdd add then return -1
  else
    match ← walk pg (PGROUNDDOWN add) false with
    | none => return -1
    | some pte =>
      let e ← ld pte
      let pa := PTE2PA e
      if ← checkIfCowFlag pte then
        let flags := PTE_FLAGS e
        match ← allocateNewMemory pa with
        | none => return -1
        | some mem =>
          sd pte (PA2PTE mem ||| writeOf flags)
          return 0
      else return 0

/-- The turns of the loop of `copyout`, where `src` is what is left. The statements before
`walkaddr` are those of `write_trap`. -/
def copyoutFrom (pagetable : ℕ) : ℕ → ℕ → List Byte → K ℤ
  | 0, _, _ => return 0
  | turns + 1, dstva, src => do
    if src = [] then return 0
    else
      let va0 := PGROUNDDOWN dstva
      let r ← writeTrap va0 pagetable
      if r ≠ 0 then return -1
      else
        let pa0 ← walkaddr pagetable va0
        if pa0 = 0 then return -1
        else
          let n := Min.min (PGSIZE - (dstva - va0)) src.length
          memmove (pa0 + (dstva - va0)) (src.take n)
          copyoutFrom pagetable turns ((va0 + PGSIZE) % 2 ^ 64) (src.drop n)

/-- `copyout`. Each turn copies at least a byte. -/
def copyout (pagetable dstva : ℕ) (src : List Byte) : K ℤ :=
  copyoutFrom pagetable src.length dstva src

/-- `map_new_to_old`. Where `walk` has no memory the store through its null pointer traps. -/
def mapNewToOld (pte new va : ℕ) : K Unit := do
  match ← walk new va true with
  | none => throw "kerneltrap"
  | some nwPte =>
    let e ← ld pte
    sd nwPte e

/-- A turn of the loop of `uvmcopy`. -/
def uvmcopyPage (old new i : ℕ) : K Unit := do
  match ← walk old i false with
  | none => throw "uvmcopy: pte should exist"
  | some pte =>
    let e ← ld pte
    panicIf (!has e PTE_V) "uvmcopy: page not present"
    sd pte (cowOf e)
    mapNewToOld pte new i
    inherit old new i
    let e ← ld pte
    increaseNoOfRef (PTE2PA e)

/-- `uvmcopy`. -/
def uvmcopy (old new sz : ℕ) : K ℤ := do
  forRange (fun i => uvmcopyPage old new (i * PGSIZE)) ((sz + (PGSIZE - 1)) / PGSIZE) 0
  return 0

end

section

variable [Layout] {F F' : Forest ℕ} {refs refs' kern kern' : ℕ → ℕ} {s t : Mach} {r v va k n : ℕ}
  {E : String → Prop}

/-! ## `write_trap` -/

/-- The entry of a page of one's own, number `n`, in place of the entry `e`. -/
def ownEntry (n e : ℕ) : ℕ :=
  PA2PTE (n * PGSIZE) ||| writeOf (PTE_FLAGS e)

section

variable {e : ℕ}

omit [Layout] in
theorem frame_ownEntry (hn : n < 2 ^ 44) : frame (ownEntry n e) = n := by
  rw [ownEntry, frame_PA2PTE (page_lt hn) (writeOf_lt (flags_lt e)), mul_PGSIZE_div]

omit [Layout] in
theorem testBit_ownEntry {i : ℕ} (hi : i < 10) :
    (ownEntry n e).testBit i = ((e.testBit i || decide (i = 2)) && decide (i ≠ 8)) := by
  rw [ownEntry, testBit_PA2PTE _ _ hi, testBit_writeOf _ hi, testBit_flags _ hi]

omit [Layout] in
theorem ownEntry_lt (hn : n < 2 ^ 44) : ownEntry n e < 2 ^ 64 :=
  Nat.or_lt_two_pow ((PA2PTE_lt (page_lt hn)).trans (by norm_num))
    ((writeOf_lt (flags_lt e)).trans (by norm_num))

end

/-- The virtual page `v` got the page `n` of its own, with a copy of the old page. -/
structure Broken (r v n : ℕ) (F : Forest ℕ) (refs : ℕ → ℕ) (s t : Mach) : Prop where
  free : refs n = 0
  managed : Managed n
  tables : Tables (F.setPte r v (ownEntry n (F.pte r v)))
    (update (update refs n 1) (frame (F.pte r v)) (refs (frame (F.pte r v)) - 1)) t
  copied : ∀ k < PGSIZE, t.mem (n * PGSIZE + k) = s.mem (frame (F.pte r v) * PGSIZE + k)
  mem : ∀ x, ¬F.Tab (x / PGSIZE) → x / PGSIZE ≠ n →
    (x / PGSIZE = frame (F.pte r v) → 2 ≤ refs (frame (F.pte r v))) → t.mem x = s.mem x
  denied : t.denied = s.denied

/-- What `write_trap` returns and does, for an address and the entry of its page. -/
inductive Trapped (r va : ℕ) (F : Forest ℕ) (refs : ℕ → ℕ) (s : Mach) : ℤ → Mach → Prop
  | invalid (h : MAXVA ≤ va ∨ va = 0) : Trapped r va F refs s (-1) s
  | absent (hva : va < MAXVA) (hpos : 0 < va) (h : F.node (r, tablePath (va / PGSIZE)) = none) :
    Trapped r va F refs s (-1) s
  | direct (hva : va < MAXVA) (hpos : 0 < va) {p : ℕ}
    (h : F.node (r, tablePath (va / PGSIZE)) = some p)
    (hcow : (F.pte r (va / PGSIZE)).testBit 8 = false) : Trapped r va F refs s 0 s
  | denied (hva : va < MAXVA) (hpos : 0 < va) {t : Mach}
    (hcow : (F.pte r (va / PGSIZE)).testBit 8 = true) (h : Denied s t) :
    Trapped r va F refs s (-1) t
  | broken (hva : va < MAXVA) (hpos : 0 < va) {t : Mach} {n : ℕ}
    (hcow : (F.pte r (va / PGSIZE)).testBit 8 = true) (h : Broken r (va / PGSIZE) n F refs s t) :
    Trapped r va F refs s 0 t

/-- A page in hand takes the place of the page of an entry. -/
theorem Tables.broken {p : ℕ} {u w : Mach} (h : Tables F refs s)
    (hp : F.node (r, tablePath v) = some p)
    (hf : refs (frame (F.pte r v)) ≠ 0) (hntab : ¬F.Tab (frame (F.pte r v)))
    (hk : Kalloced refs s t n)
    (hu : u = { t with
      mem := store t.mem (n * PGSIZE) (load t.mem (frame (F.pte r v) * PGSIZE) PGSIZE) })
    (hw : Kfreed (update refs n 1) u w (frame (F.pte r v))) :
    Broken r v n F refs s
      { w with mem := put w.mem (p * PGSIZE + 8 * (v % 512)) 8 (ownEntry n (F.pte r v)) } := by
  generalize hfe : frame (F.pte r v) = f at *
  have hnf : f ≠ n := by
    rintro rfl
    exact hf hk.free
  have hn : ¬F.Tab n := fun hn => h.owned n hn hk.free
  have hlen : (load t.mem (f * PGSIZE) PGSIZE).length = PGSIZE := length_load
  have hupd : update refs n 1 f = refs f := update_of_ne hnf ..
  -- the bytes outside the two pages
  have hstore : ∀ x, x / PGSIZE ≠ n → u.mem x = s.mem x := by
    intro x hx
    have hst : store t.mem (n * PGSIZE + 0) (load t.mem (f * PGSIZE) PGSIZE) x = t.mem x :=
      store_of_ne (by omega) hx
    rw [Nat.add_zero] at hst
    rw [hu, ← hk.mem x hx, ← hst]
  have hmem : ∀ x, x / PGSIZE ≠ n → (x / PGSIZE = f → 2 ≤ refs f) → w.mem x = s.mem x := by
    intro x hx hxf
    rw [hw.mem x (by rwa [hupd]), hstore x hx]
  have hT : Tables F (update (update refs n 1) f (refs f - 1)) w := by
    have halloc := hw.alloc
    rw [hupd] at halloc
    refine ⟨h.rep.congr fun m i hm hi => entry_congr hi fun x hx => hmem x ?_ fun hxf => ?_,
      halloc, fun m hm => ?_, h.low⟩
    · rw [hx]
      rintro rfl
      exact hn hm
    · rw [hx] at hxf
      exact absurd (hxf ▸ hm) hntab
    · rw [update_of_ne, update_of_ne]
      · exact h.owned m hm
      · rintro rfl
        exact hn hm
      · rintro rfl
        exact hntab hm
  have hlt := ownEntry_lt (e := F.pte r v) hk.managed.lt
  have hg := hT.setPte hp hlt
  have hput : ∀ x, ¬F.Tab (x / PGSIZE) →
      put w.mem (p * PGSIZE + 8 * (v % 512)) 8 (ownEntry n (F.pte r v)) x = w.mem x := by
    intro x hx
    refine put_of_ne (Nat.mod_lt _ (by norm_num)) fun hxp => ?_
    rw [hxp] at hx
    exact hx ⟨_, hp⟩
  refine ⟨hk.free, hk.managed, ?_, fun k hk' => ?_, fun x hx hxn hxf => ?_,
    hw.denied.trans (hu ▸ hk.denied)⟩
  · rw [hfe]
    exact hg.tables
  · have hpage := page_add n hk'
    have hpage' := page_add f hk'
    show put w.mem (p * PGSIZE + 8 * (v % 512)) 8 (ownEntry n (F.pte r v)) (n * PGSIZE + k) = _
    rw [hput _ (by rwa [hpage]), hw.mem _ (fun heq => absurd (heq.symm.trans hpage) hnf), hu]
    show store t.mem (n * PGSIZE) (load t.mem (f * PGSIZE) PGSIZE) (n * PGSIZE + k) = _
    rw [store_add (hlen.symm ▸ hk'), hfe]
    simp only [load, List.getElem_map, List.getElem_range]
    exact hk.mem _ (by rwa [hpage'])
  · rw [hfe] at hxf
    exact (hput x hx).trans (hmem x hxn hxf)

omit [Layout] in
theorem checkValidAdd_iff : checkValidAdd va = true ↔ MAXVA ≤ va ∨ va = 0 := by
  simp [checkValidAdd]

omit [Layout] in
theorem has_flags_CW (e : ℕ) : has (PTE_FLAGS e) PTE_CW = e.testBit 8 := by
  rw [has_CW, testBit_flags _ (by norm_num)]

/-- `write_trap`, where the page of a copy-on-write entry is an allocated one. -/
theorem writeTrap_spec (h : Tables F refs s) (hr : r ∈ F.roots)
    (hcow : va < MAXVA → (F.pte r (va / PGSIZE)).testBit 8 = true →
      refs (frame (F.pte r (va / PGSIZE))) ≠ 0 ∧ ¬F.Tab (frame (F.pte r (va / PGSIZE)))) :
    wp E (writeTrap va (r * PGSIZE)) (Trapped r va F refs s) s := by
  unfold writeTrap
  by_cases hval : MAXVA ≤ va ∨ va = 0
  · rw [if_pos (checkValidAdd_iff.2 hval)]
    exact .invalid hval
  rw [if_neg (mt checkValidAdd_iff.1 hval)]
  obtain ⟨hva, hpos⟩ := not_or.1 hval
  have hva : va < MAXVA := not_le.1 hva
  have hpos : 0 < va := Nat.pos_of_ne_zero hpos
  have hdown : PGROUNDDOWN va / PGSIZE = va / PGSIZE := mul_PGSIZE_div _
  have hdlt : PGROUNDDOWN va < MAXVA := lt_of_le_of_lt (Nat.div_mul_le_self va PGSIZE) hva
  rw [wp_bind, wp_walk_false hdlt, h.pteAddr_eq hr, hdown]
  cases hp : F.node (r, tablePath (va / PGSIZE)) with
  | none => exact .absent hva hpos hp
  | some p =>
    rw [Option.map_some]
    dsimp only
    rw [wp_bind, wp_ld, h.entry_eq hp, wp_bind]
    show wp E _ _ s
    unfold checkIfCowFlag
    rw [wp_bind, wp_ld, h.entry_eq hp, wp_pure, has_flags_CW]
    cases hbit : (F.pte r (va / PGSIZE)).testBit 8 with
    | false =>
      rw [if_neg (by decide)]
      exact .direct hva hpos hp hbit
    | true =>
      obtain ⟨hf, hntab⟩ := hcow hva hbit
      rw [if_pos rfl]
      unfold allocateNewMemory
      rw [wp_bind, wp_bind]
      refine wp_mono (kalloc_spec h.alloc) fun o t ho => ?_
      cases o with
      | none => exact .denied hva hpos hbit ho
      | some mem =>
        obtain ⟨n, rfl, hk⟩ := ho
        dsimp only
        rw [wp_bind, wp_get, wp_bind, wp_memmove, wp_bind, PTE2PA_eq]
        have hne : update refs n 1 (frame (F.pte r (va / PGSIZE))) ≠ 0 := by
          rw [update_of_ne]
          · exact hf
          · intro heq
            exact hf (heq ▸ hk.free)
        refine wp_mono (kfree_spec (hk.alloc.congr (fun _ => rfl) rfl rfl) hne) fun _ w hw => ?_
        rw [wp_pure]
        dsimp only
        rw [wp_bind, wp_sd, wp_pure]
        exact .broken hva hpos hbit (h.broken hp hf hntab hk rfl hw)

/-- The trapframe and the trampoline are not the user's, and not copy-on-write. -/
theorem Space.user_of_bit {tf i : ℕ} (hsp : Space F r k tf) (hv : v < VPAGES) (hi : i = 4 ∨ i = 8)
    (hbit : (F.pte r v).testBit i = true) : v < UPAGES := by
  have hU := UPAGES_eq
  have hV := VPAGES_eq
  by_contra hlt
  obtain rfl | rfl : v = VPAGES - 2 ∨ v = VPAGES - 1 := by omega
  · rw [hsp.trapframe, testBit_pageEntryOf (by omega)] at hbit
    rcases hi with rfl | rfl <;> revert hbit <;> decide
  · rw [hsp.trampoline, testBit_pageEntryOf (by omega)] at hbit
    rcases hi with rfl | rfl <;> revert hbit <;> decide

theorem Vm.writeTrap_spec {tf : ℕ} (h : Vm F kern s) (hsp : Space F r k tf) :
    wp E (writeTrap va (r * PGSIZE)) (Trapped r va F (owners F kern) s) s := by
  refine CowPbs.writeTrap_spec h.tables hsp.root fun hva hcow => ?_
  have hv := hsp.user_of_bit (page_lt_iff.2 hva) (.inr rfl) hcow
  have hne := ne_zero_of_testBit hcow
  exact ⟨h.owners_frame hsp.root hv hne, (h.leaf r hsp.root _ hv hne).not_tab⟩

/-! ## A page of one's own -/

/-- The user page `v` got a page of its own, and nothing else has changed. -/
structure OwnPage (r v n : ℕ) (F : Forest ℕ) (kern : ℕ → ℕ) (s : Mach) (F' : Forest ℕ) (t : Mach) :
    Prop where
  vm : Vm F' kern t
  kept : Kept F kern s F' kern t
  roots : F'.roots = F.roots
  node : F'.node = F.node
  pte : F'.pte r v = ownEntry n (F.pte r v)
  other : ∀ r' v', v' < VPAGES → (r', v') ≠ (r, v) → F'.pte r' v' = F.pte r' v'
  lt : n < 2 ^ 44
  copied : ∀ k < PGSIZE, t.mem (n * PGSIZE + k) = s.mem (frame (F.pte r v) * PGSIZE + k)
  /-- What is not given to the allocator is not written. -/
  mem : ∀ x, ¬Managed (x / PGSIZE) → t.mem x = s.mem x
  denied : t.denied = s.denied

theorem Vm.broken (h : Vm F kern s) (hr : r ∈ F.roots) (hv : v < UPAGES)
    (hcow : (F.pte r v).testBit 8 = true) (hb : Broken r v n F (owners F kern) s t) :
    OwnPage r v n F kern s (F.setPte r v (ownEntry n (F.pte r v))) t := by
  have hUV := UPAGES_le
  have hne : F.pte r v ≠ 0 := ne_zero_of_testBit hcow
  have hl := h.leaf r hr v hv hne
  have hlt := hb.managed.lt
  obtain ⟨hntab, hk0, hm0⟩ := owners_eq_zero.1 hb.free
  have hframe : frame (ownEntry n (F.pte r v)) = n := frame_ownEntry hlt
  have hnV : (ownEntry n (F.pte r v)).testBit 0 = true := by
    rw [testBit_ownEntry (by norm_num), hl.valid]
    rfl
  have hnR : (ownEntry n (F.pte r v)).testBit 1 = true := by
    rw [testBit_ownEntry (by norm_num), hl.readable]
    rfl
  have hnC : (ownEntry n (F.pte r v)).testBit 8 = false := by
    rw [testBit_ownEntry (by norm_num)]
    simp
  have hnne := ne_zero_of_testBit hnV
  have hother : ∀ r' v', v' < VPAGES → (r', v') ≠ (r, v) →
      (F.setPte r v (ownEntry n (F.pte r v))).pte r' v' = F.pte r' v' := fun r' v' hv' hne' =>
    Forest.pte_setPte_of_ne (by omega) hv' hne'
  have hmaps : ∀ m, (F.setPte r v (ownEntry n (F.pte r v))).maps m + hits (F.pte r v) m =
      F.maps m + hits (ownEntry n (F.pte r v)) m := by
    intro m
    have hchange : (F.setPte r v (ownEntry n (F.pte r v))).maps m + hits (F.pte r v) m =
        F.maps m + hits ((F.setPte r v (ownEntry n (F.pte r v))).pte r v) m :=
      Forest.maps_change rfl hr hv fun r' _ v' hv' => hother r' v' (by omega)
    rwa [Forest.pte_setPte_self] at hchange
  have hown := hl.owners_eq
  have hpos := Forest.maps_pos hr hv hne
  have hfn : frame (F.pte r v) ≠ n := fun heq => by
    rw [heq] at hpos
    omega
  have hmaps_n : (F.setPte r v (ownEntry n (F.pte r v))).maps n = 1 := by
    have := hmaps n
    rw [hits_of_ne hfn] at this
    have hhit := hits_frame hnne
    rw [hframe] at hhit
    omega
  have hmaps_f : (F.setPte r v (ownEntry n (F.pte r v))).maps (frame (F.pte r v)) =
      F.maps (frame (F.pte r v)) - 1 := by
    have := hmaps (frame (F.pte r v))
    rw [hits_frame hne, hits_of_ne (e := ownEntry n (F.pte r v)) (by
      rw [hframe]
      exact fun heq => hfn heq.symm)] at this
    omega
  have hmaps_of_ne : ∀ m, m ≠ n → m ≠ frame (F.pte r v) →
      (F.setPte r v (ownEntry n (F.pte r v))).maps m = F.maps m := by
    intro m hmn hmf
    have := hmaps m
    rw [hits_of_ne fun heq => hmf heq.symm, hits_of_ne (e := ownEntry n (F.pte r v)) (by
      rw [hframe]
      exact fun heq => hmn heq.symm)] at this
    omega
  have hrefs : ∀ m, owners (F.setPte r v (ownEntry n (F.pte r v))) kern m =
      update (update (owners F kern) n 1) (frame (F.pte r v))
        (owners F kern (frame (F.pte r v)) - 1) m := by
    intro m
    by_cases hmf : m = frame (F.pte r v)
    · rw [hmf, update_self, hown, owners_of_not_tab (mt Forest.tab_setPte.1 hl.not_tab),
        hl.not_kern, hmaps_f, Nat.zero_add]
    · rw [update_of_ne hmf]
      by_cases hmn : m = n
      · rw [hmn, update_self, owners_of_not_tab (mt Forest.tab_setPte.1 hntab), hk0, hmaps_n]
      · rw [update_of_ne hmn]
        unfold owners
        rw [hmaps_of_ne m hmn hmf]
        rfl
  refine ⟨.of_tables hb.tables rfl hrefs (fun r' hr' v' hv' hne' => ?_) h.excl,
    fun m hm hm₁ hm₂ x hx => ?_, rfl, rfl, Forest.pte_setPte_self, hother, hlt, hb.copied,
    fun x hx => ?_, hb.denied⟩
  · by_cases heq : (r', v') = (r, v)
    · obtain ⟨rfl, rfl⟩ := Prod.mk.inj heq
      rw [Forest.pte_setPte_self]
      refine ⟨hnV, hnR, ?_, ?_, fun _ => hnC, fun _ => ?_⟩ <;> rw [hframe]
      · exact hntab
      · exact hk0
      · exact hmaps_n
    · have hr' : r' ∈ F.roots := hr'
      rw [hother r' v' (by omega) heq] at hne' ⊢
      have hl' := h.leaf r' hr' v' hv' hne'
      refine ⟨hl'.valid, hl'.readable, hl'.not_tab, hl'.not_kern, hl'.cow, fun hc => ?_⟩
      have h1 := hl'.once hc
      rw [hmaps_of_ne]
      · exact h1
      · intro hn
        rw [hn] at h1
        omega
      · -- the page of `v` is mapped there alone, or copy-on-write
        intro hf
        exact heq (Forest.eq_of_maps_le_one hr' hv' hne' hr hv hne hf.symm h1.le).symm
  · refine hb.mem x (hx ▸ hm) ?_ fun hxf => ?_
    · rw [hx]
      rintro rfl
      exact hm₁ hb.free
    · rw [hx] at hxf
      subst hxf
      rw [hrefs, update_self] at hm₂
      omega
  · refine hb.mem x (fun htab => hx (h.managed ?_)) ?_ fun hxf => absurd (h.managed ?_) hx
    · rw [h.owners_tab htab]
      norm_num
    · rintro rfl
      exact hx hb.managed
    · rw [hxf, hown]
      omega

end

end CowPbs
