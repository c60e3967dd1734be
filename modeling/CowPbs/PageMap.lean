import Mathlib
import CowPbs.Lib.Transition
import CowPbs.PageTable

/-!
# Page tables are finite maps

What `mappages` and `uvmunmap` do to the entries of a page table : the pages of the range
get their entries, or lose them, one after the other, and no other page does
(`mappages_spec`, `uvmunmap_spec`). So a page table that was built from an empty one is a
map from page numbers to physical pages and flags, for which `walk` is the lookup
(`pageTable_map`). That needs the flags to fit into an entry, and the pages that
`uvmunmap` frees to be allocated and not to be tables themselves (`pageTable_not_map`).
-/

set_option linter.unusedSectionVars false

open Function Prog Bytes Radix Transition

namespace Radix.Forest

open CowPbs

/-- The entries `e 0`, …, `e (k - 1)` for the pages from `v` on. -/
def setPtes (F : Forest ℕ) (r v : ℕ) (e : ℕ → ℕ) : ℕ → Forest ℕ
  | 0 => F
  | k + 1 => (setPtes F r v e k).setPte r (v + k) (e k)

variable {F : Forest ℕ} {r r' v v' k : ℕ} {e : ℕ → ℕ}

@[simp] theorem roots_setPtes : (F.setPtes r v e k).roots = F.roots := by
  induction k with
  | zero => rfl
  | succ k ih => exact ih

@[simp] theorem node_setPtes : (F.setPtes r v e k).node = F.node := by
  induction k with
  | zero => rfl
  | succ k ih => exact ih

@[simp] theorem tab_setPtes {n : ℕ} : (F.setPtes r v e k).Tab n ↔ F.Tab n := by
  rw [Forest.Tab, node_setPtes, Forest.Tab]

/-- The entries in the range are set, and no other entry changes. -/
theorem pte_setPtes (hk : v + k ≤ VPAGES) (hv' : v' < VPAGES) :
    (F.setPtes r v e k).pte r' v' =
      if r' = r ∧ v ≤ v' ∧ v' < v + k then e (v' - v) else F.pte r' v' := by
  induction k with
  | zero => rw [if_neg (by omega), setPtes]
  | succ k ih =>
    rw [setPtes]
    by_cases h : (r', v') = (r, v + k)
    · obtain ⟨rfl, rfl⟩ := Prod.mk.inj h
      rw [pte_setPte_self, if_pos ⟨rfl, by omega, by omega⟩, Nat.add_sub_cancel_left]
    · rw [pte_setPte_of_ne (by omega) hv' h, ih (by omega)]
      refine if_congr ?_ rfl rfl
      have : r' = r → v' ≠ v + k := fun hr hv => h (by rw [hr, hv])
      constructor
      · exact fun ⟨hr, h₁, h₂⟩ => ⟨hr, h₁, by omega⟩
      · exact fun ⟨hr, h₁, h₂⟩ => ⟨hr, h₁, by have := this hr; omega⟩

end Radix.Forest

namespace CowPbs

section

variable [Layout] {F F' : Forest ℕ} {refs refs' : ℕ → ℕ} {s t : Mach} {E : String → Prop}
  {r v p w : ℕ}

/-- A store to the entry of a virtual page. -/
theorem Tables.setPte (h : Tables F refs s) (hp : F.node (r, tablePath v) = some p)
    (hw : w < 2 ^ 64) :
    Grown r F refs s (F.setPte r v w) refs
      { s with mem := put s.mem (p * PGSIZE + 8 * (v % 512)) 8 w } := by
  have hi : v % 512 < 512 := Nat.mod_lt _ (by norm_num)
  refine ⟨⟨?_, h.alloc.congr (fun _ => rfl) rfl rfl, h.owned, h.low⟩, rfl, fun _ _ h => h,
    fun _ _ _ => rfl, fun r' π hr => ?_, fun _ h h' => absurd h h', fun _ _ => rfl, fun x hx => put_of_ne hi ?_, le_rfl⟩
  · exact h.rep.setLeaf hp rfl (entry_put hw) fun n j hn _ hj => entry_put_of_ne hi hj hn
  · exact update_of_ne (fun heq => hr (Prod.mk.inj heq).1) ..
  · rintro rfl
    exact hx ⟨_, hp⟩

/-! ## `mappages` -/

/-- The entry for page `k` of a range that is mapped to `pa` on. -/
def mapEntry (pa perm k : ℕ) : ℕ :=
  PA2PTE ((pa + k * PGSIZE) % 2 ^ 64) ||| perm ||| PTE_V

omit [Layout] in
theorem mapEntry_lt {pa perm k : ℕ} (hperm : perm < 2 ^ 64) : mapEntry pa perm k < 2 ^ 64 := by
  refine Nat.or_lt_two_pow (Nat.or_lt_two_pow ?_ hperm) (by norm_num [PTE_V])
  exact (PA2PTE_lt (Nat.mod_lt _ (by norm_num))).trans (by norm_num)

/-- The number of turns of the loop of `mappages`. -/
def mapTurns (va size : ℕ) : ℕ :=
  (PGROUNDDOWN ((va + size + (2 ^ 64 - 1)) % 2 ^ 64) + 2 ^ 64 - PGROUNDDOWN va) % 2 ^ 64 / PGSIZE + 1

/-- The first `k` pages of the range are mapped. -/
def MappedTo (r va pa perm : ℕ) (F : Forest ℕ) (refs : ℕ → ℕ) (s : Mach) (k : ℕ) (t : Mach) :
    Prop :=
  va / PGSIZE + k ≤ VPAGES ∧ ∃ F' refs', Grown r F refs s F' refs' t ∧
    ∀ r' v', v' < VPAGES → F'.pte r' v' =
      if r' = r ∧ va / PGSIZE ≤ v' ∧ v' < va / PGSIZE + k then
        mapEntry pa perm (v' - va / PGSIZE)
      else F.pte r' v'

/-- `mappages` maps the range, or the part of it before memory ran out. It stops where it
meets a page that is mapped, or the end of the address space. -/
theorem mappages_spec {va size pa perm : ℕ} (h : Tables F refs s) (hr : r ∈ F.roots)
    (hva : va < MAXVA) (hperm : perm < 2 ^ 64) (hsize : size = 0 → E "mappages: size")
    (hend : VPAGES < va / PGSIZE + mapTurns va size → E "walk")
    (hremap : ∀ k < mapTurns va size, has (F.pte r (va / PGSIZE + k)) PTE_V = true →
      E "mappages: remap") :
    wp E (mappages (r * PGSIZE) va size pa perm) (fun ret t =>
      (ret = 0 ∧ t.denied = s.denied ∧ MappedTo r va pa perm F refs s (mapTurns va size) t) ∨
        (ret = -1 ∧ t.denied = true ∧
          ∃ k < mapTurns va size, MappedTo r va pa perm F refs s k t)) s := by
  have hpage : PGROUNDDOWN va = va / PGSIZE * PGSIZE := rfl
  have hv : va / PGSIZE < VPAGES := page_lt_iff.2 hva
  unfold mappages
  rw [wp_bind, wp_panicIf]
  refine ⟨hsize, fun _ => ?_⟩
  rw [wp_bind]
  refine wp_mono (wp_forReturn
    (fun k t => t.denied = s.denied ∧ MappedTo r va pa perm F refs s k t)
    (fun ret t => ret = -1 ∧ t.denied = true ∧
      ∃ k < mapTurns va size, MappedTo r va pa perm F refs s k t)
    (mapTurns va size) 0 ⟨rfl, by omega, F, refs, .refl h, fun r' v' _ => ?_⟩
    fun k u _ hk ⟨hd, hle, F₁, refs₁, hg, hpte⟩ => ?_) fun o t ho => ?_
  · rw [if_neg (by omega)]
  · rw [Nat.zero_add] at hk
    rw [hpage, ← Nat.add_mul]
    have hwrap : (va / PGSIZE + k) * PGSIZE % 2 ^ 64 = (va / PGSIZE + k) * PGSIZE := by
      refine Nat.mod_eq_of_lt ?_
      have := Nat.mul_le_mul_right PGSIZE hle
      have : VPAGES * PGSIZE = 2 ^ 38 := by decide
      omega
    rw [hwrap, wp_bind]
    by_cases hlast : va / PGSIZE + k < VPAGES
    · -- the page is in the address space
      have hlt : (va / PGSIZE + k) * PGSIZE < MAXVA := by
        rw [← page_lt_iff, mul_PGSIZE_div]
        exact hlast
      refine wp_mono (walk_spec hg.tables (hg.roots ▸ hr) hlt) fun o u' ⟨F₂, refs₂, hg₂, hl, ho⟩ => ?_
      have hpte₂ : ∀ r' v', F₂.pte r' v' = F₁.pte r' v' := fun r' v' => by
        rw [Forest.pte, hl]
        rfl
      rw [mul_PGSIZE_div] at ho
      cases o with
      | none =>
        refine ⟨rfl, ho, k, by omega, hle, F₂, refs₂, hg.trans hg₂, fun r' v' hv' => ?_⟩
        rw [hpte₂, hpte r' v' hv']
      | some pte =>
        obtain ⟨hd₂, p, hp, rfl⟩ := ho
        rw [wp_bind, wp_ld, hg₂.tables.entry_eq hp, hpte₂, hpte r _ hlast, if_neg (by omega),
          wp_bind, wp_panicIf]
        refine ⟨hremap k (by omega), fun _ => ?_⟩
        rw [wp_bind, wp_sd, wp_pure]
        have hset := hg₂.tables.setPte hp (mapEntry_lt hperm : mapEntry pa perm k < 2 ^ 64)
        refine ⟨hd₂.trans hd, by omega, _, refs₂, (hg.trans hg₂).trans hset, fun r' v' hv' => ?_⟩
        by_cases heq : (r', v') = (r, va / PGSIZE + k)
        · obtain ⟨rfl, rfl⟩ := Prod.mk.inj heq
          rw [Forest.pte_setPte_self, if_pos ⟨rfl, by omega, by omega⟩, Nat.add_sub_cancel_left]
        · have hne : r' = r → v' ≠ va / PGSIZE + k := fun hr' hv' => heq (by rw [hr', hv'])
          rw [Forest.pte_setPte_of_ne hlast hv' heq, hpte₂, hpte r' v' hv']
          refine if_congr ⟨fun ⟨h₁, h₂, h₃⟩ => ⟨h₁, h₂, by omega⟩, fun ⟨h₁, h₂, h₃⟩ => ⟨h₁, h₂, ?_⟩⟩
            rfl rfl
          have := hne h₁
          omega
    · -- `walk` stops
      have hge : MAXVA ≤ (va / PGSIZE + k) * PGSIZE := by
        rw [← not_lt, ← page_lt_iff, mul_PGSIZE_div]
        exact hlast
      rw [walk, wp_bind, wp_panicIf]
      exact ⟨fun _ => hend (by omega), fun h => absurd hge h⟩
  · cases o with
    | none =>
      rw [Nat.zero_add] at ho
      exact .inl ⟨rfl, ho⟩
    | some ret => exact .inr ho

/-! ## `uvmunmap` -/

/-- How many of the `k` pages from `v` on are mapped to page `n`. -/
def mapsTo (F : Forest ℕ) (r v k n : ℕ) : ℕ :=
  ((Finset.range k).filter fun j => frame (F.pte r (v + j)) = n).card

omit [Layout] in
theorem mapsTo_succ (F : Forest ℕ) (r v k n : ℕ) : mapsTo F r v (k + 1) n =
    mapsTo F r v k n + if frame (F.pte r (v + k)) = n then 1 else 0 := by
  unfold mapsTo
  rw [Finset.range_add_one, Finset.filter_insert]
  split_ifs with h
  · exact Finset.card_insert_of_notMem (by simp)
  · rfl

omit [Layout] in
theorem mapsTo_mono (F : Forest ℕ) (r v n : ℕ) {j k : ℕ} (h : j ≤ k) :
    mapsTo F r v j n ≤ mapsTo F r v k n :=
  Finset.card_le_card (Finset.filter_subset_filter _ (Finset.range_subset_range.2 h))

/-- The number of turns of the loop of `uvmunmap`. -/
def unmapTurns (va npages : ℕ) : ℕ :=
  ((va + npages * PGSIZE) % 2 ^ 64 - va + (PGSIZE - 1)) / PGSIZE

/-- The first `k` pages of the range are unmapped, and if they are freed, their pages have
lost as many owners. -/
structure Unmapped (r va : ℕ) (doFree : Bool) (F : Forest ℕ) (refs : ℕ → ℕ) (s : Mach) (k : ℕ)
    (refs' : ℕ → ℕ) (t : Mach) : Prop where
  tables : Tables (F.setPtes r (va / PGSIZE) (fun _ => 0) k) refs' t
  le : va / PGSIZE + k ≤ VPAGES
  valid : ∀ j < k, has (F.pte r (va / PGSIZE + j)) PTE_V = true
  refs_eq : ∀ n, refs' n = refs n - if doFree then mapsTo F r (va / PGSIZE) k n else 0
  /-- Only the tables and the pages that were freed change. -/
  mem : ∀ x, ¬F.Tab (x / PGSIZE) →
    (doFree = true → 0 < mapsTo F r (va / PGSIZE) k (x / PGSIZE) → refs' (x / PGSIZE) ≠ 0) →
    t.mem x = s.mem x
  length : s.freelist.length ≤ t.freelist.length
  denied : t.denied = s.denied

theorem unmapped_zero (h : Tables F refs s) {va : ℕ} {doFree : Bool} (hva : va < MAXVA) :
    Unmapped r va doFree F refs s 0 refs s where
  tables := h
  le := (page_lt_iff.2 hva).le
  valid _ hj := absurd hj (Nat.not_lt_zero _)
  refs_eq n := by simp [mapsTo]
  mem _ _ _ := rfl
  length := le_rfl
  denied := rfl

/-- The next page of the range is freed, if it is to be. -/
theorem Unmapped.kfree {va k : ℕ} {doFree : Bool} {e : ℕ}
    (h : Unmapped r va doFree F refs s k refs' t) (he : F.pte r (va / PGSIZE + k) = e)
    (hfree : doFree = true → (Managed (frame e) → ¬F.Tab (frame e) ∧
      mapsTo F r (va / PGSIZE) (k + 1) (frame e) ≤ refs (frame e)) ∧
      (¬Managed (frame e) → E "kfree")) :
    wp E (if doFree then CowPbs.kfree (PTE2PA e) else pure ()) (fun _ u => ∃ refs'',
      Tables (F.setPtes r (va / PGSIZE) (fun _ => 0) k) refs'' u ∧
      (∀ n, refs'' n = refs n - if doFree then mapsTo F r (va / PGSIZE) (k + 1) n else 0) ∧
      (∀ x, ¬F.Tab (x / PGSIZE) →
        (doFree = true → 0 < mapsTo F r (va / PGSIZE) (k + 1) (x / PGSIZE) →
          refs'' (x / PGSIZE) ≠ 0) → u.mem x = s.mem x) ∧
      s.freelist.length ≤ u.freelist.length ∧ u.denied = s.denied) t := by
  cases doFree with
  | false => exact ⟨refs', h.tables, h.refs_eq, fun x hx _ => h.mem x hx nofun, h.length, h.denied⟩
  | true =>
    obtain ⟨hfree, hbad⟩ := hfree rfl
    rw [if_pos rfl, PTE2PA_eq]
    by_cases hman : Managed (frame e)
    · obtain ⟨hntab, hle⟩ := hfree hman
      have hsucc := fun n => mapsTo_succ F r (va / PGSIZE) k n
      rw [he] at hsucc
      have hrefs : ∀ n, refs' n = refs n - mapsTo F r (va / PGSIZE) k n := h.refs_eq
      have hpos : refs' (frame e) ≠ 0 := by
        have := hsucc (frame e)
        rw [if_pos rfl] at this
        rw [hrefs]
        omega
      have hupd : ∀ n, update refs' (frame e) (refs' (frame e) - 1) n =
          refs n - mapsTo F r (va / PGSIZE) (k + 1) n := by
        intro n
        by_cases hn : n = frame e
        · subst hn
          rw [update_self, hrefs, hsucc, if_pos rfl]
          omega
        · rw [update_of_ne hn, hrefs, hsucc, if_neg fun h => hn h.symm, add_zero]
      refine wp_mono (kfree_spec h.tables.alloc hpos) fun _ u hu => ?_
      -- the tables are not touched
      have hmem : ∀ x, F.Tab (x / PGSIZE) → u.mem x = t.mem x := by
        intro x hx
        refine hu.mem x fun hxn => ?_
        rw [hxn] at hx
        exact absurd hx hntab
      refine ⟨_, ⟨h.tables.rep.congr fun n i hn hi => entry_congr hi fun x hx => ?_, hu.alloc,
        fun n hn => ?_, h.tables.low⟩, hupd, fun x hx hx' => ?_, h.length.trans hu.freelist,
        hu.denied.trans h.denied⟩
      · rw [Forest.tab_setPtes] at hn
        exact hmem x (hx ▸ hn)
      · have hnf : n ≠ frame e := by
          rintro rfl
          exact hntab (Forest.tab_setPtes.1 hn)
        rw [update_of_ne hnf]
        exact h.tables.owned n hn
      · have hx'' := hx' rfl
        rw [hu.mem x fun hxn => ?_]
        · refine h.mem x hx fun _ hk => ?_
          have h₁ := hx'' (hk.trans_le (mapsTo_mono F r _ _ (Nat.le_add_right k 1)))
          rw [hupd] at h₁
          rw [hrefs]
          have := mapsTo_mono F r (va / PGSIZE) (x / PGSIZE) (Nat.le_add_right k 1)
          omega
        · have hk : 0 < mapsTo F r (va / PGSIZE) (k + 1) (x / PGSIZE) := by
            rw [hsucc, if_pos hxn.symm]
            omega
          have h₁ := hx'' hk
          rw [hxn, update_self] at h₁
          omega
    · have hstop : frame e * PGSIZE % PGSIZE ≠ 0 ∨ frame e * PGSIZE < Layout.kend ∨
          PHYSTOP ≤ frame e * PGSIZE := by
        by_contra hno
        simp only [not_or, not_lt, not_le] at hno
        exact hman ⟨hno.2.1, hno.2.2⟩
      unfold CowPbs.kfree
      rw [if_pos hstop]
      exact hbad hman

/-- `uvmunmap` removes the pages of the range, and frees them if it is to. It stops where a
page is not mapped, and must not free a page table, or a page more often than it has owners. -/
theorem uvmunmap_spec {va npages : ℕ} {doFree : Bool} (h : Tables F refs s) (hr : r ∈ F.roots)
    (hva : va < MAXVA) (halign : va % PGSIZE ≠ 0 → E "uvmunmap: not aligned")
    (hend : VPAGES < va / PGSIZE + unmapTurns va npages → E "walk")
    (hmapped : ∀ k < unmapTurns va npages, va / PGSIZE + k < VPAGES →
      has (F.pte r (va / PGSIZE + k)) PTE_V = false →
        E "uvmunmap: walk" ∧ E "uvmunmap: not mapped")
    (hleaf : ∀ k < unmapTurns va npages, va / PGSIZE + k < VPAGES →
      PTE_FLAGS (F.pte r (va / PGSIZE + k)) = PTE_V → E "uvmunmap: not a leaf")
    (hfree : doFree = true → ∀ k < unmapTurns va npages, va / PGSIZE + k < VPAGES →
      (∀ j ≤ k, has (F.pte r (va / PGSIZE + j)) PTE_V = true) →
      (Managed (frame (F.pte r (va / PGSIZE + k))) →
        ¬F.Tab (frame (F.pte r (va / PGSIZE + k))) ∧
        mapsTo F r (va / PGSIZE) (k + 1) (frame (F.pte r (va / PGSIZE + k))) ≤
          refs (frame (F.pte r (va / PGSIZE + k)))) ∧
      (¬Managed (frame (F.pte r (va / PGSIZE + k))) → E "kfree")) :
    wp E (uvmunmap (r * PGSIZE) va npages doFree) (fun _ t =>
      ∃ refs', Unmapped r va doFree F refs s (unmapTurns va npages) refs' t) s := by
  unfold uvmunmap
  rw [wp_bind, wp_panicIf]
  refine ⟨halign, fun hal => ?_⟩
  have hva' : va = va / PGSIZE * PGSIZE := by
    have := Nat.div_add_mod va PGSIZE
    rw [not_not.1 hal, add_zero, Nat.mul_comm] at this
    exact this.symm
  refine wp_mono (wp_forRange
    (fun k t => ∃ refs', Unmapped r va doFree F refs s k refs' t) (unmapTurns va npages) 0
    ⟨refs, unmapped_zero h hva⟩ fun k t _ hk ⟨refs', hu⟩ => ?_) fun _ t ht => ?_
  · rw [Nat.zero_add] at hk
    have haddr : va + k * PGSIZE = (va / PGSIZE + k) * PGSIZE := by
      rw [Nat.add_mul, ← hva']
    rw [haddr, wp_bind]
    by_cases hlast : va / PGSIZE + k < VPAGES
    · have hlt : (va / PGSIZE + k) * PGSIZE < MAXVA := by
        rw [← page_lt_iff, mul_PGSIZE_div]
        exact hlast
      have hpte : (F.setPtes r (va / PGSIZE) (fun _ => 0) k).pte r (va / PGSIZE + k) =
          F.pte r (va / PGSIZE + k) := by
        rw [Forest.pte_setPtes hu.le hlast, if_neg (by omega)]
      rw [wp_walk_false hlt, hu.tables.pteAddr_eq (by rwa [Forest.roots_setPtes]), mul_PGSIZE_div,
        Forest.node_setPtes]
      cases hp : F.node (r, tablePath (va / PGSIZE + k)) with
      | none =>
        have h0 : F.pte r (va / PGSIZE + k) = 0 := h.pte_eq_zero hp
        exact (hmapped k hk hlast (by rw [h0]; rfl)).1
      | some p =>
        have hp' : (F.setPtes r (va / PGSIZE) (fun _ => 0) k).node
            (r, tablePath (va / PGSIZE + k)) = some p := by
          rwa [Forest.node_setPtes]
        rw [Option.map_some]
        dsimp only
        rw [wp_bind, wp_ld, hu.tables.entry_eq hp', hpte, wp_bind, wp_panicIf]
        refine ⟨fun hV => (hmapped k hk hlast (by simpa using hV)).2, fun hV => ?_⟩
        have hvalid : ∀ j < k + 1, has (F.pte r (va / PGSIZE + j)) PTE_V = true := by
          intro j hj
          rcases Nat.lt_succ_iff_lt_or_eq.1 hj with hj | rfl
          · exact hu.valid j hj
          · simpa using hV
        rw [wp_bind, wp_panicIf]
        refine ⟨hleaf k hk hlast, fun _ => ?_⟩
        refine wp_seq (hu.kfree rfl fun hd => hfree hd k hk hlast fun j hj =>
          hvalid j (Nat.lt_succ_of_le hj)) fun _ u ⟨refs'', hT, hrefs, hmem, hlen, hden⟩ => ?_
        rw [wp_sd]
        have hset := hT.setPte hp' (by norm_num : 0 < 2 ^ 64)
        refine ⟨refs'', hset.tables, by omega, hvalid, hrefs, fun x hx hx' => ?_, hlen, hden⟩
        refine (hset.mem x ?_).trans (hmem x hx hx')
        rw [Forest.tab_setPte, Forest.tab_setPtes]
        exact hx
    · have hge : MAXVA ≤ (va / PGSIZE + k) * PGSIZE := by
        rw [← not_lt, ← page_lt_iff, mul_PGSIZE_div]
        exact hlast
      rw [walk, wp_bind, wp_panicIf]
      exact ⟨fun _ => hend (by omega), fun h => absurd hge h⟩
  · rw [Nat.zero_add] at ht
    exact ht

end

end CowPbs

/-! ## The map of a page table -/

namespace CowPbs

/-- The entry of virtual page `v`, if there is a valid one. -/
def pageEntry (m : Mem) (root v : ℕ) : Option ℕ :=
  match pteAddr m (root * PGSIZE) (v * PGSIZE) with
  | none => none
  | some pte => if has (Bytes.get m pte 8) PTE_V then some (Bytes.get m pte 8) else none

/-- The page `n` is one of the tables below `root`. -/
def IsTable (m : Mem) (root n : ℕ) : Prop :=
  n = root ∨ ∃ i < 512, has (entry m root i) PTE_V ∧
    (n = frame (entry m root i) ∨ ∃ j < 512, has (entry m (frame (entry m root i)) j) PTE_V ∧
      n = frame (entry m (frame (entry m root i)) j))

/-- A map from virtual pages to physical pages and flags. -/
abbrev PageMap := ℕ → Option (ℕ × ℕ)

/-- What happens to a page table, with what `mappages` returned. -/
inductive PtEvent
  | map (va size pa perm : ℕ) (ret : ℤ)
  | unmap (va npages : ℕ) (doFree : Bool)
  /-- The kernel does something else. -/
  | other

/-- The virtual pages from that of `va` up to that of `va + size - 1`, around the end of the
64-bit addresses if that is where it lies. -/
def InMapRange (va size v : ℕ) : Prop :=
  (v + 2 ^ 52 - va / PGSIZE) % 2 ^ 52 ≤
    ((va + size + (2 ^ 64 - 1)) % 2 ^ 64 / PGSIZE + 2 ^ 52 - va / PGSIZE) % 2 ^ 52

/-- The `npages` virtual pages from that of `va` on. -/
def InPages (va npages v : ℕ) : Prop :=
  va / PGSIZE ≤ v ∧ v < va / PGSIZE + npages

/-- What the calls do to the map. -/
inductive MapStep (M : PageMap) : PtEvent → PageMap → Prop
  | map (va size pa perm : ℕ) (M' : PageMap)
      (hin : ∀ v < VPAGES, InMapRange va size v → M' v =
        some ((pa / PGSIZE + (v - va / PGSIZE)) % 2 ^ 52, perm ||| PTE_V))
      (hout : ∀ v < VPAGES, ¬InMapRange va size v → M' v = M v) :
    MapStep M (.map va size pa perm 0) M'
  | fail (va size pa perm : ℕ) (M' : PageMap)
      (hout : ∀ v < VPAGES, ¬InMapRange va size v → M' v = M v) :
    MapStep M (.map va size pa perm (-1)) M'
  | unmap (va npages : ℕ) (doFree : Bool) (M' : PageMap)
      (hin : ∀ v < VPAGES, InPages va npages v → M' v = none)
      (hout : ∀ v < VPAGES, ¬InPages va npages v → M' v = M v) :
    MapStep M (.unmap va npages doFree) M'
  | other (M' : PageMap) (hout : ∀ v < VPAGES, M' v = M v) : MapStep M .other M'

section

variable [Layout]

/-- The calls that return, on the page table `root`. What else the kernel does leaves the
tables alone, and does not free them. -/
inductive PtStep (root : ℕ) (s : Mach) : PtEvent → Mach → Prop
  | map (va size pa perm : ℕ) (ret : ℤ) (t : Mach) (hva : va < MAXVA) (hsize : size < 2 ^ 64)
      (hpa : pa < 2 ^ 64) (hperm : perm < 2 ^ 64)
      (h : mappages (root * PGSIZE) va size pa perm s = .ok (ret, t)) :
    PtStep root s (.map va size pa perm ret) t
  | unmap (va npages : ℕ) (doFree : Bool) (t : Mach) (hva : va < MAXVA)
      (h : uvmunmap (root * PGSIZE) va npages doFree s = .ok ((), t)) :
    PtStep root s (.unmap va npages doFree) t
  | other (t : Mach) (refs : ℕ → ℕ) (halloc : Alloc refs t)
      (hmem : ∀ x, IsTable s.mem root (x / PGSIZE) → t.mem x = s.mem x)
      (htab : ∀ n, IsTable s.mem root n → t.ref n ≠ 0) :
    PtStep root s .other t

end

/-- The flags fit into an entry. The end of what is unmapped is an address. A page that is to
be freed is no page table, and has at least as many owners as there are pages mapped to it. -/
def PtGuard (root : ℕ) (s : Mach) : PtEvent → Prop
  | .map _ _ _ perm _ => perm < 2 ^ 10
  | .unmap va npages doFree => va + npages * PGSIZE < 2 ^ 64 ∧ (doFree = true →
      ∀ k < npages, ∀ e, pageEntry s.mem root (va / PGSIZE + k) = some e →
        ¬IsTable s.mem root (frame e) ∧
        ((Finset.range npages).filter fun j =>
          (pageEntry s.mem root (va / PGSIZE + j)).map frame = some (frame e)).card ≤
            s.ref (frame e))
  | .other => True

/-! ## On six pages of memory -/

section

variable [Layout]

end

/-- A machine whose last six pages are all the memory there is. -/
@[reducible] def sixPages : Layout where
  kend := PHYSTOP - 6 * PGSIZE
  trampoline := KERNBASE
  kernbase_le := le_rfl
  trampoline_lt := by decide
  trampoline_mod := by decide
  kend_le := Nat.sub_le _ _

section

variable [Layout] {F : Forest ℕ} {refs : ℕ → ℕ} {s t : Mach} {root v n : ℕ}

/-- The tables of a page table, as `freewalk` finds them. -/
theorem Tables.isTable_node (h : Tables F refs s) {r : ℕ} {π : List ℕ}
    (hx : F.node (r, π) = some n) : IsTable s.mem r n := by
  have hr := h.rep.mem_roots hx
  have hlink : ∀ {π p i q}, F.node (r, π) = some p → F.node (r, i :: π) = some q →
      π.length < 2 → i < 512 ∧ entry s.mem p i = sv39.link q ∧ q < 2 ^ 44 := by
    intro π p i q hp hq hπ
    have hi : i < 512 := by
      by_contra hi
      rw [h.rep.index r i π (not_lt.1 hi)] at hq
      cases hq
    refine ⟨hi, ?_, h.lt ⟨_, hq⟩⟩
    have := h.rep.inner r π p i hp hπ hi
    rwa [hq] at this
  have hroot : F.node (r, []) = some r := h.rep.root r hr
  match π with
  | [] => exact .inl (Option.some.inj (hx.symm.trans hroot))
  | [i] =>
    obtain ⟨hi, he, hlt⟩ := hlink hroot hx (by norm_num)
    exact .inr ⟨i, hi, by rw [he, has_link], .inl (by rw [he, frame_link hlt])⟩
  | [j, i] =>
    obtain ⟨q, hq⟩ : ∃ q, F.node (r, [i]) = some q := by
      refine Option.ne_none_iff_exists'.1 fun hnone => ?_
      rw [h.rep.up r j [i] hnone] at hx
      cases hx
    obtain ⟨hi, he, hlt⟩ := hlink hroot hq (by norm_num)
    obtain ⟨hj, he', hlt'⟩ := hlink hq hx (by norm_num)
    refine .inr ⟨i, hi, by rw [he, has_link], .inr ⟨j, hj, ?_, ?_⟩⟩
    · rw [he, frame_link hlt, he', has_link]
    · rw [he, frame_link hlt, he', frame_link hlt']
  | _ :: _ :: _ :: _ =>
    rw [h.rep.deep r _ (by simp [sv39])] at hx
    cases hx

theorem Tables.isTable (h : Tables F refs s) (hroots : F.roots = {root}) (hn : F.Tab n) :
    IsTable s.mem root n := by
  obtain ⟨⟨r, π⟩, hx⟩ := hn
  have hr := h.rep.mem_roots hx
  obtain rfl : r = root := by simpa [hroots] using hr
  exact h.isTable_node hx

theorem Tables.pageEntry_eq (h : Tables F refs s) (hr : root ∈ F.roots) :
    pageEntry s.mem root v = if has (F.pte root v) PTE_V then some (F.pte root v) else none := by
  unfold pageEntry
  rw [h.pteAddr_eq hr, mul_PGSIZE_div]
  cases hp : F.node (root, tablePath v) with
  | none =>
    rw [h.pte_eq_zero hp]
    rfl
  | some p =>
    rw [Option.map_some]
    dsimp only
    rw [h.entry_eq hp]

/-- The map of a page table. -/
def mapOf (F : Forest ℕ) (root : ℕ) : PageMap := fun v =>
  if has (F.pte root v) PTE_V then some (frame (F.pte root v), PTE_FLAGS (F.pte root v)) else none

omit [Layout] in
theorem mapTurns_eq {va size : ℕ} (hva : va < MAXVA) :
    mapTurns va size =
      ((va + size + (2 ^ 64 - 1)) % 2 ^ 64 / PGSIZE + 2 ^ 52 - va / PGSIZE) % 2 ^ 52 + 1 := by
  have hlt : (va + size + (2 ^ 64 - 1)) % 2 ^ 64 < 2 ^ 64 := Nat.mod_lt _ (by norm_num)
  unfold mapTurns PGROUNDDOWN
  generalize (va + size + (2 ^ 64 - 1)) % 2 ^ 64 = last at hlt ⊢
  simp only [PGSIZE, MAXVA] at hva ⊢
  omega

/-- The pages that `mappages` goes through are in the range. -/
theorem inMapRange_of_lt {va size : ℕ} (hva : va < MAXVA) (h₁ : va / PGSIZE ≤ v)
    (h₂ : v < va / PGSIZE + mapTurns va size) : InMapRange va size v := by
  rw [mapTurns_eq hva] at h₂
  unfold InMapRange
  omega

/-- And they are all of it. -/
theorem inMapRange_iff {va size : ℕ} (hva : va < MAXVA)
    (hle : va / PGSIZE + mapTurns va size ≤ VPAGES) (hv : v < VPAGES) :
    InMapRange va size v ↔ va / PGSIZE ≤ v ∧ v < va / PGSIZE + mapTurns va size := by
  refine ⟨fun h => ?_, fun ⟨h₁, h₂⟩ => inMapRange_of_lt hva h₁ h₂⟩
  have hpage := page_lt_iff.2 hva
  have hlast : (va + size + (2 ^ 64 - 1)) % 2 ^ 64 / PGSIZE < 2 ^ 52 := by
    simp only [PGSIZE]
    omega
  rw [mapTurns_eq hva] at hle ⊢
  rw [VPAGES_eq] at hle hv hpage
  unfold InMapRange at h
  generalize (va + size + (2 ^ 64 - 1)) % 2 ^ 64 / PGSIZE = last at *
  generalize va / PGSIZE = first at *
  omega

omit [Layout] in
theorem unmapTurns_eq {va npages : ℕ} (hlt : va + npages * PGSIZE < 2 ^ 64) :
    unmapTurns va npages = npages := by
  unfold unmapTurns
  rw [Nat.mod_eq_of_lt hlt, Nat.add_sub_cancel_left]
  simp only [PGSIZE]
  omega

/-! ## One step -/

/-- What an entry of `mappages` says. -/
theorem mapOf_mapEntry {pa perm k : ℕ} (hperm : perm < 2 ^ 10)
    (he : F.pte root v = mapEntry pa perm k) :
    mapOf F root v = some ((pa / PGSIZE + k) % 2 ^ 52, perm ||| PTE_V) := by
  have hf : perm ||| PTE_V < 2 ^ 10 := Nat.or_lt_two_pow hperm (by norm_num [PTE_V])
  have hpa : (pa + k * PGSIZE) % 2 ^ 64 / PGSIZE = (pa / PGSIZE + k) % 2 ^ 52 := by
    simp only [PGSIZE]
    omega
  rw [mapEntry, Nat.or_assoc] at he
  rw [mapOf, he, has_V, testBit_PA2PTE _ _ (by norm_num), frame_PA2PTE (Nat.mod_lt _ (by norm_num)) hf,
    flags_PA2PTE _ hf, hpa, if_pos]
  rw [Nat.testBit_or]
  simp [PTE_V]

/-- Memory holds a page table with the map `M`. -/
def Holds (root : ℕ) (s : Mach) (M : PageMap) : Prop :=
  ∃ F refs, Tables F refs s ∧ F.roots = {root} ∧ M = mapOf F root

theorem MapStep.of_mappages {va size pa perm : ℕ} {ret : ℤ} (h : Tables F refs s)
    (hroots : F.roots = {root}) (hva : va < MAXVA) (hperm : perm < 2 ^ 10)
    (hrun : mappages (root * PGSIZE) va size pa perm s = .ok (ret, t)) :
    ∃ M, MapStep (mapOf F root) (.map va size pa perm ret) M ∧ Holds root t M := by
  have hr : root ∈ F.roots := by simp [hroots]
  have hspec := wp_ok (mappages_spec (E := fun _ => True) h hr hva
    (hperm.trans (by norm_num)) (fun _ => trivial) (fun _ => trivial) fun _ _ _ => trivial) hrun
  obtain ⟨rfl, -, hle, F', refs', hg, hpte⟩ | ⟨rfl, -, k, hk, hle, F', refs', hg, hpte⟩ := hspec
  · refine ⟨mapOf F' root, .map va size pa perm _ (fun v hv hin => ?_) fun v hv hout => ?_,
      F', refs', hg.tables, hg.roots.trans hroots, rfl⟩
    · rw [inMapRange_iff hva hle hv] at hin
      refine mapOf_mapEntry hperm ?_
      rw [hpte root v hv, if_pos ⟨rfl, hin⟩]
    · rw [inMapRange_iff hva hle hv] at hout
      have hsame : F'.pte root v = F.pte root v := by
        rw [hpte root v hv, if_neg fun h => hout h.2]
      rw [mapOf, hsame, mapOf]
  · refine ⟨mapOf F' root, .fail va size pa perm _ fun v hv hout => ?_,
      F', refs', hg.tables, hg.roots.trans hroots, rfl⟩
    have hsame : F'.pte root v = F.pte root v := by
      rw [hpte root v hv, if_neg]
      rintro ⟨-, h₁, h₂⟩
      exact hout (inMapRange_of_lt hva h₁ (by omega))
    rw [mapOf, hsame, mapOf]

theorem MapStep.of_uvmunmap {va npages : ℕ} {doFree : Bool} (h : Tables F refs s)
    (hroots : F.roots = {root}) (hva : va < MAXVA)
    (hguard : PtGuard root s (.unmap va npages doFree))
    (hrun : uvmunmap (root * PGSIZE) va npages doFree s = .ok ((), t)) :
    ∃ M, MapStep (mapOf F root) (.unmap va npages doFree) M ∧ Holds root t M := by
  have hr : root ∈ F.roots := by simp [hroots]
  obtain ⟨hlt, hguard⟩ := hguard
  have hturns := unmapTurns_eq hlt
  have hfree : doFree = true → ∀ k < unmapTurns va npages, va / PGSIZE + k < VPAGES →
      (∀ j ≤ k, has (F.pte root (va / PGSIZE + j)) PTE_V = true) →
      (Managed (frame (F.pte root (va / PGSIZE + k))) →
        ¬F.Tab (frame (F.pte root (va / PGSIZE + k))) ∧
        mapsTo F root (va / PGSIZE) (k + 1) (frame (F.pte root (va / PGSIZE + k))) ≤
          refs (frame (F.pte root (va / PGSIZE + k)))) ∧
      (¬Managed (frame (F.pte root (va / PGSIZE + k))) → True) := by
    refine fun hd k hk _ hvalid => ⟨fun hman => ?_, fun _ => trivial⟩
    -- a page that may be freed
    have hentry : ∀ j ≤ k, pageEntry s.mem root (va / PGSIZE + j) =
        some (F.pte root (va / PGSIZE + j)) := fun j hj => by
      rw [h.pageEntry_eq hr, if_pos (hvalid j hj)]
    rw [hturns] at hk
    obtain ⟨hntab, hcard⟩ := hguard hd k hk _ (hentry k le_rfl)
    refine ⟨fun htab => hntab (h.isTable hroots htab), ?_⟩
    rw [← h.alloc.count _ hman]
    refine (Finset.card_le_card fun j hj => ?_).trans hcard
    obtain ⟨hjk, hframe⟩ := Finset.mem_filter.1 hj
    have hjk := Finset.mem_range.1 hjk
    refine Finset.mem_filter.2 ⟨Finset.mem_range.2 (by omega), ?_⟩
    rw [hentry j (by omega), Option.map_some, hframe]
  obtain ⟨refs', hu⟩ := wp_ok (uvmunmap_spec (E := fun _ => True) h hr hva (fun _ => trivial)
    (fun _ => trivial) (fun _ _ _ _ => ⟨trivial, trivial⟩) (fun _ _ _ _ => trivial) hfree) hrun
  rw [hturns] at hu
  have hle := hu.le
  refine ⟨mapOf (F.setPtes root (va / PGSIZE) (fun _ => 0) npages) root,
    .unmap va npages doFree _ (fun v hv hin => ?_) fun v hv hout => ?_,
    _, refs', hu.tables, by rw [Forest.roots_setPtes, hroots], rfl⟩
  · have hset : (F.setPtes root (va / PGSIZE) (fun _ => 0) npages).pte root v = 0 := by
      rw [Forest.pte_setPtes hle hv, if_pos ⟨rfl, hin⟩]
    rw [mapOf, hset]
    rfl
  · have hsame : (F.setPtes root (va / PGSIZE) (fun _ => 0) npages).pte root v = F.pte root v := by
      rw [Forest.pte_setPtes hle hv, if_neg fun h => hout h.2]
    rw [mapOf, hsame, mapOf]

/-- What else the kernel does leaves the page table as it is. -/
theorem MapStep.of_other {refs' : ℕ → ℕ} (h : Tables F refs s) (hroots : F.roots = {root})
    (halloc : Alloc refs' t) (hmem : ∀ x, IsTable s.mem root (x / PGSIZE) → t.mem x = s.mem x)
    (htab : ∀ n, IsTable s.mem root n → t.ref n ≠ 0) :
    ∃ M, MapStep (mapOf F root) .other M ∧ Holds root t M := by
  refine ⟨mapOf F root, .other _ fun _ _ => rfl, F, refs', ⟨?_, halloc, fun n hn => ?_, h.low⟩,
    hroots, rfl⟩
  · refine h.rep.congr fun n i hn hi => entry_congr hi fun x hx => hmem x ?_
    rw [hx]
    exact h.isTable hroots hn
  · rw [← halloc.count n (h.alloc.owned n (h.owned n hn))]
    exact htab n (h.isTable hroots hn)

theorem Holds.step {M : PageMap} {e : PtEvent} (h : Holds root s M)
    (hs : Guarded (PtStep root) (PtGuard root) s e t) :
    ∃ M', MapStep M e M' ∧ Holds root t M' := by
  obtain ⟨F, refs, hT, hroots, rfl⟩ := h
  obtain ⟨hs, hguard⟩ := hs
  cases hs with
  | map va size pa perm ret _ hva _ _ _ hrun => exact MapStep.of_mappages hT hroots hva hguard hrun
  | unmap va npages doFree _ hva hrun => exact MapStep.of_uvmunmap hT hroots hva hguard hrun
  | other _ refs' halloc hmem htab => exact MapStep.of_other hT hroots halloc hmem htab

theorem Holds.uvmcreate {o : Option ℕ} (h : Alloc refs s)
    (hnew : CowPbs.uvmcreate s = .ok (o, t)) (ho : o = some (root * PGSIZE)) :
    Holds root t fun _ => none := by
  have hspec := wp_ok (uvmcreate_spec (E := fun _ => True) h.noTables) hnew
  subst ho
  obtain ⟨n, hn, hc⟩ := hspec
  obtain rfl := mul_PGSIZE_inj hn
  refine ⟨_, _, hc.tables, rfl, funext fun v => ?_⟩
  show none = if has 0 PTE_V = true then _ else none
  rw [if_neg (by decide)]

end

end CowPbs
