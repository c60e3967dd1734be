import Mathlib
import CowPbs.PageMap

/-!
# The owners of physical pages

A page is owned by each user entry that maps it, by a page table that lies in it, and by the
rest of the kernel (`kern`, for trapframes, kernel stacks, pipe and argument buffers and
pages a function holds on to). `Vm F kern s` says that the allocator counts exactly these
(`owners`), and that user entries are what the kernel makes of them : they are valid and
readable, they map pages that nothing else in the kernel uses, and only the pages that are
marked copy-on-write, which are not writable, are mapped more than once.

What the kernel does to a page table is one of a few changes : an entry set or cleared
(`maps_change`), a table added (`Vm.grown`), a page taken from the allocator or given
back (`Vm.kalloc`, `Vm.kfree`).
-/

set_option linter.unusedSectionVars false

open Function Prog Bytes Radix

namespace CowPbs

/-- The virtual pages below the trapframe. -/
def UPAGES : ℕ := TRAPFRAME / PGSIZE

theorem UPAGES_eq : UPAGES = 2 ^ 26 - 2 := by
  decide

theorem UPAGES_le : UPAGES ≤ VPAGES := by
  decide

/-- Whether the entry `e` maps page `n`. -/
def hits (e n : ℕ) : ℕ :=
  if e ≠ 0 ∧ frame e = n then 1 else 0

theorem hits_zero (n : ℕ) : hits 0 n = 0 :=
  if_neg fun h => h.1 rfl

theorem hits_of_ne {e n : ℕ} (h : frame e ≠ n) : hits e n = 0 :=
  if_neg fun h' => h h'.2

theorem hits_frame {e : ℕ} (h : e ≠ 0) : hits e (frame e) = 1 :=
  if_pos ⟨h, rfl⟩

theorem hits_le (e n : ℕ) : hits e n ≤ 1 := by
  unfold hits
  split_ifs <;> omega

end CowPbs

namespace Radix.Forest

open CowPbs

/-- How many user entries map page `n`. -/
def maps (F : Forest ℕ) (n : ℕ) : ℕ :=
  ∑ x ∈ F.roots ×ˢ Finset.range UPAGES, hits (F.pte x.1 x.2) n

variable {F F' : Forest ℕ} {r v n : ℕ}

theorem maps_congr (hroots : F'.roots = F.roots)
    (h : ∀ r ∈ F.roots, ∀ v < UPAGES, F'.pte r v = F.pte r v) : F'.maps n = F.maps n := by
  unfold maps
  rw [hroots]
  refine Finset.sum_congr rfl fun x hx => ?_
  obtain ⟨hr, hv⟩ := Finset.mem_product.1 hx
  rw [h x.1 hr x.2 (Finset.mem_range.1 hv)]

/-- Another entry for one page. -/
theorem maps_change (hroots : F'.roots = F.roots) (hr : r ∈ F.roots) (hv : v < UPAGES)
    (h : ∀ r' ∈ F.roots, ∀ v' < UPAGES, (r', v') ≠ (r, v) → F'.pte r' v' = F.pte r' v') :
    F'.maps n + hits (F.pte r v) n = F.maps n + hits (F'.pte r v) n := by
  have hmem : (r, v) ∈ F.roots ×ˢ Finset.range UPAGES :=
    Finset.mem_product.2 ⟨hr, Finset.mem_range.2 hv⟩
  unfold maps
  rw [hroots, ← Finset.add_sum_erase _ _ hmem, ← Finset.add_sum_erase _ _ hmem]
  have hrest : ∑ x ∈ (F.roots ×ˢ Finset.range UPAGES).erase (r, v), hits (F'.pte x.1 x.2) n =
      ∑ x ∈ (F.roots ×ˢ Finset.range UPAGES).erase (r, v), hits (F.pte x.1 x.2) n := by
    refine Finset.sum_congr rfl fun x hx => ?_
    obtain ⟨hne, hx⟩ := Finset.mem_erase.1 hx
    obtain ⟨hr', hv'⟩ := Finset.mem_product.1 hx
    rw [h x.1 hr' x.2 (Finset.mem_range.1 hv') hne]
  rw [hrest]
  dsimp only
  omega

theorem hits_le_maps (hr : r ∈ F.roots) (hv : v < UPAGES) : hits (F.pte r v) n ≤ F.maps n := by
  have hmem : (r, v) ∈ F.roots ×ˢ Finset.range UPAGES :=
    Finset.mem_product.2 ⟨hr, Finset.mem_range.2 hv⟩
  exact Finset.single_le_sum (f := fun x : ℕ × ℕ => hits (F.pte x.1 x.2) n)
    (fun _ _ => Nat.zero_le _) hmem

/-- A page that is mapped has an owner. -/
theorem maps_pos (hr : r ∈ F.roots) (hv : v < UPAGES) (he : F.pte r v ≠ 0) :
    0 < F.maps (frame (F.pte r v)) := by
  have := hits_le_maps (n := frame (F.pte r v)) hr hv
  rw [hits_frame he] at this
  omega

/-- A page that is mapped once is mapped in one place. -/
theorem eq_of_maps_le_one {r' v' : ℕ} (hr : r ∈ F.roots) (hv : v < UPAGES) (he : F.pte r v ≠ 0)
    (hr' : r' ∈ F.roots) (hv' : v' < UPAGES) (he' : F.pte r' v' ≠ 0)
    (hf : frame (F.pte r' v') = frame (F.pte r v)) (h1 : F.maps (frame (F.pte r v)) ≤ 1) :
    (r', v') = (r, v) := by
  by_contra hne
  have hmem : (r, v) ∈ F.roots ×ˢ Finset.range UPAGES :=
    Finset.mem_product.2 ⟨hr, Finset.mem_range.2 hv⟩
  have hmem' : (r', v') ∈ (F.roots ×ˢ Finset.range UPAGES).erase (r, v) :=
    Finset.mem_erase.2 ⟨hne, Finset.mem_product.2 ⟨hr', Finset.mem_range.2 hv'⟩⟩
  have hle := Finset.single_le_sum
    (f := fun x : ℕ × ℕ => hits (F.pte x.1 x.2) (frame (F.pte r v)))
    (fun _ _ => Nat.zero_le _) hmem'
  unfold maps at h1
  rw [← Finset.add_sum_erase _ _ hmem] at h1
  dsimp only at h1 hle
  rw [hits_frame he] at h1
  rw [← hf, hits_frame he', hf] at hle
  omega

theorem maps_addRoot (hr : r ∉ F.roots) (h0 : ∀ v < UPAGES, F.pte r v = 0) :
    (F.addRoot r).maps n = F.maps n := by
  unfold maps
  show ∑ x ∈ insert r F.roots ×ˢ Finset.range UPAGES, hits (F.pte x.1 x.2) n = _
  refine (Finset.sum_subset ?_ fun x hx hx' => ?_).symm
  · exact Finset.product_subset_product_left (Finset.subset_insert ..)
  · obtain ⟨hxr, hxv⟩ := Finset.mem_product.1 hx
    obtain rfl : x.1 = r := by
      by_contra hne
      exact hx' (Finset.mem_product.2 ⟨Finset.mem_of_mem_insert_of_ne hxr hne, hxv⟩)
    rw [h0 _ (Finset.mem_range.1 hxv), hits_zero]

theorem maps_delRoot (h0 : ∀ v < UPAGES, F.pte r v = 0) : (F.delRoot r).maps n = F.maps n := by
  unfold maps
  show ∑ x ∈ F.roots.erase r ×ˢ Finset.range UPAGES, hits (F.pte x.1 x.2) n = _
  refine Finset.sum_subset ?_ fun x hx hx' => ?_
  · exact Finset.product_subset_product_left (Finset.erase_subset ..)
  · obtain ⟨hxr, hxv⟩ := Finset.mem_product.1 hx
    obtain rfl : x.1 = r := by
      by_contra hne
      exact hx' (Finset.mem_product.2 ⟨Finset.mem_erase.2 ⟨hne, hxr⟩, hxv⟩)
    rw [h0 _ (Finset.mem_range.1 hxv), hits_zero]

/-- The entries of a range are cleared. -/
theorem maps_setPtes_zero {k : ℕ} (hr : r ∈ F.roots) (hk : v + k ≤ UPAGES)
    (hne : ∀ j < k, F.pte r (v + j) ≠ 0) :
    (F.setPtes r v (fun _ => 0) k).maps n + mapsTo F r v k n = F.maps n := by
  induction k with
  | zero => simp [setPtes, mapsTo]
  | succ k ih =>
    have hle := UPAGES_le
    have hih := ih (by omega) fun j hj => hne j (by omega)
    have hold : (F.setPtes r v (fun _ => 0) k).pte r (v + k) = F.pte r (v + k) := by
      rw [pte_setPtes (by omega) (by omega), if_neg (by omega)]
    have hchange : (F.setPtes r v (fun _ => 0) (k + 1)).maps n +
        hits ((F.setPtes r v (fun _ => 0) k).pte r (v + k)) n =
          (F.setPtes r v (fun _ => 0) k).maps n +
            hits ((F.setPtes r v (fun _ => 0) (k + 1)).pte r (v + k)) n :=
      maps_change rfl (by simpa) (by omega) fun r' _ v' hv' hne' => by
        rw [setPtes, pte_setPte_of_ne (by omega) (by omega) hne']
    have hnew : (F.setPtes r v (fun _ => 0) (k + 1)).pte r (v + k) = 0 := pte_setPte_self
    rw [hold, hnew, hits_zero] at hchange
    rw [mapsTo_succ]
    have hhit : hits (F.pte r (v + k)) n = if frame (F.pte r (v + k)) = n then 1 else 0 :=
      if_congr ⟨fun h => h.2, fun h => ⟨hne k (by omega), h⟩⟩ rfl rfl
    omega

end Radix.Forest

namespace CowPbs

section

variable [Layout] {F F' : Forest ℕ} {refs refs' kern kern' : ℕ → ℕ} {s t u : Mach} {r v n : ℕ}
  {E : String → Prop}

/-! ## How much can be mapped -/

/-- The places of user entries. -/
def mapped (F : Forest ℕ) : Finset (ℕ × ℕ) :=
  (F.roots ×ˢ Finset.range UPAGES).filter fun x => F.pte x.1 x.2 ≠ 0

omit [Layout] in
theorem maps_le_card (F : Forest ℕ) (n : ℕ) : F.maps n ≤ (mapped F).card := by
  unfold Forest.maps mapped
  rw [Finset.card_filter]
  refine Finset.sum_le_sum fun x _ => ?_
  unfold hits
  split_ifs with h h'
  · exact le_rfl
  · exact absurd h.1 h'
  · exact Nat.zero_le _
  · exact le_rfl

/-- There are at most as many entries as fit into the tables. -/
theorem Tables.card_mapped_le (h : Tables F refs s) {lo hi : ℕ}
    (htab : ∀ n, F.Tab n → lo ≤ n ∧ n < hi) : (mapped F).card ≤ (hi - lo) * 512 := by
  have hnode : ∀ x ∈ mapped F, ∃ p, F.node (x.1, tablePath x.2) = some p := by
    intro x hx
    refine Option.ne_none_iff_exists'.1 fun hnone => ?_
    exact (Finset.mem_filter.1 hx).2 (h.pte_eq_zero hnone)
  have hlt : ∀ x ∈ mapped F, x.2 < VPAGES := fun x hx =>
    (Finset.mem_range.1 (Finset.mem_product.1 (Finset.mem_filter.1 hx).1).2).trans_le UPAGES_le
  rw [← Nat.card_Ico, ← Finset.card_range 512, ← Finset.card_product]
  refine Finset.card_le_card_of_injOn
    (fun x => ((F.node (x.1, tablePath x.2)).getD 0, x.2 % 512)) (fun x hx => ?_)
    fun x hx y hy hxy => ?_
  · obtain ⟨p, hp⟩ := hnode x hx
    refine Finset.mem_product.2 ⟨Finset.mem_Ico.2 ?_, Finset.mem_range.2 (Nat.mod_lt _ (by norm_num))⟩
    dsimp only
    rw [hp, Option.getD_some]
    exact htab p ⟨_, hp⟩
  · obtain ⟨p, hp⟩ := hnode x hx
    obtain ⟨q, hq⟩ := hnode y hy
    obtain ⟨hpq, hmod⟩ := Prod.mk.inj hxy
    rw [hp, hq, Option.getD_some, Option.getD_some] at hpq
    subst hpq
    obtain ⟨hr, hpath⟩ := Prod.mk.inj (h.rep.inj _ _ _ hp hq)
    exact Prod.ext hr (path_inj (hlt x hx) (hlt y hy) (congrArg₂ List.cons hmod hpath))

/-- All tables lie in the memory of the allocator. -/
theorem Tables.card_mapped (h : Tables F refs s) : (mapped F).card ≤ 2 ^ 24 := by
  have hmem : ∀ n, F.Tab n → 0x80000 ≤ n ∧ n < 0x88000 := by
    intro n hn
    have hman := h.alloc.owned n (h.owned n hn)
    have h₁ := hman.1
    have h₂ := hman.2
    have h₃ := Layout.kernbase_le
    have h₄ := Layout.trampoline_lt
    rw [PHYSTOP_eq] at h₂
    simp only [PGSIZE, KERNBASE] at h₁ h₂ h₃
    omega
  exact (h.card_mapped_le hmem).trans (by norm_num)

theorem Tables.maps_le (h : Tables F refs s) (n : ℕ) : F.maps n ≤ 2 ^ 24 :=
  (maps_le_card F n).trans h.card_mapped

/-- An address space without holes does not get near the trapframe. -/
theorem Tables.size_le (h : Tables F refs s) (hr : r ∈ F.roots) {k : ℕ} (hk : k ≤ UPAGES)
    (hne : ∀ v < k, F.pte r v ≠ 0) : k ≤ 2 ^ 24 := by
  refine le_trans ?_ h.card_mapped
  rw [← Finset.card_range k]
  refine Finset.card_le_card_of_injOn (fun v => (r, v)) (fun v hv => ?_)
    fun _ _ _ _ h => (Prod.mk.inj h).2
  have hv := Finset.mem_range.1 hv
  exact Finset.mem_filter.2 ⟨Finset.mem_product.2 ⟨hr, Finset.mem_range.2 (hv.trans_le hk)⟩,
    hne v hv⟩

/-! ## The invariant -/

open Classical in
/-- The owners of page `n` : a page table in it, the kernel, and user entries. -/
noncomputable def owners (F : Forest ℕ) (kern : ℕ → ℕ) (n : ℕ) : ℕ :=
  (if F.Tab n then 1 else 0) + kern n + F.maps n

/-- What a user entry is like. -/
structure UserLeaf (F : Forest ℕ) (kern : ℕ → ℕ) (e : ℕ) : Prop where
  valid : e.testBit 0 = true
  readable : e.testBit 1 = true
  not_tab : ¬F.Tab (frame e)
  not_kern : kern (frame e) = 0
  cow : e.testBit 2 = true → e.testBit 8 = false
  once : e.testBit 8 = false → F.maps (frame e) = 1

/-- The allocator counts the owners, and the user entries are in order. -/
structure Vm (F : Forest ℕ) (kern : ℕ → ℕ) (s : Mach) : Prop where
  tables : Tables F (owners F kern) s
  leaf : ∀ r ∈ F.roots, ∀ v < UPAGES, F.pte r v ≠ 0 → UserLeaf F kern (F.pte r v)
  excl : ∀ n, F.Tab n → kern n = 0

omit [Layout] in
theorem owners_congr (hF : ∀ n, F'.Tab n ↔ F.Tab n)
    (hk : ∀ n, kern' n + F'.maps n = kern n + F.maps n) (n : ℕ) :
    owners F' kern' n = owners F kern n := by
  have := hk n
  unfold owners
  by_cases htab : F.Tab n
  · rw [if_pos ((hF n).2 htab), if_pos htab]
    omega
  · rw [if_neg (mt (hF n).1 htab), if_neg htab]
    omega

omit [Layout] in
theorem owners_eq_zero : owners F kern n = 0 ↔ ¬F.Tab n ∧ kern n = 0 ∧ F.maps n = 0 := by
  unfold owners
  split_ifs with h <;> simp [h]

omit [Layout] in
theorem owners_of_tab (h : F.Tab n) : owners F kern n = 1 + kern n + F.maps n := by
  rw [owners, if_pos h]

omit [Layout] in
theorem owners_of_not_tab (h : ¬F.Tab n) : owners F kern n = kern n + F.maps n := by
  rw [owners, if_neg h, Nat.zero_add]

omit [Layout] in
/-- A page that the kernel takes, or gives up. -/
theorem owners_update (F : Forest ℕ) (kern : ℕ → ℕ) (n k : ℕ) :
    owners F (update kern n k) = update (owners F kern) n (owners F kern n - kern n + k) := by
  funext m
  by_cases hm : m = n
  · subst hm
    rw [update_self, owners, owners, update_self]
    omega
  · rw [update_of_ne hm, owners, update_of_ne hm, owners]

namespace UserLeaf

variable {e : ℕ}

omit [Layout] in
theorem ne_zero (h : UserLeaf F kern e) : e ≠ 0 :=
  ne_zero_of_testBit h.valid

omit [Layout] in
theorem owners_eq (h : UserLeaf F kern e) : owners F kern (frame e) = F.maps (frame e) := by
  rw [owners_of_not_tab h.not_tab, h.not_kern, Nat.zero_add]

omit [Layout] in
theorem congr (h : UserLeaf F kern e) (htab : F'.Tab (frame e) → F.Tab (frame e))
    (hk : kern' (frame e) = kern (frame e)) (hm : F'.maps (frame e) = F.maps (frame e)) :
    UserLeaf F' kern' e :=
  ⟨h.valid, h.readable, fun ht => h.not_tab (htab ht), hk.trans h.not_kern, h.cow,
    fun hc => hm.trans (h.once hc)⟩

end UserLeaf

/-- What has an owner keeps it, and a page that was no table keeps its bytes and is none. -/
def Saved (F : Forest ℕ) (kern : ℕ → ℕ) (s : Mach) (F' : Forest ℕ) (kern' : ℕ → ℕ) (t : Mach) :
    Prop :=
  ∀ n, owners F kern n ≠ 0 → owners F' kern' n ≠ 0 ∧
    (¬F.Tab n → ¬F'.Tab n ∧ ∀ x, x / PGSIZE = n → t.mem x = s.mem x)

/-- What still has an owner had one, and a page that was no table keeps its bytes and is
none. -/
def Dropped (F : Forest ℕ) (kern : ℕ → ℕ) (s : Mach) (F' : Forest ℕ) (kern' : ℕ → ℕ) (t : Mach) :
    Prop :=
  ∀ n, owners F' kern' n ≠ 0 → owners F kern n ≠ 0 ∧
    (¬F.Tab n → ¬F'.Tab n ∧ ∀ x, x / PGSIZE = n → t.mem x = s.mem x)

section

variable {F'' : Forest ℕ} {kern'' : ℕ → ℕ}

/-- A page that has an owner before and after, and was no table, keeps its bytes. -/
def Kept (F : Forest ℕ) (kern : ℕ → ℕ) (s : Mach) (F' : Forest ℕ) (kern' : ℕ → ℕ) (t : Mach) :
    Prop :=
  ∀ n, ¬F.Tab n → owners F kern n ≠ 0 → owners F' kern' n ≠ 0 →
    ∀ x, x / PGSIZE = n → t.mem x = s.mem x

omit [Layout] in
theorem Saved.kept (h : Saved F kern s F' kern' t) : Kept F kern s F' kern' t :=
  fun n htab hn _ => ((h n hn).2 htab).2

omit [Layout] in
theorem Dropped.kept (h : Dropped F kern s F' kern' t) : Kept F kern s F' kern' t :=
  fun n htab _ hn => ((h n hn).2 htab).2

omit [Layout] in
/-- Pages are taken, and then pages are given back. -/
theorem Saved.kept_trans (h : Saved F kern s F' kern' t) (h' : Dropped F' kern' t F'' kern'' u) :
    Kept F kern s F'' kern'' u := by
  intro n htab hn hn' x hx
  obtain ⟨htab', hm⟩ := (h n hn).2 htab
  rw [((h' n hn').2 htab').2 x hx, hm x hx]

omit [Layout] in
theorem Saved.refl : Saved F kern s F kern s :=
  fun _ h => ⟨h, fun h' => ⟨h', fun _ _ => rfl⟩⟩

omit [Layout] in
theorem Saved.trans (h : Saved F kern s F' kern' t) (h' : Saved F' kern' t F'' kern'' u) :
    Saved F kern s F'' kern'' u := by
  intro n hn
  obtain ⟨hn', hm⟩ := h n hn
  obtain ⟨hn'', hm'⟩ := h' n hn'
  refine ⟨hn'', fun htab => ?_⟩
  obtain ⟨htab', hm⟩ := hm htab
  obtain ⟨htab'', hm'⟩ := hm' htab'
  exact ⟨htab'', fun x hx => (hm' x hx).trans (hm x hx)⟩

omit [Layout] in
theorem Dropped.refl : Dropped F kern s F kern s :=
  fun _ h => ⟨h, fun h' => ⟨h', fun _ _ => rfl⟩⟩

omit [Layout] in
theorem Dropped.trans (h : Dropped F kern s F' kern' t) (h' : Dropped F' kern' t F'' kern'' u) :
    Dropped F kern s F'' kern'' u := by
  intro n hn
  obtain ⟨hn', hm'⟩ := h' n hn
  obtain ⟨hn'', hm⟩ := h n hn'
  refine ⟨hn'', fun htab => ?_⟩
  obtain ⟨htab', hm⟩ := hm htab
  obtain ⟨htab'', hm'⟩ := hm' htab'
  exact ⟨htab'', fun x hx => (hm' x hx).trans (hm x hx)⟩

omit [Layout] in
/-- What was taken is given back. -/
theorem Saved.dropped (h : Saved F kern s F' kern' t) (h' : Dropped F' kern' t F'' kern'' u)
    (hmono : ∀ n, owners F kern n ≠ 0 → owners F'' kern'' n ≠ 0) :
    Saved F kern s F'' kern'' u := by
  intro n hn
  refine ⟨hmono n hn, fun htab => ?_⟩
  obtain ⟨-, hm⟩ := h n hn
  obtain ⟨-, hm'⟩ := h' n (hmono n hn)
  obtain ⟨htab', hm⟩ := hm htab
  obtain ⟨htab'', hm'⟩ := hm' htab'
  exact ⟨htab'', fun x hx => (hm' x hx).trans (hm x hx)⟩

end

/-- Pages that are not freed in between. -/
theorem Grown.owners_eq (h : Grown r F (owners F kern) s F' refs' t)
    (hk : ∀ n, kern' n + F'.maps n = kern n + F.maps n) (n : ℕ) :
    owners F' kern' n = refs' n := by
  have hn := hk n
  by_cases htab' : F'.Tab n
  · by_cases htab : F.Tab n
    · rw [h.refs_eq n fun _ => htab, owners_of_tab htab', owners_of_tab htab]
      omega
    · obtain ⟨h0, h1⟩ := h.fresh n htab' htab
      have h0 := owners_eq_zero.1 h0
      rw [h1, owners_of_tab htab']
      omega
  · have htab : ¬F.Tab n := fun htab => htab' (h.tab htab)
    rw [h.refs_eq n fun h => absurd h htab', owners_of_not_tab htab', owners_of_not_tab htab]
    omega

theorem Grown.saved (h : Grown r F (owners F kern) s F' refs' t)
    (hk : ∀ n, kern' n + F'.maps n = kern n + F.maps n) : Saved F kern s F' kern' t := by
  intro n hn
  have hrefs : owners F' kern' n = owners F kern n := by
    rw [h.owners_eq hk]
    refine h.refs_eq n fun hn' => ?_
    by_contra htab
    exact hn (h.fresh n hn' htab).1
  refine ⟨hrefs ▸ hn, fun htab => ?_⟩
  have htab' : ¬F'.Tab n := fun htab' => hn (h.fresh n htab' htab).1
  exact ⟨htab', fun x hx => h.mem x (hx ▸ htab')⟩

namespace Vm

theorem maps_le (h : Vm F kern s) (n : ℕ) : F.maps n ≤ 2 ^ 24 :=
  h.tables.maps_le n

theorem managed (h : Vm F kern s) (hn : owners F kern n ≠ 0) : Managed n :=
  h.tables.alloc.owned n hn

/-- Only the tables matter. -/
theorem congr (h : Vm F kern s) (hmem : ∀ x, F.Tab (x / PGSIZE) → t.mem x = s.mem x)
    (hf : t.freelist = s.freelist) (hr : t.ref = s.ref) : Vm F kern t where
  tables := ⟨h.tables.rep.congr fun _ _ hn hi => entry_congr hi fun x hx => hmem x (hx ▸ hn),
    h.tables.alloc.congr (fun _ => rfl) hf hr, h.tables.owned, h.tables.low⟩
  leaf := h.leaf
  excl := h.excl

theorem of_denied (h : Vm F kern s) (hd : Denied s t) : Vm F kern t :=
  h.congr (fun _ _ => by rw [hd.mem]) hd.freelist hd.ref

/-- The tree of `r` has changed, with `kern` and the user entries. -/
theorem of_tables (hT : Tables F' refs' t) (hroots : F'.roots = F.roots)
    (hrefs : ∀ n, owners F' kern' n = refs' n)
    (hleaf : ∀ r ∈ F.roots, ∀ v < UPAGES, F'.pte r v ≠ 0 → UserLeaf F' kern' (F'.pte r v))
    (hexcl : ∀ n, F'.Tab n → kern' n = 0) : Vm F' kern' t where
  tables := ⟨hT.rep, hT.alloc.congr hrefs rfl rfl, fun n hn => by
    rw [hrefs]
    exact hT.owned n hn, hT.low⟩
  leaf r hr v hv hne := hleaf r (hroots ▸ hr) v hv hne
  excl := hexcl

/-- A new table had no owner, so the kernel does not have it. -/
theorem excl_of_grown (h : Vm F kern s) (hg : Grown r F (owners F kern) s F' refs' t)
    (hn : F'.Tab n) : kern n = 0 := by
  by_cases hn' : F.Tab n
  · exact h.excl n hn'
  · exact (owners_eq_zero.1 (hg.fresh n hn hn').1).2.1

/-- What is mapped does not become a table. -/
theorem tab_of_grown (hg : Grown r F (owners F kern) s F' refs' t) {e : ℕ}
    (he : UserLeaf F kern e) (hpos : 0 < F.maps (frame e)) (htab : F'.Tab (frame e)) :
    F.Tab (frame e) := by
  by_contra hn
  have h0 := (hg.fresh _ htab hn).1
  rw [he.owners_eq] at h0
  omega

/-- Tables are added, and the user entries stay. -/
theorem grown (h : Vm F kern s) (hg : Grown r F (owners F kern) s F' refs' t)
    (hpte : ∀ r ∈ F.roots, ∀ v < UPAGES, F'.pte r v = F.pte r v) : Vm F' kern t := by
  have hmaps : ∀ n, F'.maps n = F.maps n := fun n => Forest.maps_congr hg.roots hpte
  refine of_tables hg.tables hg.roots (hg.owners_eq fun n => by rw [hmaps])
    (fun r' hr v hv hne => ?_) fun n => h.excl_of_grown hg
  rw [hpte r' hr v hv] at hne ⊢
  have hl := h.leaf r' hr v hv hne
  exact hl.congr (tab_of_grown hg hl (Forest.maps_pos hr hv hne)) rfl (hmaps _)

/-- A page of the kernel becomes a user page. -/
theorem mapped (h : Vm F kern s) (hg : Grown r F (owners F kern) s F' refs' t) {e : ℕ}
    (hr : r ∈ F.roots) (hv : v < UPAGES) (h0 : F.pte r v = 0) (he : F'.pte r v = e)
    (hpte : ∀ r' ∈ F.roots, ∀ v' < UPAGES, (r', v') ≠ (r, v) → F'.pte r' v' = F.pte r' v')
    (hV : e.testBit 0 = true) (hR : e.testBit 1 = true)
    (hW : e.testBit 2 = true → e.testBit 8 = false) (hk : kern (frame e) = 1)
    (hown : owners F kern (frame e) = 1) : Vm F' (update kern (frame e) 0) t := by
  have hmaps : ∀ n, F'.maps n = F.maps n + hits e n := by
    intro n
    have := Forest.maps_change (n := n) hg.roots hr hv hpte
    rw [h0, hits_zero, he] at this
    omega
  have hntab : ¬F.Tab (frame e) := by
    intro htab
    rw [owners_of_tab htab, hk] at hown
    omega
  have hmaps0 : F.maps (frame e) = 0 := by
    rw [owners_of_not_tab hntab, hk] at hown
    omega
  have hne : e ≠ 0 := ne_zero_of_testBit hV
  have hntab' : ¬F'.Tab (frame e) := by
    intro htab
    have := (hg.fresh _ htab hntab).1
    omega
  refine of_tables hg.tables hg.roots (hg.owners_eq fun n => ?_) (fun r' hr' v' hv' hne' => ?_)
    fun n hn => ?_
  · rw [hmaps]
    by_cases hn : n = frame e
    · subst hn
      rw [update_self, hk, hits_frame hne]
      omega
    · rw [update_of_ne hn, hits_of_ne fun h => hn h.symm]
      omega
  · by_cases heq : (r', v') = (r, v)
    · obtain ⟨rfl, rfl⟩ := Prod.mk.inj heq
      rw [he]
      refine ⟨hV, hR, hntab', update_self .., hW, fun _ => ?_⟩
      rw [hmaps, hmaps0, hits_frame hne]
    · rw [hpte r' hr' v' hv' heq] at hne' ⊢
      have hl := h.leaf r' hr' v' hv' hne'
      have hpos := Forest.maps_pos hr' hv' hne'
      have hframe : frame (F.pte r' v') ≠ frame e := by
        intro hf
        rw [hf, hmaps0] at hpos
        omega
      refine hl.congr (tab_of_grown hg hl hpos) (update_of_ne hframe ..) ?_
      rw [hmaps, hits_of_ne fun h => hframe h.symm, Nat.add_zero]
  · by_cases hn' : n = frame e
    · rw [hn', update_self]
    · rw [update_of_ne hn']
      exact h.excl_of_grown hg hn

/-- A free page is taken. -/
theorem hold (h : Vm F kern s) (hk : Kalloced (owners F kern) s t n) :
    Vm F (update kern n 1) t := by
  obtain ⟨hntab, hk0, hm0⟩ := owners_eq_zero.1 hk.free
  have hupd : ∀ m, owners F (update kern n 1) m = update (owners F kern) n 1 m := by
    intro m
    rw [owners_update, hk0, hk.free]
  refine ⟨⟨h.tables.rep.congr fun m i hm hi => entry_congr hi fun x hx => hk.mem x ?_,
    hk.alloc.congr hupd rfl rfl, fun m hm => ?_, h.tables.low⟩, fun r hr v hv hne => ?_,
    fun m hm => ?_⟩
  · rw [hx]
    rintro rfl
    exact hntab hm
  · rw [owners_of_tab hm]
    omega
  · have hl := h.leaf r hr v hv hne
    refine hl.congr id (update_of_ne ?_ ..) rfl
    rintro hf
    have := Forest.maps_pos hr hv hne
    rw [hf, hm0] at this
    omega
  · refine (update_of_ne ?_ ..).trans (h.excl m hm)
    rintro rfl
    exact hntab hm

/-- The kernel gives up a page, or its share of it. -/
theorem release (h : Vm F kern s) (hk : Kfreed (owners F kern) s t n) (hpos : 0 < kern n)
    (hntab : ¬F.Tab n) : Vm F (update kern n (kern n - 1)) t := by
  have hown : owners F kern n = kern n + F.maps n := owners_of_not_tab hntab
  have hupd : ∀ m, owners F (update kern n (kern n - 1)) m =
      update (owners F kern) n (owners F kern n - 1) m := by
    intro m
    rw [owners_update, hown]
    congr 1
    omega
  refine ⟨⟨h.tables.rep.congr fun m i hm hi => entry_congr hi fun x hx => hk.mem x fun hxn => ?_,
    hk.alloc.congr hupd rfl rfl, fun m hm => ?_, h.tables.low⟩, fun r hr v hv hne => ?_,
    fun m hm => ?_⟩
  · rw [hx] at hxn
    exact absurd (hxn ▸ hm) hntab
  · rw [owners_of_tab hm]
    omega
  · have hl := h.leaf r hr v hv hne
    refine hl.congr id (update_of_ne ?_ ..) rfl
    rintro hf
    have := hl.not_kern
    rw [hf] at this
    omega
  · refine (update_of_ne ?_ ..).trans (h.excl m hm)
    rintro rfl
    exact hntab hm

/-- A table is not mapped. -/
theorem maps_of_tab (h : Vm F kern s) (hn : F.Tab n) : F.maps n = 0 := by
  refine Finset.sum_eq_zero fun x hx => if_neg fun ⟨hne, hf⟩ => ?_
  obtain ⟨hr, hv⟩ := Finset.mem_product.1 hx
  have hl := h.leaf x.1 hr x.2 (Finset.mem_range.1 hv) hne
  exact hl.not_tab (hf.symm ▸ hn)

/-- A table has one owner. -/
theorem owners_tab (h : Vm F kern s) (hn : F.Tab n) : owners F kern n = 1 := by
  rw [owners_of_tab hn, h.excl n hn, h.maps_of_tab hn]

/-- `kalloc` takes a page that had no owner. -/
theorem kalloc_spec (h : Vm F kern s) : wp E kalloc (fun o t => match o with
    | none => Denied s t ∧ Vm F kern t
    | some pa => ∃ n, pa = n * PGSIZE ∧ Kalloced (owners F kern) s t n ∧
        Vm F (update kern n 1) t) s := by
  refine wp_mono (CowPbs.kalloc_spec h.tables.alloc) fun o t ho => ?_
  cases o with
  | none => exact ⟨ho, h.of_denied ho⟩
  | some pa =>
    obtain ⟨n, rfl, hk⟩ := ho
    exact ⟨n, rfl, hk, h.hold hk⟩

/-- The kernel writes to a page that is no table. -/
theorem write {m : Mem} (h : Vm F kern s) (hn : ¬F.Tab n)
    (hm : ∀ x, x / PGSIZE ≠ n → m x = s.mem x) : Vm F kern { s with mem := m } := by
  refine h.congr (fun x hx => hm x ?_) rfl rfl
  rintro rfl
  exact hn hx

/-- `kfree` of a page that the kernel has. -/
theorem kfree_spec (h : Vm F kern s) (hpos : 0 < kern n) (hntab : ¬F.Tab n) :
    wp E (kfree (n * PGSIZE)) (fun _ t => Vm F (update kern n (kern n - 1)) t ∧
      Kfreed (owners F kern) s t n) s := by
  have hown : owners F kern n ≠ 0 := by
    rw [owners_of_not_tab hntab]
    omega
  exact wp_mono (CowPbs.kfree_spec h.tables.alloc hown) fun _ t hk => ⟨h.release hk hpos hntab, hk⟩

end Vm

/-- Taking a page, and writing to it, changes no other page. -/
theorem Kalloced.saved (hk : Kalloced (owners F kern) s t n) {m : Mem}
    (hm : ∀ x, x / PGSIZE ≠ n → m x = t.mem x) :
    Saved F kern s F (update kern n 1) { t with mem := m } := by
  intro k hk'
  have hne : k ≠ n := by
    rintro rfl
    exact hk' hk.free
  refine ⟨?_, fun htab => ⟨htab, fun x hx => ?_⟩⟩
  · rw [owners_update, update_of_ne hne]
    exact hk'
  · rw [← hx] at hne
    rw [show ({ t with mem := m } : Mach).mem x = m x from rfl, hm x hne, hk.mem x hne]

/-- Writing to a page that had no owner. -/
theorem Saved.write (h : Saved F kern s F' kern' t) (h0 : owners F kern n = 0) {m : Mem}
    (hm : ∀ x, x / PGSIZE ≠ n → m x = t.mem x) : Saved F kern s F' kern' { t with mem := m } := by
  intro k hk
  obtain ⟨hk', hmem⟩ := h k hk
  refine ⟨hk', fun htab => ⟨(hmem htab).1, fun x hx => ?_⟩⟩
  refine (hm x fun hxn => hk ?_).trans ((hmem htab).2 x hx)
  rw [← hx, hxn, h0]

theorem Kfreed.dropped (hk : Kfreed (owners F kern) s t n) (hpos : 0 < kern n) (hntab : ¬F.Tab n) :
    Dropped F kern s F (update kern n (kern n - 1)) t := by
  have hown : owners F kern n = kern n + F.maps n := owners_of_not_tab hntab
  intro k hk'
  have hold : owners F kern k ≠ 0 := by
    by_cases hkn : k = n
    · rw [hkn, hown]
      omega
    · rw [owners_update, update_of_ne hkn] at hk'
      exact hk'
  refine ⟨hold, fun htab => ⟨htab, fun x hx => hk.mem x fun hxn => ?_⟩⟩
  have hkn : k = n := hx.symm.trans hxn
  rw [hkn, owners_update, update_self, hown] at hk'
  omega

end

end CowPbs
