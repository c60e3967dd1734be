import Mathlib
import CowPbs.Cow

/-!
# The memory of a child

`uvmcopy` gives the child the entries of the parent, after it has marked them copy-on-write,
and counts the child as one more owner of each page (`uvmcopy_spec`). It does not return
when there is no memory for a table of the child : the kernel stops on the null pointer.
-/

set_option linter.unusedSectionVars false

open Function Prog Bytes Radix

namespace CowPbs

section

variable [Layout] {F F' F'' : Forest ℕ} {kern : ℕ → ℕ} {s t u : Mach} {r v k n tf : ℕ}
  {E : String → Prop}

omit [Layout] in
theorem cowOf_lt (e : ℕ) : cowOf e < 2 ^ 64 :=
  clear_lt _ _

/-- One more entry for a copy-on-write page, and one more owner. -/
theorem Vm.share {e q : ℕ} {o : ℕ → ℕ → Bool} (h : Vm F kern s) (hn : n ∈ F.roots)
    (hr : r ∈ F.roots) (hv : v < UPAGES) (h0 : F.pte n v = 0) (he : F.pte r v = e)
    (hcow : e.testBit 8 = true) (hlt : e < 2 ^ 64) (hq : F.node (n, tablePath v) = some q) :
    wp E (increaseNoOfRef (frame e * PGSIZE)) (fun _ t => Vm (F.setPte n v e) kern t ∧
      Saved F kern s (F.setPte n v e) kern t ∧ t.denied = s.denied)
      { s with mem := put s.mem (q * PGSIZE + 8 * (v % 512)) 8 e, origin := o } := by
  have hUV := UPAGES_le
  have hne : F.pte r v ≠ 0 := he ▸ ne_zero_of_testBit hcow
  have hl := h.leaf r hr v hv hne
  have hpos := Forest.maps_pos hr hv hne
  have hown := hl.owners_eq
  rw [he] at hl hpos hown hne
  have hle := h.maps_le (frame e)
  have hother : ∀ r' v', v' < VPAGES → (r', v') ≠ (n, v) →
      (F.setPte n v e).pte r' v' = F.pte r' v' := fun r' v' hv' hne' =>
    Forest.pte_setPte_of_ne (by omega) hv' hne'
  have hmaps : ∀ m, (F.setPte n v e).maps m = F.maps m + hits e m := by
    intro m
    have hchange : (F.setPte n v e).maps m + hits (F.pte n v) m =
        F.maps m + hits ((F.setPte n v e).pte n v) m :=
      Forest.maps_change rfl hn hv fun r' _ v' hv' => hother r' v' (by omega)
    rwa [Forest.pte_setPte_self, h0, hits_zero] at hchange
  have hmaps_of_ne : ∀ m, m ≠ frame e → (F.setPte n v e).maps m = F.maps m := by
    intro m hm
    rw [hmaps, hits_of_ne fun heq => hm heq.symm, Nat.add_zero]
  have hT := (h.tables.setPte hq hlt).tables
  have halloc : Alloc (owners F kern)
      { s with mem := put s.mem (q * PGSIZE + 8 * (v % 512)) 8 e, origin := o } :=
    h.tables.alloc.congr (fun _ => rfl) rfl rfl
  refine wp_mono (increaseNoOfRef_spec halloc (by omega) (by omega))
    fun _ t ⟨hal, hmem, hfl, hden⟩ => ?_
  have hrefs : ∀ m, owners (F.setPte n v e) kern m =
      update (owners F kern) (frame e) (owners F kern (frame e) + 1) m := by
    intro m
    by_cases hm : m = frame e
    · rw [hm, update_self, hown, owners_of_not_tab (mt Forest.tab_setPte.1 hl.not_tab), hl.not_kern,
        hmaps, hits_frame hne, Nat.zero_add]
    · rw [update_of_ne hm]
      unfold owners
      rw [hmaps_of_ne m hm]
      rfl
  have hown' : ∀ m, F.Tab m → owners (F.setPte n v e) kern m ≠ 0 := by
    intro m hm
    rw [owners_of_tab (Forest.tab_setPte.2 hm)]
    omega
  refine ⟨⟨⟨hT.rep.congr fun m i _ hi => entry_congr hi fun x _ => by rw [hmem],
    hal.congr hrefs rfl rfl, hown', hT.low⟩,
    fun r' hr' v' hv' hne' => ?_, h.excl⟩, fun m hm => ⟨?_, fun htab => ⟨htab, fun x hx => ?_⟩⟩,
    hden⟩
  · by_cases heq : (r', v') = (n, v)
    · obtain ⟨rfl, rfl⟩ := Prod.mk.inj heq
      rw [Forest.pte_setPte_self]
      refine ⟨hl.valid, hl.readable, hl.not_tab, hl.not_kern, hl.cow, fun hc => ?_⟩
      rw [hcow] at hc
      cases hc
    · have hr' : r' ∈ F.roots := hr'
      rw [hother r' v' (by omega) heq] at hne' ⊢
      have hl' := h.leaf r' hr' v' hv' hne'
      refine ⟨hl'.valid, hl'.readable, hl'.not_tab, hl'.not_kern, hl'.cow, fun hc => ?_⟩
      rw [hmaps_of_ne]
      · exact hl'.once hc
      · -- a page that is mapped once is not the page of `e`
        intro hf
        have hrv := Forest.eq_of_maps_le_one hr' hv' hne' hr hv (he ▸ hne) (by rw [he, hf])
          (hl'.once hc).le
        obtain ⟨rfl, rfl⟩ := Prod.mk.inj hrv
        rw [he, hcow] at hc
        cases hc
  · rw [hrefs]
    by_cases hmf : m = frame e
    · rw [hmf, update_self]
      omega
    · rwa [update_of_ne hmf]
  · rw [hmem]
    refine put_of_ne (Nat.mod_lt _ (by norm_num)) fun hxq => htab ?_
    rw [← hx, hxq]
    exact ⟨_, hq⟩

/-! ## One page -/

/-- The page `v` of the parent `r` is shared with the child `n`. -/
structure SharedPage (r n v : ℕ) (F : Forest ℕ) (kern : ℕ → ℕ) (s : Mach) (F' : Forest ℕ)
    (t : Mach) : Prop where
  vm : Vm F' kern t
  saved : Saved F kern s F' kern t
  roots : F'.roots = F.roots
  node : ∀ r' π, r' ≠ n → F'.node (r', π) = F.node (r', π)
  parent : F'.pte r v = cowOf (F.pte r v)
  child : F'.pte n v = cowOf (F.pte r v)
  other : ∀ r' v', v' < VPAGES → (r', v') ≠ (r, v) → (r', v') ≠ (n, v) →
    F'.pte r' v' = F.pte r' v'
  denied : t.denied = s.denied

theorem uvmcopyPage_spec (h : Vm F kern s) (hr : r ∈ F.roots) (hn : n ∈ F.roots) (hrn : n ≠ r)
    (hv : v < UPAGES) (hne : F.pte r v ≠ 0) (h0 : F.pte n v = 0) :
    wp (fun e => e = "kerneltrap") (uvmcopyPage (r * PGSIZE) (n * PGSIZE) (v * PGSIZE))
      (fun _ t => ∃ F', SharedPage r n v F kern s F' t) s := by
  have hUV := UPAGES_le
  have hvV : v < VPAGES := by omega
  obtain ⟨p, hp, hwalk, hentry⟩ := h.tables.walk_mapped hr hvV hne
  have hl := h.leaf r hr v hv hne
  have hcow : (cowOf (F.pte r v)).testBit 8 = true := by
    rw [testBit_cowOf _ (by norm_num)]
    simp
  have hbit : ∀ {i}, i < 10 → i ≠ 2 → i ≠ 8 →
      (cowOf (F.pte r v)).testBit i = (F.pte r v).testBit i := by
    intro i hi h2 h8
    rw [testBit_cowOf _ hi]
    simp [h2, h8]
  have hW : (cowOf (F.pte r v)).testBit 2 = false := by
    rw [testBit_cowOf _ (by norm_num)]
    simp
  obtain ⟨hvm, hsaved⟩ := h.reflag hr hv hp hne (cowOf_lt _) (frame_cowOf _)
    ((hbit (by norm_num) (by norm_num) (by norm_num)).trans hl.valid)
    ((hbit (by norm_num) (by norm_num) (by norm_num)).trans hl.readable)
    (fun hw => by rw [hW] at hw; cases hw) (fun hc => by rw [hcow] at hc; cases hc)
  have hne' : (n, v) ≠ (r, v) := fun heq => hrn (Prod.mk.inj heq).1
  have hlt : v * PGSIZE < MAXVA := by
    rw [← page_lt_iff, mul_PGSIZE_div]
    exact hvV
  unfold uvmcopyPage
  rw [wp_bind, wp_of_eq hwalk]
  dsimp only
  rw [wp_bind, wp_ld, hentry, has_V, hl.valid, panicIf_false (by decide), pure_bind, wp_bind, wp_sd]
  unfold mapNewToOld
  rw [wp_bind, wp_bind]
  refine wp_mono (walk_spec hvm.tables hn hlt) fun o u ⟨F₂, refs₂, hg, hleaf, ho⟩ => ?_
  cases o with
  | none => exact rfl
  | some pte =>
    obtain ⟨hden, q, hq, rfl⟩ := ho
    rw [mul_PGSIZE_div] at hq
    have hpte : ∀ r' v', F₂.pte r' v' = (F.setPte r v (cowOf (F.pte r v))).pte r' v' :=
      fun r' v' => congrFun hleaf (r', path v')
    have hvm₂ := hvm.grown hg fun r' _ v' _ => hpte r' v'
    have hsaved₂ : Saved (F.setPte r v (cowOf (F.pte r v))) kern _ F₂ kern _ :=
      hg.saved fun m => by rw [Forest.maps_congr hg.roots fun r' _ v' _ => hpte r' v']
    have hp₂ : F₂.node (r, tablePath v) = some p := hg.node _ _ hp
    have hr₂ : r ∈ F₂.roots := hg.roots.symm ▸ hr
    have hn₂ : n ∈ F₂.roots := hg.roots.symm ▸ hn
    have her : F₂.pte r v = cowOf (F.pte r v) := (hpte r v).trans Forest.pte_setPte_self
    have hen : F₂.pte n v = 0 :=
      (hpte n v).trans ((Forest.pte_setPte_of_ne hvV hvV hne').trans h0)
    dsimp only
    rw [mul_PGSIZE_div, wp_bind, wp_ld, hvm₂.tables.entry_eq hp₂, her, wp_sd]
    -- the entry of the parent is still what it was
    have hT := (hvm₂.tables.setPte hq (cowOf_lt (F.pte r v))).tables
    have hread := hT.entry_eq (r := r) (v := v) hp₂
    rw [Forest.pte_setPte_of_ne hvV hvV fun heq => hne' heq.symm, her] at hread
    unfold inherit
    rw [wp_bind, wp_modify, wp_bind, wp_ld]
    dsimp only
    rw [hread, PTE2PA_eq]
    refine wp_mono (hvm₂.share hn₂ hr₂ hv hen her hcow (cowOf_lt _) hq)
      fun _ t ⟨hvm₃, hsaved₃, hden₃⟩ => ⟨_, hvm₃, (hsaved.trans hsaved₂).trans hsaved₃, hg.roots,
        fun r' π hr' => hg.other r' π hr', ?_, Forest.pte_setPte_self, fun r' v' hv' h₁ h₂ => ?_,
        hden₃.trans hden⟩
    · rw [Forest.pte_setPte_of_ne hvV hvV fun heq => hne' heq.symm, her]
    · rw [Forest.pte_setPte_of_ne hvV hv' h₂, hpte, Forest.pte_setPte_of_ne hvV hv' h₁]

/-! ## All pages -/

/-- The first `k` pages of the parent `r` are shared with the child `n`. -/
structure Shared (r n k : ℕ) (F : Forest ℕ) (kern : ℕ → ℕ) (s : Mach) (F' : Forest ℕ)
    (t : Mach) : Prop where
  vm : Vm F' kern t
  saved : Saved F kern s F' kern t
  roots : F'.roots = F.roots
  node : ∀ r' π, r' ≠ n → F'.node (r', π) = F.node (r', π)
  parent : ∀ v < k, F'.pte r v = cowOf (F.pte r v)
  child : ∀ v < k, F'.pte n v = cowOf (F.pte r v)
  other : ∀ r' v, v < VPAGES → ¬((r' = r ∨ r' = n) ∧ v < k) → F'.pte r' v = F.pte r' v
  denied : t.denied = s.denied

namespace Shared

theorem refl (h : Vm F kern s) : Shared r n 0 F kern s F s :=
  ⟨h, .refl, rfl, fun _ _ _ => rfl, nofun, nofun, fun _ _ _ _ => rfl, rfl⟩

theorem snoc (h : Shared r n k F kern s F' t) (hk : k < UPAGES)
    (hp : SharedPage r n k F' kern t F'' u) : Shared r n (k + 1) F kern s F'' u := by
  have hUV := UPAGES_le
  have hold : F'.pte r k = F.pte r k := h.other r k (by omega) fun hbad => by omega
  have hne : ∀ {r' v : ℕ}, v < k → (r', v) ≠ (r, k) ∧ (r', v) ≠ (n, k) := fun hv =>
    ⟨fun heq => hv.ne (Prod.mk.inj heq).2, fun heq => hv.ne (Prod.mk.inj heq).2⟩
  refine ⟨hp.vm, h.saved.trans hp.saved, hp.roots.trans h.roots,
    fun r' π hr => (hp.node r' π hr).trans (h.node r' π hr), fun v hv => ?_, fun v hv => ?_,
    fun r' v hv hout => ?_, hp.denied.trans h.denied⟩
  · rcases Nat.lt_succ_iff_lt_or_eq.1 hv with hv | rfl
    · rw [hp.other r v (by omega) (hne hv).1 (hne hv).2, h.parent v hv]
    · rw [hp.parent, hold]
  · rcases Nat.lt_succ_iff_lt_or_eq.1 hv with hv | rfl
    · rw [hp.other n v (by omega) (hne hv).1 (hne hv).2, h.child v hv]
    · rw [hp.child, hold]
  · rw [hp.other r' v hv, h.other r' v hv]
    · exact fun hbad => hout ⟨hbad.1, by omega⟩
    · rintro heq
      obtain ⟨rfl, rfl⟩ := Prod.mk.inj heq
      exact hout ⟨.inl rfl, by omega⟩
    · rintro heq
      obtain ⟨rfl, rfl⟩ := Prod.mk.inj heq
      exact hout ⟨.inr rfl, by omega⟩

end Shared

/-- `uvmcopy` shares all pages, or stops the kernel. -/
theorem uvmcopy_spec {sz : ℕ} (h : Vm F kern s) (hr : r ∈ F.roots) (hn : n ∈ F.roots)
    (hrn : n ≠ r) (hs : F.Sized r (pages sz)) (h0 : ∀ v < UPAGES, F.pte n v = 0) :
    wp (fun e => e = "kerneltrap") (uvmcopy (r * PGSIZE) (n * PGSIZE) sz) (fun ret t =>
      ret = 0 ∧ ∃ F', Shared r n (pages sz) F kern s F' t) s := by
  have hU := UPAGES_eq
  have hUV := UPAGES_le
  have hsmall := h.sized_le hr hs
  have hturns : (sz + (PGSIZE - 1)) / PGSIZE = pages sz := rfl
  unfold uvmcopy
  rw [hturns, wp_bind]
  refine wp_mono (wp_forRange (fun i t => ∃ F', Shared r n i F kern s F' t) (pages sz) 0
    ⟨F, .refl h⟩ fun i t _ hi ⟨F', hsh⟩ => ?_) fun _ t ht => ⟨rfl, ?_⟩
  · have hiU : i < UPAGES := by omega
    have hpte : ∀ r', F'.pte r' i = F.pte r' i := fun r' =>
      hsh.other r' i (by omega) fun hbad => by omega
    refine wp_mono (uvmcopyPage_spec hsh.vm (hsh.roots.symm ▸ hr) (hsh.roots.symm ▸ hn) hrn hiU
      ?_ ?_) fun _ u ⟨F'', hp⟩ => ⟨F'', hsh.snoc hiU hp⟩
    · rw [hpte]
      exact (hs i hiU).2 (by omega)
    · rw [hpte, h0 i hiU]
  · rwa [Nat.zero_add] at ht

end

end CowPbs
