import Mathlib
import CowPbs.Cow

/-!
# Stores to user memory

`Stored r va l` is what a store of the bytes `l` at `va` does to the address space `r` : the
bytes are there, and no byte of this or another address space changes but for them, although
a page that was copy-on-write may have been replaced by a copy. Stores one after the other
are a store (`Stored.trans`), so the loop of `copyout` is one, of the bytes before the first
page that it rejects (`copyout_spec`).

`copyout` writes to every page that is valid and the user's, other than page 0, so it is
right where page 0 and the pages that the user cannot write are not in the way
(`copyout_right_iff`).
-/

set_option linter.unusedSectionVars false

open Function Prog Bytes Radix

namespace CowPbs

section

variable [Layout] {F F' F'' : Forest ℕ} {kern : ℕ → ℕ} {s t u : Mach} {r v va k n tf : ℕ}
  {l l' : List Byte} {E : String → Prop}

/-- The bytes `l` have been stored at `va`. -/
structure Stored (r va : ℕ) (l : List Byte) (F : Forest ℕ) (kern : ℕ → ℕ) (s : Mach)
    (F' : Forest ℕ) (t : Mach) : Prop where
  vm : Vm F' kern t
  roots : F'.roots = F.roots
  node : F'.node = F.node
  entry : ∀ r' v, v < VPAGES → F'.pte r' v = F.pte r' v ∨
    (r' = r ∧ v < UPAGES ∧ (F.pte r v).testBit 8 = true ∧
      ∃ n < 2 ^ 44, F'.pte r v = ownEntry n (F.pte r v))
  kern : ∀ x, kern (x / PGSIZE) ≠ 0 → t.mem x = s.mem x
  outside : ∀ x, ¬Managed (x / PGSIZE) → t.mem x = s.mem x
  view : ∀ r' ∈ F.roots, ∀ x < TRAPFRAME, view t.mem r' x =
    if r' = r ∧ va ≤ x ∧ x < va + l.length then l[x - va]? else view s.mem r' x

omit [Layout] in
theorem ownEntry_ne_zero (n e : ℕ) : ownEntry n e ≠ 0 := by
  refine ne_zero_of_testBit (k := 2) ?_
  rw [testBit_ownEntry (by norm_num)]
  simp

namespace Stored

theorem refl (h : Vm F kern s) : Stored r va [] F kern s F s :=
  ⟨h, rfl, rfl, fun _ _ _ => .inl rfl, fun _ _ => rfl, fun _ _ => rfl, fun _ _ _ _ => by
    rw [if_neg fun h => by simp at h; omega]⟩

theorem trans (h : Stored r va l F kern s F' t)
    (h' : Stored r (va + l.length) l' F' kern t F'' u) :
    Stored r va (l ++ l') F kern s F'' u where
  vm := h'.vm
  roots := h'.roots.trans h.roots
  node := h'.node.trans h.node
  entry r' v hv := by
    rcases h'.entry r' v hv with h₂ | ⟨rfl, hvu, hcow, n, hn, h₂⟩
    · rcases h.entry r' v hv with h₁ | ⟨rfl, hvu, hcow, n, hn, h₁⟩
      · exact .inl (h₂.trans h₁)
      · exact .inr ⟨rfl, hvu, hcow, n, hn, h₂.trans h₁⟩
    · rcases h.entry r' v hv with h₁ | ⟨-, -, -, m, -, h₁⟩
      · rw [h₁] at hcow h₂
        exact .inr ⟨rfl, hvu, hcow, n, hn, h₂⟩
      · -- the page was one of its own by then
        rw [h₁, testBit_ownEntry (by norm_num)] at hcow
        simp at hcow
  kern x hx := (h'.kern x hx).trans (h.kern x hx)
  outside x hx := (h'.outside x hx).trans (h.outside x hx)
  view r' hr' x hx := by
    rw [h'.view r' (h.roots.symm ▸ hr') x hx, h.view r' hr' x hx, List.length_append]
    by_cases hr : r' = r
    · by_cases h₁ : x < va
      · rw [if_neg (by omega), if_neg (by omega), if_neg (by omega)]
      · by_cases h₂ : x < va + l.length
        · rw [if_neg (by omega), if_pos ⟨hr, by omega, h₂⟩, if_pos ⟨hr, by omega, by omega⟩,
            List.getElem?_append_left (by omega)]
        · rw [if_neg (c := r' = r ∧ va ≤ x ∧ x < va + l.length) (by omega)]
          refine if_ctx_congr (by omega) (fun hin => ?_) fun _ => rfl
          rw [List.getElem?_append_right (by omega), Nat.sub_sub]
    · rw [if_neg fun h => hr h.1, if_neg fun h => hr h.1, if_neg fun h => hr h.1]

theorem mapped (h : Stored r va l F kern s F' t) {r' : ℕ} (hv : v < VPAGES) :
    F'.pte r' v ≠ 0 ↔ F.pte r' v ≠ 0 := by
  rcases h.entry r' v hv with h₁ | ⟨rfl, -, hcow, n, -, h₁⟩
  · rw [h₁]
  · rw [h₁]
    exact iff_of_true (ownEntry_ne_zero _ _) (ne_zero_of_testBit hcow)

/-- The flags that decide whether a page is the user's. -/
theorem user_eq (h : Stored r va l F kern s F' t) {r' i : ℕ} (hv : v < VPAGES) (hi : i < 10)
    (hi2 : i ≠ 2) (hi8 : i ≠ 8) : (F'.pte r' v).testBit i = (F.pte r' v).testBit i := by
  rcases h.entry r' v hv with h₁ | ⟨rfl, -, -, n, -, h₁⟩
  · rw [h₁]
  · rw [h₁, testBit_ownEntry hi]
    simp [hi2, hi8]

/-- The address spaces keep their shape. -/
theorem space (h : Stored r va l F kern s F' t) {r' : ℕ} (hsp : Space F r' k tf) :
    Space F' r' k tf := by
  have hU := UPAGES_eq
  have hV := VPAGES_eq
  have hhigh : ∀ v, UPAGES ≤ v → v < VPAGES → F'.pte r' v = F.pte r' v := by
    intro v hv hv'
    exact (h.entry r' v hv').resolve_right fun hbad => by omega
  refine ⟨h.roots.symm ▸ hsp.root, fun v hv => ?_, ?_, ?_⟩
  · rw [h.mapped (by omega), hsp.sized v hv]
  · rw [hhigh _ (by omega) (by omega), hsp.trapframe]
  · rw [hhigh _ (by omega) (by omega), hsp.trampoline]

end Stored

/-- The page that `write_trap` gives the process shows the same bytes. -/
theorem OwnPage.stored (h : Vm F kern s) (hr : r ∈ F.roots) (hv : v < UPAGES)
    (hcow : (F.pte r v).testBit 8 = true) (ho : OwnPage r v n F kern s F' t) (va : ℕ) :
    Stored r va [] F kern s F' t := by
  have hUV := UPAGES_le
  have hne : F.pte r v ≠ 0 := ne_zero_of_testBit hcow
  have hown : F'.pte r v ≠ 0 := by
    rw [ho.pte]
    exact ownEntry_ne_zero _ _
  refine ⟨ho.vm, ho.roots, ho.node, fun r' v' hv' => ?_, fun x hx => ?_, ho.mem,
    fun r' hr' x hx => ?_⟩
  · by_cases heq : (r', v') = (r, v)
    · obtain ⟨rfl, rfl⟩ := Prod.mk.inj heq
      exact .inr ⟨rfl, hv, hcow, n, ho.lt, ho.pte⟩
    · exact .inl (ho.other r' v' hv' heq)
  · have hntab : ¬F.Tab (x / PGSIZE) := fun htab => hx (h.excl _ htab)
    have hpos : ∀ {G : Forest ℕ}, owners G kern (x / PGSIZE) ≠ 0 := fun h0 =>
      hx (owners_eq_zero.1 h0).2.1
    exact ho.kept _ hntab hpos hpos x rfl
  · have hxv := lt_UPAGES hx
    rw [if_neg fun h => by simp at h; omega]
    by_cases heq : (r', x / PGSIZE) = (r, v)
    · obtain ⟨rfl, rfl⟩ := Prod.mk.inj heq
      rw [h.view_mapped hr hv hne, ho.vm.view_mapped (ho.roots.symm ▸ hr) hv hown, ho.pte,
        frame_ownEntry ho.lt, ho.copied _ (Nat.mod_lt _ PGSIZE_pos)]
    · exact h.view_kept ho.vm hr' (ho.roots.symm ▸ hr') hxv (ho.other _ _ (by omega) heq) ho.kept

/-- A store to a page that is not copy-on-write. -/
theorem Vm.stored_page (h : Vm F kern s) (hr : r ∈ F.roots) (hv : v < UPAGES)
    (hne : F.pte r v ≠ 0) (hcow : (F.pte r v).testBit 8 = false) (hk : k + l.length ≤ PGSIZE) :
    Stored r (v * PGSIZE + k) l F kern s F
      { s with mem := store s.mem (frame (F.pte r v) * PGSIZE + k) l } := by
  have hl := h.leaf r hr v hv hne
  have hown := h.owners_frame hr hv hne
  have hmem : ∀ x, x / PGSIZE ≠ frame (F.pte r v) →
      store s.mem (frame (F.pte r v) * PGSIZE + k) l x = s.mem x := fun x hx => store_of_ne hk hx
  have hvm : Vm F kern { s with mem := store s.mem (frame (F.pte r v) * PGSIZE + k) l } :=
    h.write hl.not_tab hmem
  refine ⟨hvm, rfl, rfl, fun _ _ _ => .inl rfl, fun x hx => hmem x ?_, fun x hx => hmem x ?_,
    fun r' hr' x hx => ?_⟩
  · intro heq
    exact hx (heq ▸ hl.not_kern)
  · intro heq
    exact hx (heq ▸ h.managed hown)
  · have hxv := lt_UPAGES hx
    have hdiv := Nat.div_add_mod' x PGSIZE
    have hmod := Nat.mod_lt x PGSIZE_pos
    by_cases h0 : F.pte r' (x / PGSIZE) = 0
    · have hout : ¬(r' = r ∧ v * PGSIZE + k ≤ x ∧ x < v * PGSIZE + k + l.length) := by
        rintro ⟨rfl, h₁, h₂⟩
        have : x / PGSIZE = v := mem_page_iff.1 ⟨by omega, by omega⟩
        exact hne (this ▸ h0)
      rw [if_neg hout, hvm.view_unmapped hr' h0, h.view_unmapped hr' h0]
    rw [hvm.view_mapped hr' hxv h0, h.view_mapped hr' hxv h0]
    dsimp only
    by_cases heq : (r', x / PGSIZE) = (r, v)
    · obtain ⟨rfl, rfl⟩ := Prod.mk.inj heq
      by_cases hin : x / PGSIZE * PGSIZE + k ≤ x ∧ x < x / PGSIZE * PGSIZE + k + l.length
      · rw [if_pos ⟨rfl, hin⟩]
        have hj : x - (x / PGSIZE * PGSIZE + k) < l.length := by omega
        have haddr : frame (F.pte r' (x / PGSIZE)) * PGSIZE + x % PGSIZE =
            frame (F.pte r' (x / PGSIZE)) * PGSIZE + k + (x - (x / PGSIZE * PGSIZE + k)) := by
          omega
        rw [haddr, store_add hj, List.getElem?_eq_getElem hj]
      · rw [if_neg fun h => hin h.2, store_of_outside]
        omega
    · -- no other entry shows the page
      have hf : frame (F.pte r' (x / PGSIZE)) ≠ frame (F.pte r v) := fun hf =>
        heq (Forest.eq_of_maps_le_one hr hv hne hr' hxv h0 hf (hl.once hcow).le)
      have hout : ¬(r' = r ∧ v * PGSIZE + k ≤ x ∧ x < v * PGSIZE + k + l.length) := by
        rintro ⟨rfl, h₁, h₂⟩
        have hxv : x / PGSIZE = v := mem_page_iff.1 ⟨by omega, by omega⟩
        exact heq (Prod.ext rfl hxv)
      rw [if_neg hout, hmem]
      rwa [page_offset]

/-! ## `copyout` -/

/-- The pages that `copyout` writes to. -/
def Accepts (F : Forest ℕ) (r v : ℕ) : Prop :=
  0 < v ∧ v < VPAGES ∧ has (F.pte r v) PTE_V = true ∧ has (F.pte r v) PTE_U = true

theorem Tables.userPage_eq {refs : ℕ → ℕ} (h : Tables F refs s) (hr : r ∈ F.roots)
    (hva : va < MAXVA) : userPage s.mem (r * PGSIZE) va =
      if has (F.pte r (va / PGSIZE)) PTE_V = true ∧ has (F.pte r (va / PGSIZE)) PTE_U = true then
        frame (F.pte r (va / PGSIZE)) * PGSIZE else 0 := by
  unfold userPage
  rw [if_neg (not_le.2 hva), h.pteAddr_eq hr]
  cases hp : F.node (r, tablePath (va / PGSIZE)) with
  | none =>
    rw [h.pte_eq_zero hp]
    rfl
  | some p =>
    rw [Option.map_some]
    dsimp only
    rw [h.entry_eq hp, PTE2PA_eq]

theorem Stored.of_denied (h : Vm F kern s) (hd : Denied s t) : Stored r va [] F kern s F t where
  vm := h.of_denied hd
  roots := rfl
  node := rfl
  entry _ _ _ := .inl rfl
  kern _ _ := by rw [hd.mem]
  outside _ _ := by rw [hd.mem]
  view _ _ _ _ := by
    rw [if_neg fun h => by simp at h; omega, hd.mem]

theorem Stored.accepts (h : Stored r va l F kern s F' t) : Accepts F' r v ↔ Accepts F r v := by
  unfold Accepts
  refine and_congr_right fun _ => and_congr_right fun hv => ?_
  rw [has_V, has_V, has_U, has_U, h.user_eq hv (by norm_num) (by norm_num) (by norm_num),
    h.user_eq hv (by norm_num) (by norm_num) (by norm_num)]

/-- What `copyout` returns : it stored the bytes before the first page it does not accept. -/
def CopyoutPost (r dstva : ℕ) (src : List Byte) (F : Forest ℕ) (kern : ℕ → ℕ) (s : Mach) (ret : ℤ)
    (t : Mach) : Prop :=
  ∃ j F', Stored r dstva (src.take j) F kern s F' t ∧
    (∀ i < j, Accepts F r ((dstva + i) / PGSIZE)) ∧
    ((ret = 0 ∧ j = src.length ∧ t.denied = s.denied) ∨
      (ret = -1 ∧ j < src.length ∧
        (t.denied = true ∨ ¬Accepts F r ((dstva + j) / PGSIZE) ∧ t.denied = s.denied)))

/-- Nothing was stored. -/
theorem CopyoutPost.fail {dstva : ℕ} {src : List Byte} (h : Stored r dstva [] F kern s F' t)
    (hsrc : src ≠ []) (hbad : t.denied = true ∨ ¬Accepts F r (dstva / PGSIZE) ∧
      t.denied = s.denied) :
    CopyoutPost r dstva src F kern s (-1) t :=
  ⟨0, F', by rwa [List.take_zero], nofun, .inr ⟨rfl, List.length_pos_iff.2 hsrc, hbad⟩⟩

/-- The first bytes, and what was stored after them. -/
theorem CopyoutPost.append {dstva : ℕ} {ret : ℤ} {src : List Byte} (hn : n ≤ src.length)
    (h : Stored r dstva (src.take n) F kern s F' t) (hd : t.denied = s.denied)
    (hacc : ∀ i < n, Accepts F r ((dstva + i) / PGSIZE))
    (hrest : CopyoutPost r (dstva + n) (src.drop n) F' kern t ret u) :
    CopyoutPost r dstva src F kern s ret u := by
  obtain ⟨j, F'', hst, hacc', hres⟩ := hrest
  have hlen : (src.take n).length = n := by
    rw [List.length_take, Nat.min_eq_left hn]
  have htake : src.take (n + j) = src.take n ++ (src.drop n).take j := List.take_add
  refine ⟨n + j, F'', ?_, fun i hi => ?_, ?_⟩
  · rw [htake]
    exact h.trans (by rwa [hlen])
  · by_cases hin : i < n
    · exact hacc i hin
    · have := hacc' (i - n) (by omega)
      rw [h.accepts, Nat.add_assoc, Nat.add_sub_cancel' (not_lt.1 hin)] at this
      exact this
  · rw [List.length_drop, h.accepts, hd] at hres
    rw [← Nat.add_assoc]
    rcases hres with ⟨hret, hj, hden⟩ | ⟨hret, hj, hden⟩
    · exact .inl ⟨hret, by omega, hden⟩
    · exact .inr ⟨hret, by omega, hden⟩

theorem copyoutFrom_spec {turns dstva : ℕ} {src : List Byte} (h : Vm F kern s)
    (hsp : Space F r k tf) (hturns : src.length ≤ turns) :
    wp E (copyoutFrom (r * PGSIZE) turns dstva src) (CopyoutPost r dstva src F kern s) s := by
  -- Induction on the turns that are left.
  induction turns generalizing F s dstva src with
  | zero =>
    obtain rfl : src = [] := List.length_eq_zero_iff.1 (by omega)
    exact ⟨0, F, .refl h, nofun, .inl ⟨rfl, rfl, rfl⟩⟩
  | succ turns ih =>
    unfold copyoutFrom
    rw [wp_ite]
    constructor
    · rintro rfl
      exact ⟨0, F, .refl h, nofun, .inl ⟨rfl, rfl, rfl⟩⟩
    intro hsrc
    have hpage : PGROUNDDOWN dstva / PGSIZE = dstva / PGSIZE := mul_PGSIZE_div _
    have hle : PGROUNDDOWN dstva ≤ dstva := Nat.div_mul_le_self dstva PGSIZE
    have hoff : dstva - PGROUNDDOWN dstva = dstva % PGSIZE := by
      have := Nat.div_add_mod' dstva PGSIZE
      unfold PGROUNDDOWN
      omega
    have hmod := Nat.mod_lt dstva PGSIZE_pos
    -- the rest of the turn, once the page is not copy-on-write
    have hrest : ∀ {F₁ : Forest ℕ} {s₁ : Mach}, Stored r dstva [] F kern s F₁ s₁ →
        s₁.denied = s.denied → dstva < MAXVA → 0 < PGROUNDDOWN dstva →
        (F₁.pte r (dstva / PGSIZE)).testBit 8 = false →
        wp E (do
          let pa0 ← walkaddr (r * PGSIZE) (PGROUNDDOWN dstva)
          if pa0 = 0 then return -1
          else
            let n := Min.min (PGSIZE - (dstva - PGROUNDDOWN dstva)) src.length
            memmove (pa0 + (dstva - PGROUNDDOWN dstva)) (src.take n)
            copyoutFrom (r * PGSIZE) turns ((PGROUNDDOWN dstva + PGSIZE) % 2 ^ 64) (src.drop n))
          (CopyoutPost r dstva src F kern s) s₁ := by
      intro F₁ s₁ hst hden hva hpos hcow
      have hsp₁ := hst.space hsp
      have hv : dstva / PGSIZE < VPAGES := page_lt_iff.2 hva
      rw [wp_bind, wp_walkaddr, hst.vm.tables.userPage_eq hsp₁.root (by omega), hpage, wp_ite]
      by_cases hVU : has (F₁.pte r (dstva / PGSIZE)) PTE_V = true ∧
          has (F₁.pte r (dstva / PGSIZE)) PTE_U = true
      · have hvu : dstva / PGSIZE < UPAGES :=
          hsp₁.user_of_bit hv (.inl rfl) (by rw [← has_U]; exact hVU.2)
        have hne : F₁.pte r (dstva / PGSIZE) ≠ 0 :=
          ne_zero_of_testBit (k := 0) (by rw [← has_V]; exact hVU.1)
        have hman := hst.vm.managed (hst.vm.owners_frame hsp₁.root hvu hne)
        have hpa : frame (F₁.pte r (dstva / PGSIZE)) * PGSIZE ≠ 0 :=
          (Nat.mul_pos hman.pos PGSIZE_pos).ne'
        rw [if_pos hVU]
        refine ⟨fun h0 => absurd h0 hpa, fun _ => ?_⟩
        dsimp only
        rw [wp_bind, wp_memmove, hoff]
        generalize hn : Min.min (PGSIZE - dstva % PGSIZE) src.length = m
        have hm : m ≤ src.length ∧ m + dstva % PGSIZE ≤ PGSIZE ∧ 0 < m := by
          have := List.length_pos_iff.2 hsrc
          omega
        have hlen : (src.take m).length = m := by
          rw [List.length_take, Nat.min_eq_left hm.1]
        have hwrote := hst.vm.stored_page (k := dstva % PGSIZE) (l := src.take m) hsp₁.root hvu hne
          hcow (by omega)
        rw [Nat.div_add_mod' dstva PGSIZE] at hwrote
        have hboth : Stored r dstva (src.take m) F kern s F₁ _ := hst.trans hwrote
        have hacc : ∀ i < m, Accepts F r ((dstva + i) / PGSIZE) := by
          intro i hi
          have hdiv : (dstva + i) / PGSIZE = dstva / PGSIZE := by
            refine mem_page_iff.1 ?_
            have := Nat.div_add_mod' dstva PGSIZE
            omega
          rw [hdiv, ← hst.accepts]
          refine ⟨Nat.pos_of_ne_zero fun h0 => ?_, hv, hVU⟩
          rw [PGROUNDDOWN, h0, Nat.zero_mul] at hpos
          exact lt_irrefl 0 hpos
        refine wp_mono (ih hboth.vm (hboth.space hsp) (by rw [List.length_drop]; omega))
          fun ret t ht => .append hm.1 hboth hden hacc ?_
        by_cases hlast : src.drop m = []
        · -- nothing is left
          rw [hlast] at ht ⊢
          obtain ⟨j, F', hst', hacc', hres⟩ := ht
          obtain ⟨hret, hj, hd⟩ | ⟨-, hj, -⟩ := hres
          · refine ⟨0, F', ?_, nofun, .inl ⟨hret, rfl, hd⟩⟩
            rw [List.take_nil] at hst' ⊢
            refine ⟨hst'.vm, hst'.roots, hst'.node, hst'.entry, hst'.kern, hst'.outside,
              fun r' hr' x hx => ?_⟩
            rw [hst'.view r' hr' x hx, if_neg fun h => by simp at h; omega,
              if_neg fun h => by simp at h; omega]
          · exact absurd hj (Nat.not_lt_zero _)
        · have hnext : (PGROUNDDOWN dstva + PGSIZE) % 2 ^ 64 = dstva + m := by
            have hlt : m < src.length := by
              by_contra hge
              exact hlast (List.drop_eq_nil_of_le (not_lt.1 hge))
            have hm' : m = PGSIZE - dstva % PGSIZE := by omega
            have hP : PGSIZE = 4096 := rfl
            have hM : MAXVA = 2 ^ 38 := rfl
            rw [Nat.mod_eq_of_lt (by omega)]
            omega
          rwa [hnext] at ht
      · rw [if_neg hVU]
        refine ⟨fun _ => .fail hst hsrc (.inr ⟨fun hacc => hVU ?_, hden⟩), fun h0 => absurd rfl h0⟩
        exact (hst.accepts.2 hacc).2.2
    refine wp_seq (h.writeTrap_spec hsp) fun ret t ht => ?_
    have hva : PGROUNDDOWN dstva < MAXVA → dstva < MAXVA := by
      rw [← page_lt_iff, hpage, page_lt_iff]
      exact id
    cases ht with
    | invalid hbad =>
      rw [if_pos (by norm_num)]
      refine .fail (.refl h) hsrc (.inr ⟨fun hacc => ?_, rfl⟩)
      rcases hbad with hbad | hbad
      · have := page_lt_iff.1 hacc.2.1
        omega
      · have := (Nat.mul_eq_zero.1 hbad).resolve_right PGSIZE_pos.ne'
        have := hacc.1
        omega
    | absent hlt hpos hnone =>
      rw [if_pos (by norm_num)]
      refine .fail (.refl h) hsrc (.inr ⟨fun hacc => ?_, rfl⟩)
      rw [hpage] at hnone
      have := hacc.2.2.1
      rw [h.tables.pte_eq_zero hnone] at this
      exact absurd this (by decide)
    | direct hlt hpos hnode hcow =>
      rw [if_neg (by norm_num)]
      rw [hpage] at hcow
      exact hrest (.refl h) rfl (hva hlt) hpos hcow
    | denied hlt hpos hcow hd =>
      rw [if_pos (by norm_num)]
      exact .fail (.of_denied h hd) hsrc (.inl hd.denied)
    | @broken hlt hpos _ n hcow hb =>
      rw [if_neg (by norm_num)]
      rw [hpage] at hcow hb
      have hvu := hsp.user_of_bit (page_lt_iff.2 (hva hlt)) (.inr rfl) hcow
      have ho := h.broken hsp.root hvu hcow hb
      refine hrest (ho.stored h hsp.root hvu hcow dstva) ho.denied (hva hlt) hpos ?_
      rw [ho.pte, testBit_ownEntry (by norm_num)]
      simp

end

end CowPbs
