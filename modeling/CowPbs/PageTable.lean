import Mathlib
import CowPbs.Lib.Radix
import CowPbs.Kalloc

/-!
# Page tables

The first half of vm.c : `walk`, `walkaddr`, `mappages`, `uvmunmap` and `uvmcreate`. A
pointer to an entry is its address, and the null pointer `none`.

A page table is a radix tree in memory (`sv39`), with the page of its root table for its
name, and `Forest.pte F r v` is the entry of virtual page `v` in the table `r`. The specs
say what the functions do to the forest of all page tables : `walk` finds the entry, and
may add tables to the tree of `r` on the way (`Grown`); what `mappages` and `uvmunmap`
store are entries (`Forest.setPte`).
-/

set_option linter.unusedSectionVars false

open Function Prog Bytes Radix

namespace CowPbs

/-! ## The functions -/

section

variable [Layout]

/-- One turn of the loop of `walk` : the table of the next level. -/
def walkLevel (alloc : Bool) (level va pagetable : ℕ) : K (Option ℕ) := do
  let pte := pagetable + 8 * PX level va
  let e ← ld pte
  if has e PTE_V then
    return some (PTE2PA e)
  else if !alloc then
    return none
  else
    match ← kalloc with
    | none => return none
    | some pagetable =>
      memset pagetable 0
      sd pte (PA2PTE pagetable ||| PTE_V)
      return some pagetable

/-- The loop of `walk`, from a level down. -/
def walkFrom (alloc : Bool) (va : ℕ) : ℕ → ℕ → K (Option ℕ)
  | 0, pagetable => return some (pagetable + 8 * PX 0 va)
  | level + 1, pagetable => do
    match ← walkLevel alloc (level + 1) va pagetable with
    | none => return none
    | some pagetable => walkFrom alloc va level pagetable

/-- `walk`. -/
def walk (pagetable va : ℕ) (alloc : Bool) : K (Option ℕ) := do
  panicIf (MAXVA ≤ va) "walk"
  walkFrom alloc va 2 pagetable

/-- `walkaddr`, with 0 where there is no page. -/
def walkaddr (pagetable va : ℕ) : K ℕ := do
  if MAXVA ≤ va then return 0
  else
    match ← walk pagetable va false with
    | none => return 0
    | some pte =>
      let e ← ld pte
      if !has e PTE_V then return 0
      else if !has e PTE_U then return 0
      else return PTE2PA e

/-- `mappages`. -/
def mappages (pagetable va size pa perm : ℕ) : K ℤ := do
  panicIf (size = 0) "mappages: size"
  let a := PGROUNDDOWN va
  let last := PGROUNDDOWN ((va + size + (2 ^ 64 - 1)) % 2 ^ 64)
  let r ← forReturn (fun i => do
    match ← walk pagetable ((a + i * PGSIZE) % 2 ^ 64) true with
    | none => return some (-1)
    | some pte =>
      let e ← ld pte
      panicIf (has e PTE_V) "mappages: remap"
      sd pte (PA2PTE ((pa + i * PGSIZE) % 2 ^ 64) ||| perm ||| PTE_V)
      return none) ((last + 2 ^ 64 - a) % 2 ^ 64 / PGSIZE + 1) 0
  return r.getD 0

/-- `uvmunmap`. -/
def uvmunmap (pagetable va npages : ℕ) (doFree : Bool) : K Unit := do
  panicIf (va % PGSIZE ≠ 0) "uvmunmap: not aligned"
  forRange (fun i => do
    match ← walk pagetable (va + i * PGSIZE) false with
    | none => throw "uvmunmap: walk"
    | some pte =>
      let e ← ld pte
      panicIf (!has e PTE_V) "uvmunmap: not mapped"
      panicIf (PTE_FLAGS e = PTE_V) "uvmunmap: not a leaf"
      (if doFree then kfree (PTE2PA e) else pure ())
      sd pte 0) (((va + npages * PGSIZE) % 2 ^ 64 - va + (PGSIZE - 1)) / PGSIZE) 0

/-- `uvmcreate`. -/
def uvmcreate : K (Option ℕ) := do
  match ← kalloc with
  | none => return none
  | some pagetable =>
    memset pagetable 0
    return some pagetable

end

/-! ## The trees -/

/-- Three levels of tables with 512 entries. -/
def sv39 : Shape ℕ where
  arity := 512
  depth := 2
  link q := PA2PTE (q * PGSIZE) ||| PTE_V

/-- The indices of a virtual page, that of the last level first. -/
def path (v : ℕ) : List ℕ :=
  [v % 512, v / 512 % 512, v / 512 / 512 % 512]

/-- The place of the last table of a virtual page. -/
def tablePath (v : ℕ) : List ℕ :=
  [v / 512 % 512, v / 512 / 512 % 512]

/-- The number of virtual pages. -/
def VPAGES : ℕ := MAXVA / PGSIZE

theorem VPAGES_eq : VPAGES = 2 ^ 26 := by
  decide

section Indices

variable {v v' va : ℕ}

/-- The split into indices loses nothing of a virtual page. -/
theorem path_inj (hv : v < VPAGES) (hv' : v' < VPAGES) (h : path v = path v') : v = v' := by
  rw [VPAGES_eq] at hv hv'
  simp only [path, List.cons.injEq, and_true] at h
  omega

theorem PX_zero : PX 0 va = va / PGSIZE % 512 := by
  rw [PX_eq]
  rfl

theorem PX_one : PX 1 va = va / PGSIZE / 512 % 512 := by
  rw [PX_eq, Nat.div_div_eq_div_mul]
  rfl

theorem PX_two : PX 2 va = va / PGSIZE / 512 / 512 % 512 := by
  rw [PX_eq, Nat.div_div_eq_div_mul, Nat.div_div_eq_div_mul]
  rfl

theorem page_lt_iff : va / PGSIZE < VPAGES ↔ va < MAXVA := by
  rw [VPAGES, Nat.div_lt_iff_lt_mul PGSIZE_pos,
    Nat.div_mul_cancel (by decide : PGSIZE ∣ MAXVA)]

end Indices

end CowPbs

namespace Radix.Forest

open CowPbs

/-- The entry of virtual page `v` in the page table `r`. -/
def pte (F : Forest ℕ) (r v : ℕ) : ℕ :=
  F.leaf (r, path v)

/-- Another entry for virtual page `v`. -/
def setPte (F : Forest ℕ) (r v e : ℕ) : Forest ℕ :=
  F.setLeaf (r, path v) e

variable {F : Forest ℕ} {r r' v v' e : ℕ}

@[simp] theorem roots_setPte : (F.setPte r v e).roots = F.roots :=
  rfl

@[simp] theorem node_setPte : (F.setPte r v e).node = F.node :=
  rfl

@[simp] theorem tab_setPte {n : ℕ} : (F.setPte r v e).Tab n ↔ F.Tab n :=
  Iff.rfl

theorem pte_setPte_self : (F.setPte r v e).pte r v = e :=
  update_self ..

theorem pte_setPte_of_ne (hv : v < VPAGES) (hv' : v' < VPAGES) (h : (r', v') ≠ (r, v)) :
    (F.setPte r v e).pte r' v' = F.pte r' v' := by
  refine update_of_ne (fun heq => h ?_) ..
  obtain ⟨rfl, hp⟩ := Prod.mk.inj heq
  rw [path_inj hv' hv hp]

end Radix.Forest

namespace CowPbs

/-! ## `walk` without allocation -/

/-- What `walk` finds : the entry is at the index of the last table, if the entries on the
way there are valid. -/
def lookupFrom (m : Mem) (va : ℕ) : ℕ → ℕ → Option ℕ
  | 0, pagetable => some (pagetable + 8 * PX 0 va)
  | level + 1, pagetable =>
    let e := Bytes.get m (pagetable + 8 * PX (level + 1) va) 8
    if has e PTE_V then lookupFrom m va level (PTE2PA e) else none

/-- The address of the entry of `va`. -/
def pteAddr (m : Mem) (pagetable va : ℕ) : Option ℕ :=
  lookupFrom m va 2 pagetable

section

variable {s : Mach} {E : String → Prop} {pagetable va : ℕ}

theorem walkFrom_false (va level pagetable : ℕ) (s : Mach) :
    walkFrom false va level pagetable s = .ok (lookupFrom s.mem va level pagetable, s) := by
  induction level generalizing pagetable with
  | zero => rfl
  | succ level ih =>
    unfold walkFrom lookupFrom
    by_cases hV : has (Bytes.get s.mem (pagetable + 8 * PX (level + 1) va) 8) PTE_V = true
    · have hstep : walkLevel false (level + 1) va pagetable s =
          .ok (some (PTE2PA (Bytes.get s.mem (pagetable + 8 * PX (level + 1) va) 8)), s) := by
        show (if has _ PTE_V = true then _ else _ : K (Option ℕ)) s = _
        rw [if_pos hV]
        rfl
      show (walkLevel false (level + 1) va pagetable s >>= fun x => _) = _
      rw [hstep, if_pos hV]
      exact ih _
    · have hstep : walkLevel false (level + 1) va pagetable s = .ok (none, s) := by
        show (if has _ PTE_V = true then _ else _ : K (Option ℕ)) s = _
        rw [if_neg hV]
        rfl
      show (walkLevel false (level + 1) va pagetable s >>= fun x => _) = _
      rw [hstep, if_neg hV]
      rfl

/-- Without allocation `walk` only reads. -/
theorem walk_false (hva : va < MAXVA) :
    walk pagetable va false s = .ok (pteAddr s.mem pagetable va, s) := by
  unfold walk
  rw [panicIf_false (Nat.not_le.2 hva)]
  exact walkFrom_false va 2 pagetable s

theorem wp_walk_false (hva : va < MAXVA) (Q : Option ℕ → Mach → Prop) :
    wp E (walk pagetable va false) Q s ↔ Q (pteAddr s.mem pagetable va) s := by
  rw [wp, walk_false hva]
  rfl

/-- The page and the flags of `va`, as `walkaddr` wants them. -/
def userPage (m : Mem) (pagetable va : ℕ) : ℕ :=
  if MAXVA ≤ va then 0
  else
    match pteAddr m pagetable va with
    | none => 0
    | some pte =>
      let e := Bytes.get m pte 8
      if has e PTE_V ∧ has e PTE_U then PTE2PA e else 0

theorem walkaddr_eq (pagetable va : ℕ) (s : Mach) :
    walkaddr pagetable va s = .ok (userPage s.mem pagetable va, s) := by
  unfold walkaddr userPage
  by_cases hva : MAXVA ≤ va
  · rw [if_pos hva, if_pos hva]
    rfl
  · rw [if_neg hva, if_neg hva]
    show (walk pagetable va false s >>= fun x => _) = _
    rw [walk_false (Nat.not_le.1 hva)]
    cases hp : pteAddr s.mem pagetable va with
    | none => rfl
    | some pte =>
      show (if (!has (Bytes.get s.mem pte 8) PTE_V) = true then _ else _ : K ℕ) s = _
      dsimp only
      cases hV : has (Bytes.get s.mem pte 8) PTE_V with
      | false => rfl
      | true =>
        cases hU : has (Bytes.get s.mem pte 8) PTE_U with
        | false => rfl
        | true => rfl

theorem wp_walkaddr (Q : ℕ → Mach → Prop) :
    wp E (walkaddr pagetable va) Q s ↔ Q (userPage s.mem pagetable va) s := by
  rw [wp, walkaddr_eq]
  rfl

end

end CowPbs

namespace CowPbs

/-! ## Forests of page tables in memory -/

section

variable [Layout] {F F' F'' : Forest ℕ} {refs refs' refs'' : ℕ → ℕ} {s t u : Mach}
  {E : String → Prop} {r v va : ℕ}

/-- Memory holds the page tables of the forest, in pages that have owners. -/
structure Tables (F : Forest ℕ) (refs : ℕ → ℕ) (s : Mach) : Prop where
  rep : Rep sv39 (entry s.mem) F
  alloc : Alloc refs s
  owned : ∀ n, F.Tab n → refs n ≠ 0
  /-- Virtual addresses have 38 bits, so the upper half of a root table stays empty. -/
  low : ∀ r i, 256 ≤ i → F.node (r, [i]) = none

theorem Tables.lt (h : Tables F refs s) {n : ℕ} (hn : F.Tab n) : n < 2 ^ 44 :=
  (h.alloc.owned n (h.owned n hn)).lt

omit [Layout] in
theorem page_lt {q : ℕ} (hq : q < 2 ^ 44) : q * PGSIZE < 2 ^ 64 := by
  rw [PGSIZE]
  omega

omit [Layout] in
theorem frame_link {q : ℕ} (hq : q < 2 ^ 44) : frame (sv39.link q) = q := by
  show frame (PA2PTE (q * PGSIZE) ||| PTE_V) = q
  rw [frame_PA2PTE (page_lt hq) (by norm_num [PTE_V]), mul_PGSIZE_div]

omit [Layout] in
theorem link_lt {q : ℕ} (hq : q < 2 ^ 44) : sv39.link q < 2 ^ 64 :=
  Nat.or_lt_two_pow ((PA2PTE_lt (page_lt hq)).trans (by norm_num)) (by norm_num [PTE_V])

omit [Layout] in
theorem has_link (q : ℕ) : has (sv39.link q) PTE_V = true := by
  rw [has_V]
  show (PA2PTE (q * PGSIZE) ||| PTE_V).testBit 0 = true
  rw [testBit_PA2PTE _ _ (by norm_num)]
  rfl

omit [Layout] in
theorem PTE2PA_link {q : ℕ} (hq : q < 2 ^ 44) : PTE2PA (sv39.link q) = q * PGSIZE := by
  rw [PTE2PA_eq, frame_link hq]

/-- The next table on the way down. -/
theorem Tables.lookup_step (h : Tables F refs s) {p level : ℕ} {π : List ℕ}
    (hp : F.node (r, π) = some p) (hπ : π.length < 2) :
    lookupFrom s.mem va (level + 1) (p * PGSIZE) =
      match F.node (r, PX (level + 1) va :: π) with
      | some q => lookupFrom s.mem va level (q * PGSIZE)
      | none => none := by
  have hinner := h.rep.inner r π p (PX (level + 1) va) hp hπ (PX_lt _ _)
  show (if has (entry s.mem p (PX (level + 1) va)) PTE_V = true then
    lookupFrom s.mem va level (PTE2PA (entry s.mem p (PX (level + 1) va))) else none) = _
  rw [hinner]
  cases hq : F.node (r, PX (level + 1) va :: π) with
  | none => rfl
  | some q =>
    rw [Option.elim_some, if_pos (has_link q), PTE2PA_link (h.lt ⟨_, hq⟩)]

/-- Where the entry of a virtual page is. -/
theorem Tables.pteAddr_eq (h : Tables F refs s) (hr : r ∈ F.roots) :
    pteAddr s.mem (r * PGSIZE) va = (F.node (r, tablePath (va / PGSIZE))).map fun p =>
      p * PGSIZE + 8 * (va / PGSIZE % 512) := by
  unfold pteAddr
  rw [h.lookup_step (h.rep.root r hr) (by norm_num), PX_two]
  cases h2 : F.node (r, [va / PGSIZE / 512 / 512 % 512]) with
  | none =>
    have h1 : F.node (r, tablePath (va / PGSIZE)) = none := h.rep.up r _ _ h2
    rw [h1]
    rfl
  | some p =>
    dsimp only
    rw [h.lookup_step h2 (by norm_num), PX_one]
    show _ = Option.map _ (F.node (r, [va / PGSIZE / 512 % 512, va / PGSIZE / 512 / 512 % 512]))
    cases h1 : F.node (r, [va / PGSIZE / 512 % 512, va / PGSIZE / 512 / 512 % 512]) with
    | none => rfl
    | some q =>
      dsimp only
      rw [lookupFrom, PX_zero, Option.map_some]

/-- The entry that is there. -/
theorem Tables.entry_eq (h : Tables F refs s) {p : ℕ} (hp : F.node (r, tablePath v) = some p) :
    Bytes.get s.mem (p * PGSIZE + 8 * (v % 512)) 8 = F.pte r v :=
  h.rep.bottom r (tablePath v) p (v % 512) hp rfl (Nat.mod_lt _ (by norm_num))

/-- Without a table there is no entry. -/
theorem Tables.pte_eq_zero (h : Tables F refs s) (hp : F.node (r, tablePath v) = none) :
    F.pte r v = 0 :=
  h.rep.empty r (tablePath v) (v % 512) hp rfl (Nat.mod_lt _ (by norm_num))

theorem Tables.pte_lt (h : Tables F refs s) : F.pte r v < 2 ^ 64 := by
  cases hp : F.node (r, tablePath v) with
  | none =>
    rw [h.pte_eq_zero hp]
    norm_num
  | some p =>
    rw [← h.entry_eq hp]
    exact get_lt

/-- The tree of `r` has changed : tables were added, on pages that were free, and what is in
its leaves may be another. -/
structure Grown (r : ℕ) (F : Forest ℕ) (refs : ℕ → ℕ) (s : Mach) (F' : Forest ℕ) (refs' : ℕ → ℕ)
    (t : Mach) : Prop where
  tables : Tables F' refs' t
  roots : F'.roots = F.roots
  node : ∀ x p, F.node x = some p → F'.node x = some p
  other : ∀ r' π, r' ≠ r → F'.node (r', π) = F.node (r', π)
  leaf : ∀ r' π, r' ≠ r → F'.leaf (r', π) = F.leaf (r', π)
  fresh : ∀ n, F'.Tab n → ¬F.Tab n → refs n = 0 ∧ refs' n = 1
  refs_eq : ∀ n, (F'.Tab n → F.Tab n) → refs' n = refs n
  mem : ∀ x, ¬F'.Tab (x / PGSIZE) → t.mem x = s.mem x
  length : t.freelist.length ≤ s.freelist.length

namespace Grown

theorem refl (h : Tables F refs s) : Grown r F refs s F refs s :=
  ⟨h, rfl, fun _ _ h => h, fun _ _ _ => rfl, fun _ _ _ => rfl, fun _ h h' => absurd h h',
    fun _ _ => rfl, fun _ _ => rfl, le_rfl⟩

theorem tab (h : Grown r F refs s F' refs' t) {n : ℕ} (hn : F.Tab n) : F'.Tab n := by
  obtain ⟨x, hx⟩ := hn
  exact ⟨x, h.node x n hx⟩

theorem pte (h : Grown r F refs s F' refs' t) {r' : ℕ} (hr : r' ≠ r) (v : ℕ) :
    F'.pte r' v = F.pte r' v :=
  h.leaf r' _ hr

theorem trans (h : Grown r F refs s F' refs' t) (h' : Grown r F' refs' t F'' refs'' u) :
    Grown r F refs s F'' refs'' u where
  tables := h'.tables
  roots := h'.roots.trans h.roots
  node x p hx := h'.node x p (h.node x p hx)
  other r' π hr := (h'.other r' π hr).trans (h.other r' π hr)
  leaf r' π hr := (h'.leaf r' π hr).trans (h.leaf r' π hr)
  fresh n hn hn' := by
    by_cases hm : F'.Tab n
    · obtain ⟨h0, h1⟩ := h.fresh n hm hn'
      exact ⟨h0, (h'.refs_eq n fun _ => hm).trans h1⟩
    · obtain ⟨h0, h1⟩ := h'.fresh n hn hm
      exact ⟨(h.refs_eq n fun h => absurd h hm).symm.trans h0, h1⟩
  refs_eq n hn := by
    by_cases hm : F'.Tab n
    · rw [h'.refs_eq n fun _ => hm, h.refs_eq n fun _ => hn (h'.tab hm)]
    · rw [h'.refs_eq n fun h₂ => h.tab (hn h₂), h.refs_eq n fun h₁ => absurd h₁ hm]
  mem x hx := (h'.mem x hx).trans (h.mem x fun hx' => hx (h'.tab hx'))
  length := h'.length.trans h.length

end Grown

end

end CowPbs

namespace CowPbs

section

variable [Layout] {F F' : Forest ℕ} {refs refs' : ℕ → ℕ} {s t : Mach} {E : String → Prop}
  {r v va : ℕ}

/-- A new table below another, on a page from `kalloc`. -/
theorem Tables.addNode (h : Tables F refs s) {p n i : ℕ} {π : List ℕ} (hp : F.node (r, π) = some p)
    (hπ : π.length < 2) (hi : i < 512) (hlow : π = [] → i < 256)
    (hnone : F.node (r, i :: π) = none) (hk : Kalloced refs s t n) :
    Grown r F refs s (F.addNode (r, i :: π) n) (update refs n 1)
      { t with mem := put (fill t.mem (n * PGSIZE) 0) (p * PGSIZE + 8 * i) 8 (sv39.link n) } := by
  have hn : ¬F.Tab n := fun hn => h.owned n hn hk.free
  have hpn : p ≠ n := by
    rintro rfl
    exact hn ⟨_, hp⟩
  have hlink : sv39.link n < 2 ^ 64 := link_lt hk.managed.lt
  -- outside the two pages memory is as it was
  have hmem : ∀ x, x / PGSIZE ≠ n → x / PGSIZE ≠ p →
      put (fill t.mem (n * PGSIZE) 0) (p * PGSIZE + 8 * i) 8 (sv39.link n) x = s.mem x := by
    intro x hxn hxp
    rw [put_of_ne hi hxp, fill_of_ne hxn, hk.mem x hxn]
  have hother : ∀ m j, (m, j) ≠ (p, i) → F.Tab m → j < 512 →
      entry (put (fill t.mem (n * PGSIZE) 0) (p * PGSIZE + 8 * i) 8 (sv39.link n)) m j =
        entry s.mem m j := by
    intro m j hmj hm hj
    rw [entry_put_of_ne hi hj hmj]
    refine entry_congr hj fun x hx => ?_
    have hxn : x / PGSIZE ≠ n := by
      rw [hx]
      rintro rfl
      exact hn hm
    rw [fill_of_ne hxn, hk.mem x hxn]
  have hnode : ∀ x, x ≠ (r, i :: π) → (F.addNode (r, i :: π) n).node x = F.node x :=
    fun x hx => update_of_ne hx ..
  have htab : ∀ m, (F.addNode (r, i :: π) n).Tab m → m = n ∨ F.Tab m := by
    rintro m ⟨x, hx⟩
    by_cases hxi : x = (r, i :: π)
    · rw [hxi] at hx
      exact .inl (Option.some.inj (hx.symm.trans (update_self ..)))
    · exact .inr ⟨x, (hnode x hxi).symm.trans hx⟩
  refine ⟨⟨?_, hk.alloc.congr (fun _ => rfl) rfl rfl, fun m hm => ?_, fun r' j hj => ?_⟩, rfl,
    fun x q hx => ?_,
    fun r' π' hr => ?_, fun _ _ _ => rfl, fun m hm hm' => ?_, fun m hm => ?_, fun x hx => ?_, ?_⟩
  · refine h.rep.addNode hp hπ hi hnone hn (entry_put hlink) (fun j hj => ?_) hother
    rw [entry_put_of_ne hi hj fun heq => hpn (Prod.mk.inj heq).1.symm]
    exact entry_fill_zero hj
  · by_cases hmn : m = n
    · rw [hmn, update_self]
      norm_num
    · rw [update_of_ne hmn]
      exact h.owned m ((htab m hm).resolve_left hmn)
  · rw [hnode]
    · exact h.low r' j hj
    · rintro heq
      cases heq
      exact absurd (hlow rfl) (not_lt.2 hj)
  · rw [hnode x]
    · exact hx
    · rintro rfl
      rw [hnone] at hx
      cases hx
  · exact hnode _ fun heq => hr (Prod.mk.inj heq).1
  · obtain rfl := (htab m hm).resolve_right hm'
    exact ⟨hk.free, update_self ..⟩
  · refine update_of_ne ?_ ..
    rintro rfl
    exact hn (hm ⟨_, update_self ..⟩)
  · refine hmem x ?_ ?_
    · rintro rfl
      exact hx ⟨_, update_self ..⟩
    · rintro rfl
      refine hx ⟨(r, π), ?_⟩
      rw [hnode]
      · exact hp
      · intro heq
        have := congrArg (fun x => x.2.length) heq
        simp at this
  · rw [hk.freelist]
    exact Nat.le_succ _

/-- What one level of `walk` does, from the table at a place of the tree. -/
theorem walkLevel_spec (h : Tables F refs s) {p level : ℕ} {π : List ℕ}
    (hp : F.node (r, π) = some p) (hπ : π.length < 2)
    (hlow : π = [] → PX (level + 1) va < 256) :
    wp E (walkLevel true (level + 1) va (p * PGSIZE)) (fun o t => ∃ F' refs',
      Grown r F refs s F' refs' t ∧ F'.leaf = F.leaf ∧ match o with
        | none => t.denied = true ∧ s.freelist = []
        | some pagetable => t.denied = s.denied ∧ ∃ q, pagetable = q * PGSIZE ∧
          F'.node (r, PX (level + 1) va :: π) = some q) s := by
  have hi := PX_lt (level + 1) va
  have hinner := h.rep.inner r π p _ hp hπ hi
  have hentry : Bytes.get s.mem (p * PGSIZE + 8 * PX (level + 1) va) 8 =
      entry s.mem p (PX (level + 1) va) := rfl
  unfold walkLevel
  rw [wp_bind, wp_ld, hentry, hinner]
  cases hq : F.node (r, PX (level + 1) va :: π) with
  | some q =>
    rw [Option.elim_some, if_pos (has_link q), PTE2PA_link (h.lt ⟨_, hq⟩)]
    exact ⟨F, refs, .refl h, rfl, rfl, q, rfl, hq⟩
  | none =>
    rw [Option.elim_none, if_neg (by decide)]
    refine wp_seq (kalloc_spec h.alloc) fun o u hu => ?_
    cases o with
    | none =>
      have hT : Tables F refs u := ⟨hu.mem ▸ h.rep, h.alloc.congr (fun _ => rfl) hu.freelist hu.ref,
        h.owned, h.low⟩
      refine ⟨F, refs, ⟨hT, rfl, fun _ _ h => h, fun _ _ _ => rfl, fun _ _ _ => rfl,
        fun _ h h' => absurd h h', fun _ _ => rfl, fun _ _ => by rw [hu.mem], hu.freelist ▸ le_rfl⟩,
        rfl, hu.denied, hu.empty⟩
    | some pa =>
      obtain ⟨n, rfl, hk⟩ := hu
      rw [wp_bind, wp_memset, wp_bind, wp_sd, wp_pure]
      exact ⟨_, _, h.addNode hp hπ hi hlow hq hk, rfl, hk.denied, n, rfl, update_self ..⟩

/-- What `walk` returned with allocation : the address of the entry, if there was memory. -/
def WalkPost (r v : ℕ) (F : Forest ℕ) (refs : ℕ → ℕ) (s : Mach) (o : Option ℕ) (t : Mach) : Prop :=
  ∃ F' refs', Grown r F refs s F' refs' t ∧ F'.leaf = F.leaf ∧
    match o with
    | none => t.denied = true
    | some pte => t.denied = s.denied ∧ ∃ p, F'.node (r, tablePath v) = some p ∧
      pte = p * PGSIZE + 8 * (v % 512)

/-- `walk` with allocation adds the tables that are missing. -/
theorem walk_spec (h : Tables F refs s) (hr : r ∈ F.roots) (hva : va < MAXVA) :
    wp E (walk (r * PGSIZE) va true) (WalkPost r (va / PGSIZE) F refs s) s := by
  unfold walk
  rw [panicIf_false (Nat.not_le.2 hva), pure_bind, walkFrom]
  have htop : PX 2 va < 256 := by
    rw [PX_two]
    simp only [MAXVA, PGSIZE] at hva ⊢
    omega
  refine wp_seq (walkLevel_spec h (h.rep.root r hr) (by norm_num) fun _ => htop) ?_
  rintro o t ⟨F₁, refs₁, hg, hl, ho⟩
  cases o with
  | none => exact ⟨F₁, refs₁, hg, hl, ho.1⟩
  | some pt =>
    obtain ⟨hd, q, rfl, hq⟩ := ho
    show wp E (walkFrom true va 1 (q * PGSIZE)) _ t
    rw [walkFrom]
    refine wp_seq (walkLevel_spec hg.tables hq (by norm_num) fun h0 =>
      absurd h0 (List.cons_ne_nil _ _)) ?_
    rintro o u ⟨F₂, refs₂, hg₂, hl₂, ho⟩
    cases o with
    | none => exact ⟨F₂, refs₂, hg.trans hg₂, hl₂.trans hl, ho.1⟩
    | some pt =>
      obtain ⟨hd₂, q₂, rfl, hq₂⟩ := ho
      refine ⟨F₂, refs₂, hg.trans hg₂, hl₂.trans hl, hd₂.trans hd, q₂, ?_, ?_⟩
      · rw [PX_one, PX_two] at hq₂
        exact hq₂
      · rw [PX_zero]

/-! ## `uvmcreate` -/

/-- A new, empty page table on the page `n`. -/
structure Created (F : Forest ℕ) (refs : ℕ → ℕ) (s t : Mach) (n : ℕ) : Prop where
  tables : Tables (F.addRoot n) (update refs n 1) t
  free : refs n = 0
  mem : ∀ x, x / PGSIZE ≠ n → t.mem x = s.mem x
  length : t.freelist.length ≤ s.freelist.length
  denied : t.denied = s.denied

theorem uvmcreate_spec (h : Tables F refs s) :
    wp E uvmcreate (fun o t => match o with
      | none => Denied s t
      | some pagetable => ∃ n, pagetable = n * PGSIZE ∧ Created F refs s t n) s := by
  unfold uvmcreate
  refine wp_seq (kalloc_spec h.alloc) fun o t ht => ?_
  cases o with
  | none => exact ht
  | some pa =>
    obtain ⟨n, rfl, hk⟩ := ht
    have hn : ¬F.Tab n := fun hn => h.owned n hn hk.free
    have hmem : ∀ x, x / PGSIZE ≠ n → fill t.mem (n * PGSIZE) 0 x = s.mem x := fun x hx => by
      rw [fill_of_ne hx, hk.mem x hx]
    refine ⟨n, rfl, ⟨?_, hk.alloc.congr (fun _ => rfl) rfl rfl, fun m hm => ?_, fun r i hi => ?_⟩,
      hk.free, hmem, ?_, hk.denied⟩
    · refine h.rep.addRoot hn (fun i hi => entry_fill_zero hi) fun m i hm hi => ?_
      refine entry_congr hi fun x hx => hmem x ?_
      rw [hx]
      rintro rfl
      exact hn hm
    · by_cases hmn : m = n
      · rw [hmn, update_self]
        norm_num
      · rw [update_of_ne hmn]
        obtain ⟨x, hx⟩ := hm
        refine h.owned m ⟨x, ?_⟩
        by_cases hxr : x = (n, [])
        · rw [hxr] at hx
          refine absurd (Option.some.inj ?_) hmn
          rw [← hx]
          exact update_self ..
        · exact (update_of_ne hxr ..).symm.trans hx
    · exact (update_of_ne (by simp) ..).trans (h.low r i hi)
    · rw [hk.freelist]
      exact Nat.le_succ _

/-- No page tables at all. -/
def noTables : Forest ℕ where
  roots := ∅
  node _ := none
  leaf _ := 0

theorem Alloc.noTables (h : Alloc refs s) : Tables noTables refs s where
  rep := ⟨by rintro r ⟨⟩, fun _ _ _ => rfl, by rintro x y p ⟨⟩, fun _ _ _ _ => rfl,
    fun _ _ _ => rfl, fun _ _ _ _ => rfl, by rintro r π p i ⟨⟩, by rintro r π p i ⟨⟩,
    fun _ _ _ _ _ _ => rfl⟩
  alloc := h
  owned := by rintro n ⟨x, ⟨⟩⟩
  low _ _ _ := rfl

end

end CowPbs
