import Mathlib

/-!
# Forests of radix trees in memory

Pages are tables of `arity` entries, and `E p i` is entry `i` of page `p`. A tree of depth
`d` has `d` levels of tables that link to tables and one level of tables that hold the
leaves : a table page links to another with the word `link q`, and an entry that links to
nothing is 0. A `Forest` is what the trees of a set of roots are : which page is the table
at a path (`node`, with the last index of the path in front), and the words at the leaves.
`Rep E F` says that the memory holds that forest, each page in one place of one tree.

The operations are those of a page table. A new root (`addRoot`), a new table below
another (`addNode`), a store to a leaf (`setLeaf`), and a tree given back (`delRoot`) each
come with the lemma that the memory after the stores holds the new forest. `EmptyTree` is
a tree without leaves as the code that frees it meets it : from a page down, with the set
of its pages. A tree of a forest whose leaves are all 0 is one (`Rep.emptyTree`).
-/

set_option linter.unusedSectionVars false

open Function

namespace Radix

variable {W : Type*} [Zero W]

/-- The shape of the trees : entries in a table, levels above the last, and the word that
links to a table page. -/
structure Shape (W : Type*) where
  arity : ℕ
  depth : ℕ
  link : ℕ → W

/-- A set of trees. A place is a root and a path, the last index first. -/
structure Forest (W : Type*) where
  roots : Finset ℕ
  node : ℕ × List ℕ → Option ℕ
  leaf : ℕ × List ℕ → W

namespace Forest

/-- The page is a table of the forest. -/
def Tab (F : Forest W) (n : ℕ) : Prop :=
  ∃ x, F.node x = some n

/-- A root with an empty table. -/
def addRoot (F : Forest W) (r : ℕ) : Forest W :=
  { F with roots := insert r F.roots, node := update F.node (r, []) (some r) }

/-- A table at a place that had none. -/
def addNode (F : Forest W) (x : ℕ × List ℕ) (q : ℕ) : Forest W :=
  { F with node := update F.node x (some q) }

def setLeaf (F : Forest W) (x : ℕ × List ℕ) (w : W) : Forest W :=
  { F with leaf := update F.leaf x w }

/-- The forest without the tree of a root. -/
def delRoot (F : Forest W) (r : ℕ) : Forest W :=
  { F with roots := F.roots.erase r, node := fun x => if x.1 = r then none else F.node x }

/-- The pages of the tables at a place and below. -/
def below (F : Forest W) (r : ℕ) (π : List ℕ) : Set ℕ :=
  {n | ∃ ρ, F.node (r, ρ ++ π) = some n}

end Forest

/-- The memory `E` holds the forest `F`. -/
structure Rep (S : Shape W) (E : ℕ → ℕ → W) (F : Forest W) : Prop where
  root : ∀ r ∈ F.roots, F.node (r, []) = some r
  out : ∀ r ∉ F.roots, ∀ π, F.node (r, π) = none
  inj : ∀ x y p, F.node x = some p → F.node y = some p → x = y
  up : ∀ r i π, F.node (r, π) = none → F.node (r, i :: π) = none
  deep : ∀ r π, S.depth < π.length → F.node (r, π) = none
  index : ∀ r i π, S.arity ≤ i → F.node (r, i :: π) = none
  inner : ∀ r π p i, F.node (r, π) = some p → π.length < S.depth → i < S.arity →
    E p i = (F.node (r, i :: π)).elim 0 S.link
  bottom : ∀ r π p i, F.node (r, π) = some p → π.length = S.depth → i < S.arity →
    E p i = F.leaf (r, i :: π)
  empty : ∀ r π i, F.node (r, π) = none → π.length = S.depth → i < S.arity →
    F.leaf (r, i :: π) = 0

namespace Rep

variable {S : Shape W} {E E' : ℕ → ℕ → W} {F : Forest W}

/-- Only the table pages matter. -/
theorem congr (h : Rep S E F) (hE : ∀ n i, F.Tab n → i < S.arity → E' n i = E n i) :
    Rep S E' F where
  root := h.root
  out := h.out
  inj := h.inj
  up := h.up
  deep := h.deep
  index := h.index
  inner r π p i hp hπ hi := by
    rw [hE p i ⟨_, hp⟩ hi]
    exact h.inner r π p i hp hπ hi
  bottom r π p i hp hπ hi := by
    rw [hE p i ⟨_, hp⟩ hi]
    exact h.bottom r π p i hp hπ hi
  empty := h.empty

theorem not_root (h : Rep S E F) {r : ℕ} (hr : ¬F.Tab r) : r ∉ F.roots :=
  fun hm => hr ⟨_, h.root r hm⟩

theorem mem_roots (h : Rep S E F) {r p : ℕ} {π : List ℕ} (hp : F.node (r, π) = some p) :
    r ∈ F.roots := by
  by_contra hr
  rw [h.out r hr] at hp
  cases hp

theorem up_append (h : Rep S E F) {r : ℕ} {π : List ℕ} (hπ : F.node (r, π) = none) :
    ∀ ρ, F.node (r, ρ ++ π) = none
  | [] => hπ
  | i :: ρ => h.up r i _ (h.up_append hπ ρ)

/-- A store to a leaf. -/
theorem setLeaf (h : Rep S E F) {r p i : ℕ} {π : List ℕ} {w : W}
    (hp : F.node (r, π) = some p) (hπ : π.length = S.depth)
    (hw : E' p i = w) (hE : ∀ n j, (n, j) ≠ (p, i) → F.Tab n → j < S.arity → E' n j = E n j) :
    Rep S E' (F.setLeaf (r, i :: π) w) where
  root := h.root
  out := h.out
  inj := h.inj
  up := h.up
  deep := h.deep
  index := h.index
  inner r' π' p' j hp' hπ' hj := by
    rw [hE p' j _ ⟨_, hp'⟩ hj]
    · exact h.inner r' π' p' j hp' hπ' hj
    · rintro hpj
      obtain ⟨rfl, rfl⟩ := Prod.mk.inj hpj
      cases h.inj _ _ _ hp hp'
      omega
  bottom r' π' p' j hp' hπ' hj := by
    by_cases hx : (r', j :: π') = (r, i :: π)
    · cases hx
      obtain rfl := Option.some.inj (hp'.symm.trans hp)
      simp [Forest.setLeaf, hw]
    · rw [hE p' j _ ⟨_, hp'⟩ hj, h.bottom r' π' p' j hp' hπ' hj]
      · simp only [Forest.setLeaf, update_of_ne hx]
      · rintro hpj
        obtain ⟨rfl, rfl⟩ := Prod.mk.inj hpj
        cases h.inj _ _ _ hp hp'
        exact hx rfl
  empty r' π' j hn hπ' hj := by
    have hx : (r', j :: π') ≠ (r, i :: π) := by
      rintro hx
      cases hx
      rw [show F.node (r, π) = none from hn] at hp
      cases hp
    simp only [Forest.setLeaf, update_of_ne hx]
    exact h.empty r' π' j hn hπ' hj

/-- A root whose page was no table, with all entries 0. -/
theorem addRoot (h : Rep S E F) {r : ℕ} (hr : ¬F.Tab r) (h0 : ∀ i < S.arity, E' r i = 0)
    (hE : ∀ n i, F.Tab n → i < S.arity → E' n i = E n i) : Rep S E' (F.addRoot r) := by
  have hnone := h.out r (h.not_root hr)
  have hold : ∀ {x p}, (F.addRoot r).node x = some p → x ≠ (r, []) → F.node x = some p :=
    fun hx hne => by simpa [Forest.addRoot, update_of_ne hne] using hx
  have hcons : ∀ r' i π, (F.addRoot r).node (r', i :: π) = F.node (r', i :: π) := by
    intro r' i π
    simp [Forest.addRoot]
  refine ⟨fun r' hr' => ?_, fun r' hr' π => ?_, fun x y p hx hy => ?_, fun r' i π hn => ?_,
    fun r' π hπ => ?_, fun r' i π hi => ?_, fun r' π p i hp hπ hi => ?_,
    fun r' π p i hp hπ hi => ?_, fun r' π i hn hπ hi => ?_⟩
  · by_cases hrr : r' = r
    · subst hrr
      simp [Forest.addRoot]
    · simpa [Forest.addRoot, hrr] using h.root r' (by simpa [Forest.addRoot, hrr] using hr')
  · have hrr : r' ≠ r := by
      rintro rfl
      simp [Forest.addRoot] at hr'
    have : r' ∉ F.roots := fun hm => hr' (by simp [Forest.addRoot, hm])
    simpa [Forest.addRoot, hrr] using h.out r' this π
  · by_cases hxr : x = (r, []) <;> by_cases hyr : y = (r, [])
    · rw [hxr, hyr]
    · subst hxr
      simp only [Forest.addRoot, update_self, Option.some.injEq] at hx
      exact (hr ⟨y, by rw [hold hy hyr, hx]⟩).elim
    · subst hyr
      simp only [Forest.addRoot, update_self, Option.some.injEq] at hy
      exact (hr ⟨x, by rw [hold hx hxr, hy]⟩).elim
    · exact h.inj x y p (hold hx hxr) (hold hy hyr)
  · rw [hcons]
    by_cases hx : (r', π) = (r, [])
    · cases hx
      exact hnone _
    · exact h.up r' i π (by simpa [Forest.addRoot, update_of_ne hx] using hn)
  · have hx : (r', π) ≠ (r, []) := by
      rintro hx
      cases hx
      simp at hπ
    simpa [Forest.addRoot, update_of_ne hx] using h.deep r' π hπ
  · rw [hcons]
    exact h.index r' i π hi
  · rw [hcons]
    by_cases hx : (r', π) = (r, [])
    · cases hx
      simp only [Forest.addRoot, update_self, Option.some.injEq] at hp
      rw [← hp, h0 i hi, hnone]
      rfl
    · rw [hE p i ⟨_, hold hp hx⟩ hi]
      exact h.inner r' π p i (hold hp hx) hπ hi
  · by_cases hx : (r', π) = (r, [])
    · cases hx
      simp only [Forest.addRoot, update_self, Option.some.injEq] at hp
      rw [← hp, h0 i hi]
      exact (h.empty r [] i (hnone _) hπ hi).symm
    · rw [hE p i ⟨_, hold hp hx⟩ hi]
      exact h.bottom r' π p i (hold hp hx) hπ hi
  · by_cases hx : (r', π) = (r, [])
    · cases hx
      exact h.empty r [] i (hnone _) hπ hi
    · exact h.empty r' π i (by simpa [Forest.addRoot, update_of_ne hx] using hn) hπ hi

/-- A table below another, on a page that was no table, with all entries 0. -/
theorem addNode (h : Rep S E F) {r p i q : ℕ} {π : List ℕ} (hp : F.node (r, π) = some p)
    (hπ : π.length < S.depth) (hi : i < S.arity) (hx : F.node (r, i :: π) = none)
    (hq : ¬F.Tab q) (hlink : E' p i = S.link q) (h0 : ∀ j < S.arity, E' q j = 0)
    (hE : ∀ n j, (n, j) ≠ (p, i) → F.Tab n → j < S.arity → E' n j = E n j) :
    Rep S E' (F.addNode (r, i :: π) q) := by
  have hold : ∀ {y p'}, (F.addNode (r, i :: π) q).node y = some p' → y ≠ (r, i :: π) →
      F.node y = some p' := fun hy hne => by simpa [Forest.addNode, update_of_ne hne] using hy
  have hnone : ∀ {y}, (F.addNode (r, i :: π) q).node y = none → F.node y = none := by
    intro y hy
    by_cases hne : y = (r, i :: π)
    · rw [hne]
      exact hx
    · simpa [Forest.addNode, update_of_ne hne] using hy
  have hkeep : ∀ {y}, y ≠ (r, i :: π) → (F.addNode (r, i :: π) q).node y = F.node y :=
    fun hne => update_of_ne hne _ _
  refine ⟨fun r' hr' => ?_, fun r' hr' π' => ?_, fun y z p' hy hz => ?_, fun r' j π' hn => ?_,
    fun r' π' hπ' => ?_, fun r' j π' hj => ?_, fun r' π' p' j hp' hπ' hj => ?_,
    fun r' π' p' j hp' hπ' hj => ?_, fun r' π' j hn => h.empty r' π' j (hnone hn)⟩
  · rw [hkeep (by simp)]
    exact h.root r' hr'
  · rw [hkeep]
    · exact h.out r' hr' π'
    · rintro hy
      cases hy
      exact hr' (h.mem_roots hp)
  · by_cases hyx : y = (r, i :: π) <;> by_cases hzx : z = (r, i :: π)
    · rw [hyx, hzx]
    · subst hyx
      simp only [Forest.addNode, update_self, Option.some.injEq] at hy
      exact (hq ⟨z, by rw [hold hz hzx, hy]⟩).elim
    · subst hzx
      simp only [Forest.addNode, update_self, Option.some.injEq] at hz
      exact (hq ⟨y, by rw [hold hy hyx, hz]⟩).elim
    · exact h.inj y z p' (hold hy hyx) (hold hz hzx)
  · rw [hkeep]
    · exact h.up r' j π' (hnone hn)
    · rintro hy
      cases hy
      rw [hnone hn] at hp
      cases hp
  · rw [hkeep]
    · exact h.deep r' π' hπ'
    · rintro hy
      cases hy
      simp at hπ'
      omega
  · rw [hkeep]
    · exact h.index r' j π' hj
    · rintro hy
      cases hy
      omega
  · by_cases hy : (r', π') = (r, i :: π)
    · cases hy
      simp only [Forest.addNode, update_self, Option.some.injEq] at hp'
      rw [← hp', h0 j hj, hkeep (by simp), h.up r j _ hx]
      rfl
    · have hp'' := hold hp' hy
      by_cases hpj : (p', j) = (p, i)
      · cases hpj
        cases h.inj _ _ _ hp hp''
        simp [Forest.addNode, hlink]
      · rw [hE p' j hpj ⟨_, hp''⟩ hj, hkeep]
        · exact h.inner r' π' p' j hp'' hπ' hj
        · rintro hy'
          cases hy'
          exact hpj (by rw [Option.some.inj (hp''.symm.trans hp)])
  · by_cases hy : (r', π') = (r, i :: π)
    · cases hy
      simp only [Forest.addNode, update_self, Option.some.injEq] at hp'
      rw [← hp', h0 j hj]
      exact (h.empty r (i :: π) j hx hπ' hj).symm
    · have hp'' := hold hp' hy
      rw [hE p' j _ ⟨_, hp''⟩ hj]
      · exact h.bottom r' π' p' j hp'' hπ' hj
      · rintro hpj
        cases hpj
        cases h.inj _ _ _ hp hp''
        omega

/-- A tree given back : its leaves are all 0, and the other table pages are as they were. -/
theorem delRoot (h : Rep S E F) {r : ℕ}
    (h0 : ∀ π i, π.length = S.depth → i < S.arity → F.leaf (r, i :: π) = 0)
    (hE : ∀ n i, F.Tab n → n ∉ F.below r [] → i < S.arity → E' n i = E n i) :
    Rep S E' (F.delRoot r) := by
  have hnode : ∀ {r' π p}, (F.delRoot r).node (r', π) = some p →
      r' ≠ r ∧ F.node (r', π) = some p := by
    intro r' π p hp
    simp only [Forest.delRoot] at hp
    split_ifs at hp with hr
    exact ⟨hr, hp⟩
  have hother : ∀ {r' π}, r' ≠ r → (F.delRoot r).node (r', π) = F.node (r', π) := by
    intro r' π hr
    simp [Forest.delRoot, hr]
  have hkeep : ∀ {r' π p i}, r' ≠ r → F.node (r', π) = some p → i < S.arity →
      E' p i = E p i := by
    intro r' π p i hr hp hi
    refine hE p i ⟨_, hp⟩ ?_ hi
    rintro ⟨ρ, hρ⟩
    cases h.inj _ _ _ hp hρ
    exact hr rfl
  refine ⟨fun r' hr' => ?_, fun r' hr' π => ?_, fun x y p hx hy => ?_, fun r' i π hn => ?_,
    fun r' π hπ => ?_, fun r' i π hi => ?_, fun r' π p i hp hπ hi => ?_,
    fun r' π p i hp hπ hi => ?_, fun r' π i hn hπ hi => ?_⟩
  · obtain ⟨hne, hm⟩ := Finset.mem_erase.1 hr'
    rw [hother hne]
    exact h.root r' hm
  · by_cases hrr : r' = r
    · simp [Forest.delRoot, hrr]
    · rw [hother hrr]
      exact h.out r' (fun hm => hr' (Finset.mem_erase.2 ⟨hrr, hm⟩)) π
  · exact h.inj x y p (hnode hx).2 (hnode hy).2
  · by_cases hrr : r' = r
    · simp [Forest.delRoot, hrr]
    · rw [hother hrr] at hn ⊢
      exact h.up r' i π hn
  · by_cases hrr : r' = r
    · simp [Forest.delRoot, hrr]
    · rw [hother hrr]
      exact h.deep r' π hπ
  · by_cases hrr : r' = r
    · simp [Forest.delRoot, hrr]
    · rw [hother hrr]
      exact h.index r' i π hi
  · obtain ⟨hne, hp⟩ := hnode hp
    rw [hkeep hne hp hi, hother hne]
    exact h.inner r' π p i hp hπ hi
  · obtain ⟨hne, hp⟩ := hnode hp
    rw [hkeep hne hp hi]
    exact h.bottom r' π p i hp hπ hi
  · by_cases hrr : r' = r
    · subst hrr
      exact h0 π i hπ hi
    · rw [hother hrr] at hn
      exact h.empty r' π i hn hπ hi

end Rep

/-! ## Trees without leaves -/

/-- The tree of height `h` at page `p` has no leaves, and `T` is the set of its pages, no
page twice. -/
def EmptyTree (S : Shape W) (E : ℕ → ℕ → W) : ℕ → ℕ → Set ℕ → Prop
  | 0, _, _ => False
  | h + 1, p, T => ∃ sub : ℕ → Set ℕ, T = {n | n = p ∨ ∃ i < S.arity, n ∈ sub i} ∧
      (∀ i < S.arity, p ∉ sub i) ∧
      (∀ i < S.arity, ∀ j < S.arity, ∀ n, n ∈ sub i → n ∈ sub j → i = j) ∧
      ∀ i < S.arity, (E p i = 0 ∧ sub i = ∅) ∨
        ∃ q, E p i = S.link q ∧ EmptyTree S E h q (sub i)

theorem EmptyTree.congr {S : Shape W} {E E' : ℕ → ℕ → W} :
    ∀ {h p : ℕ} {T : Set ℕ}, EmptyTree S E h p T →
      (∀ n ∈ T, ∀ i < S.arity, E' n i = E n i) → EmptyTree S E' h p T
  | 0, _, _, ht, _ => ht
  | h + 1, p, T, ⟨sub, hT, hp, hd, hsub⟩, hE => by
    refine ⟨sub, hT, hp, hd, fun i hi => ?_⟩
    rw [hE p (by simp [hT]) i hi]
    refine (hsub i hi).imp id fun ⟨q, hq, ht⟩ => ⟨q, hq, ht.congr fun n hn => hE n ?_⟩
    rw [hT]
    exact .inr ⟨i, hi, hn⟩

theorem EmptyTree.root_mem {S : Shape W} {E : ℕ → ℕ → W} {h p : ℕ} {T : Set ℕ}
    (ht : EmptyTree S E h p T) : p ∈ T := by
  cases h with
  | zero => exact ht.elim
  | succ h =>
    obtain ⟨sub, hT, -⟩ := ht
    rw [hT]
    exact .inl rfl

/-- A tree of the forest without leaves, as its owner meets it from a table down. -/
theorem Rep.emptyTree {S : Shape W} {E : ℕ → ℕ → W} {F : Forest W} (h : Rep S E F) {r : ℕ}
    (h0 : ∀ π i, π.length = S.depth → i < S.arity → F.leaf (r, i :: π) = 0) (k : ℕ) :
    ∀ {π : List ℕ} {p : ℕ}, F.node (r, π) = some p → π.length + k = S.depth →
      EmptyTree S E (k + 1) p (F.below r π) := by
  -- Induction on the levels left below the table.
  induction k with
  | zero =>
    intro π p hp hπ
    refine ⟨fun _ => ∅, ?_, by simp, by simp, fun i hi => .inl ⟨?_, rfl⟩⟩
    · ext n
      constructor
      · rintro ⟨ρ, hρ⟩
        cases ρ with
        | nil => exact .inl (Option.some.inj (hρ.symm.trans hp))
        | cons i ρ =>
          rw [h.deep r _ (by simp; omega)] at hρ
          cases hρ
      · rintro (rfl | ⟨i, -, hn⟩)
        · exact ⟨[], hp⟩
        · exact hn.elim
    · rw [h.bottom r π p i hp (by omega) hi]
      exact h0 π i (by omega) hi
  | succ k ih =>
    intro π p hp hπ
    have hindex : ∀ {ρ i n}, F.node (r, ρ ++ i :: π) = some n → i < S.arity := by
      intro ρ i n hn
      by_contra hi
      rw [h.up_append (h.index r i π (not_lt.1 hi)) ρ] at hn
      cases hn
    refine ⟨fun i => F.below r (i :: π), ?_, ?_, ?_, fun i hi => ?_⟩
    · ext n
      constructor
      · rintro ⟨ρ, hρ⟩
        rcases List.eq_nil_or_concat ρ with rfl | ⟨ρ, i, rfl⟩
        · exact .inl (Option.some.inj (hρ.symm.trans hp))
        · rw [List.concat_eq_append, List.append_assoc, List.singleton_append] at hρ
          exact .inr ⟨i, hindex hρ, ρ, hρ⟩
      · rintro (rfl | ⟨i, -, ρ, hρ⟩)
        · exact ⟨[], hp⟩
        · exact ⟨ρ ++ [i], by simpa using hρ⟩
    · rintro i - ⟨ρ, hρ⟩
      have := congrArg (fun x => x.2.length) (h.inj _ _ _ hp hρ)
      simp at this
      omega
    · rintro i - j - n ⟨ρ, hρ⟩ ⟨ρ', hρ'⟩
      have heq := congrArg Prod.snd (h.inj _ _ _ hρ hρ')
      have hlen : ρ.length = ρ'.length := by
        have := congrArg List.length heq
        simp at this
        omega
      exact (List.cons.inj (List.append_inj_right heq hlen)).1
    · rw [h.inner r π p i hp (by omega) hi]
      cases hq : F.node (r, i :: π) with
      | none =>
        refine .inl ⟨rfl, Set.eq_empty_of_forall_notMem ?_⟩
        rintro n ⟨ρ, hρ⟩
        rw [h.up_append hq ρ] at hρ
        cases hρ
      | some q => exact .inr ⟨q, rfl, ih hq (by simp; omega)⟩

end Radix
