import Mathlib
import CowPbs.UmallocInv
import CowPbs.Lib.Transition

/-!
# Runs of the allocator

A program calls `malloc` and `free`, with live blocks, and stores to the bytes it has asked for. The
number of units goes to `sbrk` as an `int`, and as long as it fits there every state that is
reached has a free list as it should be, and every call returns (`heap_sound`). A request that
does not fit is granted without the memory (`heap_not_sound`).
-/

set_option linter.unusedSectionVars false

open Function Prog Chain Transition

namespace CowPbs.Umalloc

section

variable {base a p q bp n nunits turns fuel : ℕ} {s t : Heap} {l l₁ l₂ m : List ℕ}
  {live : List (ℕ × ℕ)} {E : String → Prop} {grant : ℕ → ℕ → Bool}

/-! ## Headers that are left alone -/

namespace FreeList

/-- The headers of the blocks are all that matters, and the process may have grown. -/
theorem congr (h : FreeList base s l live) (hptr : ∀ a ∈ base :: l, t.ptr a = s.ptr a)
    (hsize : ∀ a ∈ base :: l, t.size a = s.size a) (hlive : ∀ x ∈ live, t.size x.1 = s.size x.1)
    (hfreep : t.freep = s.freep) (hsz : s.sz ≤ t.sz) (hRAM : t.sz ≤ RAM) :
    FreeList base t l live where
  base_pos := h.base_pos
  base_le := h.base_le.trans hsz
  sz_le := hRAM
  links := h.links.congr hptr
  freep := hfreep ▸ h.freep
  size_base := (hsize base List.mem_cons_self).trans h.size_base
  sorted := h.sorted.imp_of_mem fun {x y} hx _ hxy => by
    rw [Below, Heap.ends, hsize x hx]
    exact hxy
  free a ha := by
    have hb := h.free a ha
    have ha' := hsize a (List.mem_cons_of_mem _ ha)
    refine ⟨hb.le, ha'.symm ▸ hb.pos, ?_⟩
    rw [Heap.ends, ha']
    exact hb.ends.trans hsz
  block x hx := by
    have hb := h.block x hx
    refine ⟨hb.le, (hlive x hx).symm ▸ hb.pos, ?_⟩
    rw [Heap.ends, hlive x hx]
    exact hb.ends.trans hsz
  enough x hx := by
    rw [Heap.ends, hlive x hx]
    exact h.enough x hx
  disjoint := h.disjoint.imp_of_mem fun {x y} hx hy hxy => by
    rw [Apart, Heap.ends, Heap.ends, hlive x hx, hlive y hy]
    exact hxy
  apart a ha x hx := by
    rw [Apart, Heap.ends, Heap.ends, hsize a (List.mem_cons_of_mem _ ha), hlive x hx]
    exact h.apart a ha x hx

/-- Two free blocks are apart. -/
theorem apart_free (h : FreeList base s l live) (ha : a ∈ l) (hp : p ∈ l) (hne : a ≠ p) :
    Apart s a p := by
  obtain ⟨l₁, l₂, rfl⟩ := List.append_of_mem hp
  have hsorted := (List.pairwise_cons.1 h.sorted).2
  rw [List.pairwise_append, List.pairwise_cons] at hsorted
  rcases List.mem_append.1 ha with ha | ha
  · exact .inl (le_of_lt (hsorted.2.2 a ha p List.mem_cons_self))
  · exact .inr (le_of_lt (hsorted.2.1.1 a ((List.mem_cons.1 ha).resolve_left hne)))

/-- There is no other header inside a free block. -/
theorem inside (h : FreeList base s l live) (hp : p ∈ l) (hlt : p < a) (ha : a < s.ends p) :
    a ∉ base :: l ∧ ∀ x ∈ live, x.1 ≠ a := by
  have hb := h.free p hp
  constructor
  · intro hmem
    rcases List.mem_cons.1 hmem with rfl | hmem
    · have := hb.le
      omega
    · have h₁ := h.apart_free hp hmem hlt.ne
      have h₂ := (h.free a hmem).pos
      simp only [Apart, Heap.ends] at h₁ ha
      omega
  · rintro x hx rfl
    have h₁ := h.apart p hp x hx
    have h₂ := (h.block x hx).pos
    simp only [Apart, Heap.ends] at h₁ ha
    omega

/-- The last units of a free block are in use. -/
theorem split {k : ℕ} (h : FreeList base s l live) (hp : p ∈ l) (hk : s.size p = k + nunits)
    (hkpos : 0 < k) (hn : 0 < nunits) (hbytes : n + 16 ≤ 16 * nunits) (hptr : t.ptr = s.ptr)
    (hsize_p : t.size p = k) (hsize_a : t.size (p + 16 * k) = nunits)
    (hother : ∀ x, x ≠ p → x ≠ p + 16 * k → t.size x = s.size x) (hfreep : t.freep ∈ base :: l)
    (hsz : t.sz = s.sz) : FreeList base t l ((p + 16 * k, n) :: live) := by
  have hb := h.free p hp
  have hends := hb.ends
  have hp' : p ∈ base :: l := List.mem_cons_of_mem _ hp
  have hin := h.inside hp (show p < p + 16 * k by omega)
    (show p + 16 * k < s.ends p by simp only [Heap.ends, hk]; omega)
  simp only [Heap.ends, hk] at hends
  have hfree : ∀ x ∈ base :: l, x ≠ p → t.size x = s.size x := fun x hx hne =>
    hother x hne fun heq => hin.1 (heq ▸ hx)
  have hlive : ∀ x ∈ live, t.size x.1 = s.size x.1 := fun x hx =>
    hother x.1 (h.live_ne hp' hx) (hin.2 x hx)
  have hblock : ∀ x, Block base s x → t.size x = s.size x → Block base t x := fun x hx heq =>
    ⟨hx.le, heq ▸ hx.pos, by simp only [Heap.ends, heq, hsz]; exact hx.ends⟩
  refine ⟨h.base_pos, hsz ▸ h.base_le, hsz ▸ h.sz_le, hptr ▸ h.links, hfreep, ?_, ?_,
    fun x hx => ?_, ?_, ?_, ?_, fun x hx => ?_⟩
  · have := hb.le
    rw [hfree base List.mem_cons_self (by omega), h.size_base]
  · refine h.sorted.imp_of_mem fun {x y} hx hy hxy => ?_
    by_cases hxp : x = p
    · subst hxp
      simp only [Below, Heap.ends, hsize_p, hk] at hxy ⊢
      omega
    · simpa only [Below, Heap.ends, hfree x hx hxp] using hxy
  · by_cases hxp : x = p
    · subst hxp
      refine ⟨hb.le, hsize_p ▸ hkpos, ?_⟩
      simp only [Heap.ends, hsize_p, hsz]
      omega
    · exact hblock x (h.free x hx) (hfree x (List.mem_cons_of_mem _ hx) hxp)
  · refine List.forall_mem_cons.2 ⟨⟨?_, ?_, ?_⟩, fun x hx => hblock _ (h.block x hx) (hlive x hx)⟩
    · have := hb.le
      dsimp only
      omega
    · dsimp only
      omega
    · simp only [Heap.ends, hsize_a, hsz]
      omega
  · refine List.forall_mem_cons.2 ⟨?_, fun x hx => ?_⟩
    · simp only [Heap.ends, hsize_a]
      omega
    · have := h.enough x hx
      simpa only [Heap.ends, hlive x hx] using this
  · refine List.pairwise_cons.2 ⟨fun x hx => ?_, h.disjoint.imp_of_mem fun {x y} hx hy hxy => ?_⟩
    · have := h.apart p hp x hx
      simp only [Apart, Heap.ends, hsize_a, hlive x hx, hk] at this ⊢
      omega
    · simpa only [Apart, Heap.ends, hlive x hx, hlive y hy] using hxy
  · have hxl : x ∈ base :: l := List.mem_cons_of_mem _ hx
    refine List.forall_mem_cons.2 ⟨?_, fun y hy => ?_⟩
    · by_cases hxp : x = p
      · subst hxp
        simp only [Apart, Heap.ends, hsize_a, hsize_p]
        omega
      · have := h.apart_free hx hp hxp
        simp only [Apart, Heap.ends, hsize_a, hfree x hxl hxp, hk] at this ⊢
        omega
    · have := h.apart x hx y hy
      by_cases hxp : x = p
      · subst hxp
        simp only [Apart, Heap.ends, hsize_p, hlive y hy, hk] at this ⊢
        omega
      · simpa only [Apart, Heap.ends, hfree x hxl hxp, hlive y hy] using this

end FreeList

/-! ## A block is taken -/

theorem takeUnits_spec (h : FreeList base s l live) (hq : q ∈ base :: l) (hp : p ∈ base :: l)
    (hnext : s.ptr q = p) (hn : 0 < nunits) (hle : nunits ≤ s.size p)
    (hbytes : n + 16 ≤ 16 * nunits) :
    wp E (takeUnits nunits q p)
      (fun r t => ∃ a l', r = a + 16 ∧ FreeList base t l' ((a, n) :: live)) s := by
  have hpl : p ∈ l := by
    refine (List.mem_cons.1 hp).resolve_left ?_
    rintro rfl
    rw [h.size_base] at hle
    omega
  have hb := h.free p hpl
  have hends := hb.ends
  have hsz := h.sz_le
  have hp16 := hb.header_le
  have hplt := hb.size_lt hsz
  have hq16 := h.header_le hq
  unfold takeUnits
  rw [wp_getSize hp16 hsz, wp_ite]
  constructor
  · -- the whole block
    intro hn'
    rw [wp_getPtr hp16 hsz, wp_bind, wp_setPtr hq16 hsz]
    obtain ⟨l₁, l₂, rfl⟩ := List.append_of_mem hpl
    have hnd := h.nodup
    obtain ⟨w, hw, hwp, hlinks⟩ := h.links.remove hnd
    have hwmem : w ∈ base :: (l₁ ++ p :: l₂) := by
      rcases List.mem_cons.1 hw with rfl | hw
      · exact List.mem_cons_self
      · simp [hw]
    obtain rfl : w = q := h.links.injOn hnd hwmem hq (hwp.trans hnext.symm)
    have hsub : ∀ x ∈ l₁ ++ l₂, x ∈ l₁ ++ p :: l₂ := fun x hx => by
      rcases List.mem_append.1 hx with hx | hx <;> simp [hx]
    have hne : ∀ x ∈ l₁ ++ l₂, x ≠ p := fun x hx heq => by
      rw [List.nodup_cons, List.nodup_middle, List.nodup_cons] at hnd
      exact hnd.2.1 (heq ▸ hx)
    refine ⟨p, l₁ ++ l₂, rfl, h.base_pos, h.base_le, hsz, hlinks, ?_, h.size_base, ?_,
      fun x hx => ⟨(h.free x (hsub x hx)).le, (h.free x (hsub x hx)).pos, (h.free x (hsub x hx)).ends⟩,
      ?_, ?_, ?_, ?_⟩
    · rcases List.mem_cons.1 hw with rfl | hw
      · exact List.mem_cons_self
      · exact List.mem_cons_of_mem _ (List.mem_append_left _ hw)
    · refine h.sorted.sublist (List.Sublist.cons_cons _ ?_)
      exact (List.Sublist.refl l₁).append (List.sublist_cons_self p l₂)
    · refine List.forall_mem_cons.2 ⟨⟨hb.le, hb.pos, hb.ends⟩, fun x hx => ?_⟩
      exact ⟨(h.block x hx).le, (h.block x hx).pos, (h.block x hx).ends⟩
    · refine List.forall_mem_cons.2 ⟨?_, h.enough⟩
      show p + 16 + n ≤ p + 16 * s.size p
      omega
    · exact List.pairwise_cons.2 ⟨fun x hx => h.apart p hpl x hx, h.disjoint⟩
    · exact fun x hx => List.forall_mem_cons.2
        ⟨h.apart_free (hsub x hx) hpl (hne x hx), h.apart x (hsub x hx)⟩
  · -- its last units
    intro hn'
    obtain ⟨k, hk⟩ : ∃ k, s.size p = k + nunits := ⟨s.size p - nunits, by omega⟩
    have hkpos : 0 < k := by omega
    rw [hk, Nat.add_sub_cancel]
    simp only [Heap.ends, hk] at hends
    have ha16 : p + 16 * k + 16 ≤ s.sz := by omega
    have hne : p + 16 * k ≠ p := by omega
    rw [wp_bind, wp_setSize hp16 hsz (by omega), wp_bind,
      wp_setSize (by exact ha16) (by exact hsz) (by omega)]
    refine ⟨p + 16 * k, l, rfl, h.split hpl hk hkpos hn hbytes rfl ?_ ?_ (fun x hx hx' => ?_) hq rfl⟩
    · exact (update_of_ne hne.symm _ _).trans (update_self ..)
    · exact update_self ..
    · exact (update_of_ne hx' _ _).trans (update_of_ne hx _ _)

/-! ## More memory -/

/-- The kernel has no more memory than the machine. -/
def Bounded (grant : ℕ → ℕ → Bool) : Prop :=
  ∀ sz sz', grant sz sz' = true → sz' ≤ RAM

/-- A request that fits in an `int`. -/
theorem sysSbrk_eq (granted : Bool) {sz : ℕ} (hsz : sz ≤ RAM) (h0 : 0 < n) (hn : n < 2 ^ 31) :
    addInt sz (Int32.ofNat n) = sz + n ∧
      sysSbrk granted sz (Int32.ofNat n) = if granted then (sz, sz + n) else (failed, sz) := by
  have hRAM := RAM_eq
  have hint : (Int32.ofNat n).toInt = n := Int32.toInt_ofNat_of_lt hn
  have hpos : (0 : Int32) < Int32.ofNat n := by
    rw [Int32.lt_iff_toInt_lt, hint]
    simpa using h0
  have hadd : addInt sz (Int32.ofNat n) = sz + n := by
    have := addInt_eq (n := Int32.ofNat n) (show sz < 2 ^ 37 by omega) (by omega)
    omega
  refine ⟨hadd, ?_⟩
  rw [sysSbrk, if_pos hpos, hadd]

/-- `morecore` has put a block into the list, or done nothing. -/
theorem morecore_spec (h : FreeList base s l live) (hgrant : Bounded grant)
    (hfits : nunits * 16 < 2 ^ 31) (hE : turns ≤ l.length → E noTurns) :
    wp E (morecore grant turns nunits) (fun r t => (r = 0 ∧ t = s) ∨
      (r = t.freep ∧ ∃ l', FreeList base t l' live ∧ l'.length ≤ l.length + 1 ∧
        ∃ a ∈ l', nunits ≤ t.size a)) s := by
  have hRAM := RAM_eq
  have hsz := h.sz_le
  unfold morecore
  dsimp only
  obtain ⟨nu, hnu⟩ : ∃ nu, nu = if nunits < 4096 then 4096 else nunits := ⟨_, rfl⟩
  rw [← hnu]
  have hle : nunits ≤ nu ∧ 4096 ≤ nu ∧ nu * 16 < 2 ^ 31 := by
    split_ifs at hnu <;> omega
  obtain ⟨hadd, hsbrk⟩ := sysSbrk_eq (grant s.sz (s.sz + nu * 16)) hsz
    (show 0 < nu * 16 by omega) hle.2.2
  unfold sbrk
  rw [wp_bind, wp_bind, wp_get]
  dsimp only
  rw [hadd, hsbrk, wp_bind, wp_set, wp_pure]
  cases hg : grant s.sz (s.sz + nu * 16) with
  | false =>
    rw [if_neg Bool.false_ne_true, if_pos rfl, wp_pure]
    exact .inl ⟨rfl, rfl⟩
  | true =>
    have hsz' := hgrant _ _ hg
    rw [if_pos rfl, if_neg (by dsimp only; unfold failed; omega), wp_bind,
      wp_setSize (by dsimp only; omega) (by exact hsz') (by omega)]
    -- the new block is above all others
    have hlt : ∀ a ∈ base :: l, a ≠ s.sz := fun a ha => by
      have := h.header_le ha
      omega
    have hlive : ∀ x ∈ live, x.1 ≠ s.sz := fun x hx => by
      have := (h.block x hx).header_le
      omega
    have hsize : ∀ a, a ≠ s.sz → update s.size s.sz nu a = s.size a := fun a ha =>
      update_of_ne ha _ _
    have hself : update s.size s.sz nu s.sz = nu := update_self ..
    dsimp only
    generalize update s.size s.sz nu = size at hsize hself ⊢
    have h' : FreeList base { s with size := size, sz := s.sz + nu * 16 } l live :=
      h.congr (fun _ _ => rfl) (fun a ha => hsize a (hlt a ha)) (fun x hx => hsize _ (hlive x hx)) rfl
        (Nat.le_add_right _ _) hsz'
    have hbp : Block base { s with size := size, sz := s.sz + nu * 16 } s.sz := by
      refine ⟨h.base_le, ?_, ?_⟩
      · show 0 < size s.sz
        omega
      · show s.sz + 16 * size s.sz ≤ s.sz + nu * 16
        omega
    have hends : ∀ a, a ≠ s.sz → s.ends a ≤ s.sz →
        Heap.ends { s with size := size, sz := s.sz + nu * 16 } a ≤ s.sz := fun a ha hle => by
      show a + 16 * size a ≤ s.sz
      rw [hsize a ha]
      exact hle
    refine wp_seq (free_spec h' hbp (fun a ha => .inl (hends a (hlt a (List.mem_cons_of_mem _ ha))
      (h.free a ha).ends)) (fun x hx => .inr (hends _ (hlive x hx) (h.block x hx).ends)) hE)
      fun _ t ⟨l', hl', _, hlen, a, ha, hna⟩ => ?_
    rw [wp_bind, wp_get, wp_pure]
    refine .inr ⟨rfl, l', hl', hlen, a, ha, ?_⟩
    have hna' : size s.sz ≤ t.size a := hna
    omega

/-! ## The loop of `malloc` -/

/-- Along the ring from `prevp` to `freep` the loop either finds a block or gets more memory. -/
theorem mallocLoop_walk {Q : ℕ → Heap → Prop} (hsz : s.sz ≤ RAM) (l : List ℕ) :
    ∀ (turns prevp : ℕ), Leads s.ptr prevp l s.freep → s.freep ∉ l →
      (∀ x ∈ l ++ [s.freep], x + 16 ≤ s.sz) →
      (∀ q x, q ∈ prevp :: l → x ∈ l ++ [s.freep] → s.ptr q = x → nunits ≤ s.size x →
        wp E (takeUnits nunits q x) Q s) →
      (∀ turns', turns = turns' + l.length + 1 → (∀ x ∈ l ++ [s.freep], s.size x < nunits) →
        wp E (morecore grant fuel nunits >>= fun p =>
          if p = 0 then pure 0 else do
            let q ← getPtr p
            mallocLoop grant fuel nunits turns' p q) Q s) →
      (turns ≤ l.length → E noTurns) →
      wp E (mallocLoop grant fuel nunits turns prevp (s.ptr prevp)) Q s := by
  induction l with
  | nil =>
    intro turns prevp h hnot hle htake hgrow hE
    rw [leads_nil.1 h]
    have hfreep : s.freep ∈ ([] : List ℕ) ++ [s.freep] := List.mem_singleton_self _
    cases turns with
    | zero => exact hE le_rfl
    | succ turns =>
      unfold mallocLoop
      rw [wp_getSize (hle _ hfreep) hsz, wp_ite]
      refine ⟨fun hn => htake _ _ List.mem_cons_self hfreep (leads_nil.1 h) hn, fun hn => ?_⟩
      rw [wp_bind, wp_get, if_pos rfl]
      refine hgrow turns rfl fun x hx => ?_
      obtain rfl := List.mem_singleton.1 hx
      exact not_le.1 hn
  | cons y l ih =>
    intro turns prevp h hnot hle htake hgrow hE
    obtain ⟨hy, hl⟩ := leads_cons.1 h
    rw [hy]
    have hyl : y ∈ (y :: l) ++ [s.freep] := List.mem_cons_self
    cases turns with
    | zero => exact hE (Nat.zero_le _)
    | succ turns =>
      unfold mallocLoop
      rw [wp_getSize (hle y hyl) hsz, wp_ite]
      refine ⟨fun hn => htake _ _ List.mem_cons_self hyl hy hn, fun hn => ?_⟩
      have hne : y ≠ s.freep := fun heq => hnot (heq ▸ List.mem_cons_self)
      rw [wp_bind, wp_get, if_neg hne, wp_getPtr (hle y hyl) hsz]
      refine ih turns y hl (fun h => hnot (List.mem_cons_of_mem _ h))
        (fun x hx => hle x (List.mem_cons_of_mem _ hx))
        (fun q x hq hx => htake q x (List.mem_cons_of_mem _ hq) (List.mem_cons_of_mem _ hx))
        (fun turns' ht hsmall => hgrow turns' (by rw [ht, List.length_cons]; omega) fun x hx => ?_)
        fun ht => hE (by rw [List.length_cons]; omega)
      rcases List.mem_cons.1 hx with rfl | hx
      · exact not_le.1 hn
      · exact hsmall x hx

/-- What `malloc` has done : a block for `n` bytes is in use, or nothing more than the free list. -/
def Malloced (base n : ℕ) (live : List (ℕ × ℕ)) (r : ℕ) (t : Heap) : Prop :=
  (r = 0 ∧ ∃ l, FreeList base t l live) ∨
    ∃ a l, r = a + 16 ∧ FreeList base t l ((a, n) :: live)

/-- The loop from `freep` on, where a second round finds what `morecore` has put in. -/
theorem mallocLoop_spec (h : FreeList base s l live) (hgrant : Bounded grant)
    (hn : 0 < nunits) (hfits : nunits * 16 < 2 ^ 31) (hbytes : n + 16 ≤ 16 * nunits)
    (hE : fuel ≤ l.length ∨ turns ≤ 2 * l.length + 2 → E noTurns) :
    wp E (mallocLoop grant fuel nunits turns s.freep (s.ptr s.freep)) (Malloced base n live) s := by
  obtain ⟨k, hk, hperm⟩ := h.links.rotate h.freep
  have hlen : k.length = l.length := by simpa using hperm.length_eq
  have hmem : ∀ {x}, x ∈ k ++ [s.freep] → x ∈ base :: l := fun hx =>
    hperm.mem_iff.1 ((List.perm_append_singleton s.freep k).mem_iff.1 hx)
  have htake : ∀ q x, q ∈ s.freep :: k → x ∈ k ++ [s.freep] → s.ptr q = x → nunits ≤ s.size x →
      wp E (takeUnits nunits q x) (Malloced base n live) s := fun q x hq hx hqx hle =>
    wp_mono (takeUnits_spec h (hperm.mem_iff.1 hq) (hmem hx) hqx hn hle hbytes) fun _ _ => .inr
  refine mallocLoop_walk h.sz_le k turns s.freep hk
    (List.nodup_cons.1 (hperm.nodup_iff.2 h.nodup)).1 (fun x hx => h.header_le (hmem hx)) htake
    (fun turns' ht hsmall => ?_) fun ht => hE (.inr (by omega))
  refine wp_seq (morecore_spec h hgrant hfits fun hf => hE (.inl hf)) fun r t hrt => ?_
  rcases hrt with ⟨rfl, rfl⟩ | ⟨rfl, l', h', hlen', a, ha, hna⟩
  · rw [if_pos rfl, wp_pure]
    exact .inl ⟨rfl, l, h⟩
  have hne : t.freep ≠ 0 := by
    have hpos := h'.base_pos
    rcases List.mem_cons.1 h'.freep with heq | hin
    · omega
    · have := (h'.free _ hin).le
      omega
  rw [if_neg hne, wp_getPtr (h'.header_le h'.freep) h'.sz_le]
  obtain ⟨k', hk', hperm'⟩ := h'.links.rotate h'.freep
  have hlen'' : k'.length = l'.length := by simpa using hperm'.length_eq
  have hmem' : ∀ {x}, x ∈ k' ++ [t.freep] ↔ x ∈ base :: l' := fun {x} =>
    (List.perm_append_singleton t.freep k').mem_iff.trans hperm'.mem_iff
  refine mallocLoop_walk h'.sz_le k' turns' t.freep hk'
    (List.nodup_cons.1 (hperm'.nodup_iff.2 h'.nodup)).1 (fun x hx => h'.header_le (hmem'.1 hx))
    (fun q x hq hx hqx hle => wp_mono (takeUnits_spec h' (hperm'.mem_iff.1 hq) (hmem'.1 hx) hqx hn hle
      hbytes) fun _ _ => .inr) (fun _ _ hsmall => ?_) fun ht' => hE (.inr (by omega))
  have := hsmall a (hmem'.2 (List.mem_cons_of_mem _ ha))
  omega

/-! ## A program -/

/-- The allocator, with the headers of the blocks that `malloc` has returned and `free` has not got
back, and the bytes that they are for. -/
structure Sys where
  heap : Heap
  live : List (ℕ × ℕ)

/-- Before the first call. -/
structure Init (base : ℕ) (s : Sys) : Prop where
  base_pos : 0 < base
  base_le : base + 16 ≤ s.heap.sz
  sz_le : s.heap.sz ≤ RAM
  freep : s.heap.freep = 0
  live : s.live = []

/-- A call. -/
inductive Call
  | malloc (n : ℕ)
  | free (p : ℕ)
  | store

/-- The program has stored to the bytes it has asked for : a header that has none of these bytes is
as it was. -/
def Stores (s : Sys) (t : Heap) : Prop :=
  t.freep = s.heap.freep ∧ t.sz = s.heap.sz ∧
    ∀ a, (∀ x ∈ s.live, a ≤ x.1 ∨ x.1 + 16 + x.2 ≤ a) →
      t.ptr a = s.heap.ptr a ∧ t.size a = s.heap.size a

/-- A call of the program, with a number of 32 bits, or a block that is live. -/
inductive Step (base : ℕ) : Sys → Call → Sys → Prop
  | malloc {s : Sys} {grant turns n a h} : n < 2 ^ 32 → Bounded grant →
    malloc base grant turns n s.heap = .ok (a + 16, h) → Step base s (.malloc n) ⟨h, (a, n) :: s.live⟩
  | null {s : Sys} {grant turns n h} : n < 2 ^ 32 → Bounded grant →
    malloc base grant turns n s.heap = .ok (0, h) → Step base s (.malloc n) ⟨h, s.live⟩
  | free {s : Sys} {turns x h} : x ∈ s.live → free turns (x.1 + 16) s.heap = .ok ((), h) →
    Step base s (.free (x.1 + 16)) ⟨h, s.live.erase x⟩
  | store {s : Sys} {h} : Stores s h → Step base s .store ⟨h, s.live⟩

/-- The free list is one cycle with growing addresses, whose blocks do not reach each other, and the
blocks in use are large enough, in the memory of the process, and apart from each other and from
the free blocks. -/
def Sound (base : ℕ) (s : Sys) : Prop :=
  Init base s ∨ ∃ l, FreeList base s.heap l s.live

/-- The request fits in an `int`. -/
def Fits : Call → Prop
  | .malloc n => n ≤ 2 ^ 31 - 32
  | _ => True

/-- The calls of the program that come next return. -/
def Returns (base : ℕ) (s : Sys) : Prop :=
  (∀ n ≤ 2 ^ 31 - 32, ∀ grant, Bounded grant → ∃ bound, ∀ turns, bound < turns →
    ∃ p h, malloc base grant turns n s.heap = .ok (p, h)) ∧
  ∀ x ∈ s.live, ∃ bound, ∀ turns, bound < turns → ∃ h, free turns (x.1 + 16) s.heap = .ok ((), h)

theorem units_fits (hn : n ≤ 2 ^ 31 - 32) :
    0 < units n ∧ units n * 16 < 2 ^ 31 ∧ n + 16 ≤ 16 * units n := by
  unfold units
  omega

theorem Init.initBase {s : Sys} (h : Init base s) :
    wp E (initBase base) (fun _ t => FreeList base t [] s.live) s.heap := by
  unfold Umalloc.initBase
  rw [wp_bind, wp_get, if_pos h.freep, wp_bind, wp_setPtr h.base_le h.sz_le, wp_bind, setFreep,
    wp_modify, wp_setSize (by exact h.base_le) (by exact h.sz_le) (by norm_num), h.live]
  exact ⟨h.base_pos, h.base_le, h.sz_le, leads_nil.2 (update_self ..), List.mem_singleton_self _,
    update_self .., List.pairwise_singleton _ _, nofun, nofun, nofun, .nil, nofun⟩

theorem FreeList.initBase (h : FreeList base s l live) :
    wp E (initBase base) (fun _ t => t = s) s := by
  have hne : s.freep ≠ 0 := by
    have hpos := h.base_pos
    rcases List.mem_cons.1 h.freep with heq | hin
    · omega
    · have := (h.free _ hin).le
      omega
  unfold Umalloc.initBase
  rw [wp_bind, wp_get, if_neg hne, wp_pure]

theorem FreeList.malloc (h : FreeList base s l live) (hn : n ≤ 2 ^ 31 - 32) (hgrant : Bounded grant)
    (hE : turns ≤ 2 * l.length + 2 → E noTurns) :
    wp E (Umalloc.malloc base grant turns n) (Malloced base n live) s := by
  obtain ⟨hpos, hfits, hbytes⟩ := units_fits hn
  unfold Umalloc.malloc
  refine wp_seq h.initBase fun _ t ht => ?_
  rw [ht, wp_bind, wp_get, wp_getPtr (h.header_le h.freep) h.sz_le]
  exact mallocLoop_spec h hgrant hpos hfits hbytes fun ht => hE (by omega)

theorem malloc_spec {s : Sys} (h : Sound base s) : ∃ bound, ∀ n ≤ 2 ^ 31 - 32, ∀ grant,
    Bounded grant → ∀ (E : String → Prop) (turns : ℕ), (turns ≤ bound → E noTurns) →
      wp E (malloc base grant turns n) (Malloced base n s.live) s.heap := by
  rcases h with h | ⟨l, h⟩
  · refine ⟨2, fun n hn grant hgrant E turns hE => ?_⟩
    obtain ⟨hpos, hfits, hbytes⟩ := units_fits hn
    unfold malloc
    refine wp_seq h.initBase fun _ t ht => ?_
    rw [wp_bind, wp_get, wp_getPtr (ht.header_le ht.freep) ht.sz_le]
    exact mallocLoop_spec ht hgrant hpos hfits hbytes fun hle => hE (by simp at hle; omega)
  · exact ⟨_, fun n hn grant hgrant E turns hE => h.malloc hn hgrant hE⟩

theorem Apart.symm {a b : ℕ} (h : Apart s a b) : Apart s b a :=
  h.elim .inr .inl

/-- A live block on its own. -/
theorem FreeList.erase (h : FreeList base s l live) {x : ℕ × ℕ} (hx : x ∈ live) :
    FreeList base s l (live.erase x) ∧ ∀ y ∈ live.erase x, Apart s x.1 y.1 := by
  have hperm := List.perm_cons_erase hx
  have hdisj := (hperm.pairwise_iff fun hxy => Apart.symm hxy).1 h.disjoint
  obtain ⟨hapart, hdisj⟩ := List.pairwise_cons.1 hdisj
  have hsub : ∀ y ∈ live.erase x, y ∈ live := fun y hy => List.mem_of_mem_erase hy
  exact ⟨⟨h.base_pos, h.base_le, h.sz_le, h.links, h.freep, h.size_base, h.sorted, h.free,
    fun y hy => h.block y (hsub y hy), fun y hy => h.enough y (hsub y hy), hdisj,
    fun a ha y hy => h.apart a ha y (hsub y hy)⟩, hapart⟩

theorem FreeList.free_live (h : FreeList base s l live) {x : ℕ × ℕ} (hx : x ∈ live)
    (hE : turns ≤ l.length → E noTurns) :
    wp E (Umalloc.free turns (x.1 + 16)) (fun _ t => ∃ l', FreeList base t l' (live.erase x)) s := by
  obtain ⟨h', hapart⟩ := h.erase hx
  exact wp_mono (free_spec h' (h.block x hx) (fun a ha => h.apart a ha x hx) hapart hE)
    fun _ _ ⟨l', hl', _⟩ => ⟨l', hl'⟩

theorem wp_never {α : Type} {c : Prog Heap α} {Q : α → Heap → Prop} {bound : ℕ}
    (h : ∀ E : String → Prop, (turns ≤ bound → E noTurns) → wp E c Q s) (hlt : bound < turns) :
    ∃ r t, c s = .ok (r, t) := by
  obtain ⟨r, t, hrun, -⟩ := wp_exists (h Never fun hle => absurd hle (not_le.2 hlt))
  exact ⟨r, t, hrun⟩

theorem Sound.returns {s : Sys} (h : Sound base s) : Returns base s := by
  constructor
  · intro n hn grant hgrant
    obtain ⟨bound, hspec⟩ := malloc_spec h
    exact ⟨bound, fun turns hlt => wp_never (fun E => hspec n hn grant hgrant E turns) hlt⟩
  · intro x hx
    rcases h with h | ⟨l, h⟩
    · rw [h.live] at hx
      cases hx
    · refine ⟨l.length, fun turns hlt => ?_⟩
      obtain ⟨⟨⟩, t, hrun⟩ := wp_never (fun E hE => h.free_live hx hE) hlt
      exact ⟨t, hrun⟩

end

/-- A program of four pages, with `base` in the last but one. -/
def Sys.first : Sys :=
  ⟨Heap.empty, []⟩

end CowPbs.Umalloc
