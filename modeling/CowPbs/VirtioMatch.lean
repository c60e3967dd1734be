import Mathlib
import CowPbs.Lib.Ownership
import CowPbs.Virtio

/-!
# Requests and completions are matched

A chain is headed by its first descriptor, and its head stands for the request everywhere : in the
available ring until the device reads it, in the device, and in the used ring until the handler
sees it (`Disk.heads`). The heads are distinct, and are those of the processes whose buffer is
busy. A descriptor that is not free belongs to one place of one chain (`DiskSys.place`).
-/

set_option linter.unusedSectionVars false

open Function Ownership Transition

namespace CowPbs

variable {β ι : Type} [DecidableEq β] [DecidableEq ι]

namespace Disk

variable {d d' : Disk β} {r : DiskReq β} {c : Chain} {i : ℕ}

/-! ## Descriptors -/

theorem allocDesc_spec (h : d.allocDesc = some (i, d')) :
    i < NUM ∧ d.free i = true ∧ d' = { d with free := update d.free i false } := by
  obtain ⟨j, hj, heq⟩ := Option.map_eq_some_iff.1 h
  obtain ⟨rfl, rfl⟩ := Prod.mk.inj heq
  exact ⟨List.mem_range.1 (List.mem_of_find?_eq_some hj), List.find?_some hj, rfl⟩

theorem freeDesc_eq (hi : i < NUM) (hf : d.free i = false) :
    d.freeDesc i = some { d with
      desc := update d.desc i ⟨.null, 0, 0, 0⟩
      free := update d.free i true } := by
  rw [freeDesc, if_neg (Nat.not_le.2 hi), if_neg (by simp [hf])]

/-- The three descriptors are different ones that were free. -/
structure Fresh (d : Disk β) (c : Chain) : Prop where
  lt : ∀ k, c.get k < NUM
  free : ∀ k, d.free (c.get k) = true
  ne01 : c.i0 ≠ c.i1
  ne02 : c.i0 ≠ c.i2
  ne12 : c.i1 ≠ c.i2

/-- `alloc3_desc` takes three descriptors, or leaves those that are in use as they are. -/
theorem alloc3Desc_spec (d : Disk β) :
    (∃ c, d.Fresh c ∧ d.alloc3Desc = some ({ d with
      free := update (update (update d.free c.i0 false) c.i1 false) c.i2 false }, some c)) ∨
    ∃ desc, (∀ i, d.free i = false → desc i = d.desc i) ∧
      d.alloc3Desc = some ({ d with desc := desc }, none) := by
  unfold alloc3Desc
  cases h0 : d.allocDesc with
  | none => exact .inr ⟨d.desc, fun _ _ => rfl, rfl⟩
  | some x0 =>
    obtain ⟨i0, d0⟩ := x0
    obtain ⟨hlt0, hf0, rfl⟩ := allocDesc_spec h0
    dsimp only
    have hback0 : update (update d.free i0 false) i0 true = d.free := by
      rw [update_idem, ← hf0, update_eq_self]
    cases h1 : Disk.allocDesc { d with free := update d.free i0 false } with
    | none =>
      refine .inr ⟨update d.desc i0 ⟨.null, 0, 0, 0⟩, fun i hi => ?_, ?_⟩
      · refine update_of_ne ?_ _ _
        rintro rfl
        simp [hf0] at hi
      · rw [freeDesc_eq hlt0 (update_self ..)]
        simp only [hback0, Option.map_some]
    | some x1 =>
      obtain ⟨i1, d1⟩ := x1
      obtain ⟨hlt1, hf1, rfl⟩ := allocDesc_spec h1
      dsimp only at hf1 ⊢
      have hne : i0 ≠ i1 := by
        rintro rfl
        simp at hf1
      have hf1' : d.free i1 = true := by rwa [update_of_ne hne.symm] at hf1
      cases h2 : Disk.allocDesc { d with
          free := update (update d.free i0 false) i1 false } with
      | none =>
        refine .inr ⟨update (update d.desc i0 ⟨.null, 0, 0, 0⟩) i1 ⟨.null, 0, 0, 0⟩,
          fun i hi => ?_, ?_⟩
        · have hi0 : i ≠ i0 := by
            rintro rfl
            simp [hf0] at hi
          have hi1 : i ≠ i1 := by
            rintro rfl
            simp [hf1'] at hi
          rw [update_of_ne hi1, update_of_ne hi0]
        · have hback : update (update (update (update d.free i0 false) i1 false) i0 true) i1 true =
              d.free := by
            rw [update_comm hne.symm, hback0, update_idem, ← hf1', update_eq_self]
          rw [freeDesc_eq hlt0 (by simp [update_of_ne hne]), Option.bind_some,
            freeDesc_eq hlt1 (by simp [update_of_ne hne.symm])]
          simp only [hback, Option.map_some]
      | some x2 =>
        obtain ⟨i2, d2⟩ := x2
        obtain ⟨hlt2, hf2, rfl⟩ := allocDesc_spec h2
        dsimp only at hf2
        have hne2 : i1 ≠ i2 := by
          rintro rfl
          simp at hf2
        have hf2' : update d.free i0 false i2 = true := by rwa [update_of_ne hne2.symm] at hf2
        have hne02 : i0 ≠ i2 := by
          rintro rfl
          simp at hf2'
        rw [update_of_ne hne02.symm] at hf2'
        refine .inl ⟨⟨i0, i1, i2⟩, ⟨fun k => ?_, fun k => ?_, hne, hne02, hne2⟩, rfl⟩
        · fin_cases k
          · exact hlt0
          · exact hlt1
          · exact hlt2
        · fin_cases k
          · exact hf0
          · exact hf1'
          · exact hf2'

/-- The chain is formatted for the request. -/
structure Linked (d : Disk β) (r : DiskReq β) (c : Chain) : Prop where
  desc0 : d.desc c.i0 = ⟨.op c.i0, 16, VRING_DESC_F_NEXT, c.i1⟩
  desc1 : d.desc c.i1 = r.dataDesc c
  desc2 : d.desc c.i2 = ⟨.status c.i0, 1, VRING_DESC_F_WRITE, 0⟩
  op : d.ops c.i0 = r.op
  buf : d.infoB c.i0 = some r.b

theorem dataDesc_next (r : DiskReq β) (c : Chain) :
    (r.dataDesc c).flags &&& VRING_DESC_F_NEXT ≠ 0 := by
  have hflags : ∀ w : Bool, ((if w then 0 else VRING_DESC_F_WRITE) ||| VRING_DESC_F_NEXT) &&&
      VRING_DESC_F_NEXT ≠ 0 := by decide
  exact hflags r.write

theorem Linked.congr (h : d.Linked r c) (hdesc : ∀ k, d'.desc (c.get k) = d.desc (c.get k))
    (hop : d'.ops c.i0 = d.ops c.i0) (hb : d'.infoB c.i0 = d.infoB c.i0) : d'.Linked r c where
  desc0 := (hdesc 0).trans h.desc0
  desc1 := (hdesc 1).trans h.desc1
  desc2 := (hdesc 2).trans h.desc2
  op := hop.trans h.op
  buf := hb.trans h.buf

/-- The descriptors of the chain are cleared and free. -/
def unlink (d : Disk β) (c : Chain) : Disk β :=
  { d with
    desc := update (update (update d.desc c.i0 ⟨.null, 0, 0, 0⟩) c.i1 ⟨.null, 0, 0, 0⟩) c.i2
      ⟨.null, 0, 0, 0⟩
    free := update (update (update d.free c.i0 true) c.i1 true) c.i2 true }

theorem unlink_desc (hi : ∀ k, i ≠ c.get k) : (d.unlink c).desc i = d.desc i := by
  have h0 : i ≠ c.i0 := hi 0
  have h1 : i ≠ c.i1 := hi 1
  have h2 : i ≠ c.i2 := hi 2
  simp [unlink, h0, h1, h2]

theorem unlink_free : (d.unlink c).free i = true ↔ d.free i = true ∨ ∃ k, i = c.get k := by
  have hex : (∃ k, i = c.get k) ↔ i = c.i0 ∨ i = c.i1 ∨ i = c.i2 := by
    simp [Fin.exists_fin_succ, Chain.get]
  rw [hex]
  simp only [unlink, update_apply]
  split_ifs with h2 h1 h0 <;> simp_all

/-- `free_chain` follows the chain to its end. -/
theorem freeChain_eq (hdesc : ∀ k, d.desc (c.get k) = d'.desc (c.get k)) (hl : d'.Linked r c)
    (hlt : ∀ k, c.get k < NUM) (hf : ∀ k, d.free (c.get k) = false) (h01 : c.i0 ≠ c.i1)
    (h02 : c.i0 ≠ c.i2) (h12 : c.i1 ≠ c.i2) : d.freeChain (NUM + 1) c.i0 = some (d.unlink c) := by
  have hd0 : d.desc c.i0 = ⟨.op c.i0, 16, VRING_DESC_F_NEXT, c.i1⟩ := (hdesc 0).trans hl.desc0
  have hd1 : d.desc c.i1 = r.dataDesc c := (hdesc 1).trans hl.desc1
  have hd2 : d.desc c.i2 = ⟨.status c.i0, 1, VRING_DESC_F_WRITE, 0⟩ := (hdesc 2).trans hl.desc2
  have hnext : (r.dataDesc c).next = c.i2 := rfl
  have hlt0 : c.i0 < NUM := hlt 0
  have hlt1 : c.i1 < NUM := hlt 1
  have hlt2 : c.i2 < NUM := hlt 2
  have hf0 : d.free c.i0 = false := hf 0
  have hf1 : update d.free c.i0 true c.i1 = false := (update_of_ne h01.symm _ _).trans (hf 1)
  have hf2 : update (update d.free c.i0 true) c.i1 true c.i2 = false := by
    rw [update_of_ne h12.symm, update_of_ne h02.symm]
    exact hf 2
  have hflag : VRING_DESC_F_NEXT &&& VRING_DESC_F_NEXT ≠ 0 := by decide
  have hlast : ¬VRING_DESC_F_WRITE &&& VRING_DESC_F_NEXT ≠ 0 := by decide
  rw [freeChain, freeDesc_eq hlt0 hf0, Option.bind_some, hd0, if_pos hflag, NUM, freeChain,
    freeDesc_eq hlt1 hf1, Option.bind_some]
  simp only [update_of_ne h01.symm, hd1, hnext]
  rw [if_pos (dataDesc_next r c), freeChain, freeDesc_eq hlt2 hf2, Option.bind_some]
  simp only [update_of_ne h12.symm, update_of_ne h02.symm, hd2]
  rw [if_neg hlast]
  rfl

/-! ## Heads -/

/-- The chains the device has not read. -/
def queued (d : Disk β) : List ℕ :=
  Ring.window NUM d.availRing d.deviceIdx (d.availIdx - d.deviceIdx).toNat

/-- The chains the device has not completed. -/
def pending (d : Disk β) : List ℕ :=
  d.queued ++ d.inflight.map DeviceReq.head

/-- The completed chains the handler has not seen. -/
def unseen (d : Disk β) : List ℕ :=
  Ring.window NUM d.usedRing d.usedIdx (d.usedRingIdx - d.usedIdx).toNat

/-- The heads of all chains given to the device and not back. -/
def heads (d : Disk β) : List ℕ :=
  d.pending ++ d.unseen

theorem num_dvd : NUM ∣ 2 ^ 16 := by
  decide

/-- Different descriptor numbers, and one more, are less than `NUM`. -/
theorem length_lt {l : List ℕ} (hl : l.Nodup) (hlt : ∀ h ∈ l, h < NUM) (hi : i < NUM)
    (hn : i ∉ l) : l.length < NUM := by
  have hnd : (i :: l).Nodup := List.nodup_cons.2 ⟨hn, hl⟩
  have hsub : (i :: l) ⊆ List.range NUM := by
    intro h hh
    rcases List.mem_cons.1 hh with rfl | hh
    · exact List.mem_range.2 hi
    · exact List.mem_range.2 (hlt h hh)
  have hle := (hnd.subperm hsub).length_le
  simpa using hle

theorem length_queued : d.queued.length = (d.availIdx - d.deviceIdx).toNat :=
  Ring.length_window

theorem length_unseen : d.unseen.length = (d.usedRingIdx - d.usedIdx).toNat :=
  Ring.length_window

/-- The next entry of the available ring is not one the device has yet to read. -/
theorem queued_store {x : ℕ} (h : d.queued.length < NUM) :
    queued { d with availRing := update d.availRing (Ring.index NUM d.availIdx) x } = d.queued := by
  rw [length_queued] at h
  have hw := Ring.window_store (d := d.availRing) (r := d.deviceIdx) (x := x) num_dvd h
  rwa [Ring.at_sub] at hw

/-- The device is told of one more chain. -/
theorem queued_submit (h : d.queued.length < NUM) :
    queued { d with availIdx := d.availIdx + 1 } =
      d.queued ++ [d.availRing (Ring.index NUM d.availIdx)] := by
  rw [length_queued] at h
  have hlen : (d.availIdx + 1 - d.deviceIdx).toNat = (d.availIdx - d.deviceIdx).toNat + 1 :=
    Ring.toNat_succ_sub (by rw [NUM] at h; omega)
  rw [queued, hlen, Ring.window_succ, Ring.at_sub]
  rfl

/-- The device reads the first one. -/
theorem queued_fetch (h : d.deviceIdx ≠ d.availIdx) :
    d.queued = d.nextHead :: queued { d with deviceIdx := d.deviceIdx + 1 } := by
  have hne := mt Ring.toNat_sub_eq_zero.1 h
  obtain ⟨k, hk⟩ := Nat.exists_eq_succ_of_ne_zero hne
  have hlen := Ring.toNat_sub_succ hne
  rw [hk, Nat.succ_sub_one] at hlen
  rw [queued, hk, Ring.window_pop, queued, hlen]
  rfl

/-- The device completes a chain. -/
theorem unseen_complete {x : ℕ} (h : d.unseen.length < NUM) :
    unseen { d with
      usedRing := update d.usedRing (Ring.index NUM d.usedRingIdx) x
      usedRingIdx := d.usedRingIdx + 1 } = d.unseen ++ [x] := by
  rw [length_unseen] at h
  have hlen : (d.usedRingIdx + 1 - d.usedIdx).toNat = (d.usedRingIdx - d.usedIdx).toNat + 1 :=
    Ring.toNat_succ_sub (by rw [NUM] at h; omega)
  have hw := Ring.window_push (d := d.usedRing) (r := d.usedIdx) (x := x) num_dvd h
  rw [Ring.at_sub] at hw
  rw [unseen, hlen]
  exact hw

/-- The handler sees the first one. -/
theorem unseen_seen (h : d.usedIdx ≠ d.usedRingIdx) :
    d.unseen = d.nextUsed :: unseen { d with usedIdx := d.usedIdx + 1 } := by
  have hne := mt Ring.toNat_sub_eq_zero.1 h
  obtain ⟨k, hk⟩ := Nat.exists_eq_succ_of_ne_zero hne
  have hlen := Ring.toNat_sub_succ hne
  rw [hk, Nat.succ_sub_one] at hlen
  rw [unseen, hk, Ring.window_pop, unseen, hlen]
  rfl

end Disk

/-! ## The invariant of the chains -/

/-- The request and its chain as the device reads them. -/
def DiskReq.asRead (r : DiskReq β) (c : Chain) : DeviceReq β where
  head := c.i0
  op := r.op
  data := r.dataDesc c
  status := .status c.i0

theorem Disk.Linked.read {d : Disk β} {r : DiskReq β} {c : Chain} (h : d.Linked r c) :
    d.read c.i0 = r.asRead c := by
  have hnext : (r.dataDesc c).next = c.i2 := rfl
  simp only [Disk.read, h.desc0, h.desc1, h.desc2, h.op, hnext]
  rfl

/-- The descriptor at each place of each chain. -/
def place (pc : ι → DiskPc β) (x : ι × Fin 3) : Option ℕ :=
  (pc x.1).chain.map fun y => y.2.get x.2

theorem DiskPc.chain_of_submitted {pc : DiskPc β} {x : DiskReq β × Chain}
    (h : pc.submitted = some x) : pc.chain = some x := by
  cases pc <;> first | exact h | cases h

/-- The descriptors, the heads and the buffers of the requests in progress. -/
structure Matched (d : Disk β) (pc : ι → DiskPc β) : Prop where
  owns : Owns (place pc) {i | i < NUM ∧ d.free i = false}
  linked : ∀ p r c, (pc p).chain = some (r, c) → d.Linked r c
  nodup : d.heads.Nodup
  head : ∀ h ∈ d.heads, ∃ p r c, (pc p).submitted = some (r, c) ∧ c.i0 = h
  busy : ∀ p r c, (pc p).submitted = some (r, c) → (d.busy r.b = true ↔ c.i0 ∈ d.heads)
  ready : ∀ p r c, (pc p).chain = some (r, c) → (pc p).submitted = none →
    d.busy r.b = true ∧ d.availRing (Ring.index NUM d.availIdx) = c.i0
  status : ∀ h ∈ d.unseen, d.infoStatus h = 0
  device : ∀ x ∈ d.inflight, ∃ p r c, (pc p).submitted = some (r, c) ∧ x = r.asRead c

namespace Matched

variable {d d' : Disk β} {pc pc' : ι → DiskPc β} {p q : ι} {r r' : DiskReq β} {c c' : Chain}
  {k k' : Fin 3} {h i : ℕ}

theorem congr (hm : Matched d pc) (hc : ∀ q, (pc' q).chain = (pc q).chain)
    (hs : ∀ q, (pc' q).submitted = (pc q).submitted) : Matched d pc' where
  owns := hm.owns.congr (fun x => by rw [place, place, hc]) fun _ => Iff.rfl
  linked p r c hp := hm.linked p r c ((hc p).symm.trans hp)
  nodup := hm.nodup
  head h hh := by
    obtain ⟨p, r, c, hp, hi⟩ := hm.head h hh
    exact ⟨p, r, c, (hs p).trans hp, hi⟩
  busy p r c hp := hm.busy p r c ((hs p).symm.trans hp)
  ready p r c hp hn := hm.ready p r c ((hc p).symm.trans hp) ((hs p).symm.trans hn)
  status := hm.status
  device x hx := by
    obtain ⟨p, r, c, hp, hxr⟩ := hm.device x hx
    exact ⟨p, r, c, (hs p).trans hp, hxr⟩

theorem in_use (hm : Matched d pc) (hp : (pc p).chain = some (r, c)) (k : Fin 3) :
    c.get k < NUM ∧ d.free (c.get k) = false :=
  hm.owns.mem_used (p, k) _ (by simp [place, hp])

/-- A descriptor is at one place of one chain. -/
theorem unique {l : Fin 3} (hm : Matched d pc) (hp : (pc p).chain = some (r, c))
    (hq : (pc q).chain = some (r', c')) (hk : c.get k = c'.get l) : p = q ∧ k = l := by
  have heq := hm.owns.unique (p, k) (q, l) (c.get k) (by simp [place, hp]) (by simp [place, hq, hk])
  exact Prod.mk.inj heq

theorem ne (hm : Matched d pc) (hp : (pc p).chain = some (r, c)) :
    c.i0 ≠ c.i1 ∧ c.i0 ≠ c.i2 ∧ c.i1 ≠ c.i2 := by
  refine ⟨fun he => ?_, fun he => ?_, fun he => ?_⟩
  · have hk := (hm.unique (k := 0) (l := 1) hp hp he).2
    simp at hk
  · have hk := (hm.unique (k := 0) (l := 2) hp hp he).2
    simp at hk
  · have hk := (hm.unique (k := 1) (l := 2) hp hp he).2
    simp at hk

theorem head_in_use (hm : Matched d pc) (hh : h ∈ d.heads) : h < NUM ∧ d.free h = false := by
  obtain ⟨p, r, c, hp, rfl⟩ := hm.head h hh
  exact hm.in_use (DiskPc.chain_of_submitted hp) 0

/-- A chain the device has not been told of has its head nowhere. -/
theorem not_mem_heads (hm : Matched d pc) (hp : (pc p).chain = some (r, c))
    (hn : (pc p).submitted = none) : c.i0 ∉ d.heads := by
  intro hh
  obtain ⟨q, r', c', hq, hi⟩ := hm.head _ hh
  have hpq := (hm.unique (k := 0) (l := 0) hp (DiskPc.chain_of_submitted hq) hi.symm).1
  rw [hpq, hq] at hn
  cases hn

/-- There is room in both rings for a descriptor that is not the head of a request. -/
theorem lengths (hm : Matched d pc) (hi : i < NUM) (hn : i ∉ d.heads) :
    d.queued.length < NUM ∧ d.unseen.length < NUM := by
  have hlt := Disk.length_lt hm.nodup (fun h hh => (hm.head_in_use hh).1) hi hn
  rw [Disk.heads, Disk.pending, List.length_append, List.length_append] at hlt
  omega

/-! ### The steps of the driver -/

/-- The disk with the chain taken and formatted. -/
def formatted (d : Disk β) (r : DiskReq β) (c : Chain) : Disk β :=
  Disk.format { d with
    free := update (update (update d.free c.i0 false) c.i1 false) c.i2 false } r c

theorem get_injective (h : d.Fresh c) : Injective c.get := by
  have h01 := h.ne01
  have h02 := h.ne02
  have h12 := h.ne12
  intro k k' hk
  fin_cases k <;> fin_cases k' <;> simp_all [Chain.get]

theorem formatted_free : (formatted d r c).free i = false ↔ d.free i = false ∨ ∃ k, i = c.get k := by
  have hex : (∃ k, i = c.get k) ↔ i = c.i0 ∨ i = c.i1 ∨ i = c.i2 := by
    simp [Fin.exists_fin_succ, Chain.get]
  rw [hex]
  simp only [formatted, Disk.format, update_apply]
  split_ifs with h2 h1 h0 <;> simp_all

theorem formatted_linked (h : d.Fresh c) : (formatted d r c).Linked r c where
  desc0 := by simp [formatted, Disk.format, h.ne01, h.ne02]
  desc1 := by simp [formatted, Disk.format, h.ne12]
  desc2 := by simp [formatted, Disk.format]
  op := by simp [formatted, Disk.format]
  buf := by simp [formatted, Disk.format]

theorem formatted_desc (hi : ∀ k, i ≠ c.get k) : (formatted d r c).desc i = d.desc i := by
  have h0 : i ≠ c.i0 := hi 0
  have h1 : i ≠ c.i1 := hi 1
  have h2 : i ≠ c.i2 := hi 2
  simp [formatted, Disk.format, h0, h1, h2]

/-- A chain is allocated and formatted. -/
theorem format (hm : Matched d pc) (hf : d.Fresh c) (hp : (pc p).chain = none)
    (hp' : (pc' p).chain = some (r, c)) (hn : (pc' p).submitted = none)
    (hother : ∀ q, q ≠ p → pc' q = pc q)
    (hall : ∀ q x, (pc q).chain = some x → (pc q).submitted = some x)
    (hb : ∀ q r' c', (pc q).chain = some (r', c') → r'.b ≠ r.b) :
    Matched (formatted d r c) pc' := by
  have hfree : ∀ k, c.get k ∉ {i | i < NUM ∧ d.free i = false} := by
    rintro k ⟨-, hi⟩
    rw [hf.free k] at hi
    cases hi
  have hhead : c.i0 ∉ d.heads := fun hh => hfree 0 (hm.head_in_use hh)
  have hqueued : (formatted d r c).queued = d.queued :=
    Disk.queued_store (hm.lengths (hf.lt 0) hhead).1
  have hheads : (formatted d r c).heads = d.heads := by
    rw [Disk.heads, Disk.pending, hqueued]
    rfl
  -- the other chains are somewhere else
  have hne : ∀ q r' c', (pc q).chain = some (r', c') → ∀ k k', c'.get k ≠ c.get k' := by
    intro q r' c' hq k k' hk
    exact hfree k' (hk ▸ hm.in_use hq k)
  have hcase : ∀ q r' c', (pc' q).chain = some (r', c') →
      q = p ∧ r' = r ∧ c' = c ∨ q ≠ p ∧ (pc q).chain = some (r', c') := by
    intro q r' c' hq
    by_cases hqp : q = p
    · subst hqp
      rw [hp', Option.some.injEq, Prod.mk.injEq] at hq
      exact .inl ⟨rfl, hq.1.symm, hq.2.symm⟩
    · exact .inr ⟨hqp, hother q hqp ▸ hq⟩
  have hsub : ∀ q x, (pc' q).submitted = some x → q ≠ p ∧ (pc q).submitted = some x := by
    intro q x hq
    have hqp : q ≠ p := by
      rintro rfl
      simp [hn] at hq
    exact ⟨hqp, hother q hqp ▸ hq⟩
  have hsub' : ∀ q x, (pc q).submitted = some x → (pc' q).submitted = some x := by
    intro q x hq
    have hqp : q ≠ p := by
      rintro rfl
      rw [DiskPc.chain_of_submitted hq] at hp
      cases hp
    rwa [hother q hqp]
  constructor
  · refine hm.owns.giveAll (f := fun k => (p, k)) (get_injective hf) hfree
      (fun k => by simp [place, hp]) (fun k => by simp [place, hp']) ?_ fun i => ?_
    · rintro ⟨q, k⟩ hq
      have hqp : q ≠ p := fun he => hq k (he ▸ rfl)
      rw [place, place, hother q hqp]
    · rw [Set.mem_ofPred_eq, formatted_free]
      constructor
      · rintro ⟨hlt, hfr | hk⟩
        · exact .inr ⟨hlt, hfr⟩
        · exact .inl hk
      · rintro (⟨k, rfl⟩ | ⟨hlt, hfr⟩)
        · exact ⟨hf.lt k, .inr ⟨k, rfl⟩⟩
        · exact ⟨hlt, .inl hfr⟩
  · intro q r' c' hq
    rcases hcase q r' c' hq with ⟨rfl, rfl, rfl⟩ | ⟨-, hq⟩
    · exact formatted_linked hf
    · have h0 : c'.i0 ≠ c.i0 := hne q r' c' hq 0 0
      refine (hm.linked q r' c' hq).congr (fun k => formatted_desc (hne q r' c' hq k)) ?_ ?_
      · exact update_of_ne h0 _ _
      · exact update_of_ne h0 _ _
  · rw [hheads]
    exact hm.nodup
  · rw [hheads]
    intro h hh
    obtain ⟨q, r', c', hq, hi⟩ := hm.head h hh
    exact ⟨q, r', c', hsub' q _ hq, hi⟩
  · intro q r' c' hq
    obtain ⟨-, hq⟩ := hsub q _ hq
    rw [hheads, ← hm.busy q r' c' hq]
    have hbr := hb q r' c' (DiskPc.chain_of_submitted hq)
    rw [show (formatted d r c).busy r'.b = d.busy r'.b from update_of_ne hbr _ _]
  · intro q r' c' hq hs
    rcases hcase q r' c' hq with ⟨rfl, rfl, rfl⟩ | ⟨hqp, hq⟩
    · exact ⟨update_self .., update_self ..⟩
    · rw [hother q hqp, hall q _ hq] at hs
      cases hs
  · intro h hh
    have hne0 : h ≠ c.i0 := by
      rintro rfl
      exact hhead (List.mem_append_right _ hh)
    rw [show (formatted d r c).infoStatus h = d.infoStatus h from update_of_ne hne0 _ _]
    exact hm.status h hh
  · intro x hx
    obtain ⟨q, r', c', hq, hxr⟩ := hm.device x hx
    exact ⟨q, r', c', hsub' q _ hq, hxr⟩

/-- Free descriptors are cleared. -/
theorem clear {desc : ℕ → VirtqDesc β} (hm : Matched d pc)
    (hd : ∀ i, d.free i = false → desc i = d.desc i) : Matched { d with desc := desc } pc where
  owns := hm.owns
  linked p r c hp := (hm.linked p r c hp).congr (fun k => hd _ (hm.in_use hp k).2) rfl rfl
  nodup := hm.nodup
  head := hm.head
  busy := hm.busy
  ready := hm.ready
  status := hm.status
  device := hm.device

/-- The device is told of a chain. -/
theorem submit (hm : Matched d pc) (hp : (pc p).chain = some (r, c)) (hn : (pc p).submitted = none)
    (hp' : (pc' p).chain = some (r, c)) (hs' : (pc' p).submitted = some (r, c))
    (hother : ∀ q, q ≠ p → pc' q = pc q)
    (hall : ∀ q x, q ≠ p → (pc q).chain = some x → (pc q).submitted = some x) :
    Matched { d with availIdx := d.availIdx + 1 } pc' := by
  obtain ⟨hbusy, hring⟩ := hm.ready p r c hp hn
  have hhead := hm.not_mem_heads hp hn
  have hqueued : Disk.queued { d with availIdx := d.availIdx + 1 } = d.queued ++ [c.i0] := by
    rw [Disk.queued_submit (hm.lengths (hm.in_use hp 0).1 hhead).1, hring]
  have hperm : (Disk.heads { d with availIdx := d.availIdx + 1 }).Perm (c.i0 :: d.heads) := by
    have heq : Disk.heads { d with availIdx := d.availIdx + 1 } =
        (d.queued ++ [c.i0]) ++ d.inflight.map DeviceReq.head ++ d.unseen := by
      rw [← hqueued]
      rfl
    rw [heq, List.append_assoc, List.append_assoc, Disk.heads, Disk.pending, List.append_assoc]
    exact List.perm_middle
  have hchain : ∀ q, (pc' q).chain = (pc q).chain := by
    intro q
    by_cases hqp : q = p
    · rw [hqp, hp', hp]
    · rw [hother q hqp]
  constructor
  · exact hm.owns.congr (fun x => by rw [place, place, hchain]) fun _ => Iff.rfl
  · intro q r' c' hq
    exact (hm.linked q r' c' ((hchain q).symm.trans hq)).congr (fun _ => rfl) rfl rfl
  · exact hperm.nodup_iff.2 (List.nodup_cons.2 ⟨hhead, hm.nodup⟩)
  · intro h hh
    rcases List.mem_cons.1 (hperm.mem_iff.1 hh) with rfl | hh
    · exact ⟨p, r, c, hs', rfl⟩
    · obtain ⟨q, r', c', hq, hi⟩ := hm.head h hh
      have hqp : q ≠ p := by
        rintro rfl
        simp [hn] at hq
      exact ⟨q, r', c', by rwa [hother q hqp], hi⟩
  · intro q r' c' hq
    rw [hperm.mem_iff, List.mem_cons]
    by_cases hqp : q = p
    · subst hqp
      obtain ⟨rfl, rfl⟩ := Prod.mk.inj (Option.some.inj (hs'.symm.trans hq))
      exact ⟨fun _ => .inl rfl, fun _ => hbusy⟩
    · rw [hother q hqp] at hq
      have hne : c'.i0 ≠ c.i0 := fun he =>
        hqp (hm.unique (k := 0) (l := 0) (DiskPc.chain_of_submitted hq) hp he).1
      rw [hm.busy q r' c' hq]
      simp [hne]
  · intro q r' c' hq hs
    by_cases hqp : q = p
    · rw [hqp, hs'] at hs
      cases hs
    · rw [hother q hqp] at hq hs
      rw [hall q _ hqp hq] at hs
      cases hs
  · exact hm.status
  · intro x hx
    obtain ⟨q, r', c', hq, hxr⟩ := hm.device x hx
    have hqp : q ≠ p := by
      rintro rfl
      simp [hn] at hq
    exact ⟨q, r', c', by rwa [hother q hqp], hxr⟩

/-- The chain of a request that is no longer busy is freed. -/
theorem ret (hm : Matched d pc) (hp : (pc p).submitted = some (r, c)) (hb : d.busy r.b = false)
    (hp' : (pc' p).chain = none) (hother : ∀ q, q ≠ p → (pc' q).chain = (pc q).chain)
    (hothers : ∀ q, q ≠ p → (pc' q).submitted = (pc q).submitted) :
    Matched (Disk.unlink { d with infoB := update d.infoB c.i0 none } c) pc' := by
  have hpc := DiskPc.chain_of_submitted hp
  have hhead : c.i0 ∉ d.heads := by
    rw [← hm.busy p r c hp, hb]
    simp
  have hchain : ∀ q r' c', (pc' q).chain = some (r', c') →
      q ≠ p ∧ (pc q).chain = some (r', c') := by
    intro q r' c' hq
    have hqp : q ≠ p := by
      rintro rfl
      simp [hp'] at hq
    exact ⟨hqp, hother q hqp ▸ hq⟩
  have hsub : ∀ q x, (pc' q).submitted = some x → q ≠ p ∧ (pc q).submitted = some x := by
    intro q x hq
    have hqp : q ≠ p := by
      rintro rfl
      rw [DiskPc.chain_of_submitted hq] at hp'
      cases hp'
    exact ⟨hqp, hothers q hqp ▸ hq⟩
  constructor
  · refine hm.owns.takeAll (f := fun k => (p, k)) (g := c.get) (fun k => by simp [place, hpc])
      (fun k => by simp [place, hp']) ?_ fun i => ?_
    · rintro ⟨q, k⟩ hq
      have hqp : q ≠ p := fun he => hq k (he ▸ rfl)
      rw [place, place, hother q hqp]
    · rw [Set.mem_ofPred_eq, Set.mem_ofPred_eq, ← Bool.not_eq_true, Disk.unlink_free]
      simp only [not_or, not_exists, Bool.not_eq_true]
      tauto
  · intro q r' c' hq
    obtain ⟨hqp, hq⟩ := hchain q r' c' hq
    have hne : ∀ k k', c'.get k ≠ c.get k' := fun k k' hk => hqp (hm.unique hq hpc hk).1
    have h0 : c'.i0 ≠ c.i0 := hne 0 0
    refine (hm.linked q r' c' hq).congr (fun k => Disk.unlink_desc (hne k)) rfl ?_
    exact update_of_ne h0 _ _
  · exact hm.nodup
  · intro h hh
    obtain ⟨q, r', c', hq, rfl⟩ := hm.head h hh
    have hqp : q ≠ p := by
      rintro rfl
      obtain ⟨rfl, rfl⟩ := Prod.mk.inj (Option.some.inj (hp.symm.trans hq))
      exact hhead hh
    exact ⟨q, r', c', (hothers q hqp).trans hq, rfl⟩
  · intro q r' c' hq
    exact hm.busy q r' c' (hsub q _ hq).2
  · intro q r' c' hq hs
    obtain ⟨hqp, hq⟩ := hchain q r' c' hq
    exact hm.ready q r' c' hq ((hothers q hqp).symm.trans hs)
  · exact hm.status
  · intro x hx
    obtain ⟨q, r', c', hq, hxr⟩ := hm.device x hx
    have hqp : q ≠ p := by
      rintro rfl
      obtain ⟨rfl, rfl⟩ := Prod.mk.inj (Option.some.inj (hp.symm.trans hq))
      refine hhead (List.mem_append_left _ (List.mem_append_right _ ?_))
      exact List.mem_map.2 ⟨x, hx, by rw [hxr]; rfl⟩
    exact ⟨q, r', c', (hothers q hqp).trans hq, hxr⟩

/-! ### The handler and the device -/

/-- The next completion is that of a request in progress, whose buffer is busy. -/
theorem nextUsed (hm : Matched d pc) (hu : d.usedIdx ≠ d.usedRingIdx) :
    d.infoStatus d.nextUsed = 0 ∧ ∃ p r c, (pc p).submitted = some (r, c) ∧ c.i0 = d.nextUsed ∧
      d.infoB d.nextUsed = some r.b ∧ d.busy r.b = true ∧ d.nextUsed ∉ d.pending := by
  have hmem : d.nextUsed ∈ d.unseen := by
    rw [Disk.unseen_seen hu]
    exact List.mem_cons_self
  have hhead : d.nextUsed ∈ d.heads := List.mem_append_right _ hmem
  obtain ⟨p, r, c, hp, hi⟩ := hm.head _ hhead
  refine ⟨hm.status _ hmem, p, r, c, hp, hi, ?_, ?_, ?_⟩
  · rw [← hi]
    exact (hm.linked p r c (DiskPc.chain_of_submitted hp)).buf
  · rw [hm.busy p r c hp, hi]
    exact hhead
  · exact fun hpend => List.disjoint_of_nodup_append hm.nodup hpend hmem

/-- The handler sees a completion. -/
theorem seen (hm : Matched d pc) (hu : d.usedIdx ≠ d.usedRingIdx) {b : β}
    (hb : d.infoB d.nextUsed = some b)
    (hbufs : ∀ p q r r' c c', (pc p).chain = some (r, c) → (pc q).chain = some (r', c') →
      r.b = r'.b → p = q) :
    Matched (d.seen b) pc := by
  obtain ⟨-, p, r, c, hp, hi, hbuf, -, -⟩ := hm.nextUsed hu
  obtain rfl : r.b = b := Option.some.inj (hbuf.symm.trans hb)
  have hpc := DiskPc.chain_of_submitted hp
  have hunseen := Disk.unseen_seen hu
  have hperm : d.heads.Perm (d.nextUsed :: (d.seen r.b).heads) := by
    rw [Disk.heads, hunseen]
    exact List.perm_middle
  obtain ⟨hnot, hnd⟩ := List.nodup_cons.1 (hperm.nodup_iff.1 hm.nodup)
  constructor
  · exact hm.owns
  · intro q r' c' hq
    exact (hm.linked q r' c' hq).congr (fun _ => rfl) rfl rfl
  · exact hnd
  · intro h hh
    exact hm.head h (hperm.mem_iff.2 (List.mem_cons_of_mem _ hh))
  · intro q r' c' hq
    have hqc := DiskPc.chain_of_submitted hq
    by_cases hqp : q = p
    · subst hqp
      obtain ⟨rfl, rfl⟩ := Prod.mk.inj (Option.some.inj (hp.symm.trans hq))
      have hfalse : (d.seen r.b).busy r.b = false := update_self ..
      rw [hfalse, hi]
      exact ⟨fun h => (by cases h), fun h => absurd h hnot⟩
    · have hne : r'.b ≠ r.b := fun he => hqp (hbufs q p r' r c' c hqc hpc he)
      have hne0 : c'.i0 ≠ d.nextUsed := fun he =>
        hqp (hm.unique (k := 0) (l := 0) hqc hpc (he.trans hi.symm)).1
      rw [show (d.seen r.b).busy r'.b = d.busy r'.b from update_of_ne hne _ _, hm.busy q r' c' hq, hperm.mem_iff, List.mem_cons]
      simp [hne0]
  · intro q r' c' hq hs
    have hne : r'.b ≠ r.b := by
      intro he
      obtain rfl := hbufs q p r' r c' c hq hpc he
      rw [hp] at hs
      cases hs
    obtain ⟨hbusy, hring⟩ := hm.ready q r' c' hq hs
    exact ⟨(update_of_ne hne _ _).trans hbusy, hring⟩
  · intro h hh
    refine hm.status h ?_
    rw [hunseen]
    exact List.mem_cons_of_mem _ hh
  · exact hm.device

/-- The device reads the chain of a request as it was formatted. -/
theorem read (hm : Matched d pc) (hd : d.deviceIdx ≠ d.availIdx) :
    ∃ p r c, (pc p).submitted = some (r, c) ∧ c.i0 = d.nextHead ∧
      d.read d.nextHead = r.asRead c := by
  have hhead : d.nextHead ∈ d.heads := by
    refine List.mem_append_left _ (List.mem_append_left _ ?_)
    rw [Disk.queued_fetch hd]
    exact List.mem_cons_self
  obtain ⟨p, r, c, hp, hi⟩ := hm.head _ hhead
  refine ⟨p, r, c, hp, hi, ?_⟩
  rw [← hi]
  exact (hm.linked p r c (DiskPc.chain_of_submitted hp)).read

/-- The chains the device has not completed stay the same when it reads one. -/
theorem pending_fetch (hd : d.deviceIdx ≠ d.availIdx) : d.fetch.pending.Perm d.pending := by
  have hfetch : d.fetch.pending =
      Disk.queued { d with deviceIdx := d.deviceIdx + 1 } ++
        (d.inflight.map DeviceReq.head ++ [d.nextHead]) := by
    rw [Disk.pending, Disk.fetch, List.map_append]
    rfl
  rw [hfetch, Disk.pending, Disk.queued_fetch hd, ← List.append_assoc, List.cons_append]
  exact List.perm_append_singleton _ _

theorem fetch (hm : Matched d pc) (hd : d.deviceIdx ≠ d.availIdx) : Matched d.fetch pc := by
  have hperm : d.fetch.heads.Perm d.heads := (pending_fetch hd).append_right d.unseen
  constructor
  · exact hm.owns
  · intro q r' c' hq
    exact (hm.linked q r' c' hq).congr (fun _ => rfl) rfl rfl
  · exact hperm.nodup_iff.2 hm.nodup
  · intro h hh
    exact hm.head h (hperm.mem_iff.1 hh)
  · intro q r' c' hq
    rw [hperm.mem_iff]
    exact hm.busy q r' c' hq
  · exact hm.ready
  · exact hm.status
  · intro x hx
    rcases List.mem_append.1 hx with hx | hx
    · exact hm.device x hx
    · obtain ⟨p, r, c, hp, -, hread⟩ := hm.read hd
      exact ⟨p, r, c, hp, (List.mem_singleton.1 hx).trans hread⟩

theorem pending_complete {x : DeviceReq β} {l l' : List (DeviceReq β)}
    (hi : d.inflight = l ++ x :: l') : d.pending.Perm (x.head :: (d.complete x (l ++ l')).pending) := by
  have hcomplete : (d.complete x (l ++ l')).pending =
      d.queued ++ (l ++ l').map DeviceReq.head := rfl
  rw [Disk.pending, hi, hcomplete, List.map_append, List.map_cons, List.map_append,
    ← List.append_assoc, ← List.append_assoc]
  exact List.perm_middle

/-- The device completes a request. -/
theorem complete {x : DeviceReq β} {l l' : List (DeviceReq β)} (hm : Matched d pc)
    (hi : d.inflight = l ++ x :: l') : Matched (d.complete x (l ++ l')) pc := by
  have hx : x ∈ d.inflight := by
    rw [hi]
    exact List.mem_append_right _ List.mem_cons_self
  obtain ⟨p, r, c, hp, hxr⟩ := hm.device x hx
  have hpend := pending_complete hi
  have hnot : x.head ∉ d.unseen := by
    intro hu
    have hmem : x.head ∈ d.pending := hpend.mem_iff.2 List.mem_cons_self
    exact List.disjoint_of_nodup_append hm.nodup hmem hu
  have hunseen : (d.complete x (l ++ l')).unseen = d.unseen ++ [x.head] := by
    have hlt := Disk.length_lt (List.Nodup.of_append_right hm.nodup)
      (fun h hh => (hm.head_in_use (List.mem_append_right _ hh)).1)
      (hxr ▸ (hm.in_use (DiskPc.chain_of_submitted hp) 0).1) hnot
    exact Disk.unseen_complete hlt
  have hperm : (d.complete x (l ++ l')).heads.Perm d.heads := by
    rw [Disk.heads, hunseen, Disk.heads, ← List.append_assoc]
    refine (List.perm_append_singleton _ _).trans ?_
    rw [← List.cons_append]
    exact hpend.symm.append_right d.unseen
  have hstatus : ∀ i, (d.complete x (l ++ l')).infoStatus i =
      if i = c.i0 then 0 else d.infoStatus i := by
    intro i
    rw [Disk.complete, hxr]
    exact update_apply ..
  constructor
  · exact hm.owns
  · intro q r' c' hq
    exact (hm.linked q r' c' hq).congr (fun _ => rfl) rfl rfl
  · exact hperm.nodup_iff.2 hm.nodup
  · intro h hh
    exact hm.head h (hperm.mem_iff.1 hh)
  · intro q r' c' hq
    rw [hperm.mem_iff]
    exact hm.busy q r' c' hq
  · exact hm.ready
  · intro h hh
    rw [hunseen] at hh
    rw [hstatus]
    split_ifs with hc
    · rfl
    · rcases List.mem_append.1 hh with hh | hh
      · exact hm.status h hh
      · rw [List.mem_singleton.1 hh, hxr] at hc
        exact (hc rfl).elim
  · intro y hy
    refine hm.device y ?_
    rw [hi]
    rcases List.mem_append.1 hy with hy | hy
    · exact List.mem_append_left _ hy
    · exact List.mem_append_right _ (List.mem_cons_of_mem _ hy)

/-- Formatting a chain does not touch what the device has to do. -/
theorem pending_formatted (hm : Matched d pc) (hf : d.Fresh c) :
    (formatted d r c).pending = d.pending := by
  have hhead : c.i0 ∉ d.heads := by
    intro hh
    have hfree := (hm.head_in_use hh).2
    rw [show d.free c.i0 = true from hf.free 0] at hfree
    cases hfree
  rw [Disk.pending, Disk.pending,
    show (formatted d r c).queued = d.queued from Disk.queued_store (hm.lengths (hf.lt 0) hhead).1]
  rfl

theorem pending_submit (hm : Matched d pc) (hp : (pc p).chain = some (r, c))
    (hn : (pc p).submitted = none) :
    (Disk.pending { d with availIdx := d.availIdx + 1 }).Perm (c.i0 :: d.pending) := by
  have hhead := hm.not_mem_heads hp hn
  have hqueued : Disk.queued { d with availIdx := d.availIdx + 1 } = d.queued ++ [c.i0] := by
    rw [Disk.queued_submit (hm.lengths (hm.in_use hp 0).1 hhead).1, (hm.ready p r c hp hn).2]
  rw [Disk.pending, hqueued, List.append_assoc, Disk.pending]
  exact List.perm_middle

end Matched

/-! ## Runs -/

/-- How far the request of a process has got in the device. -/
inductive DiskLog
  | idle
  | submitted (h : ℕ)
  | completed (h : ℕ)
  deriving DecidableEq

/-- The same after one more event. -/
def DiskLog.step (p : ι) (l : DiskLog) : DiskEvent β ι → DiskLog
  | .submit q h => if q = p then submitted h else l
  | .complete h => if l = submitted h then completed h else l
  | .ret q => if q = p then idle else l
  | .call _ _ | .acquire _ | .alloc _ | .allocFail _ | .sleep _ | .kill _ | .intr | .seen _
  | .intrDone | .fetch _ | .panic | .wild => l

/-- The request of process `p` after the events. -/
def diskLog (p : ι) (es : List (DiskEvent β ι)) : DiskLog :=
  es.foldl (DiskLog.step p) .idle

section Pc

variable (pc : DiskPc β) (b : β)

@[simp]
theorem DiskPc.woken_chain : pc.woken.chain = pc.chain := by cases pc <;> rfl

@[simp]
theorem DiskPc.woken_submitted : pc.woken.submitted = pc.submitted := by cases pc <;> rfl

@[simp]
theorem DiskPc.woken_req : pc.woken.req = pc.req := by cases pc <;> rfl

@[simp]
theorem DiskPc.woken_holds : pc.woken.holds = pc.holds := by cases pc <;> rfl

@[simp]
theorem DiskPc.wakeupFree_chain : pc.wakeupFree.chain = pc.chain := by cases pc <;> rfl

@[simp]
theorem DiskPc.wakeupFree_submitted : pc.wakeupFree.submitted = pc.submitted := by cases pc <;> rfl

@[simp]
theorem DiskPc.wakeupFree_req : pc.wakeupFree.req = pc.req := by cases pc <;> rfl

@[simp]
theorem DiskPc.wakeupFree_holds : pc.wakeupFree.holds = pc.holds := by cases pc <;> rfl

theorem DiskPc.wakeupBuf_cases :
    pc.wakeupBuf b = pc ∨ ∃ r c, pc = asleepBuf r c ∧ pc.wakeupBuf b = wokenBuf r c := by
  cases pc with
  | asleepBuf r c =>
    by_cases hb : r.b = b
    · exact .inr ⟨r, c, rfl, by simp [wakeupBuf, hb]⟩
    · exact .inl (by simp [wakeupBuf, hb])
  | _ => exact .inl rfl

@[simp]
theorem DiskPc.wakeupBuf_chain : (pc.wakeupBuf b).chain = pc.chain := by
  rcases pc.wakeupBuf_cases b with h | ⟨r, c, h, h'⟩
  · rw [h]
  · rw [h', h]
    rfl

@[simp]
theorem DiskPc.wakeupBuf_submitted : (pc.wakeupBuf b).submitted = pc.submitted := by
  rcases pc.wakeupBuf_cases b with h | ⟨r, c, h, h'⟩
  · rw [h]
  · rw [h', h]
    rfl

@[simp]
theorem DiskPc.wakeupBuf_req : (pc.wakeupBuf b).req = pc.req := by
  rcases pc.wakeupBuf_cases b with h | ⟨r, c, h, h'⟩
  · rw [h]
  · rw [h', h]
    rfl

@[simp]
theorem DiskPc.wakeupBuf_holds : (pc.wakeupBuf b).holds = pc.holds := by
  rcases pc.wakeupBuf_cases b with h | ⟨r, c, h, h'⟩
  · rw [h]
  · rw [h', h]
    rfl

end Pc

namespace DiskSys

variable {s t : DiskSys β ι} {p q : ι} {e : DiskEvent β ι} {es : List (DiskEvent β ι)}

@[simp]
theorem goto_pc (pc : DiskPc β) : (s.goto p pc).pc q = if q = p then pc else s.pc q :=
  update_apply ..

@[simp]
theorem goto_disk (pc : DiskPc β) : (s.goto p pc).disk = s.disk :=
  rfl

@[simp]
theorem goto_lock (pc : DiskPc β) : (s.goto p pc).lock = s.lock :=
  rfl

@[simp]
theorem wakeupFree_pc : s.wakeupFree.pc q = (s.pc q).wakeupFree :=
  rfl

@[simp]
theorem wakeupFree_disk : s.wakeupFree.disk = s.disk :=
  rfl

@[simp]
theorem wakeupFree_lock : s.wakeupFree.lock = s.lock :=
  rfl

@[simp]
theorem wakeupBuf_pc (b : β) : (s.wakeupBuf b).pc q = (s.pc q).wakeupBuf b :=
  rfl

@[simp]
theorem wakeupBuf_disk (b : β) : (s.wakeupBuf b).disk = s.disk :=
  rfl

@[simp]
theorem wakeupBuf_lock (b : β) : (s.wakeupBuf b).lock = s.lock :=
  rfl

/-- The lock has a holder whose code says so, requests in progress have different buffers, and
the chains and heads are matched to them. -/
structure Inv (es : List (DiskEvent β ι)) (s : DiskSys β ι) : Prop where
  lock : ∀ p, s.lock = .proc p ↔ (s.pc p).holds = true
  bufs : ∀ p q r r', (s.pc p).req = some r → (s.pc q).req = some r' → r.b = r'.b → p = q
  matched : Matched s.disk s.pc
  log : ∀ p r c, (s.pc p).submitted = some (r, c) →
    diskLog p es = if c.i0 ∈ s.disk.pending then .submitted c.i0 else .completed c.i0

theorem req_of_chain {pc : DiskPc β} {r : DiskReq β} {c : Chain} (h : pc.chain = some (r, c)) :
    pc.req = some r := by
  cases pc <;> simp_all [DiskPc.chain, DiskPc.req]

namespace Inv

theorem boot (h : Boot s) : Inv [] s := by
  obtain ⟨hf, ha, hu, hui, hd, hin, hl, hpc⟩ := h
  have hheads : s.disk.heads = [] := by
    simp [Disk.heads, Disk.pending, Disk.queued, Disk.unseen, ha, hu, hui, hd, hin]
  refine ⟨fun p => ?_, fun p q r r' hp => ?_, ⟨Owns.empty (fun x => ?_) fun i => ?_,
    fun p r c hp => ?_, ?_, fun h hh => ?_, fun p r c hp => ?_, fun p r c hp => ?_,
    fun h hh => ?_, fun x hx => ?_⟩, fun p r c hp => ?_⟩
  · simp [hl, hpc, DiskPc.holds]
  · simp [hpc, DiskPc.req] at hp
  · simp [place, hpc, DiskPc.chain]
  · rintro ⟨hi, hfree⟩
    simp [hf i hi] at hfree
  · simp [hpc, DiskPc.chain] at hp
  · simp [hheads]
  · simp [hheads] at hh
  · simp [hpc, DiskPc.submitted] at hp
  · simp [hpc, DiskPc.chain] at hp
  · have hh' : h ∈ s.disk.heads := List.mem_append_right _ hh
    simp [hheads] at hh'
  · simp [hin] at hx
  · simp [hpc, DiskPc.submitted] at hp

theorem lock_step (h : Inv es s) (hs : Step s e t) (q : ι) :
    t.lock = .proc q ↔ (t.pc q).holds = true := by
  have hq := h.lock q
  cases hs with
  | seen b hl hu hst hb => simpa using hq
  | intr hl => simp_all
  | intrDone hl hu => simp_all
  | fetch hi => exact hq
  | complete r l l' hi => exact hq
  | allocPanic | retPanic | statusPanic | wild => exact hq
  | kill p =>
    by_cases hqp : q = p
    · subst hqp
      simpa using hq
    · simpa [hqp] using hq
  | allocFail p r d hpc hd =>
    have hlp := (h.lock p).2 (by rw [hpc]; rfl)
    by_cases hqp : q = p
    · subst hqp
      split_ifs <;> simp [DiskPc.holds]
    · have hno := mt hq.2 (by simp [hlp, Ne.symm hqp])
      split_ifs <;> simp [hqp, hno]
  | ret p r c d hpc hb hd =>
    have hlp := (h.lock p).2 (by rw [hpc]; rfl)
    by_cases hqp : q = p
    · subst hqp
      simp [DiskPc.holds]
    · have hno := mt hq.2 (by simp [hlp, Ne.symm hqp])
      simp [hqp, hno]
  | call p _ hpc | acquire p r hpc hl | alloc p r c d hpc hd | submit p r c hpc | sleep p r c hpc hb
  | reacquire p r c hpc hl =>
    have hp := h.lock p
    by_cases hqp : q = p
    · subst hqp
      simp_all [DiskPc.holds]
    · have hne := Ne.symm hqp
      simp_all [DiskPc.holds]

/-- A process keeps its call until it returns, and takes a buffer nobody else has. -/
theorem req_step (hs : Step s e t) (q : ι) {r : DiskReq β} (hq : (t.pc q).req = some r) :
    (s.pc q).req = some r ∨
      ((s.pc q).req = none ∧ (∀ q' r', (s.pc q').req = some r' → r'.b ≠ r.b) ∧
        ∀ q', q' ≠ q → t.pc q' = s.pc q') := by
  cases hs with
  | call p r' hpc hb =>
    by_cases hqp : q = p
    · subst hqp
      obtain rfl : r' = r := by simpa [DiskPc.req] using hq
      exact .inr ⟨by simp [hpc, DiskPc.req], hb, fun q' hq' => by simp [hq']⟩
    · exact .inl (by simpa [hqp] using hq)
  | kill p =>
    by_cases hqp : q = p
    · subst hqp
      exact .inl (by simpa using hq)
    · exact .inl (by simpa [hqp] using hq)
  | allocFail p r' d hpc hd =>
    by_cases hqp : q = p
    · subst hqp
      rw [hpc]
      exact .inl (by simpa [DiskPc.req] using hq)
    · refine .inl ?_
      split_ifs at hq <;> simpa [hqp] using hq
  | seen b hl hu hst hb => exact .inl (by simpa using hq)
  | acquire p r' hpc hl =>
    by_cases hqp : q = p
    · subst hqp
      rcases hpc with hpc | hpc <;> rw [hpc] <;> exact .inl (by simpa [DiskPc.req] using hq)
    · exact .inl (by simpa [hqp] using hq)
  | alloc p r' c d hpc hd | submit p r' c hpc | sleep p r' c hpc hb | reacquire p r' c hpc hl =>
    by_cases hqp : q = p
    · subst hqp
      rw [hpc]
      exact .inl (by simpa [DiskPc.req] using hq)
    · exact .inl (by simpa [hqp] using hq)
  | ret p r' c d hpc hb hd =>
    by_cases hqp : q = p
    · simp [hqp, DiskPc.req] at hq
    · exact .inl (by simpa [hqp] using hq)
  | intr | intrDone | fetch | complete | allocPanic | retPanic | statusPanic | wild => exact .inl hq

theorem bufs_step (h : Inv es s) (hs : Step s e t) (p q : ι) (r r' : DiskReq β)
    (hp : (t.pc p).req = some r) (hq : (t.pc q).req = some r') (hb : r.b = r'.b) : p = q := by
  by_contra hne
  rcases req_step hs p hp with hp' | ⟨-, hnew, hrest⟩ <;>
    rcases req_step hs q hq with hq' | ⟨-, hnew', hrest'⟩
  · exact hne (h.bufs p q r r' hp' hq' hb)
  · exact hnew' p r hp' hb
  · exact hnew q r' hq' hb.symm
  · rw [hrest q (Ne.symm hne)] at hq
    exact hnew q r' hq hb.symm

/-- Requests with a chain have different buffers. -/
theorem chain_bufs (h : Inv es s) (p q : ι) (r r' : DiskReq β) (c c' : Chain)
    (hp : (s.pc p).chain = some (r, c)) (hq : (s.pc q).chain = some (r', c'))
    (hb : r.b = r'.b) : p = q :=
  h.bufs p q r r' (req_of_chain hp) (req_of_chain hq) hb

/-- A chain that the device has not been told of belongs to the holder of the lock. -/
theorem submitted_of_chain (h : Inv es s) (hp : s.lock = .proc p) {x : DiskReq β × Chain}
    (hqp : q ≠ p) (hq : (s.pc q).chain = some x) : (s.pc q).submitted = some x := by
  cases hpc : s.pc q with
  | formatted r c =>
    have hlq := (h.lock q).2 (by rw [hpc]; rfl)
    exact absurd (DiskLock.proc.inj (hlq.symm.trans hp)) hqp
  | _ =>
    rw [hpc] at hq
    exact hq

theorem alloc_some {d : Disk β} {o : Option Chain} (hd : s.disk.alloc3Desc = some (d, o)) :
    (∃ c, s.disk.Fresh c ∧ o = some c ∧ d = { s.disk with
      free := update (update (update s.disk.free c.i0 false) c.i1 false) c.i2 false }) ∨
    (o = none ∧ ∃ desc, (∀ i, s.disk.free i = false → desc i = s.disk.desc i) ∧
      d = { s.disk with desc := desc }) := by
  rcases s.disk.alloc3Desc_spec with ⟨c, hf, heq⟩ | ⟨desc, hdesc, heq⟩
  · obtain ⟨rfl, rfl⟩ := Prod.mk.inj (Option.some.inj (hd.symm.trans heq))
    exact .inl ⟨c, hf, rfl, rfl⟩
  · obtain ⟨rfl, rfl⟩ := Prod.mk.inj (Option.some.inj (hd.symm.trans heq))
    exact .inr ⟨rfl, desc, hdesc, rfl⟩

/-- `free_chain` frees the three descriptors of the request. -/
theorem freeChain_some (h : Inv es s) {r : DiskReq β} {c : Chain}
    (hp : (s.pc p).chain = some (r, c)) :
    Disk.freeChain (NUM + 1) { s.disk with infoB := update s.disk.infoB c.i0 none } c.i0 =
      some (Disk.unlink { s.disk with infoB := update s.disk.infoB c.i0 none } c) := by
  obtain ⟨h01, h02, h12⟩ := h.matched.ne hp
  have hdesc : ∀ k, Disk.desc { s.disk with infoB := update s.disk.infoB c.i0 none } (c.get k) =
      s.disk.desc (c.get k) := fun k => rfl
  exact Disk.freeChain_eq hdesc (h.matched.linked p r c hp)
    (fun k => (h.matched.in_use hp k).1) (fun k => (h.matched.in_use hp k).2) h01 h02 h12

theorem matched_step (h : Inv es s) (hs : Step s e t) : Matched t.disk t.pc := by
  have hm := h.matched
  cases hs with
  | call p r hpc hb =>
    refine hm.congr (fun q => ?_) fun q => ?_ <;>
    · by_cases hqp : q = p
      · subst hqp
        simp [hpc, DiskPc.chain, DiskPc.submitted]
      · simp [hqp]
  | acquire p r hpc hl =>
    refine hm.congr (fun q => ?_) fun q => ?_ <;>
    · by_cases hqp : q = p
      · subst hqp
        rcases hpc with hpc | hpc <;> simp [hpc, DiskPc.chain, DiskPc.submitted]
      · simp [hqp]
  | sleep p r c hpc hb | reacquire p r c hpc hl =>
    refine hm.congr (fun q => ?_) fun q => ?_ <;>
    · by_cases hqp : q = p
      · subst hqp
        simp [hpc, DiskPc.chain, DiskPc.submitted]
      · simp [hqp]
  | kill p =>
    refine hm.congr (fun q => ?_) fun q => ?_ <;>
    · by_cases hqp : q = p
      · subst hqp
        simp
      · simp [hqp]
  | alloc p r c d hpc hd =>
    rcases alloc_some hd with ⟨c', hf, hc, rfl⟩ | ⟨hc, -⟩
    · obtain rfl := Option.some.inj hc
      have hlp := (h.lock p).2 (by rw [hpc]; rfl)
      have hnone : (s.pc p).chain = none := by rw [hpc]; rfl
      refine hm.format hf hnone (by simp [DiskPc.chain]) (by simp [DiskPc.submitted])
        (fun q hq => by simp [hq]) (fun q x hq => ?_) fun q r' c' hq hb => ?_
      · exact h.submitted_of_chain hlp (fun hqp => by simp [hqp, hnone] at hq) hq
      · have hqp := h.bufs q p r' r (req_of_chain hq) (by rw [hpc]; rfl) hb
        simp [hqp, hnone] at hq
    · cases hc
  | allocFail p r d hpc hd =>
    rcases alloc_some hd with ⟨c', hf, hc, rfl⟩ | ⟨-, desc, hdesc, rfl⟩
    · cases hc
    · have hmd := hm.clear hdesc
      split_ifs
      all_goals
        refine hmd.congr (fun q => ?_) fun q => ?_ <;>
        · by_cases hqp : q = p
          · subst hqp
            simp [hpc, DiskPc.chain, DiskPc.submitted]
          · simp [hqp]
  | submit p r c hpc =>
    have hlp := (h.lock p).2 (by rw [hpc]; rfl)
    refine hm.submit (p := p) (r := r) (c := c) (by rw [hpc]; rfl) (by rw [hpc]; rfl)
      (by simp [DiskPc.chain]) (by simp [DiskPc.submitted]) (fun q hq => by simp [hq])
      fun q x hqp hq => h.submitted_of_chain hlp hqp hq
  | ret p r c d hpc hb hd =>
    have hchain : (s.pc p).chain = some (r, c) := by rw [hpc]; rfl
    obtain rfl := Option.some.inj ((h.freeChain_some hchain).symm.trans hd)
    exact hm.ret (p := p) (r := r) (c := c) (by rw [hpc]; rfl) hb (by simp [DiskPc.chain])
      (fun q hq => by simp [hq]) fun q hq => by simp [hq]
  | seen b hl hu hst hb =>
    have hms := hm.seen hu hb fun p q r r' c c' => h.chain_bufs p q r r' c c'
    exact hms.congr (fun q => by simp) fun q => by simp
  | intr | intrDone | allocPanic | retPanic | statusPanic | wild => exact hm
  | fetch hi => exact hm.fetch hi
  | complete r l l' hi => exact hm.complete hi

theorem diskLog_append : diskLog p (es ++ [e]) = (diskLog p es).step p e := by
  simp [diskLog]

/-- But for a submission or a completion, a request that is submitted after the step was before
it, and is no further. -/
theorem frame (h : Inv es s) (hs : Step s e t) :
    (∃ p i, e = .submit p i) ∨ (∃ i, e = .complete i) ∨
    ((∀ q x, (t.pc q).submitted = some x →
        (s.pc q).submitted = some x ∧ ∀ l : DiskLog, l.step q e = l) ∧
      t.disk.pending.Perm s.disk.pending) := by
  have hm := h.matched
  cases hs with
  | submit p r c hpc => exact .inl ⟨p, c.i0, rfl⟩
  | complete x l l' hi => exact .inr (.inl ⟨x.head, rfl⟩)
  | ret p r c d hpc hb hd =>
    have hchain : (s.pc p).chain = some (r, c) := by rw [hpc]; rfl
    obtain rfl := Option.some.inj ((h.freeChain_some hchain).symm.trans hd)
    refine .inr (.inr ⟨fun q x hq => ?_, List.Perm.refl _⟩)
    by_cases hqp : q = p
    · simp [hqp, DiskPc.submitted] at hq
    · exact ⟨by simpa [hqp] using hq, fun l => if_neg (Ne.symm hqp)⟩
  | alloc p r c d hpc hd =>
    rcases alloc_some hd with ⟨c', hf, hc, rfl⟩ | ⟨hc, -⟩
    · obtain rfl := Option.some.inj hc
      refine .inr (.inr ⟨fun q x hq => ?_, List.Perm.of_eq (hm.pending_formatted hf)⟩)
      by_cases hqp : q = p
      · simp [hqp, DiskPc.submitted] at hq
      · exact ⟨by simpa [hqp] using hq, fun l => rfl⟩
    · cases hc
  | allocFail p r d hpc hd =>
    rcases alloc_some hd with ⟨c', hf, hc, rfl⟩ | ⟨-, desc, hdesc, rfl⟩
    · cases hc
    · split_ifs
      all_goals
        refine .inr (.inr ⟨fun q x hq => ?_, List.Perm.refl _⟩)
        by_cases hqp : q = p
        · simp [hqp, DiskPc.submitted] at hq
        · exact ⟨by simpa [hqp] using hq, fun l => rfl⟩
  | call p r hpc hb | acquire p r hpc hl =>
    refine .inr (.inr ⟨fun q x hq => ?_, List.Perm.refl _⟩)
    by_cases hqp : q = p
    · simp [hqp, DiskPc.submitted] at hq
    · exact ⟨by simpa [hqp] using hq, fun l => rfl⟩
  | sleep p r c hpc hb | reacquire p r c hpc hl =>
    refine .inr (.inr ⟨fun q x hq => ⟨?_, fun l => rfl⟩, List.Perm.refl _⟩)
    by_cases hqp : q = p
    · subst hqp
      rw [hpc]
      simpa [DiskPc.submitted] using hq
    · simpa [hqp] using hq
  | kill p =>
    refine .inr (.inr ⟨fun q x hq => ⟨?_, fun l => rfl⟩, List.Perm.refl _⟩)
    by_cases hqp : q = p
    · subst hqp
      simpa using hq
    · simpa [hqp] using hq
  | seen b hl hu hst hb =>
    exact .inr (.inr ⟨fun q x hq => ⟨by simpa using hq, fun l => rfl⟩, List.Perm.refl _⟩)
  | fetch hi =>
    exact .inr (.inr ⟨fun q x hq => ⟨hq, fun l => rfl⟩, Matched.pending_fetch hi⟩)
  | intr | intrDone | allocPanic | retPanic | statusPanic | wild =>
    exact .inr (.inr ⟨fun q x hq => ⟨hq, fun l => rfl⟩, List.Perm.refl _⟩)

theorem log_step (h : Inv es s) (hs : Step s e t) (q : ι) (r : DiskReq β) (c : Chain)
    (hq : (t.pc q).submitted = some (r, c)) :
    diskLog q (es ++ [e]) =
      if c.i0 ∈ t.disk.pending then .submitted c.i0 else .completed c.i0 := by
  have hm := h.matched
  rcases h.frame hs with ⟨p, i, rfl⟩ | ⟨i, rfl⟩ | ⟨hsame, hpend⟩
  · obtain ⟨r', c', hpc, rfl, rfl⟩ : ∃ r' c', s.pc p = .formatted r' c' ∧ c'.i0 = i ∧
        t = { s with disk := { s.disk with availIdx := s.disk.availIdx + 1 } }.goto p
          (.wait r' c') := by
      cases hs with
      | submit _ r' c' hpc => exact ⟨r', c', hpc, rfl, rfl⟩
    have hchain : (s.pc p).chain = some (r', c') := by rw [hpc]; rfl
    have hperm := hm.pending_submit hchain (by rw [hpc]; rfl)
    rw [diskLog_append]
    by_cases hqp : q = p
    · subst hqp
      obtain ⟨rfl, rfl⟩ : r' = r ∧ c' = c := by simpa [DiskPc.submitted] using hq
      have hmem : c'.i0 ∈ Disk.pending { s.disk with availIdx := s.disk.availIdx + 1 } :=
        hperm.mem_iff.2 List.mem_cons_self
      rw [goto_disk, if_pos hmem]
      simp [DiskLog.step]
    · have hqs : (s.pc q).submitted = some (r, c) := by simpa [hqp] using hq
      have hne : c.i0 ≠ c'.i0 := fun he =>
        hqp (hm.unique (k := 0) (l := 0) (DiskPc.chain_of_submitted hqs) hchain he).1
      have hmem : c.i0 ∈ Disk.pending { s.disk with availIdx := s.disk.availIdx + 1 } ↔
          c.i0 ∈ s.disk.pending := by
        rw [hperm.mem_iff, List.mem_cons]
        simp [hne]
      have hstep : (diskLog q es).step q (.submit p c'.i0 : DiskEvent β ι) = diskLog q es := by
        simp [DiskLog.step, Ne.symm hqp]
      rw [hstep, h.log q r c hqs]
      simp only [goto_disk, hmem]
  · obtain ⟨x, l, l', hi, rfl, rfl⟩ : ∃ x l l', s.disk.inflight = l ++ x :: l' ∧ x.head = i ∧
        t = { s with disk := s.disk.complete x (l ++ l') } := by
      cases hs with
      | complete x l l' hi => exact ⟨x, l, l', hi, rfl, rfl⟩
    have hperm := Matched.pending_complete hi
    have hnd : (x.head :: (s.disk.complete x (l ++ l')).pending).Nodup :=
      hperm.nodup_iff.1 (List.Nodup.of_append_left hm.nodup)
    have hnot := (List.nodup_cons.1 hnd).1
    rw [diskLog_append, h.log q r c hq]
    by_cases hc : c.i0 = x.head
    · have hmem : c.i0 ∈ s.disk.pending := hperm.mem_iff.2 (hc ▸ List.mem_cons_self)
      rw [if_pos hmem, if_neg (hc ▸ hnot)]
      simp [DiskLog.step, hc]
    · have hmem : c.i0 ∈ s.disk.pending ↔ c.i0 ∈ (s.disk.complete x (l ++ l')).pending := by
        rw [hperm.mem_iff, List.mem_cons]
        simp [hc]
      by_cases hpend : c.i0 ∈ s.disk.pending
      · rw [if_pos hpend, if_pos (hmem.1 hpend)]
        simp [DiskLog.step, hc]
      · rw [if_neg hpend, if_neg (mt hmem.2 hpend)]
        simp [DiskLog.step]
  · obtain ⟨hqs, hstep⟩ := hsame q _ hq
    rw [diskLog_append, hstep, h.log q r c hqs]
    simp only [hpend.mem_iff]

theorem step (h : Inv es s) (hs : Step s e t) : Inv (es ++ [e]) t where
  lock := h.lock_step hs
  bufs := h.bufs_step hs
  matched := h.matched_step hs
  log := h.log_step hs

theorem no_panic (h : Inv es s) (t : DiskSys β ι) : ¬Step s .panic t := by
  intro hs
  cases hs with
  | allocPanic p r hpc hd =>
    rcases s.disk.alloc3Desc_spec with ⟨c, hf, heq⟩ | ⟨desc, hdesc, heq⟩
    · cases hd.symm.trans heq
    · cases hd.symm.trans heq
  | retPanic p r c hpc hb hd =>
    cases hd.symm.trans (h.freeChain_some (r := r) (by rw [hpc]; rfl))
  | statusPanic hl hu hst => exact hst (h.matched.nextUsed hu).1

theorem no_wild (h : Inv es s) (t : DiskSys β ι) : ¬Step s .wild t := by
  intro hs
  cases hs with
  | wild hl hu hst hb =>
    obtain ⟨-, p, r, c, -, -, hbuf, -⟩ := h.matched.nextUsed hu
    cases hb.symm.trans hbuf

/-- The entries of the available ring that the device has yet to read stay, and one is read or
one comes behind them. -/
theorem queued_step (h : Inv es s) (hs : Step s e t) :
    s.disk.queued <+: t.disk.queued ∨ ∃ i, e = .fetch i ∧ s.disk.queued = i :: t.disk.queued := by
  have hm := h.matched
  cases hs with
  | submit p r c hpc =>
    have hchain : (s.pc p).chain = some (r, c) := by rw [hpc]; rfl
    have hnone : (s.pc p).submitted = none := by rw [hpc]; rfl
    refine .inl ?_
    rw [goto_disk, Disk.queued_submit (hm.lengths (hm.in_use hchain 0).1
      (hm.not_mem_heads hchain hnone)).1]
    exact List.prefix_append _ _
  | alloc p r c d hpc hd =>
    rcases alloc_some hd with ⟨c', hf, hc, rfl⟩ | ⟨hc, -⟩
    · obtain rfl := Option.some.inj hc
      have hhead : c.i0 ∉ s.disk.heads := by
        intro hh
        have hfree := (hm.head_in_use hh).2
        rw [show s.disk.free c.i0 = true from hf.free 0] at hfree
        cases hfree
      have hqueued : (Matched.formatted s.disk r c).queued = s.disk.queued :=
        Disk.queued_store (hm.lengths (hf.lt 0) hhead).1
      exact .inl ⟨[], by rw [List.append_nil]; exact hqueued.symm⟩
    · cases hc
  | allocFail p r d hpc hd =>
    rcases alloc_some hd with ⟨c', hf, hc, rfl⟩ | ⟨-, desc, hdesc, rfl⟩
    · cases hc
    · split_ifs
      all_goals exact .inl (List.prefix_refl _)
  | ret p r c d hpc hb hd =>
    obtain rfl := Option.some.inj ((h.freeChain_some (r := r) (by rw [hpc]; rfl)).symm.trans hd)
    exact .inl (List.prefix_refl _)
  | fetch hi => exact .inr ⟨_, rfl, Disk.queued_fetch hi⟩
  | _ => exact .inl (List.prefix_refl _)

/-- `virtio_disk_rw` returns when its own request has been completed. -/
theorem of_ret (h : Inv es s) (hs : Step s (.ret p) t) : ∃ i, diskLog p es = .completed i := by
  cases hs with
  | ret _ r c d hpc hb hd =>
    have hsub : (s.pc p).submitted = some (r, c) := by rw [hpc]; rfl
    have hnot : c.i0 ∉ s.disk.pending := by
      intro hmem
      have hbusy := (h.matched.busy p r c hsub).2 (List.mem_append_left _ hmem)
      rw [hb] at hbusy
      cases hbusy
    exact ⟨c.i0, by rw [h.log p r c hsub, if_neg hnot]⟩

/-- The handler clears the buffer of the request that has been completed, and no other. -/
theorem of_seen {i : ℕ} (h : Inv es s) (hs : Step s (.seen i) t) :
    ∃ p r c, (s.pc p).submitted = some (r, c) ∧ diskLog p es = .completed i ∧
      s.disk.busy r.b = true ∧ t.disk.busy = update s.disk.busy r.b false := by
  cases hs with
  | seen b hl hu hst hb =>
    obtain ⟨-, p, r, c, hp, hi, hbuf, hbusy, hpend⟩ := h.matched.nextUsed hu
    obtain rfl : r.b = b := Option.some.inj (hbuf.symm.trans hb)
    refine ⟨p, r, c, hp, ?_, hbusy, rfl⟩
    rw [h.log p r c hp, hi, if_neg hpend]

end Inv

/-- For any processes in `virtio_disk_rw` on different buffers, and a device that completes each
chain once, in any order : a descriptor belongs to one place of one request in progress, and those
that belong to none are the ones marked free; what the device has yet to read of the available
ring stays there until it reads it, and it reads each request as it was made; a call returns when
its own request has been completed, a completion clears the buffer of its own request and no
other, and neither `free_desc` nor the handler panics. -/
theorem disk_matched {s₀ : DiskSys β ι} (h0 : Boot s₀) (h : Run Step s₀ es s) :
    (∀ p q r r' c c' k k', (s.pc p).chain = some (r, c) → (s.pc q).chain = some (r', c') →
      c.get k = c'.get k' → p = q ∧ k = k') ∧
    (∀ i < NUM, s.disk.free i = true ↔
      ∀ p r c k, (s.pc p).chain = some (r, c) → c.get k ≠ i) ∧
    (∀ e t, Step s e t → s.disk.queued <+: t.disk.queued ∨
      ∃ i, e = .fetch i ∧ s.disk.queued = i :: t.disk.queued) ∧
    (∀ x ∈ s.disk.inflight, ∃ p r c, (s.pc p).submitted = some (r, c) ∧ x = r.asRead c) ∧
    (∀ p t, Step s (.ret p) t → ∃ i, diskLog p es = .completed i) ∧
    (∀ i t, Step s (.seen i) t → ∃ p r c, (s.pc p).submitted = some (r, c) ∧
      diskLog p es = .completed i ∧ s.disk.busy r.b = true ∧
      t.disk.busy = update s.disk.busy r.b false) ∧
    ∀ t, ¬Step s .panic t ∧ ¬Step s .wild t := by
  have hI : Inv es s := h.invariant (.boot h0) fun _ _ _ _ _ hI hs => hI.step hs
  refine ⟨fun p q r r' c c' k k' => hI.matched.unique, fun i hi => ?_, fun e t => hI.queued_step,
    hI.matched.device, fun p t => hI.of_ret, fun i t => hI.of_seen,
    fun t => ⟨hI.no_panic t, hI.no_wild t⟩⟩
  constructor
  · rintro hf p r c k hp rfl
    rw [(hI.matched.in_use hp k).2] at hf
    cases hf
  · intro hno
    by_contra hf
    obtain ⟨⟨p, k⟩, hp⟩ := hI.matched.owns.owned i ⟨hi, Bool.not_eq_true _ ▸ hf⟩
    obtain ⟨⟨r, c⟩, hc, hk⟩ := Option.map_eq_some_iff.1 hp
    exact hno p r c k hc hk

/-- A process reads a block : it sleeps until the device is done, and returns. -/
theorem disk_matched_read : ∃ (s₀ s t : DiskSys Unit Unit) (es : List (DiskEvent Unit Unit)),
    Boot s₀ ∧ Run Step s₀ es s ∧ Step s (.ret ()) t ∧ ∃ i, diskLog () es = .completed i := by
  have hb : Boot (zero : DiskSys Unit Unit) :=
    ⟨fun _ _ => rfl, rfl, rfl, rfl, rfl, rfl, rfl, fun _ => rfl⟩
  have hr : Run Step (zero : DiskSys Unit Unit) [] zero := .nil
  have hr := hr.snoc (.call () ⟨(), 1, false⟩ rfl (by simp [zero, DiskPc.req]))
  have hr := hr.snoc (.acquire () _ (.inl rfl) rfl)
  have hr := hr.snoc (.alloc () _ ⟨0, 1, 2⟩ _ rfl rfl)
  have hr := hr.snoc (.submit () _ _ rfl)
  have hr := hr.snoc (.sleep () _ _ rfl rfl)
  have hr := hr.snoc (.fetch (by decide))
  have hr := hr.snoc (.complete _ [] [] rfl)
  have hr := hr.snoc (.intr rfl)
  have hr := hr.snoc (.seen () rfl (by decide) rfl rfl)
  have hr := hr.snoc (.intrDone rfl rfl)
  have hr := hr.snoc (.reacquire () _ _ rfl rfl)
  refine ⟨_, _, _, _, hb, hr, .ret () _ _ _ rfl rfl rfl, ?_⟩
  exact (disk_matched hb hr).2.2.2.2.1 () _ (.ret () _ _ _ rfl rfl rfl)

end DiskSys

end CowPbs
