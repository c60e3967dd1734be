import Mathlib
import CowPbs.FsTree

/-!
# Path names

`skipelem` takes the next element off a path, and `namex` walks through the directories that the
elements name. The elements are the parts of the path between slashes, cut to `DIRSIZ` bytes
(`elems_eq`). `namei` does what `nameiparent` does and then looks up the last element
(`namexLoop_eq`), and each way out of the loop has put back the references it took
(`namexLoop_refs`).
-/

set_option linter.unusedVariables false

open Bytes Function Outcome Ownership Overlay SlotTable Transition

namespace CowPbs

/-- '/' -/
def SLASH : Byte := 47

def ROOTINO : ℕ := 1

/-- The path after its first element, and what `name` is then. -/
def skipelem (path name : List Byte) : Option (List Byte × List Byte) :=
  let s := path.dropWhile (· = SLASH)
  if s = [] then none
  else
    let elem := s.takeWhile (· ≠ SLASH)
    let name := if DIRSIZ ≤ elem.length then elem.take DIRSIZ
      else elem ++ 0 :: name.drop (elem.length + 1)
    some ((s.dropWhile (· ≠ SLASH)).dropWhile (· = SLASH), name)

/-- The names that calls of `skipelem` one after another store, the first `k` at most. -/
def elems : ℕ → List Byte → List Byte → List (List Byte)
  | 0, path, name => []
  | k + 1, path, name =>
    match skipelem path name with
    | none => []
    | some r => Fs.cname r.2 :: elems k r.1 r.2

/-- The nonempty parts of a path between slashes. -/
def components (path : List Byte) : List (List Byte) :=
  (path.splitOn SLASH).filter (· ≠ [])

namespace Fs

section Defs

variable {n : ℕ} (sb : Superblock) (s : Fs n)

/-- The loop of `namex`; each round takes an element off the path. `iunlock` lets go of the
sleep lock, which the model leaves out. -/
def namexLoop (nameiparent : Bool) : ℕ → List Byte → List Byte → Fin n → Fs n →
    Except FsPanic (Option (Fin n) × List Byte × Fs n)
  | 0, path, name, ip, s => .ok (none, name, s)
  | fuel + 1, path, name, ip, s =>
    match skipelem path name with
    | none =>
      if nameiparent then (s.iput sb ip).bind fun s => .ok (none, name, s)
      else .ok (some ip, name, s)
    | some (path, name) =>
      (s.ilock sb ip).bind fun s =>
      if (s.itable ip).copy.type ≠ FileType.dir.code then
        (s.iput sb ip).bind fun s => .ok (none, name, s)
      else if nameiparent ∧ path = [] then .ok (some ip, name, s)
      else
        (s.lookup sb ip name).bind fun r =>
        match r.1 with
        | none => (r.2.iput sb ip).bind fun s => .ok (none, name, s)
        | some next => (r.2.iput sb ip).bind fun s => namexLoop nameiparent fuel path name next.2 s

/-- Where `namex` begins. -/
def namexStart (cwd : Fin n) (path : List Byte) : Except FsPanic (Fin n × Fs n) :=
  if path.head? = some SLASH then s.iget ROOTINO else .ok (cwd, s.idup cwd)

/-- `name` is what the buffer holds before the call. -/
def namex (cwd : Fin n) (path : List Byte) (nameiparent : Bool) (name : List Byte) :
    Except FsPanic (Option (Fin n) × List Byte × Fs n) :=
  (s.namexStart cwd path).bind fun r =>
  namexLoop sb nameiparent (path.length + 1) path name r.1 r.2

def namei (cwd : Fin n) (path name : List Byte) : Except FsPanic (Option (Fin n) × Fs n) :=
  (s.namex sb cwd path false name).bind fun r => .ok (r.1, r.2.2)

def nameiparent (cwd : Fin n) (path name : List Byte) :
    Except FsPanic (Option (Fin n) × List Byte × Fs n) :=
  s.namex sb cwd path true name

/-- `ilock` and `dirlookup`. -/
def lookupIn (dp : Fin n) (name : List Byte) : Except FsPanic (Option (ℕ × Fin n) × Fs n) :=
  (s.ilock sb dp).bind fun s => s.lookup sb dp name

end Defs

end Fs

/-! ## The elements of a path -/

section Elems

variable {path name rest buf : List Byte} {k : ℕ}

theorem components_slash : components (SLASH :: path) = components path := by
  have hsplit := List.splitOn_append_cons_self_of_not_mem (a := SLASH) List.not_mem_nil path
  rw [List.nil_append] at hsplit
  rw [components, hsplit, List.filter_cons_of_neg (by simp), components]

theorem components_dropWhile : components (path.dropWhile (· = SLASH)) = components path := by
  induction path with
  | nil => rfl
  | cons b path ih =>
    by_cases hb : b = SLASH
    · rw [List.dropWhile_cons_of_pos (by simpa using hb), ih, hb, components_slash]
    · rw [List.dropWhile_cons_of_neg (by simpa using hb)]

/-- The first component of a path that does not begin with a slash. -/
theorem components_elem (h : path ≠ []) (h0 : path.head? ≠ some SLASH) :
    path.takeWhile (· ≠ SLASH) ≠ [] ∧ components path =
      path.takeWhile (· ≠ SLASH) :: components (path.dropWhile (· ≠ SLASH)) := by
  have hne : path.takeWhile (· ≠ SLASH) ≠ [] := by
    cases path with
    | nil => exact absurd rfl h
    | cons b path =>
      have hb : b ≠ SLASH := fun hb => h0 (congrArg some hb)
      rw [List.takeWhile_cons_of_pos (by simpa using hb)]
      exact List.cons_ne_nil _ _
  refine ⟨hne, ?_⟩
  have hno : SLASH ∉ path.takeWhile (· ≠ SLASH) := fun hmem => by
    simpa using List.mem_takeWhile_imp hmem
  have happend := List.takeWhile_append_dropWhile (p := (· ≠ SLASH)) (l := path)
  cases hrest : path.dropWhile (· ≠ SLASH) with
  | nil =>
    rw [hrest, List.append_nil] at happend
    rw [happend] at hno ⊢
    rw [components, List.splitOn_eq_singleton hno, List.filter_cons_of_pos (by simpa using h)]
    rfl
  | cons b rest =>
    have hb : b = SLASH := by
      have hhead := List.head?_dropWhile_not (· ≠ SLASH) path
      rw [hrest] at hhead
      simpa using hhead
    rw [hrest, hb] at happend
    have hsplit := List.splitOn_append_cons_self_of_not_mem hno rest
    rw [happend] at hsplit
    rw [components, hsplit, List.filter_cons_of_pos (by simpa using hne), hb, components_slash,
      components]

/-- The path after the slashes does not begin with one. -/
theorem head?_dropWhile : (path.dropWhile (· = SLASH)).head? ≠ some SLASH := by
  intro h
  have hhead := List.head?_dropWhile_not (· = SLASH) path
  rw [h] at hhead
  simp at hhead

theorem components_eq_nil : path.dropWhile (· = SLASH) = [] ↔ components path = [] := by
  rw [← components_dropWhile]
  constructor
  · intro h
    rw [h]
    rfl
  · intro h
    by_contra hne
    rw [(components_elem hne head?_dropWhile).2] at h
    cases h

theorem skipelem_none (h : components path = []) : skipelem path name = none :=
  if_pos (components_eq_nil.2 h)

/-- `skipelem` of a path that has an element. -/
structure Skipped (path rest buf : List Byte) : Prop where
  components : ∃ c, components path = c :: components rest ∧
    ((∀ b ∈ path, b ≠ 0) → Fs.cname buf = c.take DIRSIZ)
  head : rest.head? ≠ some SLASH
  shorter : rest.length < path.length
  subset : ∀ b ∈ rest, b ∈ path

theorem Skipped.components_ne (h : Skipped path rest buf) (hrest : rest ≠ []) :
    CowPbs.components rest ≠ [] := by
  rw [(components_elem hrest h.head).2]
  exact List.cons_ne_nil _ _

/-- The name in the buffer. -/
theorem cname_buf {c : List Byte} (h0 : ∀ b ∈ c, b ≠ 0) :
    Fs.cname (if DIRSIZ ≤ c.length then c.take DIRSIZ else c ++ 0 :: rest) = c.take DIRSIZ := by
  have hall : ∀ l : List Byte, (∀ b ∈ l, b ≠ 0) → l.takeWhile (· ≠ 0) = l := fun l hl =>
    List.takeWhile_eq_self_iff.2 fun b hb => decide_eq_true (hl b hb)
  unfold Fs.cname
  split_ifs with hlen
  · rw [List.take_take, Nat.min_self]
    exact hall _ fun b hb => h0 b (List.mem_of_mem_take hb)
  · have htake : (c ++ 0 :: rest).take DIRSIZ = c ++ (0 :: rest).take (DIRSIZ - c.length) := by
      rw [List.take_append, List.take_of_length_le (by omega)]
    obtain ⟨k, hk⟩ : ∃ k, DIRSIZ - c.length = k + 1 := ⟨DIRSIZ - c.length - 1, by omega⟩
    rw [htake, hk, List.take_succ_cons, List.takeWhile_append_of_pos fun b hb =>
      decide_eq_true (h0 b hb), List.takeWhile_cons_of_neg (by simp), List.append_nil,
      List.take_of_length_le (by omega)]

theorem skipelem_some (name : List Byte) (h : components path ≠ []) :
    ∃ rest buf, skipelem path name = some (rest, buf) ∧ Skipped path rest buf := by
  have hne : path.dropWhile (· = SLASH) ≠ [] := mt components_eq_nil.1 h
  obtain ⟨helem, hcomp⟩ := components_elem hne head?_dropWhile
  have hsub : ∀ b ∈ path.dropWhile (· = SLASH), b ∈ path := fun b hb =>
    (List.dropWhile_sublist _).subset hb
  refine ⟨_, _, if_neg hne, ⟨_, ?_, fun h0 => cname_buf fun b hb => ?_⟩, head?_dropWhile, ?_,
    fun b hb => ?_⟩
  · rw [components_dropWhile, ← hcomp, components_dropWhile]
  · exact h0 b (hsub b ((List.takeWhile_prefix _).subset hb))
  · have hsplit := congrArg List.length
      (List.takeWhile_append_dropWhile (p := (· ≠ SLASH)) (l := path.dropWhile (· = SLASH)))
    rw [List.length_append] at hsplit
    have hpos := List.length_pos_iff.2 helem
    have h₁ := (List.dropWhile_sublist (· = SLASH) (l := path)).length_le
    have h₂ := (List.dropWhile_sublist (· = SLASH)
      (l := (path.dropWhile (· = SLASH)).dropWhile (· ≠ SLASH))).length_le
    omega
  · exact hsub b ((List.dropWhile_sublist _).subset ((List.dropWhile_sublist _).subset hb))

/-- The calls of `skipelem` give the components, cut to `DIRSIZ` bytes, and then no more. -/
theorem elems_eq (h0 : ∀ b ∈ path, b ≠ 0) :
    elems k path name = ((components path).map (List.take DIRSIZ)).take k := by
  induction k generalizing path name with
  | zero => rfl
  | succ k ih =>
    by_cases hc : components path = []
    · rw [elems, skipelem_none hc, hc]
      rfl
    · obtain ⟨rest, buf, hval, hs⟩ := skipelem_some name hc
      obtain ⟨c, hcomp, hbuf⟩ := hs.components
      rw [elems, hval, hcomp, List.map_cons, List.take_succ_cons, ← hbuf h0,
        ← ih fun b hb => h0 b (hs.subset b hb)]

end Elems

namespace Fs

variable {n : ℕ} {sb : Superblock} {s t : Fs n} {ip dp : Fin n} {path name : List Byte} {fuel i : ℕ}

/-! ## namei and nameiparent -/

/-- An inode that was locked is locked again without an effect. -/
theorem ilock_ilock : Ends (fun _ => True) (fun t => t.ilock sb ip = .ok t) (s.ilock sb ip) := by
  unfold Fs.ilock
  split
  · exact .error trivial
  · next href =>
    split
    · next hv => exact (if_neg href).trans (if_pos hv)
    · dsimp only
      split
      · exact .error trivial
      · refine .ok ?_
        rw [if_neg (by rwa [set_self]), if_pos (by rw [set_self])]

/-- The loop for `namei` does what the loop for `nameiparent` does, and then looks up the last
element. -/
theorem namexLoop_eq (hc : components path ≠ []) (hfuel : path.length < fuel) :
    namexLoop sb false fuel path name ip s = (namexLoop sb true fuel path name ip s).bind fun r =>
      match r.1 with
      | none => .ok (none, r.2)
      | some dp => (lookupIn sb r.2.2 dp r.2.1).bind fun l =>
        (l.2.iput sb dp).bind fun s => .ok (l.1.map Prod.snd, r.2.1, s) := by
  induction fuel generalizing path name ip s with
  | zero => omega
  | succ fuel ih =>
    obtain ⟨rest, buf, hval, hs⟩ := skipelem_some name hc
    have hlt := hs.shorter
    rw [namexLoop, namexLoop, hval]
    dsimp only
    have hlock : Ends _ _ (s.ilock sb ip) := ilock_ilock
    cases hu : s.ilock sb ip with
    | error e => rfl
    | ok u =>
      rw [hu] at hlock
      have hlock' : u.ilock sb ip = .ok u := hlock
      simp only [Except.bind]
      by_cases htype : (u.itable ip).copy.type = FileType.dir.code
      · rw [if_neg (not_not_intro htype), if_neg (not_not_intro htype),
          if_neg fun hp => Bool.noConfusion hp.1]
        by_cases hrest : rest = []
        · -- the last element
          rw [if_pos ⟨trivial, hrest⟩, hrest]
          simp only [lookupIn, hlock', Except.bind]
          cases u.lookup sb ip buf with
          | error e => rfl
          | ok l =>
            obtain ⟨e, v⟩ := l
            obtain ⟨fuel, rfl⟩ : ∃ fuel', fuel = fuel' + 1 := ⟨fuel - 1, by omega⟩
            cases e with
            | none => rfl
            | some e => rfl
        · rw [if_neg fun hp => hrest hp.2]
          cases u.lookup sb ip buf with
          | error e => rfl
          | ok l =>
            obtain ⟨e, v⟩ := l
            cases e with
            | none =>
              dsimp only
              cases v.iput sb ip <;> rfl
            | some e =>
              dsimp only
              cases v.iput sb ip with
              | error e => rfl
              | ok w =>
                exact ih (hs.components_ne hrest) (by omega)
      · rw [if_pos htype, if_pos htype]
        cases u.iput sb ip <;> rfl

/-! ## References -/

/-- The reference that is returned, to the inode `i`. -/
def returned (r : Option (Fin n)) (t : Fs n) (i : ℕ) : ℕ :=
  match r with
  | none => 0
  | some ip => if (t.itable ip).inum = i then 1 else 0

/-- A lookup in `ip` has taken the reference that it returns. -/
structure LookedUp (s : Fs n) (ip : Fin n) (r : Option (ℕ × Fin n)) (t : Fs n) : Prop where
  kept : ∀ jp, 0 < (s.itable jp).ref → 0 < (t.itable jp).ref ∧
    (t.itable jp).inum = (s.itable jp).inum
  found : ∀ e, r = some e → 0 < (t.itable e.2).ref ∧
    (e.2 = ip → (s.itable ip).ref < (t.itable ip).ref)
  count : ∀ i, refCount t i = refCount s i + returned (r.map Prod.snd) t i

theorem lookup_refs : Ends (fun _ => True) (fun r => LookedUp s ip r.1 r.2)
    (s.lookup sb ip name) := by
  unfold lookup
  cases hd : dirlookup sb s.disk (s.itable ip).copy name with
  | error e => exact .error trivial
  | ok r =>
    obtain ⟨e, d, m⟩ := r
    have hsame : SameRefs s (s.setCopy ip d m) := sameRefs_setCopy
    have hpos : ∀ jp, 0 < (s.itable jp).ref → 0 < ((s.setCopy ip d m).itable jp).ref :=
      fun jp hjp => by rwa [hsame.ref jp]
    cases e with
    | none =>
      exact .ok ⟨fun jp hjp => ⟨hpos jp hjp, hsame.inum_eq jp⟩, nofun, fun i => hsame.refCount_eq⟩
    | some e =>
      have hgot : Ends _ _ ((s.setCopy ip d m).iget e.2) := iget_got
      change Ends _ _ (((s.setCopy ip d m).iget e.2).bind _)
      refine (hgot.imp (fun _ _ => trivial) fun _ h => h).bind fun g hg => .ok ?_
      refine ⟨fun jp hjp => ?_, fun e he => ?_, fun i => ?_⟩
      · obtain ⟨href, hnum, -⟩ := hg.keeps jp (hpos jp hjp)
        exact ⟨href, hnum.trans (hsame.inum_eq jp)⟩
      · obtain rfl := Option.some.inj he
        dsimp only
        refine ⟨?_, fun hip => ?_⟩
        · rw [hg.ref]
          exact Nat.succ_pos _
        · rw [← hip, hg.ref, hsame.ref]
          exact Nat.lt_succ_self _
      · rw [hg.refCount_eq, hsame.refCount_eq, Option.map_some, returned, hg.inum_eq]

/-- The reference that was found is there after that to `ip` is put back. -/
theorem LookedUp.ref_pos {e : ℕ × Fin n} {u : Fs n} (h : LookedUp s ip (some e) t)
    (hr : 0 < (s.itable ip).ref) (hu : PutBack t ip u) : 0 < (u.itable e.2).ref := by
  obtain ⟨hpos, hmore⟩ := h.found e rfl
  by_cases he : e.2 = ip
  · have hlt := hmore he
    rw [he, hu.ref_self]
    omega
  · rwa [hu.ref _ he]

/-- What the loop leaves of the reference to `ip` that it is called with. -/
theorem namexLoop_refs {nameiparent : Bool} (hfuel : path.length < fuel)
    (href : 0 < (s.itable ip).ref) : Ends (fun _ => True)
    (fun r => (∀ jp, r.1 = some jp → 0 < (r.2.2.itable jp).ref) ∧
      ∀ i, refCount r.2.2 i + returned (some ip) s i = refCount s i + returned r.1 r.2.2 i)
    (namexLoop sb nameiparent fuel path name ip s) := by
  induction fuel generalizing path name ip s with
  | zero => omega
  | succ fuel ih =>
    rw [namexLoop]
    -- the reference to the inode of a round goes when the loop is left without it
    have hput : ∀ (u : Fs n) (name : List Byte), 0 < (u.itable ip).ref → Ends (fun _ => True)
        (fun r => (∀ jp, r.1 = some jp → 0 < (r.2.2.itable jp).ref) ∧
          ∀ i, refCount r.2.2 i + returned (some ip) u i = refCount u i + returned r.1 r.2.2 i)
        ((u.iput sb ip).bind fun s =>
          .ok ((none, name, s) : Option (Fin n) × List Byte × Fs n)) := by
      intro u name hu
      exact iput_putBack.bind fun v hv => .ok ⟨nofun, fun i => hv.refCount_eq hu⟩
    by_cases hc : components path = []
    · rw [skipelem_none hc]
      dsimp only
      split
      · exact hput s name href
      · refine .ok ⟨fun jp hjp => ?_, fun i => rfl⟩
        obtain rfl := Option.some.inj hjp
        exact href
    · obtain ⟨rest, buf, hval, hs⟩ := skipelem_some name hc
      have hlt := hs.shorter
      rw [hval]
      dsimp only
      refine ilock_sameRefs.bind fun u hu => ?_
      have hself : ∀ i, returned (some ip) s i = returned (some ip) u i := fun i => by
        rw [returned, returned, hu.inum_eq]
      have hu' : 0 < (u.itable ip).ref := by rwa [hu.ref]
      simp only [hself, ← hu.refCount_eq]
      split
      · exact hput u buf hu'
      · split
        · refine .ok ⟨fun jp hjp => ?_, fun i => rfl⟩
          obtain rfl := Option.some.inj hjp
          exact hu'
        · refine lookup_refs.bind ?_
          rintro ⟨e, v⟩ (hv : LookedUp u ip e v)
          obtain ⟨hv', hnum⟩ := hv.kept ip hu'
          have hself : ∀ i, returned (some ip) u i = returned (some ip) v i := fun i => by
            rw [returned, returned, hnum]
          cases e with
          | none =>
            refine (hput v buf hv').mono fun r hr => ⟨hr.1, fun i => ?_⟩
            have hcount := hv.count i
            have hr := hr.2 i
            rw [hself]
            simp only [Option.map_none, returned] at *
            omega
          | some e =>
            dsimp only
            refine iput_putBack.bind fun w hw => ?_
            refine (ih (by omega) (hv.ref_pos hu' hw)).mono fun r hr => ⟨hr.1, fun i => ?_⟩
            have hcount := hv.count i
            have hback := hw.refCount_eq (i := i) hv'
            have hr := hr.2 i
            rw [hself]
            simp only [Option.map_some, returned, hw.inum_eq] at *
            omega

/-! ## The walk -/

/-- `ip` is an inode that a walk can go on from. -/
structure Walk (sb : Superblock) (s : Fs n) (ip : Fin n) : Prop where
  inv : FsInv sb s
  entries : Entries sb s.disk
  ref : 0 < (s.itable ip).ref
  inum_lt : (s.itable ip).inum < sb.ninodes

theorem Walk.ilock (h : Walk sb s ip) : Ends (· = .ilockNoType)
    (fun t => Walk sb t ip ∧ t.Locked ip) (s.ilock sb ip) := by
  have hinv := h.inv.ilock h.ref h.inum_lt
  have href := h.ref
  unfold Fs.ilock at hinv ⊢
  rw [if_neg (by omega)] at hinv ⊢
  split at hinv
  · next hv =>
    rw [if_pos hv]
    exact .ok ⟨h, href, hv⟩
  · next hv =>
    rw [if_neg hv]
    dsimp only at hinv ⊢
    split at hinv
    · next ht =>
      rw [if_pos ht]
      exact .error rfl
    · next ht =>
      rw [if_neg ht]
      refine .ok ⟨⟨hinv, h.entries, ?_, ?_⟩, ?_, ?_⟩
      · rwa [set_self]
      · rw [set_self]
        exact h.inum_lt
      · rwa [set_self]
      · rw [set_self]

/-- A lookup in a directory. -/
theorem Walk.lookup (h : Walk sb s ip) (hl : s.Locked ip)
    (ht : (s.itable ip).copy.type = FileType.dir.code) : Ends (· = .igetNoInodes)
    (fun r => LookedUp s ip r.1 r.2 ∧ FsInv sb r.2 ∧ Entries sb r.2.disk ∧
      ∀ e, r.1 = some e → (r.2.itable e.2).inum < sb.ninodes ∧
        find (cname name) (dirEntries sb s.disk (s.itable ip).inum) = some (r.2.itable e.2).inum)
    (s.lookup sb ip name) := by
  have hdir := h.entries _ h.inum_lt (by rw [h.inv.synced ip hl, ht])
  have hrefs : Ends _ (fun r => LookedUp s ip r.1 r.2) (s.lookup sb ip name) := lookup_refs
  refine (hrefs.and (lookup_spec h.inv hl hdir.1)).imp (fun e he => he.2.1) ?_
  rintro ⟨e, u⟩ ⟨hlooked, hlook⟩
  refine ⟨hlooked, ?_⟩
  cases hf : find (cname name) (dirEntries sb s.disk (s.itable ip).inum) with
  | none =>
    rw [hf] at hlook
    obtain ⟨rfl, rfl⟩ := Prod.mk.inj hlook
    exact ⟨h.inv, h.entries, nofun⟩
  | some inum =>
    rw [hf] at hlook
    obtain ⟨jp, he, hgot, hinv⟩ := hlook
    refine ⟨hinv, hgot.disk ▸ h.entries, fun e' he' => ?_⟩
    obtain rfl := Option.some.inj (he'.symm.trans he)
    have hnum : (u.itable jp).inum = inum := hgot.inum_eq
    rw [hnum]
    exact ⟨hdir.2 _ (mem_of_find hf), rfl⟩

/-- The last component of a path, as it is looked up. -/
def lastName (path : List Byte) : Option (List Byte) :=
  (components path).getLast?.map (List.take DIRSIZ)

/-- What the loop returns. -/
structure Walked (sb : Superblock) (nameiparent : Bool) (path : List Byte) (ip : Fin n)
    (name : List Byte) (t : Fs n) : Prop where
  walk : Walk sb t ip
  locked : nameiparent = true → t.Locked ip
  type : nameiparent = true → (t.itable ip).copy.type = FileType.dir.code
  name : nameiparent = true → lastName path = some (cname name)

theorem namexLoop_walk {nameiparent : Bool} (h0 : ∀ b ∈ path, b ≠ 0) (hfuel : path.length < fuel)
    (h : Walk sb s ip) : Ends (fun e => e = .igetNoInodes ∨ e = .ilockNoType)
    (fun r => ∀ dp, r.1 = some dp → Walked sb nameiparent path dp r.2.1 r.2.2)
    (namexLoop sb nameiparent fuel path name ip s) := by
  induction fuel generalizing path name ip s with
  | zero => omega
  | succ fuel ih =>
    rw [namexLoop]
    by_cases hc : components path = []
    · rw [skipelem_none hc]
      dsimp only
      split
      · obtain ⟨t, ht, -⟩ := iput_entries h.inv h.entries h.ref
        rw [ht]
        exact .ok nofun
      · next hp =>
        refine .ok fun dp hdp => ?_
        obtain rfl := Option.some.inj hdp
        exact ⟨h, fun hp' => absurd hp' hp, fun hp' => absurd hp' hp, fun hp' => absurd hp' hp⟩
    · obtain ⟨rest, buf, hval, hs⟩ := skipelem_some name hc
      obtain ⟨c, hcomp, hbuf⟩ := hs.components
      have hlt := hs.shorter
      rw [hval]
      dsimp only
      refine (h.ilock.imp (fun _ he => .inr he) fun _ h => h).bind ?_
      rintro u ⟨hu, hl⟩
      split
      · obtain ⟨t, ht, -⟩ := iput_entries hu.inv hu.entries hu.ref
        rw [ht]
        exact .ok nofun
      · next ht =>
        have ht := not_not.1 ht
        split
        · next hp =>
          -- the last element
          refine .ok fun dp hdp => ?_
          obtain rfl := Option.some.inj hdp
          refine ⟨hu, fun _ => hl, fun _ => ht, fun _ => ?_⟩
          rw [lastName, hcomp, hp.2, hbuf h0]
          rfl
        · next hp =>
          refine ((hu.lookup hl ht).imp (fun _ he => .inl he) fun _ h => h).bind ?_
          rintro ⟨e, v⟩ ⟨hlooked, hinv, hents, hfound⟩
          dsimp only at hlooked hinv hents hfound
          obtain ⟨hv, -⟩ := hlooked.kept ip hu.ref
          obtain ⟨w, hw, hinv', hents'⟩ := iput_entries hinv hents hv
          have hback := Ends.of_ok iput_putBack hw
          cases e with
          | none =>
            dsimp only
            rw [hw]
            exact .ok nofun
          | some e =>
            dsimp only
            rw [hw]
            have hpos : 0 < (w.itable e.2).ref := hlooked.ref_pos hu.ref hback
            have hnum : (w.itable e.2).inum < sb.ninodes := by
              rw [hback.inum_eq]
              exact (hfound e rfl).1
            refine (ih (fun b hb => h0 b (hs.subset b hb)) (by omega)
              ⟨hinv', hents', hpos, hnum⟩).mono fun r hr dp hdp => ?_
            obtain ⟨hwalk, hlock, htype, hname⟩ := hr dp hdp
            refine ⟨hwalk, hlock, htype, fun hp' => ?_⟩
            have hrest := hs.components_ne fun hrest => hp ⟨hp', hrest⟩
            rw [← hname hp', lastName, lastName, hcomp, List.getLast?_cons_of_ne_nil hrest]

/-! ## Path resolution -/

/-- The directory from `nameiparent` is locked again for the lookup. -/
theorem Walked.lookupIn_eq {last : List Byte} (h : Walked sb true path dp last s) :
    s.lookupIn sb dp last = s.lookup sb dp last := by
  have hl := h.locked rfl
  have hlock : s.ilock sb dp = .ok s := (if_neg (Nat.not_lt.2 hl.1)).trans (if_pos hl.2)
  rw [lookupIn, hlock]
  rfl

section Start

variable {cwd : Fin n} (h : Walk sb s cwd) (hroot : ROOTINO < sb.ninodes)
include h

/-- The reference that `namex` begins with. -/
theorem namexStart_got (path : List Byte) : Ends (· = .igetNoInodes)
    (fun r => Got s (r.2.itable r.1).inum r.1 r.2 ∧
      if path.head? = some SLASH then (r.2.itable r.1).inum = ROOTINO else r.1 = cwd)
    (s.namexStart cwd path) := by
  unfold namexStart
  split
  · have hgot : Ends _ _ (s.iget ROOTINO) := iget_got
    refine hgot.imp (fun _ he => he.1) fun r hr => ?_
    rw [hr.inum_eq]
    exact ⟨hr, rfl⟩
  · have hgot := idup_got h.ref
    refine .ok ⟨?_, rfl⟩
    rwa [hgot.inum_eq]

include hroot

theorem namexStart_walk : Ends (· = .igetNoInodes) (fun r => Walk sb r.2 r.1)
    (s.namexStart cwd path) := by
  have hstart := namexStart_got h path
  have hinv : Ends (fun _ => True) (fun r => FsInv sb r.2) (s.namexStart cwd path) := by
    unfold namexStart
    split
    · exact (h.inv.iget ROOTINO).imp (fun _ _ => trivial) fun _ hr => hr.1
    · exact .ok (h.inv.idup h.ref)
  refine (hstart.and hinv).imp (fun _ he => he.1) ?_
  rintro ⟨ip, t⟩ ⟨⟨hgot, hwhich⟩, hinv⟩
  dsimp only at hgot hwhich hinv ⊢
  refine ⟨hinv, hgot.disk ▸ h.entries, ?_, ?_⟩
  · rw [hgot.ref]
    exact Nat.succ_pos _
  · split at hwhich
    · rw [hwhich]
      exact hroot
    · subst hwhich
      rw [(hgot.keeps ip h.ref).2.1]
      exact h.inum_lt

omit hroot in
/-- `namex` takes the reference that it returns, and no other. -/
theorem namex_refs {nameiparent : Bool} {name last : List Byte} {r : Option (Fin n)}
    (hr : s.namex sb cwd path nameiparent name = .ok (r, last, t)) (i : ℕ) :
    refCount t i = refCount s i + returned r t i := by
  have hall : Ends (fun _ => True) (fun r => refCount r.2.2 i = refCount s i + returned r.1 r.2.2 i)
      (s.namex sb cwd path nameiparent name) := by
    refine ((namexStart_got h path).imp (fun _ _ => trivial) fun _ h => h).bind ?_
    rintro ⟨ip, u⟩ ⟨hgot, -⟩
    have hpos : 0 < (u.itable ip).ref := by
      rw [hgot.ref]
      exact Nat.succ_pos _
    refine (namexLoop_refs (Nat.lt_succ_self _) hpos).mono fun r hr => ?_
    have hcount := hgot.refCount_eq (i := i)
    have hr := hr.2 i
    simp only [returned] at hr hcount ⊢
    omega
  exact hall.of_ok hr

theorem namex_walk {nameiparent : Bool} {name : List Byte} (h0 : ∀ b ∈ path, b ≠ 0) :
    Ends (fun e => e = .igetNoInodes ∨ e = .ilockNoType)
      (fun r => ∀ dp, r.1 = some dp → Walked sb nameiparent path dp r.2.1 r.2.2)
      (s.namex sb cwd path nameiparent name) :=
  ((namexStart_walk h hroot).imp (fun _ he => .inl he) fun _ h => h).bind fun _ hr =>
    namexLoop_walk h0 (Nat.lt_succ_self _) hr

/-- `namei` finds what a lookup in the directory from `nameiparent` finds. -/
theorem namei_iff {name : List Byte} {inum : ℕ} (h0 : ∀ b ∈ path, b ≠ 0)
    (hc : components path ≠ []) :
    (∃ t, s.namei sb cwd path name = .ok (some ip, t) ∧ (t.itable ip).inum = inum) ↔
      ∃ dp last u off v, s.nameiparent sb cwd path name = .ok (some dp, last, u) ∧
        lastName path = some (cname last) ∧ (u.itable dp).copy.type = FileType.dir.code ∧
        u.lookupIn sb dp last = .ok (some (off, ip), v) ∧
        find (cname last) (dirEntries sb u.disk (u.itable dp).inum) = some inum := by
  have hparent : ∀ {dp last u}, s.nameiparent sb cwd path name = .ok (some dp, last, u) →
      Walked sb true path dp last u := fun hu => (namex_walk h hroot h0).of_ok hu _ rfl
  have hnamei : s.namei sb cwd path name = (s.nameiparent sb cwd path name).bind fun r =>
      match r.1 with
      | none => .ok (none, r.2.2)
      | some dp => (lookupIn sb r.2.2 dp r.2.1).bind fun l =>
        (l.2.iput sb dp).bind fun s => .ok (l.1.map Prod.snd, s) := by
    unfold namei nameiparent namex
    cases s.namexStart cwd path with
    | error e => rfl
    | ok r =>
      simp only [Except.bind]
      rw [namexLoop_eq hc (Nat.lt_succ_self _)]
      cases namexLoop sb true (path.length + 1) path name r.1 r.2 with
      | error e => rfl
      | ok r =>
        obtain ⟨dp, last, u⟩ := r
        cases dp with
        | none => rfl
        | some dp =>
          simp only [Except.bind]
          cases lookupIn sb u dp last with
          | error e => rfl
          | ok l =>
            dsimp only
            cases l.2.iput sb dp <;> rfl
  rw [hnamei]
  constructor
  · rintro ⟨t, ht, rfl⟩
    cases hp : s.nameiparent sb cwd path name with
    | error e => simp [hp, Except.bind] at ht
    | ok r =>
      obtain ⟨dp, last, u⟩ := r
      cases dp with
      | none => simp [hp, Except.bind] at ht
      | some dp =>
        have hw := hparent hp
        rw [hp] at ht
        simp only [Except.bind] at ht
        cases hlook : u.lookupIn sb dp last with
        | error e => simp [hlook] at ht
        | ok l =>
          obtain ⟨e, v⟩ := l
          simp only [hlook] at ht
          cases hput : v.iput sb dp with
          | error e => simp [hput] at ht
          | ok w =>
            simp only [hput, Except.ok.injEq, Prod.mk.injEq, Option.map_eq_some_iff] at ht
            obtain ⟨⟨e, rfl, rfl⟩, rfl⟩ := ht
            rw [hw.lookupIn_eq] at hlook
            have hfound := (hw.walk.lookup (hw.locked rfl) (hw.type rfl)).of_ok hlook
            have hback := Ends.of_ok iput_putBack hput
            refine ⟨dp, last, u, e.1, v, rfl, hw.name rfl, hw.type rfl, ?_, ?_⟩
            · rw [hw.lookupIn_eq, hlook]
            · rw [hback.inum_eq]
              exact (hfound.2.2.2 e rfl).2
  · rintro ⟨dp, last, u, off, v, hp, -, -, hlook, hfind⟩
    have hw := hparent hp
    have hlook' := hlook
    rw [hw.lookupIn_eq] at hlook'
    obtain ⟨hlooked, hinv, hents, hfound⟩ :=
      (hw.walk.lookup (hw.locked rfl) (hw.type rfl)).of_ok hlook'
    obtain ⟨hpos, -⟩ := hlooked.kept dp hw.walk.ref
    obtain ⟨w, hput, -⟩ := iput_entries hinv hents hpos
    have hback := Ends.of_ok iput_putBack hput
    refine ⟨w, ?_, ?_⟩
    · rw [hp]
      simp only [Except.bind, hlook, hput]
      rfl
    · rw [hback.inum_eq]
      exact Option.some.inj ((hfound _ rfl).2.symm.trans hfind)

omit hroot in
/-- Without an element there is no parent, and the path names the inode `namex` begins with. -/
theorem namex_empty {name : List Byte} (hc : components path = []) :
    Ends (· = .igetNoInodes) (fun r => ∃ ip, r.1 = some ip ∧
      if path.head? = some SLASH then (r.2.itable ip).inum = ROOTINO else ip = cwd)
      (s.namei sb cwd path name) ∧
    Ends (· = .igetNoInodes) (fun r => r.1 = none) (s.nameiparent sb cwd path name) := by
  have hloop : ∀ (parent : Bool) (ip : Fin n) (u : Fs n),
      namexLoop sb parent (path.length + 1) path name ip u =
        if parent then (u.iput sb ip).bind fun s => .ok (none, name, s)
        else .ok (some ip, name, u) := by
    intro parent ip u
    rw [namexLoop, skipelem_none hc]
  have hstart := namexStart_got h path
  unfold namei nameiparent namex
  refine ⟨?_, hstart.bind fun r hr => ?_⟩
  · refine Ends.bind (hstart.bind fun r hr => ?_) fun _ h => .ok h
    rw [hloop]
    exact .ok ⟨r.1, rfl, hr.2⟩
  · rw [hloop, if_pos rfl, hr.1.iput_eq]
    exact .ok rfl

end Start

/-- What the path names : the elements that `skipelem` finds, the inode that `namei` returns, and
the references that the calls take. -/
structure Resolves (sb : Superblock) (s : Fs n) (cwd : Fin n) (path name : List Byte) : Prop where
  elements : ∀ k, elems k path name = ((components path).map (List.take DIRSIZ)).take k
  found : components path ≠ [] → ∀ ip inum,
    (∃ t, s.namei sb cwd path name = .ok (some ip, t) ∧ (t.itable ip).inum = inum) ↔
      ∃ dp last u off v, s.nameiparent sb cwd path name = .ok (some dp, last, u) ∧
        lastName path = some (cname last) ∧ (u.itable dp).copy.type = FileType.dir.code ∧
        u.lookupIn sb dp last = .ok (some (off, ip), v) ∧
        find (cname last) (dirEntries sb u.disk (u.itable dp).inum) = some inum
  /-- A path without an element names the root or the current directory. -/
  empty : components path = [] →
    Ends (· = .igetNoInodes) (fun r => ∃ ip, r.1 = some ip ∧
      if path.head? = some SLASH then (r.2.itable ip).inum = ROOTINO else ip = cwd)
      (s.namei sb cwd path name) ∧
    Ends (· = .igetNoInodes) (fun r => r.1 = none) (s.nameiparent sb cwd path name)
  refs : ∀ r t, s.namei sb cwd path name = .ok (r, t) →
    ∀ i, refCount t i = refCount s i + returned r t i
  parent_refs : ∀ r last t, s.nameiparent sb cwd path name = .ok (r, last, t) →
    ∀ i, refCount t i = refCount s i + returned r t i
  /-- There may be no entry left in the inode table, or an inode that is free. -/
  panics : ∀ parent, Ends (fun e => e = .igetNoInodes ∨ e = .ilockNoType) (fun _ => True)
    (s.namex sb cwd path parent name)

/-- Path resolution, from a consistent disk with entries that name inodes. -/
theorem path_resolution {cwd : Fin n} (h : FsInv sb s) (he : Entries sb s.disk)
    (hroot : ROOTINO < sb.ninodes) (hr : 0 < (s.itable cwd).ref)
    (hi : (s.itable cwd).inum < sb.ninodes) (h0 : ∀ b ∈ path, b ≠ 0) :
    Resolves sb s cwd path name := by
  have hw : Walk sb s cwd := ⟨h, he, hr, hi⟩
  refine ⟨fun k => elems_eq h0, fun hc ip inum => namei_iff hw hroot h0 hc,
    fun hc => namex_empty hw hc, fun r t ht i => ?_, fun r last t ht i => namex_refs hw ht i,
    fun parent => (namex_walk hw hroot h0).mono fun _ _ => trivial⟩
  unfold namei at ht
  cases hx : s.namex sb cwd path false name with
  | error e => simp [hx, Except.bind] at ht
  | ok x =>
    obtain ⟨r', last, t'⟩ := x
    rw [hx] at ht
    obtain ⟨rfl, rfl⟩ := Prod.mk.inj (Except.ok.inj ht)
    exact namex_refs hw hx i

/-- The path "/a" on a disk whose root has an entry for it. -/
theorem path_resolution_small : ∃ s : Fs 2, (exec (move small)
      ⟨smallDisk, fun _ => ⟨0, 0, false, readDinode small smallDisk 0⟩⟩
      (dirCalls 0 ++ [.dirlink 0 [97] 2])) = some s ∧
    Resolves small s 0 [SLASH, 97] (List.replicate DIRSIZ 0) := by
  have hrun : (exec (move small)
      ⟨smallDisk, fun _ => ⟨0, 0, false, readDinode small smallDisk 0⟩⟩
      (dirCalls (0 : Fin 2) ++ [.dirlink 0 [97] 2])).any (fun s : Fs 2 => decide (s.Locked 0) &&
        decide ((s.itable 0).inum < 3) &&
        (List.range 3).all fun i =>
          decide ((readDinode small s.disk i).type = FileType.dir.code →
            DIRENT ∣ (content small s.disk i).length) &&
          (dirEntries small s.disk i).all fun e => e.all fun e => decide (e.2 < 3)) = true := by
    decide +kernel
  obtain ⟨s, hs, hrun⟩ := (Option.any_eq_true ..).1 hrun
  simp only [Bool.and_eq_true, decide_eq_true_eq, List.all_eq_true, List.mem_range] at hrun
  obtain ⟨⟨hl, hi⟩, hents⟩ := hrun
  have hinv := reachable_inv consistent_small (reachable_of_exec ⟨rfl, fun _ => rfl⟩ hs)
  have hentries : Entries small s.disk := fun i hlt ht => by
    obtain ⟨hdir, hall⟩ := hents i hlt
    exact ⟨⟨ht, hdir ht⟩, fun e he => of_decide_eq_true (hall _ he)⟩
  exact ⟨s, hs, path_resolution hinv hentries (by decide) hl.1 hi (by decide)⟩

end Fs

end CowPbs
