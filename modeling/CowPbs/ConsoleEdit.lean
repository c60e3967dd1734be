import Mathlib
import CowPbs.Console

/-!
# Line editing

`Line` is what the console is for : a stream of committed characters, of which readers have taken
some, and a line that is being typed. A character typed edits the line, or commits it
(`Line.input`). The ring of `cons` is this line (`Edits`) : what lies between `cons.r` and
`cons.w` is the rest of the stream, and what lies between `cons.w` and `cons.e` the line, which
has no newline in it. A call of `consoleread` keeps what it has taken (`Calls`).
-/

set_option linter.unusedSectionVars false

open Bytes Function Transition

namespace CowPbs

/-- The committed characters, how many of them have been taken, and the line being typed. -/
structure Line where
  committed : List Byte
  taken : ℕ
  tail : List Byte

namespace Line

/-- The number of characters not taken. -/
def buffered (d : Line) : ℕ :=
  d.committed.length - d.taken + d.tail.length

/-- The line is committed. -/
def commit (d : Line) : Line :=
  { d with committed := d.committed ++ d.tail, tail := [] }

/-- A character is typed at the end of the line : a newline, `^D` or a full buffer commits it. -/
def append (d : Line) (c : Byte) : Line :=
  let d := { d with tail := d.tail ++ [c] }
  if c = newline ∨ c = ctrlD ∨ d.buffered = INPUT_BUF_SIZE then d.commit else d

/-- A character is typed. -/
def input (d : Line) (c : Byte) : Line :=
  if c = ctrlP then d
  else if c = ctrlU then { d with tail := [] }
  else if c = ctrlH ∨ c = delete then { d with tail := d.tail.dropLast }
  else if c ≠ 0 ∧ d.buffered < INPUT_BUF_SIZE then
    d.append (if c = carriageReturn then newline else c)
  else d

end Line

/-- The byte a reader takes. -/
def ReadEvent.takes : ReadEvent → Option Byte
  | get b | badOut b => some b
  | eof => some ctrlD
  | call _ | acquire | more | enough | killed | sleep | reacquire | save | ret _ _ => none

variable {ι : Type} [DecidableEq ι]

/-- The line after one more event. -/
def Line.step (d : Line) : ConsEvent ι → Line
  | .intr c => d.input c
  | .kill _ => d
  | .read _ e => { d with taken := d.taken + e.takes.toList.length }

/-- The line after the events. -/
def Line.of (es : List (ConsEvent ι)) : Line :=
  es.foldl Line.step ⟨[], 0, []⟩

/-- What readers have taken, in the order in which they did. -/
def takenBytes (es : List (ConsEvent ι)) : List Byte :=
  es.flatMap fun
    | .read _ e => e.takes.toList
    | .intr _ | .kill _ => []

/-- What has been copied to readers. -/
def copiedBytes (es : List (ConsEvent ι)) : List Byte :=
  es.filterMap fun
    | .read _ (.get b) => some b
    | _ => none

/-- What the last call of `p` has taken. -/
def callBytes (p : ι) (es : List (ConsEvent ι)) : List Byte :=
  es.foldl (fun bs e =>
    match e with
    | .read q (.call _) => if q = p then [] else bs
    | .read q e => if q = p then bs ++ e.takes.toList else bs
    | .intr _ | .kill _ => bs) []

namespace Cons

variable {s : Cons} {c : Byte}

/-- What is between `cons.r` and `cons.w`. -/
def pending (s : Cons) : List Byte :=
  Ring.window INPUT_BUF_SIZE s.buf s.r (s.w - s.r).toNat

/-- What is between `cons.w` and `cons.e`. -/
def tail (s : Cons) : List Byte :=
  Ring.window INPUT_BUF_SIZE s.buf s.w (s.e - s.w).toNat

/-- What is between `cons.r` and `cons.e`. -/
def contents (s : Cons) : List Byte :=
  Ring.window INPUT_BUF_SIZE s.buf s.r (s.e - s.r).toNat

/-- The indices are in order, and the ring is not longer than it can be. -/
structure Ordered (s : Cons) : Prop where
  le : (s.w - s.r).toNat ≤ (s.e - s.r).toNat
  full : (s.e - s.r).toNat ≤ INPUT_BUF_SIZE

theorem size_dvd : INPUT_BUF_SIZE ∣ 2 ^ 32 := by
  decide

theorem length_pending : s.pending.length = (s.w - s.r).toNat :=
  Ring.length_window

theorem length_contents : s.contents.length = (s.e - s.r).toNat :=
  Ring.length_window

theorem contents_eq (h : s.Ordered) : s.contents = s.pending ++ s.tail :=
  Ring.window_split h.le

theorem pending_eq (h : s.Ordered) : s.pending = s.contents.take (s.w - s.r).toNat :=
  (Ring.take_window h.le).symm

theorem tail_eq (h : s.Ordered) : s.tail = s.contents.drop (s.w - s.r).toNat := by
  rw [contents_eq h, ← length_pending, List.drop_left]

theorem e_eq_w : s.e = s.w ↔ (s.e - s.w).toNat = 0 := by
  rw [Ring.toNat_sub_eq_zero, eq_comm]

/-! ## Typing -/

theorem put_len (h : (s.e - s.r).toNat < INPUT_BUF_SIZE) :
    ((s.put c).e - (s.put c).r).toNat = (s.e - s.r).toNat + 1 :=
  Ring.toNat_succ_sub (Nat.lt_of_le_of_lt h (by decide))

theorem put_contents (h : (s.e - s.r).toNat < INPUT_BUF_SIZE) :
    (s.put c).contents = s.contents ++ [c] := by
  rw [contents, put_len h]
  have hw := Ring.window_push (d := s.buf) (r := s.r) (x := c) size_dvd h
  rwa [Ring.at_sub] at hw

theorem put_ordered (hs : s.Ordered) (h : (s.e - s.r).toNat < INPUT_BUF_SIZE) :
    (s.put c).Ordered := by
  constructor
  · rw [put_len h]
    exact hs.le.trans (Nat.le_succ _)
  · rw [put_len h]
    exact h

theorem put_pending (hs : s.Ordered) (h : (s.e - s.r).toNat < INPUT_BUF_SIZE) :
    (s.put c).pending = s.pending := by
  rw [pending_eq (put_ordered hs h), put_contents h, pending_eq hs]
  exact List.take_append_of_le_length (by rw [length_contents]; exact hs.le)

theorem put_tail (hs : s.Ordered) (h : (s.e - s.r).toNat < INPUT_BUF_SIZE) :
    (s.put c).tail = s.tail ++ [c] := by
  rw [tail_eq (put_ordered hs h), put_contents h, tail_eq hs]
  exact List.drop_append_of_le_length (by rw [length_contents]; exact hs.le)

theorem commit_ordered (hs : s.Ordered) : ({ s with w := s.e } : Cons).Ordered :=
  ⟨le_rfl, hs.full⟩

theorem commit_pending (hs : s.Ordered) :
    ({ s with w := s.e } : Cons).pending = s.pending ++ s.tail :=
  contents_eq hs

theorem commit_tail : ({ s with w := s.e } : Cons).tail = [] := by
  simp [tail]

/-! ## Erasing -/

theorem lt_of_ne (hs : s.Ordered) (h : s.e ≠ s.w) : (s.w - s.r).toNat < (s.e - s.r).toNat := by
  have hsub := Ring.toNat_sub_sub hs.le
  have hne := mt e_eq_w.2 h
  omega

theorem erase_len (hs : s.Ordered) (h : s.e ≠ s.w) :
    (s.e - 1 - s.r).toNat = (s.e - s.r).toNat - 1 :=
  Ring.toNat_pred_sub (Nat.ne_of_gt (Nat.zero_lt_of_lt (lt_of_ne hs h)))

theorem erase_ordered (hs : s.Ordered) (h : s.e ≠ s.w) :
    ({ s with e := s.e - 1 } : Cons).Ordered := by
  have hlt := lt_of_ne hs h
  have hfull := hs.full
  constructor
  · rw [erase_len hs h]
    exact Nat.le_sub_one_of_lt hlt
  · rw [erase_len hs h]
    omega

/-- The line is what is left of it, and the character that is erased. -/
theorem erase_tail (h : s.e ≠ s.w) :
    s.tail = ({ s with e := s.e - 1 } : Cons).tail ++
      [s.buf (Ring.index INPUT_BUF_SIZE (s.e - 1))] := by
  have hne := mt e_eq_w.2 h
  have hlen := Ring.toNat_pred_sub hne
  rw [tail, ← Nat.succ_pred_eq_of_ne_zero hne, Ring.window_succ, tail]
  simp only [Nat.pred_eq_sub_one, ← hlen, Ring.at_sub]

theorem tail_eq_nil : s.tail = [] ↔ s.e = s.w := by
  rw [e_eq_w, ← List.length_eq_zero_iff, tail, Ring.length_window]

/-- With no newline in the line, `^U` erases all of it. -/
theorem killLine_spec (k : ℕ) (hs : s.Ordered) (hn : newline ∉ s.tail)
    (hk : (s.e - s.w).toNat ≤ k) :
    (s.killLine k).Ordered ∧ (s.killLine k).pending = s.pending ∧ (s.killLine k).tail = [] := by
  induction k generalizing s with
  | zero => exact ⟨hs, rfl, tail_eq_nil.2 (e_eq_w.2 (Nat.le_zero.1 hk))⟩
  | succ k ih =>
    by_cases he : s.e = s.w
    · simp only [killLine, he, ne_eq, not_true_eq_false, false_and, ↓reduceIte]
      exact ⟨hs, trivial, tail_eq_nil.2 he⟩
    · have hlast : s.buf (Ring.index INPUT_BUF_SIZE (s.e - 1)) ≠ newline := by
        intro hc
        rw [erase_tail he, hc] at hn
        exact hn (List.mem_append_right _ (List.mem_singleton_self _))
      simp only [killLine, ne_eq, he, not_false_eq_true, hlast, and_self, ↓reduceIte]
      refine ih (erase_ordered hs he) ?_ ?_
      · rw [erase_tail he] at hn
        exact fun hmem => hn (List.mem_append_left _ hmem)
      · have hlen := Ring.toNat_pred_sub (mt e_eq_w.2 he)
        exact hlen.trans_le (Nat.sub_le_of_le_add hk)

/-! ## Taking -/

theorem pop_len (h : s.r ≠ s.w) : (s.pop.w - s.pop.r).toNat = (s.w - s.r).toNat - 1 :=
  Ring.toNat_sub_succ (mt Ring.toNat_sub_eq_zero.1 h)

theorem pop_ordered (hs : s.Ordered) (h : s.r ≠ s.w) : s.pop.Ordered := by
  have hne := mt Ring.toNat_sub_eq_zero.1 h
  have hle := hs.le
  have hne' : (s.e - s.r).toNat ≠ 0 := by omega
  have hlen : (s.pop.e - s.pop.r).toNat = (s.e - s.r).toNat - 1 := Ring.toNat_sub_succ hne'
  constructor
  · rw [pop_len h, hlen]
    exact Nat.sub_le_sub_right hle 1
  · rw [hlen]
    exact (Nat.sub_le _ 1).trans hs.full

theorem pop_pending (h : s.r ≠ s.w) : s.pending = s.head :: s.pop.pending := by
  obtain ⟨k, hk⟩ := Nat.exists_eq_succ_of_ne_zero (mt Ring.toNat_sub_eq_zero.1 h)
  have hpop := pop_len h
  rw [hk] at hpop
  rw [pending, hk, Ring.window_pop, pending, hpop]
  rfl

theorem pop_save : ({ s.pop with r := s.pop.r - 1 } : Cons) = s := by
  simp [pop]

/-- The console is the line `d`, of which `bs` has been taken. -/
structure Edits (bs : List Byte) (d : Line) (s : Cons) : Prop where
  ordered : s.Ordered
  line : newline ∉ s.tail
  tail : s.tail = d.tail
  taken : d.taken = bs.length
  stream : bs ++ s.pending = d.committed

namespace Edits

variable {bs : List Byte} {d : Line}

theorem buffered (h : Edits bs d s) : d.buffered = (s.e - s.r).toNat := by
  rw [Line.buffered, ← h.stream, ← h.tail, h.taken, List.length_append, Nat.add_sub_cancel_left,
    ← List.length_append, ← contents_eq h.ordered, length_contents]

theorem take (h : Edits bs d s) (hne : s.r ≠ s.w) :
    Edits (bs ++ [s.head]) { d with taken := d.taken + 1 } s.pop where
  ordered := pop_ordered h.ordered hne
  line := h.line
  tail := h.tail
  taken := by simp [h.taken]
  stream := by
    rw [List.append_assoc, List.singleton_append, ← pop_pending hne]
    exact h.stream

theorem commit (h : Edits bs d s) : Edits bs d.commit { s with w := s.e } where
  ordered := commit_ordered h.ordered
  line := by simp [commit_tail]
  tail := commit_tail
  taken := h.taken
  stream := by
    rw [commit_pending h.ordered, ← List.append_assoc, h.stream, h.tail]
    rfl

/-- A character other than a newline is stored. -/
theorem put (h : Edits bs d s) (hlt : (s.e - s.r).toNat < INPUT_BUF_SIZE) (hc : c ≠ newline) :
    Edits bs { d with tail := d.tail ++ [c] } (s.put c) where
  ordered := put_ordered h.ordered hlt
  line := by
    rw [put_tail h.ordered hlt, List.mem_append, List.mem_singleton]
    exact fun hm => hm.elim h.line fun hn => hc hn.symm
  tail := by rw [put_tail h.ordered hlt, h.tail]
  taken := h.taken
  stream := by
    rw [put_pending h.ordered hlt]
    exact h.stream

/-- The line with any character at its end is committed. -/
theorem putCommit (h : Edits bs d s) (hlt : (s.e - s.r).toNat < INPUT_BUF_SIZE) :
    Edits bs { d with tail := d.tail ++ [c] }.commit { s.put c with w := (s.put c).e } where
  ordered := commit_ordered (put_ordered h.ordered hlt)
  line := by simp [commit_tail]
  tail := commit_tail
  taken := h.taken
  stream := by
    rw [commit_pending (put_ordered h.ordered hlt), put_pending h.ordered hlt,
      put_tail h.ordered hlt, h.tail, ← List.append_assoc, h.stream]
    rfl

theorem append (h : Edits bs d s) (hlt : (s.e - s.r).toNat < INPUT_BUF_SIZE) :
    Edits bs (d.append c)
      (if c = newline ∨ c = ctrlD ∨ ((s.put c).e - (s.put c).r).toNat = INPUT_BUF_SIZE then
        { s.put c with w := (s.put c).e } else s.put c) := by
  have hbuf : Line.buffered { d with tail := d.tail ++ [c] } =
      ((s.put c).e - (s.put c).r).toNat := by
    rw [put_len hlt, ← h.buffered, Line.buffered, Line.buffered]
    simp [Nat.add_assoc]
  unfold Line.append
  simp only [hbuf]
  split_ifs with hc
  · exact h.putCommit hlt
  · exact h.put hlt fun hn => hc (.inl hn)

/-- The ring follows the line. -/
theorem input (h : Edits bs d s) : Edits bs (d.input c) (s.consoleintr c).1 := by
  unfold Line.input consoleintr
  rw [h.buffered]
  by_cases hP : c = ctrlP
  · rwa [if_pos hP, if_pos hP]
  rw [if_neg hP, if_neg hP]
  by_cases hU : c = ctrlU
  · obtain ⟨hord, hpend, htail⟩ := killLine_spec _ h.ordered h.line le_rfl
    rw [if_pos hU, if_pos hU]
    exact ⟨hord, by rw [htail]; exact List.not_mem_nil, htail, h.taken, hpend ▸ h.stream⟩
  rw [if_neg hU, if_neg hU]
  by_cases hH : c = ctrlH ∨ c = delete
  · rw [if_pos hH, if_pos hH]
    by_cases he : s.e = s.w
    · have hnil : d.tail = [] := h.tail ▸ tail_eq_nil.2 he
      rw [if_neg (not_not.2 he), hnil, List.dropLast_nil]
      exact ⟨h.ordered, h.line, h.tail.trans hnil, h.taken, h.stream⟩
    · have htail := erase_tail he
      rw [if_pos he]
      refine ⟨erase_ordered h.ordered he, ?_, ?_, h.taken, h.stream⟩
      · have hn := h.line
        rw [htail] at hn
        exact fun hmem => hn (List.mem_append_left _ hmem)
      · rw [← h.tail, htail, List.dropLast_concat]
  rw [if_neg hH, if_neg hH]
  by_cases hc : c ≠ 0 ∧ (s.e - s.r).toNat < INPUT_BUF_SIZE
  · rw [if_pos hc, if_pos hc, apply_ite Prod.fst]
    exact h.append hc.2
  · rwa [if_neg hc, if_neg hc]

end Edits

end Cons

/-! ## One call -/

/-- The call has copied out all it has taken, no `^D` or newline among it. -/
structure ReadCall.Reads (c : ReadCall) (bs : List Byte) : Prop where
  out : c.out = bs
  eof : ctrlD ∉ bs
  line : newline ∉ bs
  n : c.n = c.target - bs.length
  le : (bs.length : ℤ) ≤ max c.target 0

namespace ReadCall.Reads

variable {c : ReadCall} {bs pending : List Byte} {b : Byte}

theorem start (n : ℤ) : ReadCall.Reads ⟨n, n, []⟩ [] :=
  ⟨rfl, List.not_mem_nil, List.not_mem_nil, by simp, le_max_right n 0⟩

/-- A byte that is neither `^D` nor a newline is copied out. -/
theorem store (h : c.Reads bs) (hn : 0 < c.n) (hd : b ≠ ctrlD) (hl : b ≠ newline) :
    (c.store b).Reads (bs ++ [b]) where
  out := by simp [ReadCall.store, h.out]
  eof := by simpa [h.eof] using Ne.symm hd
  line := by simpa [h.line] using Ne.symm hl
  n := by
    have hc := h.n
    simp only [ReadCall.store, List.length_append, List.length_singleton, Nat.cast_add,
      Nat.cast_one]
    omega
  le := by
    have hc := h.n
    have htarget : (c.store b).target = c.target := rfl
    rw [htarget, List.length_append, List.length_singleton, Nat.cast_add, Nat.cast_one]
    omega

end ReadCall.Reads

/-- What a call that has taken `bs` and asked for `n` bytes returns, with `pending` left : it has
met a `^D` first, or it has got what it asked for, or a line, or a `^D` comes next. -/
def Returns (n r : ℤ) (bs pending : List Byte) : Prop :=
  (bs = [ctrlD] ∧ r = 0) ∨
  (r = bs.length ∧ ctrlD ∉ bs ∧ newline ∉ bs.dropLast ∧
    (r = max n 0 ∨ bs.getLast? = some newline ∨ (bs ≠ [] ∧ pending.head? = some ctrlD)))

namespace Returns

variable {c : ReadCall} {bs pending : List Byte}

theorem enough (h : c.Reads bs) (hn : ¬0 < c.n) :
    Returns c.target (c.target - c.n) bs pending := by
  have hc := h.n
  have hle := h.le
  refine .inr ⟨by omega, h.eof, fun hm => h.line (List.dropLast_subset bs hm), .inl ?_⟩
  omega

theorem eof (h : c.Reads bs) (hn : ¬c.n < c.target) :
    Returns c.target (c.target - c.n) (bs ++ [ctrlD]) pending := by
  have hc := h.n
  have hnil : bs = [] := List.length_eq_zero_iff.1 (by omega)
  subst hnil
  exact .inl ⟨rfl, by simp at hc; omega⟩

theorem save (h : c.Reads bs) (hn : c.n < c.target) (hp : pending.head? = some ctrlD) :
    Returns c.target (c.target - c.n) bs pending := by
  have hc := h.n
  refine .inr ⟨by omega, h.eof, fun hm => h.line (List.dropLast_subset bs hm),
    .inr (.inr ⟨?_, hp⟩)⟩
  rintro rfl
  simp at hc
  omega

theorem line (h : c.Reads bs) :
    Returns c.target (c.target - (c.store newline).n) (bs ++ [newline]) pending := by
  have hc := h.n
  have hstore : (c.store newline).n = c.n - 1 := rfl
  refine .inr ⟨?_, ?_, by simpa using h.line, .inr (.inl (by simp))⟩
  · rw [hstore, List.length_append, List.length_singleton, Nat.cast_add, Nat.cast_one]
    omega
  · simpa [h.eof] using (show ctrlD ≠ newline by decide)

end Returns

/-- What a process has taken in its call, by where it is. -/
def ConsPc.Ok (bs pending : List Byte) : ConsPc → Prop
  | run => True
  | acquire c | loop c => c.Reads bs
  | wait c | asleep c | woken c => c.Reads bs ∧ 0 < c.n
  | done c => Returns c.target (c.target - c.n) bs pending

namespace ConsSys

variable {s t : ConsSys ι} {p q : ι} {e : ConsEvent ι} {es : List (ConsEvent ι)}

@[simp]
theorem goto_pc (pc : ConsPc) : (s.goto p pc).pc q = if q = p then pc else s.pc q :=
  update_apply ..

@[simp]
theorem goto_lock (pc : ConsPc) : (s.goto p pc).lock = s.lock :=
  rfl

@[simp]
theorem goto_cons (pc : ConsPc) : (s.goto p pc).cons = s.cons :=
  rfl

@[simp]
theorem wakeup_holds (pc : ConsPc) : pc.wakeup.holds = pc.holds := by
  cases pc <;> rfl

theorem wakeup_ok {bs pending : List Byte} {pc : ConsPc} (h : pc.Ok bs pending) :
    pc.wakeup.Ok bs pending := by
  cases pc <;> exact h

theorem intr_pc (c : Byte) (q : ι) :
    (s.intr c).pc q = (s.pc q).wakeup ∨ (s.intr c).pc q = s.pc q := by
  unfold intr
  cases (s.cons.consoleintr c).2
  · exact .inr rfl
  · exact .inl rfl

/-- User buffers are accessible. -/
def Accessible (_ : ConsSys ι) (e : ConsEvent ι) : Prop :=
  ∀ p b, e ≠ .read p (.badOut b)

/-- The line, the lock and the calls. -/
structure Inv (es : List (ConsEvent ι)) (s : ConsSys ι) : Prop where
  edits : Cons.Edits (takenBytes es) (Line.of es) s.cons
  lock : ∀ p, s.lock = some p ↔ (s.pc p).holds = true
  calls : ∀ p, (s.pc p).Ok (callBytes p es) s.cons.pending
  copied : copiedBytes es = (takenBytes es).filter (· ≠ ctrlD)

namespace Inv

theorem boot (h : Boot s) : Inv [] s := by
  obtain ⟨hl, hpc, hr, hw, he⟩ := h
  refine ⟨⟨⟨?_, ?_⟩, ?_, ?_, rfl, ?_⟩, fun p => ?_, fun p => ?_, rfl⟩
  · simp [hr, hw]
  · simp [hr, he]
  · simp [Cons.tail, hw, he]
  · simp [Cons.tail, hw, he, Line.of]
  · simp [Cons.pending, hr, hw, Line.of, takenBytes]
  · simp [hl, hpc, ConsPc.holds]
  · simp [hpc, ConsPc.Ok]

theorem of_append : Line.of (es ++ [e]) = (Line.of es).step e := by
  simp [Line.of]

theorem takenBytes_append : takenBytes (es ++ [e]) = takenBytes es ++ takenBytes [e] := by
  simp [takenBytes]

theorem copiedBytes_append : copiedBytes (es ++ [e]) = copiedBytes es ++ copiedBytes [e] :=
  List.filterMap_append

theorem edits_step (h : Inv es s) (hs : Step s e t) :
    Cons.Edits (takenBytes (es ++ [e])) (Line.of (es ++ [e])) t.cons := by
  rw [of_append, takenBytes_append]
  have hed := h.edits
  have hsame : takenBytes [e] = [] → (Line.of es).step e = Line.of es → t.cons = s.cons →
      Cons.Edits (takenBytes es ++ takenBytes [e]) ((Line.of es).step e) t.cons := by
    intro hb hd hc
    rwa [hb, hd, hc, List.append_nil]
  cases hs with
  | intr c hl =>
    rw [show takenBytes [(.intr c : ConsEvent ι)] = [] from rfl, List.append_nil]
    exact hed.input
  | eof _ c hpc he hd hn =>
    have htake := hed.take he
    rwa [hd] at htake
  | get _ c hpc he hd => exact hed.take he
  | badOut _ c hpc he hd => exact hed.take he
  | save _ c hpc he hd hn => exact hsame rfl rfl Cons.pop_save
  | _ => exact hsame rfl rfl rfl

theorem lock_step (h : Inv es s) (hs : Step s e t) (q : ι) :
    t.lock = some q ↔ (t.pc q).holds = true := by
  have hq := h.lock q
  cases hs with
  | intr c hl =>
    rcases intr_pc (s := s) c q with hpc | hpc <;> rw [hpc]
    · rw [wakeup_holds, ← hq]
      rfl
    · exact hq
  | kill p =>
    by_cases hqp : q = p
    · subst hqp
      simpa using hq
    · simpa [hqp] using hq
  | get p c hpc he hd =>
    have hp := h.lock p
    have hholds : (if s.cons.head = newline then ConsPc.done (c.store s.cons.head)
        else .loop (c.store s.cons.head)).holds = true := by
      split_ifs <;> rfl
    by_cases hqp : q = p
    · subst hqp
      rw [hpc] at hp
      simpa [hholds] using hp.2 rfl
    · simpa [hqp] using hq
  | call p _ hpc | acquire p c hpc hl | more p c hpc hn | enough p c hpc hn | killed p c hpc he hk
  | sleep p c hpc he hk | reacquire p c hpc hl | eof p c hpc he hd hn | save p c hpc he hd hn
  | badOut p c hpc he hd | ret p c hpc =>
    have hp := h.lock p
    by_cases hqp : q = p
    · subst hqp
      simp_all [ConsPc.holds]
    · have hne := Ne.symm hqp
      simp_all [ConsPc.holds]

theorem copied_step (h : Inv es s) (hs : Guarded Step Accessible s e t) :
    copiedBytes (es ++ [e]) = (takenBytes (es ++ [e])).filter (· ≠ ctrlD) := by
  obtain ⟨hs, hacc⟩ := hs
  rw [copiedBytes_append, takenBytes_append, List.filter_append, h.copied]
  congr 1
  cases hs with
  | get p c hpc he hd => simp [copiedBytes, takenBytes, ReadEvent.takes, hd]
  | badOut p c hpc he hd => exact absurd rfl (hacc p _)
  | _ => rfl

/-- The ring that a process with the lock sees is its own. -/
theorem cons_step (h : Inv es s) (hs : Step s e t) (hq : (s.pc q).holds = true) :
    (∃ a, e = .read q a) ∨ t.cons = s.cons := by
  have hl := (h.lock q).2 hq
  have hp : ∀ p c, s.pc p = .wait c → p = q := by
    intro p c hpc
    have hlp := (h.lock p).2 (by rw [hpc]; rfl)
    exact Option.some.inj (hlp.symm.trans hl)
  cases hs with
  | intr c hn =>
    rw [hl] at hn
    cases hn
  | eof p c hpc he hd hn => exact .inl ⟨_, by rw [hp p c hpc]⟩
  | get p c hpc he hd => exact .inl ⟨_, by rw [hp p c hpc]⟩
  | badOut p c hpc he hd => exact .inl ⟨_, by rw [hp p c hpc]⟩
  | save p c hpc he hd hn => exact .inr Cons.pop_save
  | _ => exact .inr rfl

/-- A step of another process does not change a call. -/
theorem other_step (hs : Step s e t) (hq : ∀ a, e ≠ .read q a) :
    (t.pc q = s.pc q ∨ t.pc q = (s.pc q).wakeup) ∧ callBytes q (es ++ [e]) = callBytes q es := by
  have hne : ∀ p a, e = .read p a → p ≠ q := fun p a he hpq => hq a (hpq ▸ he)
  constructor
  · cases hs with
    | intr c hl => exact (intr_pc c q).symm
    | kill p =>
      by_cases hqp : q = p
      · subst hqp
        exact .inr (by simp)
      · exact .inl (by simp [hqp])
    | _ => exact .inl (by simp [(hne _ _ rfl).symm])
  · rw [callBytes, List.foldl_append]
    cases e with
    | intr c => rfl
    | kill p => rfl
    | read p a => cases a <;> simp [callBytes, hne p _ rfl]

theorem own_step (h : Inv es s) {a : ReadEvent} (hs : Guarded Step Accessible s (.read p a) t) :
    (t.pc p).Ok (callBytes p (es ++ [.read p a])) t.cons.pending := by
  obtain ⟨hs, hacc⟩ := hs
  have hok := h.calls p
  have hbytes : (∀ n, a ≠ .call n) →
      callBytes p (es ++ [.read p a]) = callBytes p es ++ a.takes.toList := by
    intro hcall
    rw [callBytes, List.foldl_append]
    cases a with
    | call n => exact absurd rfl (hcall n)
    | _ => simp [callBytes]
  cases hs with
  | call _ n hpc =>
    have hnil : callBytes p (es ++ [.read p (.call n)]) = [] := by simp [callBytes]
    rw [hnil, goto_pc, if_pos rfl]
    exact .start n
  | badOut _ c hpc he hd => exact absurd rfl (hacc p _)
  | eof _ c hpc he hd hn =>
    rw [hpc] at hok
    rw [hbytes (by simp), goto_pc, if_pos rfl]
    exact .eof hok.1 hn
  | save _ c hpc he hd hn =>
    rw [hpc] at hok
    have hhead : s.cons.pending.head? = some ctrlD := by
      rw [Cons.pop_pending he, hd, List.head?_cons]
    rw [hbytes (by simp), goto_pc, if_pos rfl, goto_cons, Cons.pop_save, ReadEvent.takes,
      Option.toList_none, List.append_nil]
    exact .save hok.1 hn hhead
  | get _ c hpc he hd =>
    rw [hpc] at hok
    rw [hbytes (by simp), goto_pc, if_pos rfl]
    by_cases hl : s.cons.head = newline
    · rw [if_pos hl, hl]
      exact .line hok.1
    · rw [if_neg hl]
      exact hok.1.store hok.2 hd hl
  | more _ c hpc hn =>
    rw [hpc] at hok
    rw [hbytes (by simp), goto_pc, if_pos rfl, ReadEvent.takes, Option.toList_none,
      List.append_nil]
    exact ⟨hok, hn⟩
  | enough _ c hpc hn =>
    rw [hpc] at hok
    rw [hbytes (by simp), goto_pc, if_pos rfl, ReadEvent.takes, Option.toList_none,
      List.append_nil]
    exact .enough hok hn
  | killed _ c hpc he hk | ret _ c hpc => simp [ConsPc.Ok]
  | acquire _ c hpc hl | sleep _ c hpc he hk | reacquire _ c hpc hl =>
    rw [hpc] at hok
    rw [hbytes (by simp), goto_pc, if_pos rfl, ReadEvent.takes, Option.toList_none,
      List.append_nil]
    exact hok

theorem calls_step (h : Inv es s) (hs : Guarded Step Accessible s e t) (q : ι) :
    (t.pc q).Ok (callBytes q (es ++ [e])) t.cons.pending := by
  by_cases hq : ∃ a, e = .read q a
  · obtain ⟨a, rfl⟩ := hq
    exact h.own_step hs
  · obtain ⟨hpc, hbytes⟩ := other_step hs.1 fun a he => hq ⟨a, he⟩
    have hok : (s.pc q).Ok (callBytes q es) t.cons.pending := by
      have hold := h.calls q
      cases hc : s.pc q with
      | done c =>
        have hcons := (h.cons_step hs.1 (q := q) (by rw [hc]; rfl)).resolve_left hq
        rwa [hcons, ← hc]
      | _ => rwa [hc] at hold
    rw [hbytes]
    rcases hpc with hpc | hpc <;> rw [hpc]
    · exact hok
    · exact wakeup_ok hok

theorem step (h : Inv es s) (hs : Guarded Step Accessible s e t) : Inv (es ++ [e]) t where
  edits := h.edits_step hs.1
  lock := h.lock_step hs.1
  calls := h.calls_step hs
  copied := h.copied_step hs

end Inv

/-- For any characters typed and any calls of `consoleread` with accessible buffers : the indices
are in order, what has been taken from the ring and what is left to read is the committed stream
of the line editor, what has been copied to readers is what has been taken without the `^D`s,
and a call returns as `Returns` says. -/
theorem console_stream {s₀ : ConsSys ι} (h0 : Boot s₀)
    (h : Run (Guarded Step Accessible) s₀ es s) :
    (s.cons.w - s.cons.r).toNat ≤ (s.cons.e - s.cons.r).toNat ∧
    (s.cons.e - s.cons.r).toNat ≤ INPUT_BUF_SIZE ∧
    takenBytes es ++ s.cons.pending = (Line.of es).committed ∧
    s.cons.tail = (Line.of es).tail ∧
    copiedBytes es = (takenBytes es).filter (· ≠ ctrlD) ∧
    ∀ p n r t, Step s (.read p (.ret n r)) t →
      Returns n r (callBytes p es) s.cons.pending := by
  have hI : Inv es s := h.invariant (.boot h0) fun _ _ _ _ _ hI hs => hI.step hs
  refine ⟨hI.edits.ordered.le, hI.edits.ordered.full, hI.edits.stream, hI.edits.tail, hI.copied,
    fun p n r t hs => ?_⟩
  have hok := hI.calls p
  cases hs with
  | ret _ c hpc =>
    rw [hpc] at hok
    exact hok

/-- A line of one letter is typed and read. -/
theorem console_stream_line : ∃ (s₀ s : ConsSys Unit) (es : List (ConsEvent Unit)), Boot s₀ ∧
    Run (Guarded Step Accessible) s₀ es s ∧ takenBytes es = [97, newline] ∧
    (Line.of es).committed = [97, newline] ∧ s.cons.pending = [] := by
  have hb : Boot (⟨⟨fun _ => 0, 0, 0, 0⟩, none, fun _ => .run, fun _ => false⟩ : ConsSys Unit) :=
    ⟨rfl, fun _ => rfl, rfl, rfl, rfl⟩
  have hnil : ∀ s₀ : ConsSys Unit, Run (Guarded Step Accessible) s₀ [] s₀ := fun _ => .nil
  have hr := hnil ⟨⟨fun _ => 0, 0, 0, 0⟩, none, fun _ => .run, fun _ => false⟩
  have hr := hr.snoc ⟨.intr 97 rfl, by simp [Accessible]⟩
  have hr := hr.snoc ⟨.intr newline rfl, by simp [Accessible]⟩
  have hr := hr.snoc ⟨.call () 5 rfl, by simp [Accessible]⟩
  have hr := hr.snoc ⟨.acquire () _ rfl rfl, by simp [Accessible]⟩
  have hr := hr.snoc ⟨.more () _ rfl (by decide), by simp [Accessible]⟩
  have hr := hr.snoc ⟨.get () _ rfl (by decide) (by decide), by simp [Accessible]⟩
  have hr := hr.snoc ⟨.more () _ rfl (by decide), by simp [Accessible]⟩
  have hr := hr.snoc ⟨.get () _ rfl (by decide) (by decide), by simp [Accessible]⟩
  obtain ⟨-, -, hstream, -⟩ := console_stream hb hr
  exact ⟨_, _, _, hb, hr, rfl, hstream.symm, rfl⟩

end ConsSys

end CowPbs
