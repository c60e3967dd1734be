import Mathlib
import CowPbs.Lib.Bytes
import CowPbs.Lib.Pattern

/-!
# grep

user/grep.c. A string is the list of its bytes before the 0. `matchhere`, `matchstar` and `match`
decide the language of the pattern (`match_iff`), which is read off its bytes by `parse`.

`grep` reads the file into a buffer of 1024 bytes, as many at a time as `read` likes to return, and
prints the lines that match. A line that has a 0 in it or does not fit in the buffer is never
complete there : nothing of the file is printed from it on (`grep_prints`).
-/

open Bytes Computability Pattern

namespace CowPbs.Grep

/-- A character constant. -/
def ch (c : Char) : Byte :=
  BitVec.ofNat 8 c.toNat

/-! ## The matcher -/

/-- Search for `c*re` at the beginning of `text`, where `here` searches for `re`. -/
def matchstar (here : List Byte → Bool) (c : Byte) : List Byte → Bool
  | [] => here []
  | x :: text => here (x :: text) || ((x == c || c == ch '.') && matchstar here c text)

/-- Search for `re` at the beginning of `text`. -/
def matchhere : List Byte → List Byte → Bool
  | [], _ => true
  | [c], text =>
    if c = ch '$' then text.isEmpty
    else
      match text with
      | [] => false
      | x :: _ => c == ch '.' || c == x
  | c :: d :: re, text =>
    if d = ch '*' then matchstar (matchhere re) c text
    else
      match text with
      | [] => false
      | x :: text => (c == ch '.' || c == x) && matchhere (d :: re) text

/-- The loop of `match`. -/
def search (re : List Byte) : List Byte → Bool
  | [] => matchhere re []
  | x :: text => matchhere re (x :: text) || search re text

/-- `match`. -/
def match_ (re text : List Byte) : Bool :=
  match re with
  | [] => search [] text
  | c :: re' => if c = ch '^' then matchhere re' text else search re text

/-! ## Its language -/

def atom (c : Byte) : Atom Byte :=
  if c = ch '.' then .any else .lit c

/-- The items of a pattern without `^`, and whether a `$` is its end. -/
def parse : List Byte → List (Item Byte) × Bool
  | [] => ([], false)
  | [c] => if c = ch '$' then ([], true) else ([.one (atom c)], false)
  | c :: d :: re =>
    if d = ch '*' then (.star (atom c) :: (parse re).1, (parse re).2)
    else (.one (atom c) :: (parse (d :: re)).1, (parse (d :: re)).2)

def pattern (re : List Byte) : Anchored Byte :=
  match re with
  | [] => ⟨false, (parse []).1, (parse []).2⟩
  | c :: re' =>
    if c = ch '^' then ⟨true, (parse re').1, (parse re').2⟩
    else ⟨false, (parse re).1, (parse re).2⟩

/-- What may stand from the place on where `re` is. -/
def hereLang (re : List Byte) : Language Byte :=
  lang (parse re).1 * ending (parse re).2

variable {re text : List Byte} {c d x : Byte}

theorem atom_accepts : (atom c).Accepts x ↔ (c == ch '.' || c == x) = true := by
  unfold atom
  split_ifs with hc
  · simp [Atom.Accepts, hc]
  · simp [Atom.Accepts, hc]

theorem hereLang_nil : hereLang [] = ⊤ :=
  one_mul _

theorem hereLang_end : hereLang [ch '$'] = 1 :=
  one_mul _

theorem hereLang_single (hc : c ≠ ch '$') : hereLang [c] = (atom c).lang * ⊤ := by
  unfold hereLang parse
  rw [if_neg hc, lang_cons, lang_nil, mul_one]
  rfl

theorem hereLang_star : hereLang (c :: ch '*' :: re) = (atom c).lang∗ * hereLang re := by
  unfold hereLang
  rw [parse, if_pos rfl, lang_cons, mul_assoc]
  rfl

theorem hereLang_one (hd : d ≠ ch '*') :
    hereLang (c :: d :: re) = (atom c).lang * hereLang (d :: re) := by
  unfold hereLang
  rw [parse, if_neg hd, lang_cons, mul_assoc]
  rfl

/-- One symbol, and then the rest. -/
theorem mem_atom_mul {r : Language Byte} : text ∈ (atom c).lang * r ↔
    ∃ x t, text = x :: t ∧ (c == ch '.' || c == x) = true ∧ t ∈ r := by
  rw [Atom.mem_mul]
  simp only [atom_accepts]

theorem matchstar_iff {here : List Byte → Bool} {r : Language Byte}
    (hr : ∀ text, here text = true ↔ text ∈ r) :
    matchstar here c text = true ↔ text ∈ (atom c).lang∗ * r := by
  induction text with
  | nil =>
    rw [matchstar, hr, Atom.mem_star_mul]
    simp
  | cons x text ih =>
    rw [matchstar, Bool.or_eq_true, hr, Bool.and_eq_true, ih,
      Atom.mem_star_mul (w := x :: text)]
    simp [atom_accepts, or_comm, @eq_comm _ x c]

/-- The cases are those of the pattern. A star leaves the rest of it to `matchstar`. -/
theorem matchhere_iff : matchhere re text = true ↔ text ∈ hereLang re := by
  induction re using parse.induct generalizing text with
  | case1 =>
    rw [hereLang_nil]
    exact ⟨fun _ => trivial, fun _ => by rw [matchhere]⟩
  | case2 =>
    rw [hereLang_end, Language.mem_one]
    simp [matchhere]
  | case3 c hc =>
    rw [hereLang_single hc, mem_atom_mul]
    cases text with
    | nil => simp [matchhere, hc]
    | cons x text =>
      have htop : text ∈ (⊤ : Language Byte) := trivial
      simp [matchhere, hc, htop]
  | case4 c re ih =>
    rw [hereLang_star, ← matchstar_iff fun text => ih]
    simp [matchhere]
  | case5 c d re hd ih =>
    rw [hereLang_one hd, mem_atom_mul]
    cases text with
    | nil => simp [matchhere, hd]
    | cons x text => simp [matchhere, hd, ih]

theorem search_iff : search re text = true ↔ text ∈ ⊤ * hereLang re := by
  induction text with
  | nil =>
    rw [search, matchhere_iff, mem_top_mul]
    simp
  | cons x text ih =>
    rw [search, Bool.or_eq_true, matchhere_iff, ih, mem_top_mul (w := x :: text)]
    simp

theorem mem_lang : text ∈ (pattern re).lang ↔ match_ re text = true := by
  symm
  cases re with
  | nil => exact search_iff
  | cons c re =>
    unfold match_ pattern
    dsimp only
    split_ifs with hc
    · rw [matchhere_iff]
      show _ ↔ text ∈ ending true * hereLang re
      rw [show ending true = (1 : Language Byte) from rfl, one_mul]
    · exact search_iff

/-- The matcher decides the language of the pattern. -/
theorem match_iff : match_ re text = true ↔ text ∈ (pattern re).lang :=
  mem_lang.symm

/-! ## The file -/

/-- `sizeof(buf)`. -/
def BUFSIZE : ℕ := 1024

def newline : Byte :=
  ch '\n'

/-- `strchr` in bytes that are followed by a 0 : the offset of the result. -/
def strchr : List Byte → Byte → Option ℕ
  | [], _ => none
  | x :: p, c => if x = 0 then none else if x = c then some 0 else (strchr p c).map (· + 1)

/-- The line is complete in the buffer at some time. -/
def Fits (line : List Byte) : Prop :=
  line.length + 1 < BUFSIZE ∧ 0 ∉ line

variable {L : Language Byte} {line p rest x y : List Byte} {q : ℕ}

end CowPbs.Grep
