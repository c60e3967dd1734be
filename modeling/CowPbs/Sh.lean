import Mathlib
import CowPbs.Lib.Prog
import CowPbs.Lib.Bytes
import CowPbs.Lib.Runs

/-!
# The parser of the shell

sh.c parses a command line in place : a tree of commands holds the first and the last position of
each word in the line, and `nulterminate` then writes a 0 at each last position. The state of the
parser is `*ps`, as an offset in the line, and `es` is the length of the line.

The functions of the parser call each other, so they take a bound `fuel` on the depth of the calls.
-/

open Prog Bytes Runs

namespace CowPbs.Sh

/-! ## Characters -/

/-- A character constant. -/
def ch (c : Char) : Byte :=
  BitVec.ofNat 8 c.toNat

/-- `strchr` : whether it returns a pointer. -/
def strchr : List Byte → Byte → Bool
  | [], _ => false
  | x :: s, c => if x = c then true else strchr s c

def whitespace : List Byte :=
  [ch ' ', 9, 13, 10, 11]

def symbols : List Byte :=
  [ch '<', ch '|', ch '>', ch '&', ch ';', ch '(', ch ')']

/-- A character that is skipped between tokens. -/
def isSpace (c : Byte) : Bool :=
  strchr whitespace c

/-- A character of a word. -/
def isWord (c : Byte) : Bool :=
  !strchr whitespace c && !strchr symbols c

/-- `*s`, which is 0 at the end of the line. -/
def charAt (line : List Byte) (s : ℕ) : Byte :=
  line.getD s 0

/-! ## Commands -/

def MAXARGS : ℕ := 10
def O_RDONLY : ℕ := 0x000
def O_WRONLY : ℕ := 0x001
def O_CREATE : ℕ := 0x200
def O_TRUNC : ℕ := 0x400

/-- `struct cmd`, with strings in `α`. While the line is parsed a string is a pair of a first and a
last position, such as `argv[i]` and `eargv[i]`. -/
inductive Cmd (α : Type)
  | exec (argv : List α)
  | redir (cmd : Cmd α) (file : α) (mode fd : ℕ)
  | pipe (left right : Cmd α)
  | list (left right : Cmd α)
  | back (cmd : Cmd α)
deriving DecidableEq

/-- `cmd->argv[argc] = q`, where `cmd` is under the redirections of `ret`. -/
def Cmd.addArg {α : Type} (x : α) : Cmd α → Cmd α
  | .exec argv => .exec (argv ++ [x])
  | .redir cmd file mode fd => .redir (cmd.addArg x) file mode fd
  | cmd => cmd

/-! ## The parser -/

/-- Not in the shell : the calls are nested deeper than `fuel`. -/
def noFuel : String :=
  "out of fuel"

section

variable (line : List Byte)

/-- `gettoken`. It returns the token, `*q` and `*eq`. -/
def gettoken : Prog ℕ (Byte × ℕ × ℕ) := do
  let q := skipWhile isSpace line (← get)
  let c := charAt line q
  let (ret, eq) :=
    if c = 0 then (c, q)
    else if c ∈ [ch '|', ch '(', ch ')', ch ';', ch '&', ch '<'] then (c, q + 1)
    else if c = ch '>' then
      if charAt line (q + 1) = ch '>' then (ch '+', q + 2) else (c, q + 1)
    else (ch 'a', skipWhile isWord line q)
  set (skipWhile isSpace line eq)
  return (ret, q, eq)

/-- `peek`. -/
def peek (toks : List Byte) : Prog ℕ Bool := do
  let s := skipWhile isSpace line (← get)
  set s
  return decide (charAt line s ≠ 0) && strchr toks (charAt line s)

/-- `parseredirs`. -/
def parseredirs : ℕ → Cmd (ℕ × ℕ) → Prog ℕ (Cmd (ℕ × ℕ))
  | 0, _ => throw noFuel
  | turns + 1, cmd => do
    if ← peek line [ch '<', ch '>'] then
      let (tok, _) ← gettoken line
      let (ret, q, eq) ← gettoken line
      if ret ≠ ch 'a' then throw "missing file for redirection"
      else if tok = ch '<' then parseredirs turns (.redir cmd (q, eq) O_RDONLY 0)
      else if tok = ch '>' then
        parseredirs turns (.redir cmd (q, eq) (O_WRONLY ||| O_CREATE ||| O_TRUNC) 1)
      else if tok = ch '+' then parseredirs turns (.redir cmd (q, eq) (O_WRONLY ||| O_CREATE) 1)
      else parseredirs turns cmd
    else return cmd

/-- The loop of `parseexec`. -/
def parseargs : ℕ → ℕ → Cmd (ℕ × ℕ) → Prog ℕ (Cmd (ℕ × ℕ))
  | 0, _, _ => throw noFuel
  | turns + 1, argc, ret => do
    if ← peek line [ch '|', ch ')', ch '&', ch ';'] then return ret
    else
      let (tok, q, eq) ← gettoken line
      if tok = 0 then return ret
      else if tok ≠ ch 'a' then throw "syntax"
      else
        let ret := ret.addArg (q, eq)
        if MAXARGS ≤ argc + 1 then throw "too many args"
        else
          let ret ← parseredirs line (line.length + 1) ret
          parseargs turns (argc + 1) ret

/-- The loop of `parseline`. -/
def parseamps : ℕ → Cmd (ℕ × ℕ) → Prog ℕ (Cmd (ℕ × ℕ))
  | 0, _ => throw noFuel
  | turns + 1, cmd => do
    if ← peek line [ch '&'] then
      let _ ← gettoken line
      parseamps turns (.back cmd)
    else return cmd

mutual

/-- `parseline`. -/
def parseline : ℕ → Prog ℕ (Cmd (ℕ × ℕ))
  | 0 => throw noFuel
  | fuel + 1 => do
    let cmd ← parsepipe fuel
    let cmd ← parseamps line (line.length + 1) cmd
    if ← peek line [ch ';'] then
      let _ ← gettoken line
      let right ← parseline fuel
      return .list cmd right
    else return cmd

/-- `parsepipe`. -/
def parsepipe : ℕ → Prog ℕ (Cmd (ℕ × ℕ))
  | 0 => throw noFuel
  | fuel + 1 => do
    let cmd ← parseexec fuel
    if ← peek line [ch '|'] then
      let _ ← gettoken line
      let right ← parsepipe fuel
      return .pipe cmd right
    else return cmd

/-- `parseexec`. -/
def parseexec : ℕ → Prog ℕ (Cmd (ℕ × ℕ))
  | 0 => throw noFuel
  | fuel + 1 => do
    if ← peek line [ch '('] then parseblock fuel
    else
      let ret ← parseredirs line (line.length + 1) (.exec [])
      parseargs line (line.length + 1) 0 ret

/-- `parseblock`. -/
def parseblock : ℕ → Prog ℕ (Cmd (ℕ × ℕ))
  | 0 => throw noFuel
  | fuel + 1 => do
    if !(← peek line [ch '(']) then throw "parseblock"
    else
      let _ ← gettoken line
      let cmd ← parseline fuel
      if !(← peek line [ch ')']) then throw "syntax - missing )"
      else
        let _ ← gettoken line
        parseredirs line (line.length + 1) cmd

end

end

/-- `nulterminate`, with the line and its last 0 in `buf`. -/
def nulterminate : Cmd (ℕ × ℕ) → List Byte → List Byte
  | .exec argv, buf => argv.foldl (fun buf x => buf.set x.2 0) buf
  | .redir cmd file _ _, buf => (nulterminate cmd buf).set file.2 0
  | .pipe left right, buf => nulterminate right (nulterminate left buf)
  | .list left right, buf => nulterminate right (nulterminate left buf)
  | .back cmd, buf => nulterminate cmd buf

/-- What follows `parseline` in `parsecmd`. -/
def parseend (line : List Byte) (cmd : Cmd (ℕ × ℕ)) : Prog ℕ (Cmd (ℕ × ℕ) × List Byte) := do
  let _ ← peek line []
  if (← get) ≠ line.length then throw "syntax"
  else return (cmd, nulterminate cmd (line ++ [0]))

/-- `parsecmd`. It returns the command and the line as it is then. -/
def parsecmd (line : List Byte) (fuel : ℕ) : Except String (Cmd (ℕ × ℕ) × List Byte) :=
  (parseline line fuel >>= parseend line).run' 0

/-- The string at `q`. -/
def cstr (buf : List Byte) (q : ℕ) : List Byte :=
  (buf.drop q).takeWhile (· ≠ 0)

example : (parsecmd [ch 'a', ch '>', ch 'b', ch '&'] 10).map
    (fun r => (r.1, cstr r.2 0, cstr r.2 2)) =
    .ok (.back (.redir (.exec [(0, 1)]) (2, 3) 0x601 1), [ch 'a'], [ch 'b']) := by
  decide +kernel

end CowPbs.Sh
