import LinuxNote.Shell.Grammar
import Mathlib.Data.Option.Basic

/-!
# The parsing loop of `mini_shell.c`

One pass over `cmd_buf` with one pointer.  After a redirection the same round goes on with the test
for a word, one byte behind the NUL that now ends the file name: whatever stands there and is no
white space becomes an argument.
-/

namespace LinuxNote.Shell

/-- `char cmd_buf[1024]` -/
def bufSize : ℕ := 1024

/-- `char *argv[32]` -/
def argvSize : ℕ := 32

/-- The local variables of the loop.  `argv` has the entries below `argc`; the others are NULL. -/
structure Scan where
  buf : List UInt8
  ptr : ℕ
  argv : List ℕ
  relocateFlag : ℕ
  filenameIn : Option ℕ
  filenameOut : Option ℕ
  deriving DecidableEq

/-- `*ptr` -/
def Scan.char (s : Scan) : Option UInt8 := s.buf[s.ptr]?

/-- `ptr++` -/
def Scan.next (s : Scan) : Scan := { s with ptr := s.ptr + 1 }

/-- `while (p(*ptr) && *ptr != '\0') ptr++;` -/
def Scan.skip (p : UInt8 → Bool) (s : Scan) : Option Scan :=
  (Shell.skip p (s.buf.drop s.ptr)).map fun n => { s with ptr := s.ptr + n }

/-- `*ptr = '\0'` -/
def Scan.terminate (s : Scan) : Option Scan :=
  (store0 s.buf s.ptr).map fun buf => { s with buf }

/-- A word from `*ptr` on, which is no white space: `argv[argc++] = ptr`, and a NUL behind it. -/
def Scan.argument (s : Scan) : Option Scan := do
  if s.argv.length < argvSize then
    let s ← { s with argv := s.argv ++ [s.ptr] }.skip (!isspace ·)
    s.terminate
  else none

/-- The file name from `*ptr` on, which a NUL now ends, and the byte behind it. -/
def Scan.filename (s : Scan) : Option (ℕ × Scan) := do
  let s ← s.skip isspace
  let name := s.ptr
  let s ← s.skip (!isspace ·)
  let s ← s.terminate
  return (name, s.next)

/-- The branch for `>` and `>>`. -/
def Scan.redirectOut (s : Scan) : Option Scan := do
  let s := { s with relocateFlag := 1 }.next
  let c ← s.char
  let s := if c = gt then { s with relocateFlag := 2 }.next else s
  let named ← s.filename
  return { named.2 with filenameOut := some named.1 }

/-- The branch for `<`. -/
def Scan.redirectIn (s : Scan) : Option Scan := do
  let named ← { s with relocateFlag := s.relocateFlag ||| 4 }.next.filename
  return { named.2 with filenameIn := some named.1 }

/-- The end of a round: `if (!isspace(*ptr)) ...; ptr++;` -/
def Scan.finish (s : Scan) : Option Scan := do
  let c ← s.char
  let s ← if isspace c then some s else s.argument
  return s.next

/-- One round, where `c` is `*ptr`. -/
def Scan.round (c : UInt8) (s : Scan) : Option Scan :=
  if c = gt then s.redirectOut.bind finish
  else if c = lt then s.redirectIn.bind finish
  else s.finish

/-- `while (*ptr != '\0')`; each round moves `ptr`, so the fuel is enough when it is more than the
length of the array. -/
def Scan.loop : ℕ → Scan → Option Scan
  | 0, _ => none
  | fuel + 1, s => s.char.bind fun c => if c = 0 then some s else (s.round c).bind (loop fuel)

/-- `cmd_buf` when `fgets` has delivered `line` and the last byte has been overwritten. -/
def cmdBuf (line : List UInt8) : Option (List UInt8) :=
  let buf := line ++ List.replicate (bufSize - line.length) 0
  if strlen buf = 0 then none else store0 buf (strlen buf - 1)

/-- From the line to `argv[argc] = NULL`. -/
def parse (line : List UInt8) : Option Scan := do
  let buf ← cmdBuf line
  let s ← Scan.loop (bufSize + 1) ⟨buf, 0, [], 0, none, none⟩
  if s.argv.length < argvSize then some s else none

/-- The strings in `argv`. -/
def Scan.args (s : Scan) : List (List UInt8) := s.argv.map (cstr s.buf)

/-- The loop leaves in `argv` the words in order and in the two names those of the last
redirections. -/
def Accepts (ts : List Token) : Prop :=
  ∃ s, parse (text ts ++ [newline]) = some s ∧ s.args = words ts ∧
    s.filenameIn.map (cstr s.buf) = (inputs ts).getLast? ∧
    s.filenameOut.map (cstr s.buf) = (outputs ts).getLast?

end LinuxNote.Shell
