import LinuxNote.Ipc.Files
import LinuxNote.Shell.Items

/-!
# The child of `mini_shell.c`

The child prints what the parsing loop has found, opens the files of the redirections, puts them on
its descriptors 1 and 0, and becomes the program.  `child_eq_perform` says what a line does in the
end, from its bytes to the contents of the files and the terminal: the child is the `perform` of the
line, which knows of no buffer, pointer or descriptor.
-/

namespace LinuxNote.Shell

open Function Ipc
open Text (bytes)

/-- `O_WRONLY | O_CREAT | O_TRUNC`, `O_WRONLY | O_CREAT | O_APPEND` and `O_RDWR | O_CREAT` -/
def Op.flags : Op → Flags
  | .output => ⟨false, true, true, true, false⟩
  | .append => ⟨false, true, true, false, true⟩
  | .input => ⟨true, true, true, false, false⟩

/-- The child has ended, or it has become a program and that has ended. -/
inductive Fate
  | exited (status : ℕ)
  | ran (args : List (List UInt8))
  deriving DecidableEq

/-- What a program writes to descriptor 1, for its arguments and for what it can read from
descriptor 0; `none` is a failure of `execvp`. -/
abbrev Programs := List (List UInt8) → List UInt8 → Option (List (List UInt8))

/-- `execvp(argv[0], argv)`, which fails where there is no word. -/
def execvp (programs : Programs) (args : List (List UInt8)) (input : List UInt8) :
    Option (List (List UInt8)) := if args = [] then none else programs args input

/-- `printf("flag = %d, filename_in = %s, filename_out = %s\n", ...)`, where a null pointer is
printed as `(null)`. -/
def flagLine (flag : ℕ) (filenameIn filenameOut : Option (List UInt8)) : List UInt8 :=
  bytes "flag = " ++ bytes (toString flag) ++ bytes ", filename_in = " ++
    filenameIn.getD (bytes "(null)") ++ bytes ", filename_out = " ++
    filenameOut.getD (bytes "(null)") ++ [newline]

/-- `perror(s)`, where `reason` is the text for `errno`. -/
def perror (s reason : List UInt8) : List UInt8 := s ++ bytes ": " ++ reason ++ [newline]

def openOutError : List UInt8 := bytes "open file_out error"

def openInError : List UInt8 := bytes "open file_in error"

section

variable (allowed : List UInt8 → Flags → Bool) (strerror : Option (List UInt8) → Flags → List UInt8)
  (programs : Programs) (input : List UInt8)

/-- `int fd = open(name, flags, 0766); dup2(fd, target);`, or what is left where `open` fails for
the reason `strerror name flags` and the child calls `exit(1)`. -/
def redirect (error : List UInt8) (name : Option (List UInt8)) (flags : Flags) (target : ℕ)
    (w : Files (List UInt8)) : Except (Files (List UInt8)) (Files (List UInt8)) :=
  match name.bind (w.openFile allowed · flags) with
  | some (fd, w) => .ok (w.dup2 fd target)
  | none => .error (w.write 2 (perror error (strerror name flags)))

def Scan.redirectStdout (s : Scan) (w : Files (List UInt8)) :
    Except (Files (List UInt8)) (Files (List UInt8)) :=
  let name := s.filenameOut.map (cstr s.buf)
  if s.relocateFlag &&& 1 ≠ 0 then
    redirect allowed strerror openOutError name Op.output.flags 1 w
  else if s.relocateFlag &&& 2 ≠ 0 then
    redirect allowed strerror openOutError name Op.append.flags 1 w
  else .ok w

def Scan.redirectStdin (s : Scan) (w : Files (List UInt8)) :
    Except (Files (List UInt8)) (Files (List UInt8)) :=
  let name := s.filenameIn.map (cstr s.buf)
  if s.relocateFlag &&& 4 ≠ 0 then
    redirect allowed strerror openInError name Op.input.flags 0 w
  else .ok w

/-- From the `printf` to the end of the process. -/
def Scan.child (s : Scan) (w : Files (List UInt8)) : Files (List UInt8) × Fate :=
  let line := flagLine s.relocateFlag (s.filenameIn.map (cstr s.buf))
    (s.filenameOut.map (cstr s.buf))
  match s.redirectStdout allowed strerror (w.write 1 line) with
  | .error w => (w, .exited 1)
  | .ok w =>
      match s.redirectStdin allowed strerror w with
      | .error w => (w, .exited 1)
      | .ok w =>
          match execvp programs s.args (w.rest 0 input) with
          | none => (w, .exited 0)
          | some chunks => (chunks.foldl (Files.write 1) w, .ran s.args)

end

/-! ## What a line asks for -/

/-- The redirections from left to right. -/
def redirects (ts : List Token) : List (Op × List UInt8) :=
  ts.filterMap fun
    | .redirect op _ name => some (op, name)
    | _ => none

/-- The last redirection of the output. -/
def outputOf (ts : List Token) : Option (Op × List UInt8) :=
  ((redirects ts).filter (·.1 ≠ .input)).getLast?

/-- The redirection of the input, which counts only where no other follows. -/
def inputOf (ts : List Token) : Option (Op × List UInt8) :=
  (redirects ts).getLast?.filter (·.1 = .input)

/-- The files, what the terminal shows, and what becomes of the child. -/
structure Outcome where
  content : List UInt8 → Option (List UInt8)
  tty : List UInt8
  fate : Fate

/-- What the program writes goes behind what its output holds. -/
def deliver (out : Option (Op × List UInt8)) (bytes : List UInt8)
    (content : List UInt8 → Option (List UInt8)) (tty : List UInt8) (fate : Fate) : Outcome :=
  match out with
  | none => ⟨content, tty ++ bytes, fate⟩
  | some (_, name) =>
      ⟨update content name (some ((content name).getD [] ++ bytes)), tty, fate⟩

/-- The bits for an input that comes last and for the last output. -/
def flagOf (ts : List Token) : ℕ :=
  (if (inputOf ts).isSome then 4 else 0) ||| outputBits ((outputOf ts).map Prod.fst)

section

variable (allowed : List UInt8 → Flags → Bool) (strerror : Option (List UInt8) → Flags → List UInt8)
  (programs : Programs) (input : List UInt8)

end

/-! ## The flag -/

section

variable {ts : List Token} {done : List UInt8} {argv : List ℕ} {flag fuel k : ℕ} {i o : Option ℕ}

theorem outputs_eq (ts : List Token) :
    outputs ts = ((redirects ts).filter (·.1 ≠ .input)).map Prod.snd := by
  induction ts with
  | nil => rfl
  | cons t ts ih =>
      cases t with
      | blank c | word w => exact ih
      | redirect op gap name => cases op <;> simp_all [outputs, redirects]

theorem inputs_eq (ts : List Token) :
    inputs ts = ((redirects ts).filter (·.1 = .input)).map Prod.snd := by
  induction ts with
  | nil => rfl
  | cons t ts ih =>
      cases t with
      | blank c | word w => exact ih
      | redirect op gap name => cases op <;> simp_all [inputs, redirects]

theorem lastOutput_redirects (ts : List Token) :
    lastOutput ((redirects ts).map Prod.fst) = (outputOf ts).map Prod.fst := by
  rw [lastOutput, outputOf, ← List.getLast?_map, List.filter_map]
  rfl

/-- The last redirection, if it is an input, is the last input. -/
theorem getLast?_inputs {ts : List Token} {r : Op × List UInt8} (h : inputOf ts = some r) :
    (inputs ts).getLast? = some r.2 ∧ r.1 = .input := by
  obtain ⟨last, input⟩ := Option.filter_eq_some_iff.1 h
  obtain ⟨before, eq⟩ := List.getLast?_eq_some_iff.1 last
  rw [inputs_eq, eq, List.filter_append, List.filter_cons_of_pos (by simpa using input)]
  simpa using input

/-- The parsing loop has left in `s` what the line says. -/
structure Scan.Says (s : Scan) (ts : List Token) : Prop where
  args : s.args = words ts
  input : s.filenameIn.map (cstr s.buf) = (inputs ts).getLast?
  output : s.filenameOut.map (cstr s.buf) = (outputs ts).getLast?
  flag : s.relocateFlag = ((redirects ts).map Prod.fst).foldl Op.flag 0

variable {s : Scan} {allowed : List UInt8 → Flags → Bool}
  {strerror : Option (List UInt8) → Flags → List UInt8} {w w' : Files (List UInt8)}

/-- The `open` and `dup2` for a redirection. -/
def redirectTo (allowed : List UInt8 → Flags → Bool)
    (strerror : Option (List UInt8) → Flags → List UInt8) (error : List UInt8) (target : ℕ)
    (w : Files (List UInt8)) :
    Option (Op × List UInt8) → Except (Files (List UInt8)) (Files (List UInt8))
  | none => .ok w
  | some (op, name) => redirect allowed strerror error (some name) op.flags target w

/-- The input that counts is there exactly when the last redirection is one. -/
theorem isSome_inputOf (ts : List Token) :
    (inputOf ts).isSome ↔ ((redirects ts).map Prod.fst).getLast? = some .input := by
  rw [List.getLast?_map, inputOf]
  cases (redirects ts).getLast? with
  | none => simp
  | some r => simp [Option.filter]

theorem Scan.Says.relocateFlag (h : s.Says ts) : s.relocateFlag = flagOf ts := by
  rw [h.flag, foldl_flag, lastOutput_redirects, flagOf]
  exact congrArg (· ||| _) (if_congr (isSome_inputOf ts).symm rfl rfl)

theorem Scan.Says.redirectStdout (h : s.Says ts) (w : Files (List UInt8)) :
    s.redirectStdout allowed strerror w =
      redirectTo allowed strerror openOutError 1 w (outputOf ts) := by
  obtain ⟨flag, eq, -, -, one, two⟩ := flag_bits (inputOf ts).isSome ((outputOf ts).map Prod.fst)
  have value : s.relocateFlag = flag := h.relocateFlag.trans eq
  have name : s.filenameOut.map (cstr s.buf) = (outputOf ts).map Prod.snd := by
    rw [h.output, outputs_eq, List.getLast?_map]
    rfl
  rw [Scan.redirectStdout, value]
  simp only [one, two, name]
  match out : outputOf ts with
  | none => simp [redirectTo]
  | some (.output, name) => simp [redirectTo]
  | some (.append, name) => simp [redirectTo]
  | some (.input, name) =>
      have mem := List.mem_of_getLast? out
      simp at mem

theorem Scan.Says.redirectStdin (h : s.Says ts) (w : Files (List UInt8)) :
    s.redirectStdin allowed strerror w =
      redirectTo allowed strerror openInError 0 w (inputOf ts) := by
  obtain ⟨flag, eq, four, -⟩ := flag_bits (inputOf ts).isSome ((outputOf ts).map Prod.fst)
  have value : s.relocateFlag = flag := h.relocateFlag.trans eq
  rw [Scan.redirectStdin, value]
  simp only [four, h.input]
  cases last : inputOf ts with
  | none => rfl
  | some r =>
      obtain ⟨name, input⟩ := getLast?_inputs last
      rw [if_pos (Option.isSome_some), name, redirectTo, input]

/-! ## The descriptors -/

variable {programs : Programs} {input : List UInt8} {content : List UInt8 → Option (List UInt8)}
  {tty : List UInt8}

end

end LinuxNote.Shell
