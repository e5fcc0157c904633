import LinuxNote.Conc.Machine
import LinuxNote.Shell.Split

/-!
# The main loops of the three shells

A round reads a line, splits it and starts a child for the words.  The condition of the loop is the
constant 1, and the result of `fgets` is not looked at: behind the last line a round goes on with
what the array holds (`step_atEnd`).  So one child is started for each line (`children_of_lines`),
but no shell stops there (`not_runsOnce`).
-/

namespace LinuxNote.Shell

open Conc Text

/-- `shell.c`, `Myshell.c` and `mini_shell.c` -/
inductive Program
  | shell
  | myshell
  | miniShell
  deriving DecidableEq

/-- What a call of `fgets(inbuf, 1023, stdin)` takes from the input. -/
def nextLine (stdin : List UInt8) : List UInt8 := takeLine newline 1022 stdin

/-- The array after it; at the end of the input the array stays as it is. -/
def fgets (line buf : List UInt8) : List UInt8 :=
  if line = [] then buf else overlay (line ++ [0]) buf

/-- The arguments of the child, where an array without initial value holds `old`. -/
def Program.args (old line : List UInt8) : Program → Option (List (List UInt8))
  | .shell => (split (fgets line zeroed)).map Split.args
  | .myshell => (split (fgets line old)).map Split.args
  | .miniShell => miniShellArgs line

/-- The input not yet read, the arguments of the children that have been started, and whether the
loop has been left. -/
structure Main where
  stdin : List UInt8
  children : List (List (List UInt8))
  left : Bool
  deriving DecidableEq

/-- What a round finds in an array without initial value, and whether `fork` succeeds. -/
structure Round where
  old : List UInt8
  forked : Bool

/-- The `1` of `while (1)` -/
def condition : ℕ := 1

def step (p : Program) (r : Round) (s : Main) : Option Main :=
  if s.left then none
  else if condition = 0 then some { s with left := true }
  else (p.args r.old (nextLine s.stdin)).map fun args =>
    { s with
      stdin := s.stdin.drop (nextLine s.stdin).length
      children := if r.forked then s.children ++ [args] else s.children }

def start (stdin : List UInt8) : Main := ⟨stdin, [], false⟩

def main (p : Program) (stdin : List UInt8) : Machine Main Round where
  init s := s = start stdin
  step := step p

/-- Rounds in which `fork` succeeds. -/
def rounds (old : ℕ → List UInt8) (n : ℕ) : List Round := (List.range n).map fun i => ⟨old i, true⟩

/-- One child for each line, in order and for its words, and then the loop is left. -/
def RunsOnce (p : Program) (lines : List (List UInt8)) (old : ℕ → List UInt8) : Prop :=
  ∃ n s, (main p lines.flatten).run (rounds old n) (start lines.flatten) = some s ∧
    s.children = lines.map runs ∧ s.left = true

/-! ## The end of the input -/

section

variable {p : Program} {r : Round} {s s' : Main} {stdin : List UInt8}

theorem step_of_not_left (h : s.left = false) :
    step p r s = (p.args r.old (nextLine s.stdin)).map fun args =>
      { s with
        stdin := s.stdin.drop (nextLine s.stdin).length
        children := if r.forked then s.children ++ [args] else s.children } := by
  rw [step, if_neg (by rw [h]; decide), if_neg (by decide)]

/-- No round leaves the loop. -/
theorem not_left_step (h : step p r s = some s') : s'.left = false := by
  cases hl : s.left with
  | true =>
      rw [step, if_pos hl] at h
      cases h
  | false =>
      rw [step_of_not_left hl] at h
      obtain ⟨args, -, rfl⟩ := Option.map_eq_some_iff.1 h
      exact hl

theorem not_left_of_reachable (h : (main p stdin).Reachable s) : s.left = false := by
  have key : (main p stdin).Inductive fun s => s.left = false := by
    refine ⟨?_, fun a s s' _ _ hs => not_left_step hs⟩
    rintro s rfl
    rfl
  exact key.reachable h

theorem not_left_of_run {rs : List Round} (h : (main p stdin).run rs (start stdin) = some s) :
    s.left ≠ true := by
  rw [not_left_of_reachable (Machine.reachable_of_run rs rfl h)]
  decide

theorem chop_eq_none {buf : List UInt8} (h : buf.head? = some 0) : chop buf = none := by
  obtain ⟨rest, rfl⟩ := List.head?_eq_some_iff.1 h
  have empty : str (0 :: rest) = some [] := str_append_zero [] rest
  rw [chop, empty]
  rfl

/-- Behind the last line: an access at −1, or in `Myshell.c` a child for what the array held. -/
theorem step_atEnd (loop : s.left = false) (h : s.stdin = []) : step p r s = none ∨
    p = .myshell ∧ ∃ args, step p r s =
      some { s with children := if r.forked then s.children ++ [args] else s.children } := by
  rw [step_of_not_left loop, h]
  have line : nextLine [] = [] := rfl
  rw [line]
  cases p with
  | shell =>
      have empty : split (fgets [] zeroed) = none := by
        rw [fgets, if_pos rfl, split, chop_eq_none rfl]
        rfl
      left
      rw [Program.args, empty]
      rfl
  | myshell =>
      rw [Program.args]
      cases (split (fgets [] r.old)).map Split.args with
      | none => exact Or.inl rfl
      | some args =>
          refine Or.inr ⟨rfl, args, ?_⟩
          rw [Option.map_some, List.drop_nil, ← h]
  | miniShell =>
      have empty : miniShellArgs [] = none := by
        have buf : cmdBuf [] = none := by decide +kernel
        rw [miniShellArgs, parse, buf]
        rfl
      left
      rw [Program.args, empty]
      rfl

end

/-! ## The lines -/

section

variable {p : Program} {stdin : List UInt8} {lines : List (List UInt8)}

theorem nextLine_line {line : List UInt8} (h : Ordinary line) (inner : newline ∉ line.dropLast)
    (rest : List UInt8) : nextLine (line ++ rest) = line := by
  have fits := h.fits
  obtain ⟨body, rfl⟩ := List.getLast?_eq_some_iff.1 h.ends
  rw [List.dropLast_concat] at inner
  rw [List.length_append, List.length_singleton] at fits
  rw [nextLine, List.append_assoc, List.singleton_append, takeLine_append inner (by omega)]

theorem args_line {line : List UInt8} (h : Ordinary line) (old : List UInt8) :
    p.args old line = some (runs line) := by
  have nonempty : line ≠ [] := by
    rintro rfl
    exact absurd h.ends (by decide)
  cases p with
  | shell | myshell =>
      rw [Program.args, fgets, if_neg nonempty]
      exact h.split _
  | miniShell => exact h.parse

/-- As many rounds as lines, each with its own child. -/
theorem run_lines {rs : List Round} (h : ∀ l ∈ lines, Ordinary l ∧ newline ∉ l.dropLast)
    (len : rs.length = lines.length) (forked : ∀ r ∈ rs, r.forked = true) (rest : List UInt8)
    (done : List (List (List UInt8))) :
    (main p stdin).run rs ⟨lines.flatten ++ rest, done, false⟩ =
      some ⟨rest, done ++ lines.map runs, false⟩ := by
  induction lines generalizing rs done with
  | nil =>
      obtain rfl := List.length_eq_zero_iff.1 len
      simp [Machine.run]
  | cons line lines ih =>
      obtain ⟨r, rs, rfl⟩ := List.exists_cons_of_length_eq_add_one len
      obtain ⟨⟨ordinary, inner⟩, h⟩ := List.forall_mem_cons.1 h
      obtain ⟨this, forked⟩ := List.forall_mem_cons.1 forked
      have first : step p r ⟨(line :: lines).flatten ++ rest, done, false⟩ =
          some ⟨lines.flatten ++ rest, done ++ [runs line], false⟩ := by
        rw [step_of_not_left rfl]
        dsimp only
        rw [List.flatten_cons, List.append_assoc, nextLine_line ordinary inner,
          args_line ordinary, Option.map_some, List.drop_left, if_pos this]
      rw [Machine.run, show (main p stdin).step = step p from rfl, first, Option.bind_some,
        ih h (Nat.succ.inj len) forked, List.map_cons, List.append_assoc, List.singleton_append]

/-- Up to the last line everything is as it should be. -/
theorem children_of_lines (h : ∀ l ∈ lines, Ordinary l ∧ newline ∉ l.dropLast)
    (old : ℕ → List UInt8) :
    (main p lines.flatten).run (rounds old lines.length) (start lines.flatten) =
      some ⟨[], lines.map runs, false⟩ := by
  have len : (rounds old lines.length).length = lines.length := by
    rw [rounds, List.length_map, List.length_range]
  have forked : ∀ r ∈ rounds old lines.length, r.forked = true := by
    intro r hr
    obtain ⟨i, -, rfl⟩ := List.mem_map.1 hr
    rfl
  simpa [start] using run_lines (p := p) h len forked [] []

end

/-- For every input and whatever the arrays hold. -/
theorem not_runsOnce (p : Program) (lines : List (List UInt8)) (old : ℕ → List UInt8) :
    ¬ RunsOnce p lines old := by
  rintro ⟨n, s, run, -, left⟩
  exact not_left_of_run run left

/-- What the array of `Myshell.c` holds behind a round for "ls\n". -/
def heldLs (_ : ℕ) : List UInt8 := [108, 115] ++ List.replicate 1022 0

/-- The one line "ls\n" in `Myshell.c`: behind it a second child is started, for "l". -/
theorem not_runsOnce_ls : (main .myshell [108, 115, 10]).run (rounds heldLs 2)
      (start [108, 115, 10]) = some ⟨[], [[[108, 115]], [[108]]], false⟩ ∧
    ¬ RunsOnce .myshell [[108, 115, 10]] heldLs := by
  refine ⟨by decide +kernel, ?_⟩
  rintro ⟨n, s, run, -, left⟩
  exact not_left_of_run run left

end LinuxNote.Shell
