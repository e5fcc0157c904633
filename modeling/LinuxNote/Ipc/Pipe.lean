import Mathlib.Data.Fintype.Defs
import Mathlib.Logic.Function.Basic

/-!
# Pipes

The descriptors of all processes together decide what a pipe does.  A `read` of an empty pipe blocks
as long as somebody holds its write end, and is the end of file otherwise; a `write` raises SIGPIPE
as soon as nobody holds its read end, and blocks where there is no room.  `read_cases` and
`write_cases` are what programs on pipes are verified with.
-/

namespace Ipc

open Function

/-- What a descriptor refers to. -/
inductive File
  | reader
  | writer
  | other
  deriving DecidableEq

/-- The pipe, and the descriptor tables of the processes `π`. -/
structure Pipe (π α : Type*) where
  buf : List α
  fds : π → List (Option File)

variable {π α : Type*}

namespace Pipe

/-- Some process holds this end of the pipe. -/
def Open (k : Pipe π α) (f : File) : Prop := ∃ p, some f ∈ k.fds p

instance [Fintype π] (k : Pipe π α) (f : File) : Decidable (k.Open f) :=
  inferInstanceAs (Decidable (∃ p, some f ∈ k.fds p))

section Tables

variable [DecidableEq π]

@[simp] def setFds (k : Pipe π α) (p : π) (fds : List (Option File)) : Pipe π α :=
  { k with fds := update k.fds p fds }

@[simp] def close (k : Pipe π α) (p : π) (fd : ℕ) : Pipe π α :=
  k.setFds p ((k.fds p).set fd none)

@[simp] def dup2 (k : Pipe π α) (p : π) (oldfd newfd : ℕ) : Pipe π α :=
  k.setFds p ((k.fds p).set newfd ((k.fds p).getD oldfd none))

/-- The child has the descriptors of its parent. -/
@[simp] def fork (k : Pipe π α) (p child : π) : Pipe π α := k.setFds child (k.fds p)

/-- The end of a process closes its descriptors. -/
@[simp] def exit (k : Pipe π α) (p : π) : Pipe π α := k.setFds p []

end Tables

/-- How a `read` of at most `asked` bytes goes that gets `n` of them: an empty result is the end of
file, and `none` stands for a process that has to wait. -/
def read [Fintype π] (k : Pipe π α) (asked n : ℕ) : Option (List α × Pipe π α) :=
  if k.buf = [] then if k.Open .writer then none else some ([], k)
  else if 0 < n ∧ n ≤ asked ∧ n ≤ k.buf.length then
    some (k.buf.take n, { k with buf := k.buf.drop n })
  else none

/-- What becomes of a `write`. -/
inductive Written (π α : Type*)
  | wrote (k : Pipe π α)
  | sigpipe
  | blocked

/-- The next `n` bytes of a `write` into a pipe with room for `cap`. -/
def write [Fintype π] (cap : ℕ) (k : Pipe π α) (bytes : List α) (n : ℕ) : Written π α :=
  if ¬ k.Open .reader then .sigpipe
  else if 0 < n ∧ n ≤ bytes.length ∧ k.buf.length + n ≤ cap then
    .wrote { k with buf := k.buf ++ bytes.take n }
  else .blocked

variable [Fintype π] {k k' : Pipe π α} {bytes : List α} {asked n cap : ℕ}

/-- What has been read and what is left is what was there; and nothing is read only at the end. -/
theorem read_cases (h : k.read asked n = some (bytes, k')) :
    bytes ++ k'.buf = k.buf ∧ k'.fds = k.fds ∧ bytes.length ≤ asked ∧
      (bytes = [] → k.buf = [] ∧ ¬ k.Open .writer) := by
  unfold read at h
  split at h
  · next empty =>
      split at h
      · cases h
      · next closed =>
          obtain ⟨rfl, rfl⟩ := Prod.mk.inj (Option.some.inj h)
          exact ⟨rfl, rfl, Nat.zero_le _, fun _ => ⟨empty, closed⟩⟩
  · next rest =>
      split at h
      · next bound =>
          obtain ⟨rfl, rfl⟩ := Prod.mk.inj (Option.some.inj h)
          refine ⟨List.take_append_drop n k.buf, rfl, ?_, fun none => ?_⟩
          · exact (List.length_take_le n k.buf).trans bound.2.1
          · have some_ : (k.buf.take n).length = n := List.length_take_of_le bound.2.2
            rw [none] at some_
            exact absurd some_ bound.1.ne
      · cases h

/-- A reader waits exactly where there is nothing to read and somebody could still write. -/
theorem exists_read_iff (one : 0 < asked) :
    (∃ n r, k.read asked n = some r) ↔ k.buf ≠ [] ∨ ¬ k.Open .writer := by
  constructor
  · rintro ⟨n, ⟨bytes, k'⟩, h⟩
    by_cases empty : k.buf = []
    · refine .inr fun opened => ?_
      rw [read, if_pos empty, if_pos opened] at h
      cases h
    · exact .inl empty
  · intro h
    by_cases empty : k.buf = []
    · have closed := h.resolve_left (not_not_intro empty)
      exact ⟨0, _, by rw [read, if_pos empty, if_neg closed]⟩
    · have bound : 0 < 1 ∧ 1 ≤ asked ∧ 1 ≤ k.buf.length :=
        ⟨Nat.one_pos, one, List.length_pos_iff.2 empty⟩
      exact ⟨1, _, by rw [read, if_neg empty, if_pos bound]⟩

theorem write_cases (h : k.write cap bytes n = .wrote k') :
    ∃ sent rest, sent ≠ [] ∧ bytes = sent ++ rest ∧ rest = bytes.drop n ∧
      k'.buf = k.buf ++ sent ∧ k'.fds = k.fds ∧ k'.buf.length ≤ cap := by
  unfold write at h
  split at h
  · cases h
  · split at h
    · next bound =>
        obtain rfl := Written.wrote.inj h
        have length : (bytes.take n).length = n := List.length_take_of_le bound.2.1
        refine ⟨bytes.take n, bytes.drop n, fun none => ?_, (List.take_append_drop n bytes).symm,
          rfl, rfl, rfl, ?_⟩
        · rw [none] at length
          exact absurd length bound.1.ne
        · rw [List.length_append, length]
          exact bound.2.2
    · cases h

theorem not_open_of_sigpipe (h : k.write cap bytes n = .sigpipe) : ¬ k.Open .reader := by
  unfold write at h
  split at h
  · assumption
  · split at h <;> cases h

/-- A writer with a reader waits exactly where there is no room. -/
theorem exists_write_iff (opened : k.Open .reader) (more : bytes ≠ []) :
    (∃ n k', k.write cap bytes n = .wrote k') ↔ k.buf.length < cap := by
  constructor
  · rintro ⟨n, k', h⟩
    obtain ⟨sent, rest, one, -, -, buf, -, room⟩ := write_cases h
    have := List.length_pos_iff.2 one
    rw [buf, List.length_append] at room
    omega
  · intro room
    have bound : 0 < 1 ∧ 1 ≤ bytes.length ∧ k.buf.length + 1 ≤ cap :=
      ⟨Nat.one_pos, List.length_pos_iff.2 more, room⟩
    exact ⟨1, _, by rw [write, if_neg (not_not_intro opened), if_pos bound]⟩

end Pipe

end Ipc
