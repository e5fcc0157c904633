import LinuxNote.Conc.Machine
import LinuxNote.Ipc.Pipe
import Mathlib.Data.Fintype.Option
import Mathlib.Data.List.TakeWhile

/-!
# `fifo_write.c` and `fifo_read.c`

Any number of writers send the words of their inputs through `test.fifo`, and one reader prints what
comes.  A `read` can take a part of a word, or several words at once; but `relays_of_reachable` says
that the texts together are what has been written, in that order, and that the reader has printed
all of it when a `read` returns 0.  What is written between that `read` and its exit is lost.  The
texts are whole because the buffers are cleared, and a byte of them is left alone: `%s` prints them
up to the first zero.
-/

namespace LinuxNote.Fifo

open Conc Function Ipc

/-- Each location is before the call it names; `opening` is inside of `open`, where the end of the
process is there already for its partners, and has `met` one when it can return.  In `atEnd` a
`read` has returned 0, and the process still has its descriptor. -/
inductive Reader
  | opens
  | opening (met : Bool)
  | read
  | print (buf : List UInt8)
  | atEnd
  | ended
  deriving DecidableEq

/-- The buffer holds the word and zeroes; in `overrun` the word was longer than the buffer. -/
inductive Writer
  | opens
  | opening (met : Bool)
  | scanf
  | write (buf : List UInt8)
  | print (buf : List UInt8)
  | overrun
  | killed
  deriving DecidableEq

/-- The process `none` is the reader.  The texts that it has printed stand between brackets; and
when a `read` has returned 0, `eof` is how many words had been written by then. -/
structure State (ι : Type*) where
  reader : Reader
  writers : ι → Writer
  fifo : Pipe (Option ι) UInt8
  written : List (ι × List UInt8)
  printed : List (List UInt8)
  eof : Option ℕ

/-- A `read` transfers `n` bytes.  `scanf` gets a word, or none at the end of the input; a signal
can end a writer at any time. -/
inductive Act (ι : Type*)
  | reader (n : ℕ)
  | writer (i : ι) (word : List UInt8)
  | kill (i : ι)

/-- The text that `%s` prints, or the bytes that `strlen` counts. -/
def text (buf : List UInt8) : List UInt8 := buf.takeWhile (· ≠ 0)

/-- A partner opens the other end. -/
def Reader.meet : Reader → Reader
  | .opening _ => .opening true
  | r => r

def Writer.meet : Writer → Writer
  | .opening _ => .opening true
  | w => w

variable {ι : Type*} [Fintype ι] [DecidableEq ι]

@[simp] def State.setWriter (s : State ι) (i : ι) (w : Writer) : State ι :=
  { s with writers := update s.writers i w }

def State.stepReader (s : State ι) (n : ℕ) : Option (State ι) :=
  match s.reader with
  | .opens =>
      some { s with
        reader := .opening (s.fifo.Open .writer)
        writers := fun i => (s.writers i).meet
        fifo := s.fifo.setFds none [some .reader] }
  | .opening met => if met then some { s with reader := .read } else none
  | .read =>
      match s.fifo.read 1023 n with
      | some (bytes, k) =>
          if bytes = [] then
            some { s with reader := .atEnd, fifo := k, eof := some s.written.length }
          else some { s with reader := .print bytes, fifo := k }
      | none => none
  | .print buf => some { s with reader := .read, printed := s.printed ++ [text buf] }
  | .atEnd => some { s with reader := .ended, fifo := s.fifo.exit none }
  | .ended => none

/-- The pipe has room for `cap` bytes; a short `write` transfers all of its bytes or blocks, and one
of no bytes does nothing. -/
def State.stepWriter (cap : ℕ) (s : State ι) (i : ι) (word : List UInt8) : Option (State ι) :=
  match s.writers i with
  | .opens =>
      some { s.setWriter i (.opening (s.fifo.Open .reader)) with
        reader := s.reader.meet
        fifo := s.fifo.setFds (some i) [some .writer] }
  | .opening met => if met then some (s.setWriter i .scanf) else none
  | .scanf => some (s.setWriter i (if word.length ≤ 1023 then .write word else .overrun))
  | .write buf =>
      if text buf = [] then some (s.setWriter i (.print buf))
      else match s.fifo.write cap (text buf) (text buf).length with
        | .wrote k =>
            some { s.setWriter i (.print buf) with
              fifo := k
              written := s.written ++ [(i, text buf)] }
        | .sigpipe => some { s.setWriter i .killed with fifo := s.fifo.exit (some i) }
        | .blocked => none
  | .print _ => some (s.setWriter i .scanf)
  | .overrun => none
  | .killed => none

def step (cap : ℕ) : Act ι → State ι → Option (State ι)
  | .reader n, s => s.stepReader n
  | .writer i word, s => s.stepWriter cap i word
  | .kill i, s => some { s.setWriter i .killed with fifo := s.fifo.exit (some i) }

def start (ι : Type*) : State ι where
  reader := .opens
  writers _ := .opens
  fifo := ⟨[], fun _ => []⟩
  written := []
  printed := []
  eof := none

def system (ι : Type*) [Fintype ι] [DecidableEq ι] (cap : ℕ) : Machine (State ι) (Act ι) where
  init s := s = start ι
  step := step cap

/-- What the reader has read and not yet printed. -/
def Reader.held : Reader → List UInt8
  | .print buf => buf
  | _ => []

/-- A `read` has returned 0. -/
def Reader.Done (r : Reader) : Prop := r = .atEnd ∨ r = .ended

/-- The bytes of some words. -/
def bytesOf (words : List (ι × List UInt8)) : List UInt8 := (words.map Prod.snd).flatten

def Reader.fds : Reader → List (Option File)
  | .opening _ | .read | .print _ | .atEnd => [some .reader]
  | .opens | .ended => []

structure Sound (s : State ι) : Prop where
  bytes : s.printed.flatten ++ s.reader.held ++ s.fifo.buf = bytesOf s.written
  fits : s.reader.held.length < 1024
  noZero : ∀ b ∈ bytesOf s.written, b ≠ 0
  done : s.reader.Done → ∃ n ≤ s.written.length, s.eof = some n ∧
    s.printed.flatten = bytesOf (s.written.take n)
  reader : s.fifo.fds none = s.reader.fds
  writers : ∀ i, some .reader ∉ s.fifo.fds (some i)

variable {s s' : State ι} {n cap : ℕ} {i : ι} {word : List UInt8}

theorem text_of_noZero {buf : List UInt8} (h : ∀ b ∈ buf, b ≠ 0) : text buf = buf :=
  List.takeWhile_eq_self_iff.2 fun b hb => by simpa using h b hb

theorem noZero_text {buf : List UInt8} {b : UInt8} (h : b ∈ text buf) : b ≠ 0 := by
  simpa using List.mem_takeWhile_imp h

theorem held_read : Reader.read.held = [] := rfl

theorem not_done_print (buf : List UInt8) : ¬ (Reader.print buf).Done := by
  rintro (h | h) <;> cases h

theorem not_done_read : ¬ Reader.read.Done := by
  rintro (h | h) <;> cases h

theorem not_done_opening (met : Bool) : ¬ (Reader.opening met).Done := by
  rintro (h | h) <;> cases h

/-- A reader that waits in `open` goes on, and nothing else changes. -/
theorem meet_cases (r : Reader) :
    r.meet = r ∨ ∃ met, r = .opening met ∧ r.meet = .opening true := by
  cases r with
  | opening met => exact .inr ⟨met, rfl, rfl⟩
  | _ => exact .inl rfl

omit [Fintype ι] [DecidableEq ι] in
theorem bytesOf_append (written : List (ι × List UInt8)) (i : ι) (bytes : List UInt8) :
    bytesOf (written ++ [(i, bytes)]) = bytesOf written ++ bytes := by
  simp [bytesOf]

omit [Fintype ι] [DecidableEq ι] in
/-- The reader goes on with the same bytes and the same descriptors. -/
theorem Sound.move (h : Sound s) {r : Reader} (held : r.held = s.reader.held)
    (fds : r.fds = s.reader.fds) (goesOn : ¬ r.Done) : Sound { s with reader := r } :=
  { h with
    bytes := held ▸ h.bytes
    fits := held ▸ h.fits
    done := fun e => absurd e goesOn
    reader := fds ▸ h.reader }

omit [Fintype ι] in
/-- The reader opens or closes, and writers go on. -/
theorem Sound.setReader (h : Sound s) (writers : ι → Writer) {r : Reader}
    (held : r.held = s.reader.held) (done : r.Done → s.reader.Done) :
    Sound { s with reader := r, writers, fifo := s.fifo.setFds none r.fds } :=
  { h with
    bytes := held ▸ h.bytes
    fits := held ▸ h.fits
    done := fun e => h.done (done e)
    reader := by simp
    writers := fun i => by simpa using h.writers i }

omit [Fintype ι] [DecidableEq ι] in
/-- A `read` returns 0: all that has been written is printed. -/
theorem Sound.readEnd (h : Sound s) (at_ : s.reader = .read) {k : Pipe (Option ι) UInt8}
    (empty : s.fifo.buf = []) (same : k.buf = s.fifo.buf) (fds : k.fds = s.fifo.fds) :
    Sound { s with reader := .atEnd, fifo := k, eof := some s.written.length } := by
  have bytes := h.bytes
  rw [at_] at bytes
  refine { h with
    bytes := same ▸ bytes
    fits := Nat.succ_pos _
    done := fun _ => ⟨s.written.length, Nat.le_refl _, rfl, ?_⟩
    reader := by rw [fds, h.reader, at_]; rfl
    writers := fun i => fds ▸ h.writers i }
  rw [List.take_length, ← bytes, empty]
  simp [held_read]

omit [Fintype ι] [DecidableEq ι] in
theorem Sound.readSome (h : Sound s) (at_ : s.reader = .read) {k : Pipe (Option ι) UInt8}
    {chunk : List UInt8} (whole : chunk ++ k.buf = s.fifo.buf) (fds : k.fds = s.fifo.fds)
    (short : chunk.length ≤ 1023) : Sound { s with reader := .print chunk, fifo := k } := by
  have bytes := h.bytes
  rw [at_, held_read, List.append_nil, ← whole, ← List.append_assoc] at bytes
  exact { h with
    bytes := bytes
    fits := Nat.lt_succ_of_le short
    done := fun e => absurd e (not_done_print _)
    reader := by rw [fds, h.reader, at_]; rfl
    writers := fun i => fds ▸ h.writers i }

omit [Fintype ι] [DecidableEq ι] in
/-- The text that is printed is all of what has been read, as nobody has written a zero. -/
theorem Sound.print (h : Sound s) {buf : List UInt8} (at_ : s.reader = .print buf) :
    Sound { s with reader := .read, printed := s.printed ++ [text buf] } := by
  have bytes := h.bytes
  rw [at_] at bytes
  have whole : text buf = buf := by
    refine text_of_noZero fun b hb => h.noZero b ?_
    rw [← bytes]
    simp [Reader.held, hb]
  exact { h with
    bytes := by
      rw [whole, List.flatten_append, List.flatten_singleton, held_read, List.append_nil]
      exact bytes
    fits := Nat.succ_pos _
    done := fun e => absurd e not_done_read
    reader := by rw [h.reader, at_]; rfl }

theorem Sound.stepReader (h : Sound s) (hs : s.stepReader n = some s') : Sound s' := by
  unfold State.stepReader at hs
  split at hs
  · next at_ =>
      obtain rfl := Option.some.inj hs
      exact h.setReader _ (at_ ▸ rfl) fun e => absurd e (not_done_opening _)
  · next met at_ =>
      split at hs
      · obtain rfl := Option.some.inj hs
        exact h.move (at_ ▸ rfl) (at_ ▸ rfl) not_done_read
      · cases hs
  · next at_ =>
      split at hs
      · next chunk k read =>
          obtain ⟨whole, fds, short, last⟩ := Pipe.read_cases read
          split at hs
          · next none_ =>
              obtain rfl := Option.some.inj hs
              rw [none_] at whole
              exact h.readEnd at_ (last none_).1 whole fds
          · obtain rfl := Option.some.inj hs
            exact h.readSome at_ whole fds short
      · cases hs
  · next buf at_ =>
      obtain rfl := Option.some.inj hs
      exact h.print at_
  · next at_ =>
      obtain rfl := Option.some.inj hs
      exact h.setReader s.writers (at_ ▸ rfl) fun _ => .inl at_
  · cases hs

omit [Fintype ι] in
/-- A writer goes on, and what it holds of the fifo is not the read end. -/
theorem Sound.setWriter (h : Sound s) (w : Writer) {fds : List (Option File)}
    (noReader : some .reader ∉ fds) :
    Sound { s.setWriter i w with fifo := s.fifo.setFds (some i) fds } :=
  { h with
    reader := by simpa using h.reader
    writers := by
      refine fun j => ?_
      by_cases e : j = i
      · simpa [e] using noReader
      · simpa [e] using h.writers j }

omit [Fintype ι] [DecidableEq ι] in
theorem Sound.meet (h : Sound s) : Sound { s with reader := s.reader.meet } := by
  obtain same | ⟨met, at_, same⟩ := meet_cases s.reader
  · rw [same]
    exact h
  · rw [same]
    exact h.move (at_ ▸ rfl) (at_ ▸ rfl) (not_done_opening _)

omit [Fintype ι] [DecidableEq ι] in
theorem Sound.closed (h : Sound s) (e : s.reader = .ended) : ¬ s.fifo.Open .reader := by
  rintro ⟨p, hp⟩
  cases p with
  | none =>
      rw [h.reader, e] at hp
      cases hp
  | some i => exact h.writers i hp

theorem Sound.stepWriter (h : Sound s) (hs : s.stepWriter cap i word = some s') : Sound s' := by
  unfold State.stepWriter at hs
  split at hs
  · obtain rfl := Option.some.inj hs
    exact (h.setWriter (.opening _) (by simp)).meet
  · split at hs
    · obtain rfl := Option.some.inj hs
      exact { h with }
    · cases hs
  · obtain rfl := Option.some.inj hs
    exact { h with }
  · next buf at_ =>
      split at hs
      · obtain rfl := Option.some.inj hs
        exact { h with }
      · split at hs
        · next k wrote =>
            obtain rfl := Option.some.inj hs
            obtain ⟨bytes, rest, -, split, none_, buf_, fds, -⟩ := Pipe.write_cases wrote
            rw [List.drop_length] at none_
            rw [none_, List.append_nil] at split
            exact { h with
              bytes := by
                rw [buf_, ← List.append_assoc, ← split, bytesOf_append]
                exact congrArg (· ++ text buf) h.bytes
              noZero := fun b hb => by
                rw [bytesOf_append] at hb
                exact (List.mem_append.1 hb).elim (h.noZero b) noZero_text
              done := fun e => by
                obtain ⟨n, le, eof, printed⟩ := h.done e
                refine ⟨n, ?_, eof, ?_⟩
                · exact le.trans (List.length_append ▸ Nat.le_add_right _ _)
                · rw [List.take_append_of_le_length le]
                  exact printed
              reader := fds ▸ h.reader
              writers := fun i => fds ▸ h.writers i }
        · obtain rfl := Option.some.inj hs
          exact h.setWriter .killed (by simp)
        · cases hs
  · obtain rfl := Option.some.inj hs
    exact { h with }
  · cases hs
  · cases hs

omit [Fintype ι] [DecidableEq ι] in
theorem sound_start : Sound (start ι) where
  bytes := rfl
  fits := Nat.succ_pos _
  noZero b hb := by cases hb
  done h := by rcases h with h | h <;> cases h
  reader := rfl
  writers i := List.not_mem_nil

theorem sound_of_reachable (h : (system ι cap).Reachable s) : Sound s := by
  have key : (system ι cap).Inductive Sound := by
    refine ⟨fun s init => ?_, fun a s s' _ ih hs => ?_⟩
    · obtain rfl : s = start ι := init
      exact sound_start
    · cases a with
      | reader n => exact ih.stepReader hs
      | writer i word => exact ih.stepWriter hs
      | kill i =>
          obtain rfl := Option.some.inj hs
          exact ih.setWriter .killed List.not_mem_nil
  exact key.reachable h

end LinuxNote.Fifo
