import Mathlib.Data.List.Infix

/-!
# Reading from a descriptor

A descriptor is the bytes still to come on it and the script of how `read` will deliver them: each
call takes the next event, which is a failure or a bound on what the call may return.  When the
script is used up, `read` delivers all that is asked for.  At the end of the stream it returns 0.
-/

namespace LinuxNote.Wrap

inductive Errno
  | EINTR
  | other (code : ℕ)
  deriving DecidableEq

/-- `short k` lets a `read` return at most `k + 1` bytes. -/
inductive Event
  | short (k : ℕ)
  | fail (errno : Errno)
  deriving DecidableEq

structure Desc where
  data : List UInt8
  script : List Event
  deriving DecidableEq

/-- The bytes that a `read` has stored, as many as it returns, or the `errno` of the −1. -/
inductive ReadResult
  | bytes (bs : List UInt8)
  | error (errno : Errno)
  deriving DecidableEq

/-- `read(fd, buf, count)` -/
def Desc.read (count : ℕ) (d : Desc) : ReadResult × Desc :=
  match d.script with
  | [] => (.bytes (d.data.take count), ⟨d.data.drop count, []⟩)
  | .short k :: script =>
      (.bytes (d.data.take (min (k + 1) count)), ⟨d.data.drop (min (k + 1) count), script⟩)
  | .fail errno :: script => (.error errno, ⟨d.data, script⟩)

/-- A `read` that is made again as long as it fails with `EINTR`. -/
def readAgain (count : ℕ) (data : List UInt8) : List Event → ReadResult × Desc
  | .fail .EINTR :: script => readAgain count data script
  | script => Desc.read count ⟨data, script⟩

def Desc.again (count : ℕ) (d : Desc) : ReadResult × Desc := readAgain count d.data d.script

/-- The loop of the source: after an `EINTR` it reads once more, else it takes the result. -/
theorem Desc.again_eq (count : ℕ) (d : Desc) : d.again count =
    match d.read count with
    | (.error .EINTR, d') => d'.again count
    | r => r := by
  obtain ⟨data, script⟩ := d
  rcases script with _ | ⟨k | ⟨_ | code⟩, script⟩ <;> rfl

/-- What a `read` that succeeds does: it delivers the next piece of the stream, which is empty only
at the end. -/
structure Piece (count : ℕ) (d : Desc) (bs : List UInt8) (d' : Desc) : Prop where
  stream : bs ++ d'.data = d.data
  bounded : bs.length ≤ count
  progress : bs = [] → d.data = []
  script : d'.script <:+ d.script

section

variable {count : ℕ} {d d' : Desc} {bs : List UInt8}

theorem piece_take {n : ℕ} {script : List Event} (pos : 0 < n) (le : n ≤ count)
    (sub : script <:+ d.script) : Piece count d (d.data.take n) ⟨d.data.drop n, script⟩ where
  stream := List.take_append_drop n d.data
  bounded := le_trans (List.length_take_le n d.data) le
  progress e := (List.take_eq_nil_iff.1 e).resolve_left (Nat.pos_iff_ne_zero.1 pos)
  script := sub

theorem Desc.read_bytes (pos : 0 < count) (h : d.read count = (.bytes bs, d')) :
    Piece count d bs d' := by
  obtain ⟨data, script⟩ := d
  rcases script with _ | ⟨k | errno, script⟩
  · cases h
    exact piece_take pos le_rfl (List.suffix_refl _)
  · cases h
    exact piece_take (Nat.lt_min.2 ⟨Nat.succ_pos k, pos⟩) (Nat.min_le_right _ _)
      (List.suffix_cons _ _)
  · cases h

theorem Desc.again_bytes (pos : 0 < count) (h : d.again count = (.bytes bs, d')) :
    Piece count d bs d' := by
  obtain ⟨data, script⟩ := d
  induction script with
  | nil => exact read_bytes pos h
  | cons e script ih =>
      rcases e with k | ⟨_ | code⟩
      · exact read_bytes pos h
      · obtain ⟨stream, bounded, progress, sub⟩ := ih h
        exact ⟨stream, bounded, progress, sub.trans (List.suffix_cons _ _)⟩
      · exact read_bytes pos h

/-- No call fails but with `EINTR`. -/
def Desc.Quiet (d : Desc) : Prop := ∀ errno, .fail errno ∈ d.script → errno = .EINTR

theorem Desc.Quiet.again (h : d.Quiet) (pos : 0 < count) :
    ∃ bs d', d.again count = (.bytes bs, d') ∧ Piece count d bs d' ∧ d'.Quiet := by
  have delivers : ∃ bs d', d.again count = (.bytes bs, d') := by
    obtain ⟨data, script⟩ := d
    induction script with
    | nil => exact ⟨_, _, rfl⟩
    | cons e script ih =>
        rcases e with k | ⟨_ | code⟩
        · exact ⟨_, _, rfl⟩
        · exact ih fun errno mem => h errno (List.mem_cons_of_mem _ mem)
        · cases h _ List.mem_cons_self
  obtain ⟨bs, d', eq⟩ := delivers
  have piece := again_bytes pos eq
  exact ⟨bs, d', eq, piece, fun errno mem => h errno (piece.script.subset mem)⟩

end

end LinuxNote.Wrap
