import Mathlib.Data.List.Infix

/-!
# Strings in a character array

The shells keep a line in a `char` array and cut it into words in place, by writing a NUL after
each.  A pointer into the array is an index, and every access is checked: `none` is an access
outside.
-/

namespace LinuxNote.Shell

/-- `isspace` in the C locale: blank, `\t`, `\n`, `\v`, `\f`, `\r`. -/
def isspace (c : UInt8) : Bool := c = 32 || (9 ≤ c && c ≤ 13)

/-- `*ptr = '\0'` -/
def store0 (buf : List UInt8) (ptr : ℕ) : Option (List UInt8) :=
  if ptr < buf.length then some (buf.set ptr 0) else none

/-- How far `while (p(*ptr) && *ptr != '\0') ptr++` goes in the rest of the array. -/
def skip (p : UInt8 → Bool) : List UInt8 → Option ℕ
  | [] => none
  | c :: rest => if p c && c ≠ 0 then (skip p rest).map (· + 1) else some 0

/-- The string that a pointer points to. -/
def cstr (buf : List UInt8) (ptr : ℕ) : List UInt8 := (buf.drop ptr).takeWhile (· ≠ 0)

def strlen (buf : List UInt8) : ℕ := (cstr buf 0).length

/-- A loop stops at the first byte that is not skipped. -/
theorem skip_append {p : UInt8 → Bool} {run rest : List UInt8} {c : UInt8}
    (h : ∀ d ∈ run, p d ∧ d ≠ 0) (hc : ¬ (p c ∧ c ≠ 0)) :
    skip p (run ++ c :: rest) = some run.length := by
  induction run with
  | nil =>
      have : ¬ (p c && c ≠ 0) := by simpa using hc
      rw [List.nil_append, skip, if_neg this]
      rfl
  | cons d run ih =>
      have hd : p d && d ≠ 0 := by simpa using h d List.mem_cons_self
      rw [List.cons_append, skip, if_pos hd, ih fun e he => h e (List.mem_cons_of_mem _ he)]
      rfl

/-- The bytes `done` hold the string `str` at `ptr`, with its NUL. -/
def HasString (done : List UInt8) (ptr : ℕ) (str : List UInt8) : Prop :=
  0 ∉ str ∧ ∃ rest, done.drop ptr = str ++ 0 :: rest

theorem HasString.append {done str : List UInt8} {ptr : ℕ} (h : HasString done ptr str)
    (more : List UInt8) : HasString (done ++ more) ptr str := by
  obtain ⟨noNul, rest, eq⟩ := h
  have le : ptr ≤ done.length := by
    by_contra gt
    rw [List.drop_eq_nil_of_le (by omega)] at eq
    simp at eq
  exact ⟨noNul, rest ++ more, by rw [List.drop_append_of_le_length le, eq]; simp⟩

theorem HasString.cstr {done str : List UInt8} {ptr : ℕ} (h : HasString done ptr str) :
    cstr done ptr = str := by
  obtain ⟨noNul, rest, eq⟩ := h
  rw [Shell.cstr, eq, List.takeWhile_append_of_pos]
  · simp
  · intro c hc
    simpa using fun e : c = 0 => noNul (e ▸ hc)

theorem hasString_concat {done str : List UInt8} (h : 0 ∉ str) :
    HasString (done ++ str ++ [0]) done.length str := by
  refine ⟨h, [], ?_⟩
  rw [List.append_assoc, List.drop_left]

end LinuxNote.Shell
