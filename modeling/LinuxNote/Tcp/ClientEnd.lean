import LinuxNote.Conc.Progress
import LinuxNote.Tcp.Client

/-!
# The end of a session of `TCP/client.c`

However the kernel cuts the two streams, the client gets to the end of its input: what it reads in a
round has been read before in no other round, so at least as many bytes as its line has are on their
way when it waits (`Owed`), and each step uses up some of the session (`ends_of_run`).
-/

namespace LinuxNote.Tcp.Client

open Conc Text Wrap

/-- While the client waits, the bytes under way are no fewer than those of its line. -/
structure Owed (s : Session) : Prop where
  write : ∀ l, s.loc = .write l → 0 < l.length
  read : ∀ l, s.loc = .read l →
    0 < l.length ∧ l.length ≤ s.toServer.length + s.toClient.length

/-- How far the client is from `fgets`. -/
def Loc.weight : Loc → ℕ
  | .finished => 0
  | .fgets => 1
  | .read _ => 2
  | .write l => l.length + 3

/-- Each byte of the input is stored, sent, upper-cased and read at most once. -/
def measure (s : Session) : ℕ := 4 * s.stdin.length + s.loc.weight + s.toServer.length

section

variable {stdin buf : List UInt8} {s s' : Session} {a : Act} {k : ℕ} {l : List UInt8}

theorem length_line_pos (h : stdin ≠ []) : 0 < (line stdin).length := by
  cases stdin with
  | nil => exact absurd rfl h
  | cons c cs =>
      have succ : MAXLINE - 1 = 78 + 1 := rfl
      rw [line, succ, takeLine]
      split <;> exact Nat.succ_pos _

theorem length_line_le : (line stdin).length ≤ stdin.length := by
  have whole := congrArg List.length (line_append stdin)
  rw [List.length_append] at whole
  omega

/-- What the client sends is its line. -/
theorem str_buf (clean : Clean s) (hl : s.loc = .write l) : str s.buf = some l := by
  obtain ⟨rest, hbuf⟩ := clean.buf l (Or.inl hl)
  have noNul : 0 ∉ l := by
    have here := clean.line
    rwa [hl] at here
  rw [hbuf, str_append noNul]

theorem owed_of_loc (loc : s.loc = .fgets ∨ s.loc = .finished) : Owed s := by
  constructor <;> intro l hl <;> rcases loc with e | e <;> cases hl.symm.trans e

theorem Owed.step (h : Owed s) (clean : Clean s) (hs : Client.step a s = some s') : Owed s' := by
  unfold Client.step at hs
  split at hs
  · next hl =>
      split at hs
      · obtain rfl := Option.some.inj hs
        exact owed_of_loc (Or.inr rfl)
      · next some_ =>
          obtain rfl := Option.some.inj hs
          refine ⟨fun l e => ?_, fun l e => (by cases e)⟩
          obtain rfl := Loc.write.inj e
          exact length_line_pos some_
  · next l hl =>
      rw [str_buf clean hl, Option.map_some] at hs
      obtain rfl := Option.some.inj hs
      refine ⟨fun l' e => (by cases e), fun l' e => ?_⟩
      obtain rfl := Loc.read.inj e
      refine ⟨h.write l hl, ?_⟩
      simp only [List.length_append]
      omega
  · obtain ⟨-, hs⟩ := Option.ite_none_right_eq_some.1 hs
    obtain rfl := Option.some.inj hs
    exact owed_of_loc (Or.inl rfl)
  · next k _ =>
      obtain ⟨delivers, hs⟩ := Option.ite_none_right_eq_some.1 hs
      obtain rfl := Option.some.inj hs
      refine ⟨h.write, fun l hl => ?_⟩
      obtain ⟨pos, owed⟩ := h.read l hl
      have inside := delivers.2.2
      refine ⟨pos, ?_⟩
      simp only [List.length_append, List.length_drop, List.length_map, List.length_take]
      omega
  · cases hs

theorem measure_lt_of_step (clean : Clean s) (hs : Client.step a s = some s') :
    measure s' < measure s := by
  unfold Client.step at hs
  unfold measure
  split at hs
  · next hl =>
      rw [hl]
      split at hs
      · obtain rfl := Option.some.inj hs
        simp [Loc.weight]
      · next some_ =>
          obtain rfl := Option.some.inj hs
          have pos := length_line_pos some_
          have le : (line s.stdin).length ≤ s.stdin.length := length_line_le
          simp only [Loc.weight, List.length_drop]
          omega
  · next l hl =>
      rw [str_buf clean hl, Option.map_some] at hs
      obtain rfl := Option.some.inj hs
      rw [hl]
      simp only [Loc.weight, List.length_append]
      omega
  · next l k hl =>
      obtain ⟨-, hs⟩ := Option.ite_none_right_eq_some.1 hs
      obtain rfl := Option.some.inj hs
      rw [hl]
      simp [Loc.weight]
  · next k _ =>
      obtain ⟨⟨pos, -, inside⟩, hs⟩ := Option.ite_none_right_eq_some.1 hs
      obtain rfl := Option.some.inj hs
      simp only [List.length_drop]
      omega
  · cases hs

/-- Only at the end of the input can nobody go on. -/
theorem exists_step (h : Owed s) (clean : Clean s) (going : s.loc ≠ .finished) :
    ∃ a s', Client.step a s = some s' := by
  cases hl : s.loc with
  | finished => exact absurd hl going
  | fgets =>
      refine ⟨.client, ?_⟩
      simp only [Client.step, hl]
      split <;> exact ⟨_, rfl⟩
  | write l =>
      refine ⟨.client, ?_⟩
      simp only [Client.step, hl, str_buf clean hl]
      exact ⟨_, rfl⟩
  | read l =>
      obtain ⟨pos, owed⟩ := h.read l hl
      have one : 1 ≤ MAXLINE := by decide
      by_cases arrived : s.toClient = []
      · have asked : Delivers 1 s.toServer := by
          rw [arrived, List.length_nil] at owed
          exact ⟨Nat.one_pos, one, by omega⟩
        refine ⟨.serve 1, ?_⟩
        simp only [Client.step, hl, if_pos asked]
        exact ⟨_, rfl⟩
      · have answered : Delivers 1 s.toClient := ⟨Nat.one_pos, one, List.length_pos_iff.2 arrived⟩
        refine ⟨.read 1, ?_⟩
        simp only [Client.step, hl, if_pos answered]
        exact ⟨_, rfl⟩

theorem clean_and_owed (noNul : 0 ∉ stdin) (h : (session stdin buf).Reachable s) :
    Clean s ∧ Owed s := by
  have key : (session stdin buf).Inductive fun s => Clean s ∧ Owed s := by
    refine ⟨?_, fun a s s' _ ih hs => ⟨ih.1.step hs, ih.2.step ih.1 hs⟩⟩
    rintro s rfl
    refine ⟨⟨noNul, List.not_mem_nil, List.not_mem_nil, List.not_mem_nil, ?_, ?_⟩,
      owed_of_loc (Or.inl rfl)⟩
    · rintro l (e | e) <;> cases e
    · exact fun e => by cases e
  exact key.reachable h

/-- For every input without NUL: every run is short, and one that cannot go on has come to the end
of the input. -/
theorem ends_of_run (noNul : 0 ∉ stdin) {as : List Act}
    (h : (session stdin buf).run as (created stdin buf) = some s) :
    as.length ≤ 4 * stdin.length + 1 ∧
      ((∀ a, (session stdin buf).step a s = none) → s.loc = .finished) := by
  have lower : ∀ a s s', (session stdin buf).Reachable s → (session stdin buf).step a s = some s' →
      measure s' < measure s := by
    intro a s s' hr hs
    exact measure_lt_of_step (clean_and_owed noNul hr).1 hs
  refine ⟨?_, fun stuck => ?_⟩
  · have length := Machine.length_run_le lower (.init rfl) h
    have start : measure (created stdin buf) = 4 * stdin.length + 1 := rfl
    omega
  · by_contra going
    obtain ⟨clean, owed⟩ := clean_and_owed noNul (Machine.reachable_of_run as rfl h)
    obtain ⟨a, s', hs⟩ := exists_step owed clean going
    cases (stuck a).symm.trans hs

end

/-- "hello\n", whose reply is read in part, and the rest of it is never read. -/
theorem ends_of_run_twoPieces : ∃ s,
    (session [104, 101, 108, 108, 111, 10] []).run twoPieces
        (created [104, 101, 108, 108, 111, 10] []) = some s ∧ s.toClient.length = 3 ∧
      twoPieces.length ≤ 25 := by
  have noNul : (0 : UInt8) ∉ [104, 101, 108, 108, 111, 10] := by decide
  have h : (session [104, 101, 108, 108, 111, 10] []).run twoPieces
      (created [104, 101, 108, 108, 111, 10] []) = some _ := rfl
  exact ⟨_, h, rfl, (ends_of_run noNul h).1⟩

end LinuxNote.Tcp.Client
