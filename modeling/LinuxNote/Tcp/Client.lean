import LinuxNote.Tcp.Server
import LinuxNote.Text.Line
import LinuxNote.Wrap.Readline

/-!
# The client of `TCP/client.c` and the server

The client sends a line, reads once and prints its buffer as a string, where the line lies under the
bytes read.  The server upper-cases what it reads and sends it back.  The kernel cuts both streams
into reads of any length.

So the client prints the upper-cased lines as long as each read delivers the reply to the line just
sent up to its last lower-case letter, and no more than the reply (`agrees_iff_whole`).
-/

namespace LinuxNote.Tcp.Client

open Conc Text Wrap

/-- `line` is what `fgets` has stored for this round. -/
inductive Loc
  | fgets
  | write (line : List UInt8)
  | read (line : List UInt8)
  | finished
  deriving DecidableEq

/-- The input not yet read, the buffer of the client, the bytes in transit, and what has been
printed, as long as every string ended inside the buffer. -/
structure Session where
  stdin : List UInt8
  buf : List UInt8
  toServer : List UInt8
  toClient : List UInt8
  printed : Option (List UInt8)
  loc : Loc

/-- The client goes on, or the server or the client reads `k` bytes. -/
inductive Act
  | client
  | serve (k : ℕ)
  | read (k : ℕ)

/-- What `fgets(buf, MAXLINE, stdin)` stores before the NUL. -/
def line (stdin : List UInt8) : List UInt8 := takeLine newline (MAXLINE - 1) stdin

/-- A `Read` can deliver `k` of the bytes in transit. -/
def Delivers (k : ℕ) (transit : List UInt8) : Prop := 0 < k ∧ k ≤ MAXLINE ∧ k ≤ transit.length

instance (k : ℕ) (transit : List UInt8) : Decidable (Delivers k transit) :=
  inferInstanceAs (Decidable (_ ∧ _ ∧ _))

def step (a : Act) (s : Session) : Option Session :=
  match s.loc, a with
  | .fgets, .client =>
      if s.stdin = [] then some { s with loc := .finished }
      else
        some { s with
          stdin := s.stdin.drop (line s.stdin).length
          buf := overlay (line s.stdin ++ [0]) s.buf
          loc := .write (line s.stdin) }
  | .write l, .client =>
      (str s.buf).map fun bytes => { s with toServer := s.toServer ++ bytes, loc := .read l }
  | .read _, .read k =>
      if Delivers k s.toClient then
        let buf := overlay (s.toClient.take k) s.buf
        some { s with
          buf
          toClient := s.toClient.drop k
          printed := s.printed.bind fun text => (str buf).map (text ++ ·)
          loc := .fgets }
      else none
  | _, .serve k =>
      if Delivers k s.toServer then
        some { s with
          toServer := s.toServer.drop k
          toClient := s.toClient ++ (s.toServer.take k).map toupper }
      else none
  | _, _ => none

/-- Nothing in transit; `buf` is what the stack holds. -/
def created (stdin buf : List UInt8) : Session := ⟨stdin, buf, [], [], some [], .fgets⟩

def session (stdin buf : List UInt8) : Machine Session Act where
  init s := s = created stdin buf
  step := step

/-- The line that has been read and not yet answered. -/
def pending : Loc → List UInt8
  | .write l | .read l => l
  | .fgets | .finished => []

/-- What has been printed and the upper-cased rest of the input are the upper-cased input; at the
end, what has been printed. -/
structure Agrees (stdin : List UInt8) (s : Session) : Prop where
  sofar : ∃ text, s.printed = some text ∧
    text ++ (pending s.loc ++ s.stdin).map toupper = stdin.map toupper
  atEnd : s.loc = .finished → s.printed = some (stdin.map toupper)

/-- The client reads bytes of the reply to its line, and all that has a lower-case letter in the
line. -/
def Whole (a : Act) (s : Session) : Prop :=
  match s.loc, a with
  | .read l, .read k =>
      s.toClient.take k <+: l.map toupper ∧
        ∀ c ∈ l.drop (s.toClient.take k).length, toupper c = c
  | _, _ => True

instance (a : Act) (s : Session) : Decidable (Whole a s) := by
  unfold Whole
  haveI (l : List UInt8) : Decidable (∀ c ∈ l, toupper c = c) := List.decidableBAll _ l
  cases s.loc <;> cases a <;> infer_instance

theorem toupper_ne_zero {c : UInt8} (h : c ≠ 0) : toupper c ≠ 0 := by
  unfold toupper
  split
  · next lower =>
      intro e
      obtain rfl : c = 32 := by grind
      exact absurd lower (by decide)
  · exact h

theorem noNul_map {l : List UInt8} (h : 0 ∉ l) : 0 ∉ l.map toupper := by
  intro mem
  obtain ⟨c, hc, e⟩ := List.mem_map.1 mem
  exact toupper_ne_zero (fun zero => h (zero ▸ hc)) e

/-! ## One reply -/

/-- The bytes `r` over the line `l` in the buffer: the string is the reply exactly when `r` is a
part of the reply that leaves no lower-case letter of the line. -/
theorem str_overlay_iff {l r : List UInt8} (hl : 0 ∉ l) (hr : 0 ∉ r) (rest : List UInt8) :
    str (overlay r (l ++ 0 :: rest)) = some (l.map toupper) ↔
      r <+: l.map toupper ∧ ∀ c ∈ l.drop r.length, toupper c = c := by
  by_cases le : r.length ≤ l.length
  · have noNul : 0 ∉ r ++ l.drop r.length := by
      intro mem
      rcases List.mem_append.1 mem with mem | mem
      · exact hr mem
      · exact hl (List.mem_of_mem_drop mem)
    rw [overlay_append le, str_append noNul, Option.some.injEq]
    constructor
    · intro eq
      refine ⟨⟨_, eq⟩, ?_⟩
      have rest := congrArg (List.drop r.length) eq
      rw [List.drop_left, ← List.map_drop] at rest
      exact fun c hc => List.map_inj_left.1 (rest.symm.trans (List.map_id _).symm) c hc
    · rintro ⟨isPrefix, same⟩
      rw [List.prefix_iff_eq_take] at isPrefix
      have drop : l.drop r.length = (l.map toupper).drop r.length := by
        rw [← List.map_drop]
        exact (List.map_id _).symm.trans (List.map_inj_left.2 fun c hc => (same c hc).symm)
      rw [drop]
      nth_rewrite 1 [isPrefix]
      exact List.take_append_drop _ _
  · have long : ∀ {t : List UInt8}, r <+: t → t.length ≠ l.length := fun h e =>
      le (e ▸ h.length_le)
    refine iff_of_false (fun eq => ?_) fun whole => long whole.1 (List.length_map _)
    exact long (prefix_of_str hr eq) (List.length_map _)

/-! ## Steps -/

/-- No NUL is read or sent, and while a line is not answered the client has it in its buffer. -/
structure Clean (s : Session) : Prop where
  stdin : 0 ∉ s.stdin
  toServer : 0 ∉ s.toServer
  toClient : 0 ∉ s.toClient
  line : 0 ∉ pending s.loc
  buf : ∀ l, s.loc = .write l ∨ s.loc = .read l → ∃ rest, s.buf = l ++ 0 :: rest
  atEnd : s.loc = .finished → s.stdin = []

theorem line_append (stdin : List UInt8) :
    line stdin ++ stdin.drop (line stdin).length = stdin :=
  List.prefix_iff_eq_append.1
    (isLongestLine_takeLine newline (MAXLINE - 1) stdin).isLine.isPrefix

theorem noNul_line {stdin : List UInt8} (h : 0 ∉ stdin) : 0 ∉ line stdin := by
  rw [← line_append stdin] at h
  exact fun mem => h (List.mem_append_left _ mem)

section

variable {stdin buf : List UInt8} {s s' : Session} {a : Act}

theorem Clean.step (h : Clean s) (hs : step a s = some s') : Clean s' := by
  unfold Client.step at hs
  split at hs
  · next hl =>
      split at hs
      · next none =>
          obtain rfl := Option.some.inj hs
          exact ⟨h.stdin, h.toServer, h.toClient, List.not_mem_nil, by simp, fun _ => none⟩
      · obtain rfl := Option.some.inj hs
        refine ⟨fun mem => h.stdin (List.mem_of_mem_drop mem), h.toServer, h.toClient,
          noNul_line h.stdin, ?_, by simp⟩
        rintro l (e | e)
        · obtain rfl := Loc.write.inj e
          exact ⟨_, by simp only [overlay, List.append_assoc, List.singleton_append]; rfl⟩
        · cases e
  · next l hl =>
      obtain ⟨bytes, hbytes, rfl⟩ := Option.map_eq_some_iff.1 hs
      obtain ⟨rest, hbuf⟩ := h.buf l (Or.inl hl)
      have noNul : 0 ∉ l := by
        have := h.line
        rwa [hl] at this
      rw [hbuf, str_append noNul] at hbytes
      obtain rfl := Option.some.inj hbytes
      refine ⟨h.stdin, fun mem => ?_, h.toClient, noNul, ?_, by simp⟩
      · exact (List.mem_append.1 mem).elim h.toServer noNul
      · rintro l' (e | e)
        · cases e
        · obtain rfl := Loc.read.inj e
          exact ⟨rest, hbuf⟩
  · obtain ⟨-, hs⟩ := Option.ite_none_right_eq_some.1 hs
    obtain rfl := Option.some.inj hs
    exact ⟨h.stdin, h.toServer, fun mem => h.toClient (List.mem_of_mem_drop mem),
      List.not_mem_nil, by simp, by simp⟩
  · next k =>
    obtain ⟨-, hs⟩ := Option.ite_none_right_eq_some.1 hs
    obtain rfl := Option.some.inj hs
    refine ⟨h.stdin, fun mem => h.toServer (List.mem_of_mem_drop mem), fun mem => ?_, h.line, h.buf,
      h.atEnd⟩
    have served : 0 ∉ s.toServer.take k := fun mem => h.toServer (List.mem_of_mem_take mem)
    exact (List.mem_append.1 mem).elim h.toClient (noNul_map served)
  · cases hs

/-- After a read the text is right exactly when the read was whole. -/
theorem agrees_read_iff {l : List UInt8} {k : ℕ} (h : Agrees stdin s) (clean : Clean s)
    (hl : s.loc = .read l) (hs : Client.step (.read k) s = some s') :
    Agrees stdin s' ↔ Whole (.read k) s := by
  obtain ⟨text, printed, sofar⟩ := h.sofar
  obtain ⟨rest, hbuf⟩ := clean.buf l (Or.inr hl)
  have noNul : 0 ∉ l := by
    have := clean.line
    rwa [hl] at this
  have reply : 0 ∉ s.toClient.take k := fun mem => clean.toClient (List.mem_of_mem_take mem)
  simp only [Client.step, hl] at hs
  obtain ⟨-, hs⟩ := Option.ite_none_right_eq_some.1 hs
  obtain rfl := Option.some.inj hs
  simp only [Whole, hl, ← str_overlay_iff noNul reply rest, ← hbuf]
  rw [hl, pending, List.map_append, ← List.append_assoc] at sofar
  constructor
  · intro after
    obtain ⟨text', printed', sofar'⟩ := after.sofar
    obtain ⟨bytes, hbytes, rfl⟩ : ∃ bytes, str (overlay (s.toClient.take k) s.buf) = some bytes ∧
        text ++ bytes = text' := by
      simpa [printed] using printed'
    have eq : text ++ bytes = text ++ l.map toupper :=
      List.append_cancel_right (sofar'.trans sofar.symm)
    rw [hbytes, List.append_cancel_left eq]
  · intro hbytes
    refine ⟨⟨text ++ l.map toupper, ?_, sofar⟩, by simp⟩
    simp [printed, hbytes]

theorem Agrees.step (h : Agrees stdin s) (clean : Clean s) (ok : Whole a s)
    (hs : Client.step a s = some s') : Agrees stdin s' := by
  have before := hs
  unfold Client.step at hs
  split at hs
  · next hl =>
      obtain ⟨text, printed, sofar⟩ := h.sofar
      rw [hl] at sofar
      split at hs
      · next none =>
          obtain rfl := Option.some.inj hs
          refine ⟨⟨text, printed, sofar⟩, fun _ => ?_⟩
          simpa [pending, none, printed] using sofar
      · obtain rfl := Option.some.inj hs
        refine ⟨⟨text, printed, ?_⟩, by simp⟩
        rw [pending, line_append]
        exact sofar
  · next l hl =>
      obtain ⟨text, printed, sofar⟩ := h.sofar
      rw [hl] at sofar
      obtain ⟨bytes, -, rfl⟩ := Option.map_eq_some_iff.1 hs
      exact ⟨⟨text, printed, sofar⟩, by simp⟩
  · next l k hl => exact (agrees_read_iff h clean hl before).2 ok
  · obtain ⟨-, hs⟩ := Option.ite_none_right_eq_some.1 hs
    obtain rfl := Option.some.inj hs
    exact ⟨h.sofar, h.atEnd⟩
  · cases hs

theorem Agrees.not_step (h : Agrees stdin s) (clean : Clean s) (bad : ¬ Whole a s)
    (hs : Client.step a s = some s') : ¬ Agrees stdin s' := by
  cases hl : s.loc with
  | read l =>
      cases a with
      | read k => exact fun after => bad ((agrees_read_iff h clean hl hs).1 after)
      | client | serve k => simp [Whole, hl] at bad
  | fgets | write l | finished => simp [Whole, hl] at bad

end

/-- For every input without NUL, in every state of every run: the text is the upper-cased lines
exactly when all reads are whole. -/
theorem agrees_iff_whole {stdin : List UInt8} (noNul : 0 ∉ stdin) {buf : List UInt8}
    {as : List Act} {s : Session}
    (h : (session stdin buf).run as (created stdin buf) = some s) :
    (session stdin buf).Along (Agrees stdin) as (created stdin buf) ↔
      (session stdin buf).Meets Whole as (created stdin buf) := by
  have clean : Clean (created stdin buf) :=
    ⟨noNul, List.not_mem_nil, List.not_mem_nil, List.not_mem_nil, by simp [created],
      by simp [created]⟩
  have agrees : Agrees stdin (created stdin buf) := ⟨⟨[], rfl, rfl⟩, by simp [created]⟩
  have keep : ∀ a s s', Clean s ∧ Agrees stdin s → Whole a s → step a s = some s' →
      Clean s' ∧ Agrees stdin s' := fun a s s' h ok hs => ⟨h.1.step hs, h.2.step h.1 ok hs⟩
  exact Machine.along_iff_meets (fun s h => h.2) keep
    (fun a s s' h bad hs => h.2.not_step h.1 bad hs) ⟨clean, agrees⟩ h

/-- "ab\n" and "C\n", each answered in one piece. -/
def twoLines : List Act :=
  [.client, .client, .serve 1, .serve 2, .read 3, .client, .client, .serve 2, .read 2, .client]

theorem agrees_iff_whole_twoLines : ∃ s,
    (session [97, 98, 10, 67, 10] []).run twoLines (created [97, 98, 10, 67, 10] []) = some s ∧
      s.printed = some [65, 66, 10, 67, 10] ∧
      (session [97, 98, 10, 67, 10] []).Along (Agrees [97, 98, 10, 67, 10]) twoLines
        (created [97, 98, 10, 67, 10] []) :=
  ⟨_, rfl, rfl, (agrees_iff_whole (by decide) rfl).2 (by decide)⟩

/-- The reply "HELLO\n" to "hello\n" is delivered in two pieces. -/
def twoPieces : List Act := [.client, .client, .serve 6, .read 3, .client]

/-- "HELlo\n" is printed. -/
theorem not_agrees_twoPieces : ∃ s,
    (session [104, 101, 108, 108, 111, 10] []).Reachable s ∧ s.loc = .finished ∧
      s.printed = some [72, 69, 76, 108, 111, 10] ∧
      ¬ Agrees [104, 101, 108, 108, 111, 10] s := by
  refine ⟨_, Machine.reachable_of_run twoPieces rfl rfl, rfl, rfl, fun h => ?_⟩
  exact absurd (h.atEnd rfl) (by decide)

end LinuxNote.Tcp.Client
