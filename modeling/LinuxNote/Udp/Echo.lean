import LinuxNote.Tcp.Client

/-!
# The client and the server of `UDP`

The client sends each line in one datagram, receives a datagram and prints its buffer as a string,
where the line lies under the bytes received; the count that `recvfrom` returns is not used.  The
server upper-cases a datagram and sends it back.  The network may lose, duplicate, delay and reorder
datagrams.

So the client prints whole replies as long as each reply is received where the byte behind it in the
buffer is NUL (`whole_iff_ended`), as it is when the reply is as long as the line just sent.
-/

namespace LinuxNote.Udp

open Conc Text Wrap
open Tcp (MAXLINE toupper)
open Tcp.Client (line)

/-- Before the call that it names. -/
inductive ClientLoc
  | fgets
  | sendto
  | recvfrom
  | finished
  deriving DecidableEq

/-- `n` bytes of the buffer go back. -/
inductive ServerLoc
  | recvfrom
  | sendto (n : ℕ)
  | finished
  deriving DecidableEq

/-- The input not yet read, the buffers of the client and of the server, the lines read and the
strings printed, none for one that ran over the end of the buffer.  Of the datagrams in `requests`
and `replies`, all that were ever sent, any can arrive at any time and again. -/
structure Net where
  stdin : List UInt8
  buf : List UInt8
  serverBuf : List UInt8
  client : ClientLoc
  server : ServerLoc
  lines : List (List UInt8)
  requests : List (List UInt8)
  replies : List (List UInt8)
  printed : List (Option (List UInt8))

/-- A call of the client, or of the server: `serve` and `answer` are its `recvfrom` and `sendto`.
No datagram, or not `ok`, is the return value −1. -/
inductive Act
  | fgets
  | sendto (ok : Bool)
  | recvfrom (d : Option (List UInt8))
  | serve (d : Option (List UInt8))
  | answer (ok : Bool)
  deriving DecidableEq

/-- `for (i = 0; i < n; i++) buf[i] = toupper(buf[i]);` -/
def upper (n : ℕ) (buf : List UInt8) : List UInt8 := (buf.take n).map toupper ++ buf.drop n

namespace Net

def fgets (s : Net) : Net :=
  if s.stdin = [] then { s with client := .finished }
  else
    { s with
      stdin := s.stdin.drop (line s.stdin).length
      buf := overlay (line s.stdin ++ [0]) s.buf
      client := .sendto
      lines := s.lines ++ [line s.stdin] }

def sendto (s : Net) : Option Net :=
  (str s.buf).map fun d => { s with client := .recvfrom, requests := s.requests ++ [d] }

/-- And `printf("%s", buf)`. -/
def recvfrom (d : List UInt8) (s : Net) : Net :=
  let buf := overlay (d.take MAXLINE) s.buf
  { s with buf, client := .fgets, printed := s.printed ++ [str buf] }

def serve (d : List UInt8) (s : Net) : Net :=
  let n := (d.take MAXLINE).length
  { s with serverBuf := upper n (overlay (d.take MAXLINE) s.serverBuf), server := .sendto n }

def answer (n : ℕ) (s : Net) : Net :=
  { s with server := .recvfrom, replies := s.replies ++ [s.serverBuf.take n] }

/-- `perr_exit`, after which the other side goes on. -/
def clientExit (s : Net) : Net := { s with client := .finished }

def serverExit (s : Net) : Net := { s with server := .finished }

end Net

/-- Nothing sent; the buffers are what the stacks hold. -/
def created (stdin buf serverBuf : List UInt8) : Net :=
  ⟨stdin, buf, serverBuf, .fgets, .recvfrom, [], [], [], []⟩

def step (a : Act) (s : Net) : Option Net :=
  match a with
  | .fgets => if s.client = .fgets then some s.fgets else none
  | .sendto true => if s.client = .sendto then s.sendto else none
  | .sendto false => if s.client = .sendto then some s.clientExit else none
  | .recvfrom (some d) =>
      if s.client = .recvfrom ∧ d ∈ s.replies then some (s.recvfrom d) else none
  | .recvfrom none => if s.client = .recvfrom then some s.clientExit else none
  | .serve (some d) => if s.server = .recvfrom ∧ d ∈ s.requests then some (s.serve d) else none
  | .serve none => if s.server = .recvfrom then some s.serverExit else none
  | .answer ok =>
      match s.server with
      | .sendto n => some (if ok then s.answer n else s.serverExit)
      | _ => none

def network (stdin buf serverBuf : List UInt8) : Machine Net Act where
  init s := s = created stdin buf serverBuf
  step := step

/-- `d` is the upper-cased text of a line that has been read. -/
def Net.Answers (s : Net) (d : List UInt8) : Prop := ∃ l ∈ s.lines, d = l.map toupper

/-- Each text printed is a datagram of the server, an upper-cased line. -/
def Whole (s : Net) : Prop := ∀ t ∈ s.printed, ∃ d ∈ s.replies, t = some d ∧ s.Answers d

/-- A reply is received where the byte behind it is NUL. -/
def Ended (a : Act) (s : Net) : Prop :=
  match a with
  | .recvfrom (some d) => s.buf[d.length]? = some 0
  | _ => True

instance (a : Act) (s : Net) : Decidable (Ended a s) := by
  unfold Ended
  rcases a with _ | _ | (_ | d) | _ | _ <;> infer_instance

variable {s s' : Net} {a : Act} {l d : List UInt8}

theorem toupper_eq_newline {c : UInt8} : toupper c = newline ↔ c = newline := by
  unfold toupper newline
  split
  · next lower =>
      refine iff_of_false (fun e => ?_) (fun e => ?_)
      · obtain rfl : c = 42 := by grind
        exact absurd lower (by decide)
      · subst e
        exact absurd lower (by decide)
  · rfl

theorem newline_mem_map : newline ∈ l.map toupper ↔ newline ∈ l := by
  simp [toupper_eq_newline]

/-! ## What each call keeps -/

/-- A line that `fgets` can store. -/
structure IsText (l : List UInt8) : Prop where
  noNul : 0 ∉ l
  fits : l.length < MAXLINE
  inner : newline ∉ l.dropLast

theorem IsText.map (h : IsText l) : IsText (l.map toupper) where
  noNul := Tcp.Client.noNul_map h.noNul
  fits := by
    rw [List.length_map]
    exact h.fits
  inner := by
    rw [← List.map_dropLast, newline_mem_map]
    exact h.inner

theorem IsText.take (h : IsText l) : l.take MAXLINE = l := List.take_of_length_le h.fits.le

theorem isText_line (noNul : 0 ∉ s.stdin) : IsText (line s.stdin) := by
  obtain ⟨-, bounded, inner⟩ := (isLongestLine_takeLine newline (MAXLINE - 1) s.stdin).isLine
  exact ⟨Tcp.Client.noNul_line noNul, Nat.lt_succ_of_le bounded, inner⟩

/-- Before the reply is received, the line is in the buffer; and the last byte of the buffer stays
NUL behind a line that fills it. -/
structure Sound (s : Net) : Prop where
  noNul : 0 ∉ s.stdin
  length : s.buf.length = MAXLINE
  lines : ∀ l ∈ s.lines, IsText l
  complete : ∀ l ∈ s.lines, newline ∈ l ∨ l.length = MAXLINE - 1 ∨ s.stdin = []
  ended : ∀ l ∈ s.lines, newline ∉ l →
    l.length = MAXLINE - 1 ∨ s.client = .sendto ∨ s.client = .recvfrom → s.buf[l.length]? = some 0
  last : s.client = .sendto ∨ s.client = .recvfrom →
    ∀ l, s.lines.getLast? = some l → s.buf[l.length]? = some 0
  sending : s.client = .sendto → ∃ l ∈ s.lines, str s.buf = some l
  requests : ∀ d ∈ s.requests, d ∈ s.lines
  answering : ∀ n, s.server = .sendto n → s.Answers (s.serverBuf.take n)
  replies : ∀ d ∈ s.replies, s.Answers d

theorem Net.Answers.isText (h : s.Answers d) (sound : Sound s) : IsText d := by
  obtain ⟨l, hl, rfl⟩ := h
  exact (sound.lines l hl).map

theorem Net.Answers.mono (h : s.Answers d) (more : ∀ l ∈ s.lines, l ∈ s'.lines) : s'.Answers d := by
  obtain ⟨l, hl, rfl⟩ := h
  exact ⟨l, more l hl, rfl⟩

theorem Sound.fgets (h : Sound s) : Sound s.fgets := by
  unfold Net.fgets
  split
  · exact { h with
      ended := fun l hl cut at_ => h.ended l hl cut (.inl (at_.resolve_right (by simp)))
      last := fun at_ => absurd at_ (by simp)
      sending := fun at_ => by cases at_ }
  · next more =>
    have text := isText_line h.noNul
    have stored : (overlay (line s.stdin ++ [0]) s.buf)[(line s.stdin).length]? = some 0 := by
      simp [overlay]
    have mono : ∀ l ∈ s.lines, l ∈ s.lines ++ [line s.stdin] :=
      fun l hl => List.mem_append_left _ hl
    have new : line s.stdin ∈ s.lines ++ [line s.stdin] :=
      List.mem_append_right _ List.mem_cons_self
    refine ⟨fun mem => h.noNul (List.mem_of_mem_drop mem), ?_, ?_, ?_, ?_, ?_, ?_, ?_, ?_, ?_⟩
    · rw [length_overlay, h.length]
      rw [h.length, List.length_append]
      exact text.fits
    · intro l hl
      rcases List.mem_append.1 hl with hl | hl
      · exact h.lines l hl
      · exact List.mem_singleton.1 hl ▸ text
    · intro l hl
      rcases List.mem_append.1 hl with hl | hl
      · rcases h.complete l hl with mem | len | atEnd
        · exact .inl mem
        · exact .inr (.inl len)
        · exact absurd atEnd more
      · obtain rfl := List.mem_singleton.1 hl
        rcases takeLine_complete newline (MAXLINE - 1) s.stdin with mem | len | all
        · exact .inl mem
        · exact .inr (.inl len)
        · refine .inr (.inr (List.drop_eq_nil_of_le ?_))
          exact (congrArg List.length all).ge
    · intro l hl cut _
      rcases List.mem_append.1 hl with hl | hl
      · have len : l.length = MAXLINE - 1 :=
          ((h.complete l hl).resolve_left cut).resolve_right more
        rcases Nat.lt_or_ge (line s.stdin).length l.length with lt | ge
        · have behind : (line s.stdin ++ [0]).length ≤ l.length := by
            rw [List.length_append]
            exact lt
          exact (getElem?_overlay behind).trans (h.ended l hl cut (.inl len))
        · have same : (line s.stdin).length = l.length :=
            le_antisymm (len ▸ Nat.le_of_lt_succ text.fits) ge
          exact same ▸ stored
      · exact List.mem_singleton.1 hl ▸ stored
    · intro _ l hl
      rw [List.getLast?_concat] at hl
      exact Option.some.inj hl ▸ stored
    · exact fun _ => ⟨line s.stdin, new, by rw [str_overlay, text_eq text.noNul]⟩
    · exact fun d hd => mono d (h.requests d hd)
    · exact fun n at_ => (h.answering n at_).mono mono
    · exact fun d hd => (h.replies d hd).mono mono

theorem Sound.sendto (h : Sound s) (loc : s.client = .sendto) (hs : s.sendto = some s') :
    Sound s' := by
  obtain ⟨l, hl, stored⟩ := h.sending loc
  rw [Net.sendto, stored] at hs
  obtain rfl := Option.some.inj hs
  exact { h with
    ended := fun l hl cut _ => h.ended l hl cut (.inr (.inl loc))
    last := fun _ => h.last (.inl loc)
    sending := fun at_ => by cases at_
    requests := fun d hd => by
      rcases List.mem_append.1 hd with hd | hd
      · exact h.requests d hd
      · exact List.mem_singleton.1 hd ▸ hl }

theorem Sound.recvfrom (h : Sound s) (hd : d ∈ s.replies) : Sound (s.recvfrom d) := by
  have text := (h.replies d hd).isText h
  exact { h with
    length := by
      show (overlay (d.take MAXLINE) s.buf).length = MAXLINE
      rw [text.take, length_overlay (h.length ▸ text.fits.le), h.length]
    ended := fun l hl cut at_ => by
      have len : l.length = MAXLINE - 1 := at_.resolve_right (by simp [Net.recvfrom])
      have behind : d.length ≤ l.length := len ▸ Nat.le_of_lt_succ text.fits
      show (overlay (d.take MAXLINE) s.buf)[l.length]? = some 0
      rw [text.take, getElem?_overlay behind]
      exact h.ended l hl cut (.inl len)
    last := fun at_ => absurd at_ (by simp [Net.recvfrom])
    sending := fun at_ => by cases at_ }

theorem Sound.clientExit (h : Sound s) : Sound s.clientExit := by
  exact { h with
    ended := fun l hl cut at_ =>
      h.ended l hl cut (.inl (at_.resolve_right (by simp [Net.clientExit])))
    last := fun at_ => absurd at_ (by simp [Net.clientExit])
    sending := fun at_ => by cases at_ }

theorem Sound.serve (h : Sound s) (hd : d ∈ s.requests) : Sound (s.serve d) := by
  have text := h.lines d (h.requests d hd)
  exact { h with
    answering := fun n at_ => by
      obtain rfl := ServerLoc.sendto.inj at_
      refine ⟨d, h.requests d hd, ?_⟩
      show (upper (d.take MAXLINE).length (overlay (d.take MAXLINE) s.serverBuf)).take
        (d.take MAXLINE).length = d.map toupper
      rw [text.take, upper, overlay, List.take_left]
      exact List.take_left' (List.length_map _) }

theorem Sound.answer (h : Sound s) {n : ℕ} (loc : s.server = .sendto n) : Sound (s.answer n) := by
  exact { h with
    answering := fun n at_ => by cases at_
    replies := fun d hd => by
      rcases List.mem_append.1 hd with hd | hd
      · exact h.replies d hd
      · exact List.mem_singleton.1 hd ▸ h.answering n loc }

theorem Sound.serverExit (h : Sound s) : Sound s.serverExit := by
  exact { h with answering := fun n at_ => by cases at_ }

/-- Only one call prints. -/
theorem step_cases (hs : step a s = some s') :
    (∃ d ∈ s.replies, a = .recvfrom (some d) ∧ s.client = .recvfrom ∧ s' = s.recvfrom d) ∨
      (∀ d, a ≠ .recvfrom (some d)) ∧
        (s' = s.fgets ∨ (s.client = .sendto ∧ s.sendto = some s') ∨ s' = s.clientExit ∨
          (∃ d ∈ s.requests, s' = s.serve d) ∨ (∃ n, s.server = .sendto n ∧ s' = s.answer n) ∨
          s' = s.serverExit) := by
  unfold step at hs
  split at hs
  · obtain ⟨-, hs⟩ := Option.ite_none_right_eq_some.1 hs
    exact .inr ⟨nofun, .inl (Option.some.inj hs).symm⟩
  · obtain ⟨loc, hs⟩ := Option.ite_none_right_eq_some.1 hs
    exact .inr ⟨nofun, .inr (.inl ⟨loc, hs⟩)⟩
  · obtain ⟨-, hs⟩ := Option.ite_none_right_eq_some.1 hs
    exact .inr ⟨nofun, .inr (.inr (.inl (Option.some.inj hs).symm))⟩
  · next d =>
    obtain ⟨⟨loc, hd⟩, hs⟩ := Option.ite_none_right_eq_some.1 hs
    exact .inl ⟨d, hd, rfl, loc, (Option.some.inj hs).symm⟩
  · obtain ⟨-, hs⟩ := Option.ite_none_right_eq_some.1 hs
    exact .inr ⟨nofun, .inr (.inr (.inl (Option.some.inj hs).symm))⟩
  · next d =>
    obtain ⟨⟨-, hd⟩, hs⟩ := Option.ite_none_right_eq_some.1 hs
    exact .inr ⟨nofun, .inr (.inr (.inr (.inl ⟨d, hd, (Option.some.inj hs).symm⟩)))⟩
  · obtain ⟨-, hs⟩ := Option.ite_none_right_eq_some.1 hs
    exact .inr ⟨nofun, .inr (.inr (.inr (.inr (.inr (Option.some.inj hs).symm))))⟩
  · next ok =>
    split at hs
    · next n loc =>
      obtain rfl := Option.some.inj hs
      cases ok with
      | false => exact .inr ⟨nofun, .inr (.inr (.inr (.inr (.inr rfl))))⟩
      | true => exact .inr ⟨nofun, .inr (.inr (.inr (.inr (.inl ⟨n, loc, rfl⟩))))⟩
    · cases hs

theorem Sound.step (h : Sound s) (hs : step a s = some s') : Sound s' := by
  rcases step_cases hs with ⟨d, hd, -, -, rfl⟩ | ⟨-, quiet⟩
  · exact h.recvfrom hd
  · rcases quiet with rfl | ⟨loc, sent⟩ | rfl | ⟨d, hd, rfl⟩ | ⟨n, loc, rfl⟩ | rfl
    · exact h.fgets
    · exact h.sendto loc sent
    · exact h.clientExit
    · exact h.serve hd
    · exact h.answer loc
    · exact h.serverExit

/-! ## Whole replies -/

/-- Over the line, a reply is printed as a whole exactly when the byte behind it is NUL. -/
theorem Sound.whole_recvfrom_iff (h : Sound s) (whole : Whole s) (loc : s.client = .recvfrom)
    (hd : d ∈ s.replies) : Whole (s.recvfrom d) ↔ s.buf[d.length]? = some 0 := by
  have text := (h.replies d hd).isText h
  have lt : d.length < s.buf.length := h.length ▸ text.fits
  have printed : (s.recvfrom d).printed =
      s.printed ++ [str (d ++ s.buf[d.length] :: s.buf.drop (d.length + 1))] := by
    show s.printed ++ [str (overlay (d.take MAXLINE) s.buf)] = _
    rw [text.take, overlay, List.drop_eq_getElem_cons lt]
  constructor
  · intro after
    obtain ⟨l, hl, rfl⟩ := h.replies d hd
    by_cases mem : newline ∈ l
    · -- a longer text would have the newline of the reply inside
      rw [List.getElem?_eq_getElem lt, Option.some.injEq]
      by_contra more
      have last : str _ ∈ (s.recvfrom (l.map toupper)).printed :=
        printed ▸ List.mem_append_right _ List.mem_cons_self
      obtain ⟨d', hd', eq, -⟩ := after _ last
      have noNul : 0 ∉ l.map toupper ++ [s.buf[(l.map toupper).length]] := by
        simp only [List.mem_append, List.mem_singleton, not_or]
        exact ⟨text.noNul, Ne.symm more⟩
      obtain ⟨rest, rfl⟩ : l.map toupper ++ [s.buf[(l.map toupper).length]] <+: d' :=
        prefix_of_str noNul (by rwa [List.append_assoc])
      have inner := ((h.replies _ hd').isText h).inner
      rw [List.append_assoc, List.dropLast_append_of_ne_nil (by simp)] at inner
      exact inner (List.mem_append_left _ (newline_mem_map.2 mem))
    · rw [List.length_map]
      exact h.ended l hl mem (.inr (.inr loc))
  · intro nul t ht
    rw [List.getElem?_eq_getElem lt, Option.some.injEq] at nul
    rw [printed, nul, str_append text.noNul] at ht
    rcases List.mem_append.1 ht with ht | ht
    · exact whole t ht
    · exact ⟨d, hd, List.mem_singleton.1 ht, h.replies d hd⟩

/-- A reply as long as the line just sent, such as the reply to it. -/
theorem Sound.ended_of_length (h : Sound s) (loc : s.client = .recvfrom)
    (last : s.lines.getLast? = some l) (same : d.length = l.length) :
    Ended (.recvfrom (some d)) s := by
  have nul := h.last (.inr loc) l last
  rwa [← same] at nul

/-- Nothing printed, and what has been sent and read stays. -/
theorem Whole.mono (whole : Whole s) (printed : s'.printed = s.printed)
    (replies : ∀ d ∈ s.replies, d ∈ s'.replies) (lines : ∀ l ∈ s.lines, l ∈ s'.lines) :
    Whole s' := by
  intro t ht
  obtain ⟨d, hd, eq, answers⟩ := whole t (printed ▸ ht)
  exact ⟨d, replies d hd, eq, answers.mono lines⟩

theorem whole_step_iff (h : Sound s) (whole : Whole s) (hs : step a s = some s') :
    Whole s' ↔ Ended a s := by
  rcases step_cases hs with ⟨d, hd, rfl, loc, rfl⟩ | ⟨other, quiet⟩
  · exact h.whole_recvfrom_iff whole loc hd
  · have ended : Ended a s := by
      unfold Ended
      split
      · next d => exact absurd rfl (other d)
      · trivial
    refine iff_of_true ?_ ended
    rcases quiet with rfl | ⟨-, sent⟩ | rfl | ⟨d, -, rfl⟩ | ⟨n, -, rfl⟩ | rfl
    · unfold Net.fgets
      split
      · exact whole
      · exact whole.mono rfl (fun d hd => hd) fun l hl => List.mem_append_left _ hl
    · obtain ⟨d, -, rfl⟩ := Option.map_eq_some_iff.1 sent
      exact whole
    · exact whole
    · exact whole
    · exact whole.mono rfl (fun d hd => List.mem_append_left _ hd) fun l hl => hl
    · exact whole

/-- For every input without NUL and every run, whatever the network does: each text printed is a
datagram of the server and an upper-cased line exactly when all replies are received where the byte
behind them is NUL. -/
theorem whole_iff_ended {stdin buf serverBuf : List UInt8} (noNul : 0 ∉ stdin)
    (length : buf.length = MAXLINE) {as : List Act} {s : Net}
    (run : (network stdin buf serverBuf).run as (created stdin buf serverBuf) = some s) :
    (network stdin buf serverBuf).Along Whole as (created stdin buf serverBuf) ↔
      (network stdin buf serverBuf).Meets Ended as (created stdin buf serverBuf) := by
  have sound : Sound (created stdin buf serverBuf) :=
    ⟨noNul, length, by simp [created], by simp [created], by simp [created], by simp [created],
      by simp [created], by simp [created], by simp [created], by simp [created]⟩
  have whole : Whole (created stdin buf serverBuf) := by simp [Whole, created]
  refine Machine.along_iff_meets (I := fun s => Sound s ∧ Whole s) (fun s h => h.2) ?_ ?_
    ⟨sound, whole⟩ run
  · exact fun a s s' h ok hs => ⟨h.1.step hs, (whole_step_iff h.1 h.2 hs).2 ok⟩
  · exact fun a s s' h bad hs after => bad ((whole_step_iff h.1 h.2 hs).1 after)

/-- "a\n" and "bcd\n": the reply to the first line is duplicated, and its copy comes after the
second line. -/
def lateCopy : List Act :=
  [.fgets, .sendto true, .serve (some [97, 10]), .answer true, .recvfrom (some [65, 10]),
    .fgets, .sendto true, .recvfrom (some [65, 10])]

/-- The same with a second line of the same length, and the end of the input. -/
def lateCopySame : List Act := lateCopy ++ [.fgets]

/-- What the stacks hold. -/
def garbage : List UInt8 := List.replicate 80 7

theorem whole_iff_ended_lateCopySame : ∃ s,
    (network [97, 10, 98, 10] garbage garbage).run lateCopySame
        (created [97, 10, 98, 10] garbage garbage) = some s ∧
      s.printed = [some [65, 10], some [65, 10]] ∧ s.client = .finished ∧
      (network [97, 10, 98, 10] garbage garbage).Along Whole lateCopySame
        (created [97, 10, 98, 10] garbage garbage) :=
  ⟨_, rfl, rfl, rfl, (whole_iff_ended (by decide) rfl rfl).2 (by decide)⟩

/-- "A\nd\n" is printed. -/
theorem not_whole_lateCopy : ∃ s,
    (network [97, 10, 98, 99, 100, 10] garbage garbage).Reachable s ∧
      s.printed = [some [65, 10], some [65, 10, 100, 10]] ∧ ¬ Whole s := by
  refine ⟨_, Machine.reachable_of_run lateCopy rfl rfl, rfl, fun whole => ?_⟩
  obtain ⟨d, hd, eq, -⟩ := whole (some [65, 10, 100, 10]) (by decide)
  obtain rfl := Option.some.inj eq
  exact absurd hd (by decide)

end LinuxNote.Udp
