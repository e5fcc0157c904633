import LinuxNote.Conc.Machine
import LinuxNote.Socket.RoundTrip

/-!
# The chat of `cliTCP.cpp` with one of three servers

The client sends a word and waits for a reply, and the server waits for a message and sends a word
back, over two byte streams that the kernel cuts into pieces of any length.  `threadServTCP.cpp` and
`processServTCP.cpp` go on so with one client; `servTCP.cpp` answers once and goes on to the next
connection, and leaves this one open.  The socket buffers have room for what is sent, and a side
whose `recv` fills its buffer is followed no further: `Recv` then reads behind it.

`move_of_step` says what a step can do.  From it follows that both sides print the bytes that the
other one has sent, in order and once, whatever they type and wherever a call fails
(`genuine_of_reachable`).
-/

namespace LinuxNote.TcpChat

open Conc Socket Text

inductive Program
  | servTCP
  | processServTCP
  | threadServTCP
  deriving DecidableEq

/-- Before the call that it names; `overrun` has read behind an array. -/
inductive Client
  | input
  | send (buf : List UInt8)
  | recv
  | ended
  | overrun
  deriving DecidableEq

/-- The server, as far as it has to do with this connection; it has `left` it without a `Close`. -/
inductive Server
  | recv
  | input (buf : List UInt8)
  | send (buf : List UInt8)
  | left
  | ended
  | overrun
  deriving DecidableEq

/-- The bytes under way; what the `Send`s of the client have sent, the texts that the server has
printed, what its `Send`s have sent and the texts that the client has printed. -/
structure Session where
  client : Client
  server : Server
  toServer : List UInt8
  toClient : List UInt8
  asked : List (List UInt8)
  said : List (List UInt8)
  answers : List (List UInt8)
  shown : List (List UInt8)
  deriving DecidableEq

/-- An input is a word, or none at its end.  A call of the kernel fails, or a `send` accepts some
bytes and a `recv` returns some, none at the end of the stream. -/
inductive Act
  | input (word : Option (List UInt8))
  | send (r : Option ℕ)
  | recv (r : Option (List UInt8))
  | hear (r : Option (List UInt8))
  | answer (word : Option (List UInt8))
  | reply (r : Option ℕ)

/-- What `send` can return in `Send`: it takes some of the bytes where there are any. -/
def Accepts (buf : List UInt8) : Option ℕ → Prop
  | none => True
  | some k => k ≤ (text (c_str buf)).length ∧ (0 < (text (c_str buf)).length → 0 < k)

/-- What `recv` can return in `Recv`. -/
def Arrives (transit : List UInt8) (closed : Prop) : Option (List UInt8) → Prop
  | none => True
  | some bs =>
      bs.isPrefixOf transit ∧ bs.length ≤ BUFSIZ ∧ (bs.length = 0 → transit.length = 0 ∧ closed)

instance (buf : List UInt8) (r : Option ℕ) : Decidable (Accepts buf r) := by
  cases r <;> unfold Accepts <;> infer_instance

instance (transit : List UInt8) (closed : Prop) [Decidable closed] (r : Option (List UInt8)) :
    Decidable (Arrives transit closed r) := by
  cases r <;> unfold Arrives <;> infer_instance

/-- The server has closed its last descriptor of the connection; in `processServTCP.cpp` the parent
keeps one. -/
def HungUp (p : Program) (s : Session) : Prop := p ≠ .processServTCP ∧ s.server = .ended

instance (p : Program) (s : Session) : Decidable (HungUp p s) :=
  inferInstanceAs (Decidable (_ ∧ _))

/-- What has been received is no longer under way. -/
def rest (transit : List UInt8) (r : Option (List UInt8)) : List UInt8 :=
  transit.drop (r.getD []).length

/-- `std::cin >> buf` leaves `buf` as it is at the end of the input: in the client it is new and
empty, in the server it holds the message.  A `send` does not wait for room: what it accepts is
under way at once. -/
def step (p : Program) (a : Act) (s : Session) : Option Session :=
  match a, s.client, s.server with
  | .input word, .input, _ => some { s with client := .send (word.getD []) }
  | .send r, .send buf, _ =>
      if Accepts buf r then
        match TCPsocket.Send buf r with
        | (false, _) => some { s with client := .ended }
        | (true, sent) =>
            some { s with
              client := .recv
              toServer := s.toServer ++ sent
              asked := s.asked ++ [sent] }
      else none
  | .recv r, .recv, _ =>
      if Arrives s.toClient (HungUp p s) r then
        match TCPsocket.Recv r [] with
        | none => some { s with client := .overrun }
        | some (false, _) => some { s with client := .ended }
        | some (true, buf) =>
            some { s with
              client := .input
              toClient := rest s.toClient r
              shown := s.shown ++ [buf] }
      else none
  | .hear r, _, .recv =>
      if Arrives s.toServer (s.client = .ended) r then
        match TCPsocket.Recv r [] with
        | none => some { s with server := .overrun }
        | some (false, _) => some { s with server := .ended }
        | some (true, buf) =>
            some { s with
              server := .input buf
              toServer := rest s.toServer r
              said := s.said ++ [buf] }
      else none
  | .answer word, _, .input buf => some { s with server := .send (word.getD buf) }
  | .reply r, _, .send buf =>
      if Accepts buf r then
        match TCPsocket.Send buf r with
        | (false, _) => some { s with server := .ended }
        | (true, sent) =>
            some { s with
              server := if p = .servTCP then .left else .recv
              toClient := s.toClient ++ sent
              answers := s.answers ++ [sent] }
      else none
  | _, _, _ => none

def connected : Session := ⟨.input, .recv, [], [], [], [], [], []⟩

def chat (p : Program) : Machine Session Act where
  init s := s = connected
  step := step p

/-! ## What a step can do -/

/-- The bytes `sent` of `buf` have been sent. -/
structure Sends (buf : List UInt8) (r : Option ℕ) (sent : List UInt8) : Prop where
  noNul : 0 ∉ sent
  count : r = some sent.length
  some : 0 < (text buf).length → 0 < sent.length

/-- The piece `bs` has come off the stream `transit`, and `rest` is left of it. -/
structure Gets (transit : List UInt8) (r : Option (List UInt8)) (bs rest : List UInt8) :
    Prop where
  result : r = some bs
  arrived : bs ++ rest = transit
  pos : 0 < bs.length

/-- `Recv` returns false: an error, or the end of the stream. -/
def Fails (transit : List UInt8) (closed : Prop) (r : Option (List UInt8)) : Prop :=
  r = none ∨ r = some [] ∧ transit.length = 0 ∧ closed

inductive Move (p : Program) (s : Session) : Act → Session → Prop
  | input (word : Option (List UInt8)) (here : s.client = .input) :
      Move p s (.input word) { s with client := .send (word.getD []) }
  | send {buf : List UInt8} {r : Option ℕ} {sent : List UInt8} (here : s.client = .send buf)
      (sends : Sends buf r sent) :
      Move p s (.send r) { s with
        client := .recv
        toServer := s.toServer ++ sent
        asked := s.asked ++ [sent] }
  | sendFails {buf : List UInt8} (here : s.client = .send buf) :
      Move p s (.send none) { s with client := .ended }
  | recv {r : Option (List UInt8)} {bs rest : List UInt8} (here : s.client = .recv)
      (gets : Gets s.toClient r bs rest) :
      Move p s (.recv r) { s with
        client := .input
        toClient := rest
        shown := s.shown ++ [bs] }
  | recvFails {r : Option (List UInt8)} (here : s.client = .recv)
      (fails : Fails s.toClient (HungUp p s) r) : Move p s (.recv r) { s with client := .ended }
  | recvOverruns {r : Option (List UInt8)} (here : s.client = .recv) (some : s.toClient ≠ []) :
      Move p s (.recv r) { s with client := .overrun }
  | hear {r : Option (List UInt8)} {bs rest : List UInt8} (here : s.server = .recv)
      (gets : Gets s.toServer r bs rest) :
      Move p s (.hear r) { s with
        server := .input bs
        toServer := rest
        said := s.said ++ [bs] }
  | hearFails {r : Option (List UInt8)} (here : s.server = .recv)
      (fails : Fails s.toServer (s.client = .ended) r) :
      Move p s (.hear r) { s with server := .ended }
  | hearOverruns {r : Option (List UInt8)} (here : s.server = .recv) (some : s.toServer ≠ []) :
      Move p s (.hear r) { s with server := .overrun }
  | answer {buf : List UInt8} (word : Option (List UInt8)) (here : s.server = .input buf) :
      Move p s (.answer word) { s with server := .send (word.getD buf) }
  | reply {buf : List UInt8} {r : Option ℕ} {sent : List UInt8} (here : s.server = .send buf)
      (sends : Sends buf r sent) :
      Move p s (.reply r) { s with
        server := if p = .servTCP then .left else .recv
        toClient := s.toClient ++ sent
        answers := s.answers ++ [sent] }
  | replyFails {buf : List UInt8} (here : s.server = .send buf) :
      Move p s (.reply none) { s with server := .ended }

section

variable {p : Program} {s s' : Session} {a : Act} {buf transit : List UInt8} {closed : Prop}

theorem send_cases {r : Option ℕ} (accepts : Accepts buf r) :
    r = none ∧ TCPsocket.Send buf r = (false, []) ∨
      ∃ sent, TCPsocket.Send buf r = (true, sent) ∧ Sends buf r sent := by
  cases r with
  | none => exact Or.inl ⟨rfl, rfl⟩
  | some k =>
      obtain ⟨le, pos⟩ := accepts
      have count : ((text (c_str buf)).take k).length = k := by
        rw [List.length_take, Nat.min_eq_left le]
      refine Or.inr ⟨_, rfl, ?_, ?_, ?_⟩
      · exact fun zero => noNul_text _ (List.mem_of_mem_take zero)
      · rw [count]
      · rw [count, ← text_c_str buf]
        exact pos

theorem recv_cases (noNul : 0 ∉ transit) {r : Option (List UInt8)}
    (arrives : Arrives transit closed r) :
    Fails transit closed r ∧ TCPsocket.Recv r buf = some (false, buf) ∨
      (∃ bs, Gets transit r bs (rest transit r) ∧ TCPsocket.Recv r buf = some (true, bs)) ∨
      transit ≠ [] ∧ TCPsocket.Recv r buf = none := by
  cases r with
  | none => exact Or.inl ⟨Or.inl rfl, rfl⟩
  | some bs =>
      obtain ⟨arrived, small, none_⟩ := arrives
      obtain ⟨after, rfl⟩ := List.isPrefixOf_iff_prefix.1 arrived
      by_cases empty : bs = []
      · subst empty
        exact Or.inl ⟨Or.inr ⟨rfl, none_ rfl⟩, rfl⟩
      · have pos := List.length_pos_iff.2 empty
        have noNul : 0 ∉ bs := fun zero => noNul (List.mem_append_left _ zero)
        rw [recv_of_noNul noNul ⟨pos, small⟩]
        by_cases room : bs.length < BUFSIZ
        · rw [if_pos room]
          have behind : rest (bs ++ after) (some bs) = after := List.drop_left
          exact Or.inr (Or.inl ⟨bs, ⟨rfl, by rw [behind], pos⟩, rfl⟩)
        · rw [if_neg room]
          exact Or.inr (Or.inr ⟨List.append_ne_nil_of_left_ne_nil empty _, rfl⟩)

/-- No NUL is under way. -/
structure Clean (s : Session) : Prop where
  toServer : 0 ∉ s.toServer
  toClient : 0 ∉ s.toClient

theorem move_of_step (clean : Clean s) (hs : step p a s = some s') : Move p s a s' := by
  unfold step at hs
  split at hs
  · next word here =>
      obtain rfl := Option.some.inj hs
      exact .input word here
  · next r buf here =>
      obtain ⟨accepts, hs⟩ := Option.ite_none_right_eq_some.1 hs
      rcases send_cases accepts with ⟨rfl, send⟩ | ⟨sent, send, sends⟩
      · rw [send] at hs
        obtain rfl := Option.some.inj hs
        exact .sendFails here
      · rw [send] at hs
        obtain rfl := Option.some.inj hs
        exact .send here sends
  · next r here =>
      obtain ⟨arrives, hs⟩ := Option.ite_none_right_eq_some.1 hs
      rcases recv_cases clean.toClient arrives with ⟨fails, recv⟩ | ⟨bs, gets, recv⟩ | ⟨some_, recv⟩
      · rw [recv] at hs
        obtain rfl := Option.some.inj hs
        exact .recvFails here fails
      · rw [recv] at hs
        obtain rfl := Option.some.inj hs
        exact .recv here gets
      · rw [recv] at hs
        obtain rfl := Option.some.inj hs
        exact .recvOverruns here some_
  · next r here =>
      obtain ⟨arrives, hs⟩ := Option.ite_none_right_eq_some.1 hs
      rcases recv_cases clean.toServer arrives with ⟨fails, recv⟩ | ⟨bs, gets, recv⟩ | ⟨some_, recv⟩
      · rw [recv] at hs
        obtain rfl := Option.some.inj hs
        exact .hearFails here fails
      · rw [recv] at hs
        obtain rfl := Option.some.inj hs
        exact .hear here gets
      · rw [recv] at hs
        obtain rfl := Option.some.inj hs
        exact .hearOverruns here some_
  · next word buf here =>
      obtain rfl := Option.some.inj hs
      exact .answer word here
  · next r buf here =>
      obtain ⟨accepts, hs⟩ := Option.ite_none_right_eq_some.1 hs
      rcases send_cases accepts with ⟨rfl, send⟩ | ⟨sent, send, sends⟩
      · rw [send] at hs
        obtain rfl := Option.some.inj hs
        exact .replyFails here
      · rw [send] at hs
        obtain rfl := Option.some.inj hs
        exact .reply here sends
  · cases hs

theorem Clean.move (h : Clean s) (hs : Move p s a s') : Clean s' := by
  cases hs with
  | send here sends =>
      exact { h with toServer := fun mem => (List.mem_append.1 mem).elim h.toServer sends.noNul }
  | reply here sends =>
      exact { h with toClient := fun mem => (List.mem_append.1 mem).elim h.toClient sends.noNul }
  | recv here gets =>
      refine { h with toClient := fun mem => h.toClient ?_ }
      exact gets.arrived ▸ List.mem_append_right _ mem
  | hear here gets =>
      refine { h with toServer := fun mem => h.toServer ?_ }
      exact gets.arrived ▸ List.mem_append_right _ mem
  | _ => exact ⟨h.toServer, h.toClient⟩

theorem clean_of_reachable (h : (chat p).Reachable s) : Clean s := by
  have key : (chat p).Inductive Clean := by
    refine ⟨?_, fun a s s' _ clean hs => clean.move (move_of_step clean hs)⟩
    rintro s rfl
    exact ⟨List.not_mem_nil, List.not_mem_nil⟩
  exact key.reachable h

/-- The rule for invariants of the chat. -/
theorem invariant_of_moves {I : Session → Prop} (init : I connected)
    (keep : ∀ s a s', I s → Move p s a s' → I s') (h : (chat p).Reachable s) : I s := by
  have key : (chat p).Inductive I := by
    refine ⟨?_, fun a s s' hr inv hs => ?_⟩
    · rintro s rfl
      exact init
    · exact keep s a s' inv (move_of_step (clean_of_reachable hr) hs)
  exact key.reachable h

end

/-! ## What is printed -/

/-- Both sides have printed, in pieces, what the other one has sent, but for what is under way; and
the client has one message more than replies, at most, and the server one reply less than
messages. -/
structure Genuine (s : Session) : Prop where
  said : s.said.flatten ++ s.toServer = s.asked.flatten
  shown : s.shown.flatten ++ s.toClient = s.answers.flatten
  pieces : ∀ w ∈ s.said ++ s.shown, w ≠ []
  client : s.shown.length ≤ s.asked.length ∧ s.asked.length ≤ s.shown.length + 1
  server : s.answers.length ≤ s.said.length ∧ s.said.length ≤ s.answers.length + 1

/-- Whose turn it is, from the number of the messages. -/
def Client.Turn (asked shown : ℕ) : Client → Prop
  | .input | .send _ => asked = shown
  | .recv => asked = shown + 1
  | .ended | .overrun => shown ≤ asked ∧ asked ≤ shown + 1

def Server.Turn (said answers : ℕ) : Server → Prop
  | .recv | .left => said = answers
  | .input _ | .send _ => said = answers + 1
  | .ended | .overrun => answers ≤ said ∧ said ≤ answers + 1

theorem Client.Turn.le {c : Client} {asked shown : ℕ} (h : c.Turn asked shown) :
    shown ≤ asked ∧ asked ≤ shown + 1 := by
  cases c with
  | input | send buf =>
      obtain rfl : asked = shown := h
      exact ⟨le_rfl, Nat.le_succ _⟩
  | recv =>
      obtain rfl : asked = shown + 1 := h
      exact ⟨Nat.le_succ _, le_rfl⟩
  | ended | overrun => exact h

theorem Server.Turn.le {k : Server} {said answers : ℕ} (h : k.Turn said answers) :
    answers ≤ said ∧ said ≤ answers + 1 := by
  cases k with
  | recv | left =>
      obtain rfl : said = answers := h
      exact ⟨le_rfl, Nat.le_succ _⟩
  | input buf | send buf =>
      obtain rfl : said = answers + 1 := h
      exact ⟨Nat.le_succ _, le_rfl⟩
  | ended | overrun => exact h

structure Faithful (s : Session) : Prop where
  said : s.said.flatten ++ s.toServer = s.asked.flatten
  shown : s.shown.flatten ++ s.toClient = s.answers.flatten
  heard : ∀ w ∈ s.said, w ≠ []
  printed : ∀ w ∈ s.shown, w ≠ []
  client : s.client.Turn s.asked.length s.shown.length
  server : s.server.Turn s.said.length s.answers.length

section

variable {p : Program} {s s' : Session} {a : Act}

theorem Faithful.move (h : Faithful s) (hs : Move p s a s') : Faithful s' := by
  have client := h.client
  have server := h.server
  cases hs with
  | input word here =>
      rw [here] at client
      exact { h with client }
  | @send buf r sent here sends =>
      rw [here] at client
      have next : s.asked.length = s.shown.length := client
      refine { h with said := ?_, client := ?_ }
      · simp [← h.said]
      · simp [Client.Turn, next]
  | sendFails here | recvFails here fails | recvOverruns here some_ =>
      exact { h with client := client.le }
  | @recv r bs rest here gets =>
      rw [here] at client
      have next : s.asked.length = s.shown.length + 1 := client
      refine { h with shown := ?_, printed := ?_, client := ?_ }
      · simp [← h.shown, ← gets.arrived]
      · refine List.forall_mem_append.2 ⟨h.printed, ?_⟩
        simpa using List.length_pos_iff.1 gets.pos
      · simp [Client.Turn, next]
  | @hear r bs rest here gets =>
      rw [here] at server
      have next : s.said.length = s.answers.length := server
      refine { h with said := ?_, heard := ?_, server := ?_ }
      · simp [← h.said, ← gets.arrived]
      · refine List.forall_mem_append.2 ⟨h.heard, ?_⟩
        simpa using List.length_pos_iff.1 gets.pos
      · simp [Server.Turn, next]
  | hearFails here fails | hearOverruns here some_ | replyFails here =>
      exact { h with server := server.le }
  | answer word here =>
      rw [here] at server
      exact { h with server }
  | @reply buf r sent here sends =>
      rw [here] at server
      have next : s.said.length = s.answers.length + 1 := server
      refine { h with shown := ?_, server := ?_ }
      · simp [← h.shown]
      · dsimp only
        split <;> simp [Server.Turn, next]

theorem faithful_of_reachable (h : (chat p).Reachable s) : Faithful s := by
  refine invariant_of_moves ?_ (fun s a s' faithful hs => faithful.move hs) h
  exact ⟨rfl, rfl, fun w mem => absurd mem List.not_mem_nil,
    fun w mem => absurd mem List.not_mem_nil, rfl, rfl⟩

/-- In every run of each of the three servers: any words, any pieces, any failure. -/
theorem genuine_of_reachable (h : (chat p).Reachable s) : Genuine s := by
  obtain ⟨said, shown, heard, printed, client, server⟩ := faithful_of_reachable h
  exact ⟨said, shown, List.forall_mem_append.2 ⟨heard, printed⟩, client.le, server.le⟩

end

/-- The server hears "hello" in two pieces and answers each. -/
theorem genuine_of_reachable_pieces : ∃ s, (chat .threadServTCP).Reachable s ∧
    s.said = [bytes "he", bytes "llo"] ∧ s.toClient = bytes "hello" ∧ Genuine s := by
  have run : (chat .threadServTCP).run [.input (some (bytes "hello")), .send (some 5),
      .hear (some (bytes "he")), .answer none, .reply (some 2), .hear (some (bytes "llo")),
      .answer none, .reply (some 3)] connected =
      some ⟨.recv, .recv, [], bytes "hello", [bytes "hello"], [bytes "he", bytes "llo"],
        [bytes "he", bytes "llo"], []⟩ := by decide +kernel
  have h := Machine.reachable_of_run _ rfl run
  exact ⟨_, h, rfl, rfl, genuine_of_reachable h⟩

end LinuxNote.TcpChat
