import LinuxNote.Conc.Progress
import LinuxNote.Socket.TcpChat

/-!
# The turns in the chat of `cliTCP.cpp`

Nothing but the turns of the two programs keeps a message together.  Where each `Recv` gets all that
is under way, there is one message at a time and the `k`-th reply that the client prints is the
answer to its `k`-th word (`inStep_of_prompt`).

A message of no bytes is no message: the chat goes on as long as each side sends something
(`goesOn_of_meets`), whatever the pieces, and comes to a stop without an end when the input of the
client ends (`silent_of_endOfInput`).  `servTCP.cpp` hears one piece of each connection and answers
it once (`once_of_reachable`).
-/

namespace LinuxNote.TcpChat

open Conc Socket Text

variable {p : Program} {s s' : Session} {a : Act}

/-- A `Recv` gets all that is under way. -/
def Whole : Act → Session → Prop
  | .recv (some bs), s => bs = s.toClient
  | .hear (some bs), s => bs = s.toServer
  | _, _ => True

/-- The input of the client does not end, no word begins with a NUL, and no call fails. -/
def Fine : Act → Session → Prop
  | .input word, _ => ∃ w ∈ word, text w ≠ []
  | .answer word, _ => ∀ w ∈ word, text w ≠ []
  | .send r, _ | .reply r, _ => r ≠ none
  | .recv r, _ | .hear r, _ => r ≠ none

instance (a : Act) (s : Session) : Decidable (Whole a s) := by
  unfold Whole
  split <;> infer_instance

instance : (a : Act) → (s : Session) → Decidable (Fine a s)
  | .input word, _ => inferInstanceAs (Decidable (∃ w ∈ word, text w ≠ []))
  | .answer word, _ => inferInstanceAs (Decidable (∀ w ∈ word, text w ≠ []))
  | .send r, _ | .reply r, _ => inferInstanceAs (Decidable (r ≠ none))
  | .recv r, _ | .hear r, _ => inferInstanceAs (Decidable (r ≠ none))

/-! ## Everybody speaks -/

/-- What is about to be sent has a first byte, and nobody has gone. -/
structure Speaking (p : Program) (s : Session) : Prop where
  send : ∀ buf, s.client = .send buf → text buf ≠ []
  input : ∀ buf, s.server = .input buf → text buf ≠ []
  reply : ∀ buf, s.server = .send buf → text buf ≠ []
  client : s.client ≠ .ended
  server : s.server ≠ .ended
  stays : p ≠ .servTCP → s.server ≠ .left

/-- Somebody has the word, or there is something to hear. -/
def Going (s : Session) : Prop :=
  s.client = .recv → s.server = .recv → s.toServer ≠ [] ∨ s.toClient ≠ []

theorem ne_nil_of_sends {buf sent : List UInt8} {r : Option ℕ} (sends : Sends buf r sent)
    (some : text buf ≠ []) : sent ≠ [] :=
  List.length_pos_iff.1 (sends.some (List.length_pos_iff.2 some))

/-- A call that returns 0 has found the other side gone. -/
theorem closed_of_fails {transit : List UInt8} {closed : Prop} {r : Option (List UInt8)}
    (fails : Fails transit closed r) (some : r ≠ none) : closed := by
  rcases fails with none | ⟨-, -, closed⟩
  · exact absurd none some
  · exact closed

theorem Speaking.move (h : Speaking p s) (clean : Clean s) (fine : Fine a s)
    (hs : Move p s a s') : Speaking p s' := by
  cases hs with
  | input word here =>
      obtain ⟨w, rfl, some_⟩ := fine
      exact { h with
        send := fun buf e => by cases e; exact some_
        client := nofun }
  | send here sends => exact { h with send := nofun, client := nofun }
  | sendFails here => exact absurd rfl fine
  | recv here gets => exact { h with send := nofun, client := nofun }
  | recvFails here fails => exact absurd (closed_of_fails fails fine).2 h.server
  | recvOverruns here some_ => exact { h with send := nofun, client := nofun }
  | @hear r bs rest here gets =>
      have noNul : 0 ∉ bs := fun zero => clean.toServer (gets.arrived ▸ List.mem_append_left _ zero)
      have heard : text bs ≠ [] := by
        rw [text_eq noNul]
        exact List.length_pos_iff.1 gets.pos
      exact { h with
        input := fun buf e => by cases e; exact heard
        reply := nofun
        server := nofun
        stays := fun _ => nofun }
  | hearFails here fails => exact absurd (closed_of_fails fails fine) h.client
  | hearOverruns here some_ =>
      exact { h with input := nofun, reply := nofun, server := nofun, stays := fun _ => nofun }
  | @answer buf word here =>
      have said : text (word.getD buf) ≠ [] := by
        cases word with
        | none => exact h.input buf here
        | some w => exact fine w rfl
      exact { h with
        input := nofun
        reply := fun buf e => by cases e; exact said
        server := nofun
        stays := fun _ => nofun }
  | reply here sends =>
      refine { h with input := ?_, reply := ?_, server := ?_, stays := fun more => ?_ }
      · exact fun buf => by dsimp only; split <;> exact nofun
      · exact fun buf => by dsimp only; split <;> exact nofun
      · dsimp only
        split <;> exact nofun
      · rw [if_neg more]
        exact nofun
  | replyFails here => exact absurd rfl fine

/-- Who hears something has the word then, and who speaks leaves something to hear. -/
theorem going_of_move (speaking : Speaking p s) (hs : Move p s a s') : Going s' := by
  unfold Going
  cases hs with
  | @send buf r sent here sends =>
      have more := ne_nil_of_sends sends (speaking.send _ here)
      exact fun _ _ => Or.inl (List.append_ne_nil_of_right_ne_nil _ more)
  | @reply buf r sent here sends =>
      have more := ne_nil_of_sends sends (speaking.reply _ here)
      exact fun _ _ => Or.inr (List.append_ne_nil_of_right_ne_nil _ more)
  | input word here | sendFails here | recv here gets | recvFails here fails
  | recvOverruns here some_ => exact nofun
  | hear here gets | hearFails here fails | hearOverruns here some_ | answer word here
  | replyFails here => exact fun _ => nofun

/-! ## The next step -/

theorem exists_input (here : s.client = .input) (word : Option (List UInt8)) :
    ∃ s', step p (.input word) s = some s' := by
  simp only [step, here]
  exact ⟨_, rfl⟩

theorem exists_answer {buf : List UInt8} (here : s.server = .input buf)
    (word : Option (List UInt8)) : ∃ s', step p (.answer word) s = some s' := by
  simp only [step, here]
  exact ⟨_, rfl⟩

theorem accepts_all (buf : List UInt8) : Accepts buf (some (text (c_str buf)).length) :=
  ⟨le_rfl, id⟩

theorem exists_send {buf : List UInt8} {r : Option ℕ} (here : s.client = .send buf)
    (accepts : Accepts buf r) : ∃ s', step p (.send r) s = some s' := by
  simp only [step, here, if_pos accepts]
  rcases TCPsocket.Send buf r with ⟨_ | _, _⟩ <;> exact ⟨_, rfl⟩

theorem exists_reply {buf : List UInt8} {r : Option ℕ} (here : s.server = .send buf)
    (accepts : Accepts buf r) : ∃ s', step p (.reply r) s = some s' := by
  simp only [step, here, if_pos accepts]
  rcases TCPsocket.Send buf r with ⟨_ | _, _⟩ <;> exact ⟨_, rfl⟩

theorem arrives_first {c : UInt8} {cs : List UInt8} {closed : Prop} :
    Arrives (c :: cs) closed (some [c]) := by
  have one : 1 ≤ BUFSIZ := by decide
  exact ⟨by simp [List.isPrefixOf], one, fun none => by cases none⟩

theorem exists_hear {r : Option (List UInt8)} (here : s.server = .recv)
    (arrives : Arrives s.toServer (s.client = .ended) r) : ∃ s', step p (.hear r) s = some s' := by
  simp only [step, here, if_pos arrives]
  rcases TCPsocket.Recv r [] with _ | ⟨_ | _, _⟩ <;> exact ⟨_, rfl⟩

theorem exists_recv {r : Option (List UInt8)} (here : s.client = .recv)
    (arrives : Arrives s.toClient (HungUp p s) r) : ∃ s', step p (.recv r) s = some s' := by
  simp only [step, here, if_pos arrives]
  rcases TCPsocket.Recv r [] with _ | ⟨_ | _, _⟩ <;> exact ⟨_, rfl⟩

theorem exists_fine_step (hp : p ≠ .servTCP) (speaking : Speaking p s) (going : Going s)
    (client : s.client ≠ .overrun) (server : s.server ≠ .overrun) :
    ∃ a s', Fine a s ∧ step p a s = some s' := by
  cases hc : s.client with
  | input =>
      obtain ⟨s', next⟩ := exists_input (p := p) hc (some [97])
      exact ⟨.input (some [97]), s', ⟨[97], rfl, by decide⟩, next⟩
  | send buf =>
      obtain ⟨s', next⟩ := exists_send (p := p) hc (accepts_all buf)
      exact ⟨.send (some _), s', Option.some_ne_none _, next⟩
  | ended => exact absurd hc speaking.client
  | overrun => exact absurd hc client
  | recv =>
      cases hk : s.server with
      | input buf =>
          obtain ⟨s', next⟩ := exists_answer (p := p) hk none
          exact ⟨.answer none, s', fun w e => (by cases e), next⟩
      | send buf =>
          obtain ⟨s', next⟩ := exists_reply (p := p) hk (accepts_all buf)
          exact ⟨.reply (some _), s', Option.some_ne_none _, next⟩
      | left => exact absurd hk (speaking.stays hp)
      | ended => exact absurd hk speaking.server
      | overrun => exact absurd hk server
      | recv =>
          rcases going hc hk with asked | answered
          · obtain ⟨c, cs, hcs⟩ := List.exists_cons_of_ne_nil asked
            have first : Arrives s.toServer (s.client = .ended) (some [c]) := hcs ▸ arrives_first
            obtain ⟨s', next⟩ := exists_hear (p := p) hk first
            exact ⟨.hear (some [c]), s', Option.some_ne_none _, next⟩
          · obtain ⟨c, cs, hcs⟩ := List.exists_cons_of_ne_nil answered
            have first : Arrives s.toClient (HungUp p s) (some [c]) := hcs ▸ arrives_first
            obtain ⟨s', next⟩ := exists_recv hc first
            exact ⟨.recv (some [c]), s', Option.some_ne_none _, next⟩

theorem clean_connected : Clean connected := ⟨List.not_mem_nil, List.not_mem_nil⟩

theorem speaking_connected : Speaking p connected :=
  ⟨nofun, nofun, nofun, nofun, nofun, fun _ => nofun⟩

theorem speaking_of_meets {cond : Act → Session → Prop} (fine : ∀ a s, cond a s → Fine a s)
    {as : List Act} (h : (chat p).run as connected = some s)
    (meets : (chat p).Meets cond as connected) : Clean s ∧ Speaking p s ∧ Going s := by
  refine Machine.invariant_of_meets (I := fun s => Clean s ∧ Speaking p s ∧ Going s)
    (fun a s s' inv ok hs => ?_) ?_ h meets
  · obtain ⟨clean, speaking, -⟩ := inv
    have moves := move_of_step clean hs
    exact ⟨clean.move moves, speaking.move clean (fine a s ok) moves, going_of_move speaking moves⟩
  · exact ⟨clean_connected, speaking_connected, nofun⟩

/-- As long as everybody speaks, and unless a piece fills a buffer, somebody can go on so. -/
theorem goesOn_of_meets (hp : p ≠ .servTCP) {as : List Act}
    (h : (chat p).run as connected = some s) (meets : (chat p).Meets Fine as connected)
    (client : s.client ≠ .overrun) (server : s.server ≠ .overrun) :
    ∃ a s', Fine a s ∧ (chat p).step a s = some s' := by
  obtain ⟨-, speaking, going⟩ := speaking_of_meets (fun _ _ fine => fine) h meets
  exact exists_fine_step hp speaking going client server

/-- "hello", of which the server has heard "he" and answered. -/
def half : List Act :=
  [.input (some (bytes "hello")), .send (some 5), .hear (some (bytes "he")), .answer none,
    .reply (some 2)]

theorem goesOn_of_meets_half : ∃ s, (chat .processServTCP).run half connected = some s ∧
    s.toServer = bytes "llo" ∧ ∃ a s', Fine a s ∧ (chat .processServTCP).step a s = some s' := by
  have h : (chat .processServTCP).run half connected = some ⟨.recv, .recv, bytes "llo", bytes "he",
      [bytes "hello"], [bytes "he"], [bytes "he"], []⟩ := by decide +kernel
  exact ⟨_, h, rfl, goesOn_of_meets nofun h (by decide +kernel) nofun nofun⟩

/-! ## One message at a time -/

/-- What is under way, as a message. -/
def part (l : List UInt8) : List (List UInt8) := if l = [] then [] else [l]

/-- Whose turn it is to speak. -/
def Client.turn : Client → ℕ
  | .input | .send _ => 1
  | _ => 0

def Server.turn : Server → ℕ
  | .input _ | .send _ => 1
  | _ => 0

/-- There is one token: a turn or a message under way. -/
structure Alternating (s : Session) : Prop where
  asked : s.asked = s.said ++ part s.toServer
  answers : s.answers = s.shown ++ part s.toClient
  token : s.client.turn + (part s.toServer).length + s.server.turn + (part s.toClient).length ≤ 1

/-- What is printed are the messages of the other side, each as a whole, and in turn. -/
structure InStep (s : Session) : Prop where
  said : s.said <+: s.asked
  shown : s.shown <+: s.answers
  order : s.shown.length ≤ s.answers.length ∧ s.answers.length ≤ s.said.length ∧
    s.said.length ≤ s.asked.length ∧ s.asked.length ≤ s.shown.length + 1

@[simp] theorem part_nil : part [] = [] := rfl

theorem part_of_ne {l : List UInt8} (h : l ≠ []) : part l = [l] := if_neg h

theorem eq_nil_of_part {l : List UInt8} (h : (part l).length = 0) : l = [] := by
  by_contra some_
  rw [part_of_ne some_] at h
  cases h

/-- A whole message, and nothing is left. -/
theorem eq_of_gets {transit bs rest : List UInt8} {r : Option (List UInt8)}
    (gets : Gets transit r bs rest) (whole : ∀ bs, r = some bs → bs = transit) :
    bs = transit ∧ rest = [] ∧ transit ≠ [] := by
  have all := whole bs gets.result
  have arrived := gets.arrived
  rw [all] at arrived
  refine ⟨all, List.append_right_eq_self.1 arrived, ?_⟩
  rw [← all]
  exact List.length_pos_iff.1 gets.pos

theorem Alternating.move (h : Alternating s) (speaking : Speaking p s) (fine : Fine a s)
    (whole : Whole a s) (hs : Move p s a s') : Alternating s' := by
  have token := h.token
  cases hs with
  | input word here =>
      have turn : s.client.turn = 1 := by rw [here]; rfl
      exact { h with token := by rwa [turn] at token }
  | @send buf r sent here sends =>
      have some_ := ne_nil_of_sends sends (speaking.send _ here)
      have turn : s.client.turn = 1 := by rw [here]; rfl
      have empty : s.toServer = [] := eq_nil_of_part (by omega)
      have asked := h.asked
      rw [empty, part_nil, List.append_nil] at asked
      refine { h with asked := ?_, token := ?_ }
      · rw [empty, asked, List.nil_append, part_of_ne some_]
      · rw [empty, List.nil_append, part_of_ne some_, List.length_singleton]
        rw [empty, turn] at token
        simp only [Client.turn, part_nil, List.length_nil] at token ⊢
        omega
  | @recv r bs rest here gets =>
      have all : ∀ bs, r = some bs → bs = s.toClient := fun bs e => by subst e; exact whole
      obtain ⟨rfl, rfl, some_⟩ := eq_of_gets gets all
      have turn : s.client.turn = 0 := by rw [here]; rfl
      have answers := h.answers
      rw [part_of_ne some_] at answers token
      refine { h with answers := ?_, token := ?_ }
      · rw [answers, part_nil, List.append_nil]
      · simp only [Client.turn, part_nil, List.length_nil, List.length_singleton] at token ⊢
        omega
  | recvOverruns here some_ =>
      have turn : s.client.turn = 0 := by rw [here]; rfl
      exact { h with token := by rwa [turn] at token }
  | @hear r bs rest here gets =>
      have all : ∀ bs, r = some bs → bs = s.toServer := fun bs e => by subst e; exact whole
      obtain ⟨rfl, rfl, some_⟩ := eq_of_gets gets all
      have turn : s.server.turn = 0 := by rw [here]; rfl
      have asked := h.asked
      rw [part_of_ne some_] at asked token
      refine { h with asked := ?_, token := ?_ }
      · rw [asked, part_nil, List.append_nil]
      · simp only [Server.turn, part_nil, List.length_nil, List.length_singleton] at token ⊢
        omega
  | hearOverruns here some_ =>
      have turn : s.server.turn = 0 := by rw [here]; rfl
      exact { h with token := by rwa [turn] at token }
  | answer word here =>
      have turn : s.server.turn = 1 := by rw [here]; rfl
      exact { h with token := by rwa [turn] at token }
  | @reply buf r sent here sends =>
      have some_ := ne_nil_of_sends sends (speaking.reply _ here)
      have turn : s.server.turn = 1 := by rw [here]; rfl
      have empty : s.toClient = [] := eq_nil_of_part (by omega)
      have answers := h.answers
      rw [empty, part_nil, List.append_nil] at answers
      have rests : (if p = .servTCP then Server.left else .recv).turn = 0 := by split <;> rfl
      refine { h with answers := ?_, token := ?_ }
      · rw [empty, answers, List.nil_append, part_of_ne some_]
      · rw [empty, List.nil_append, part_of_ne some_, List.length_singleton, rests]
        rw [empty, turn] at token
        simp only [part_nil, List.length_nil] at token
        omega
  | recvFails here fails => exact absurd (closed_of_fails fails fine).2 speaking.server
  | hearFails here fails => exact absurd (closed_of_fails fails fine) speaking.client
  | sendFails here | replyFails here => exact absurd rfl fine

/-- The calls succeed, everybody speaks, and no `Recv` gets a part of a message. -/
def Prompt (a : Act) (s : Session) : Prop := Fine a s ∧ Whole a s

instance (a : Act) (s : Session) : Decidable (Prompt a s) := inferInstanceAs (Decidable (_ ∧ _))

theorem alternating_of_meets {as : List Act} (h : (chat p).run as connected = some s)
    (meets : (chat p).Meets Prompt as connected) : Speaking p s ∧ Alternating s := by
  have all : Clean s ∧ Speaking p s ∧ Alternating s := by
    refine Machine.invariant_of_meets (I := fun s => Clean s ∧ Speaking p s ∧ Alternating s)
      (fun a s s' inv ok hs => ?_) ?_ h meets
    · obtain ⟨clean, speaking, alternating⟩ := inv
      have moves := move_of_step clean hs
      exact ⟨clean.move moves, speaking.move clean ok.1 moves,
        alternating.move speaking ok.1 ok.2 moves⟩
    · exact ⟨clean_connected, speaking_connected, rfl, rfl, le_rfl⟩
  exact all.2

theorem inStep_of_prompt {as : List Act} (h : (chat p).run as connected = some s)
    (meets : (chat p).Meets Prompt as connected) : InStep s := by
  obtain ⟨-, asked, answers, -⟩ := alternating_of_meets h meets
  have genuine := genuine_of_reachable (Machine.reachable_of_run as rfl h)
  have said : s.said <+: s.asked := ⟨_, asked.symm⟩
  have shown : s.shown <+: s.answers := ⟨_, answers.symm⟩
  exact ⟨said, shown, shown.length_le, genuine.server.1, said.length_le, genuine.client.2⟩

/-- "hi" is answered with "y". -/
def exchange : List Act :=
  [.input (some [104, 105]), .send (some 2), .hear (some [104, 105]), .answer (some [121]),
    .reply (some 1), .recv (some [121])]

theorem run_exchange : (chat .threadServTCP).run exchange connected =
    some ⟨.input, .recv, [], [], [[104, 105]], [[104, 105]], [[121]], [[121]]⟩ := by
  decide +kernel

theorem inStep_of_prompt_exchange : ∃ s, (chat .threadServTCP).run exchange connected = some s ∧
    s.shown = [[121]] ∧ InStep s :=
  ⟨_, run_exchange, rfl, inStep_of_prompt run_exchange (by decide +kernel)⟩

/-! ## Nobody speaks -/

/-- Nobody has the word and nothing is under way to somebody who listens. -/
structure Silent (s : Session) : Prop where
  client : s.client ≠ .input ∧ ∀ buf, s.client ≠ .send buf
  toClient : s.toClient = []
  server : (∀ buf, s.server ≠ .input buf) ∧ ∀ buf, s.server ≠ .send buf
  toServer : s.server = .recv → s.toServer = []

theorem not_gets_nil {bs rest : List UInt8} {r : Option (List UInt8)} : ¬ Gets [] r bs rest := by
  rintro ⟨-, arrived, pos⟩
  obtain ⟨rfl, -⟩ := List.append_eq_nil_iff.1 arrived
  exact Nat.lt_irrefl 0 pos

theorem Silent.move (h : Silent s) (hs : Move p s a s') :
    Silent s' ∧ s'.said = s.said ∧ s'.shown = s.shown := by
  cases hs with
  | input word here => exact absurd here h.client.1
  | send here sends => exact absurd here (h.client.2 _)
  | sendFails here => exact absurd here (h.client.2 _)
  | recv here gets => exact absurd (h.toClient ▸ gets) not_gets_nil
  | recvFails here fails => exact ⟨{ h with client := ⟨nofun, nofun⟩ }, rfl, rfl⟩
  | recvOverruns here some_ => exact absurd h.toClient some_
  | hear here gets => exact absurd (h.toServer here ▸ gets) not_gets_nil
  | hearFails here fails =>
      exact ⟨{ h with server := ⟨nofun, nofun⟩, toServer := nofun }, rfl, rfl⟩
  | hearOverruns here some_ => exact absurd (h.toServer here) some_
  | answer word here => exact absurd here (h.server.1 _)
  | reply here sends => exact absurd here (h.server.2 _)
  | replyFails here => exact absurd here (h.server.2 _)

theorem Silent.run (h : Silent s) (hr : (chat p).Reachable s) {as : List Act}
    (hs : (chat p).run as s = some s') : s'.said = s.said ∧ s'.shown = s.shown := by
  have reach : (chat p).CanReach s s' := ⟨as, hs⟩
  have stays := reach.invariant (I := fun x => Silent x ∧ x.said = s.said ∧ x.shown = s.shown)
    (fun a x x' hr silent step => ?_) hr ⟨h, rfl, rfl⟩
  · exact stays.2
  · obtain ⟨silent, said, shown⟩ := silent
    obtain ⟨silent, said', shown'⟩ := silent.move (move_of_step (clean_of_reachable hr) step)
    exact ⟨silent, said'.trans said, shown'.trans shown⟩

/-- In a chat in which all went well the input of the client ends: its `Send` sends nothing, and
nobody prints anything after that. -/
theorem silent_of_endOfInput {as : List Act} (h : (chat p).run as connected = some s)
    (meets : (chat p).Meets Prompt as connected) (here : s.client = .input) :
    ∃ s', (chat p).run [.input none, .send (some 0)] s = some s' ∧ s'.client = .recv ∧
      ∀ bs s'', (chat p).run bs s' = some s'' → s''.said = s.said ∧ s''.shown = s.shown := by
  obtain ⟨-, alternating⟩ := alternating_of_meets h meets
  have token := alternating.token
  have turn : s.client.turn = 1 := by rw [here]; rfl
  have toServer : s.toServer = [] := eq_nil_of_part (by omega)
  have toClient : s.toClient = [] := eq_nil_of_part (by omega)
  have server : s.server.turn = 0 := by omega
  have next : (chat p).run [.input none, .send (some 0)] s =
      some { s with client := .recv, asked := s.asked ++ [[]] } := by
    have nothing : Accepts [] (some 0) := ⟨le_rfl, id⟩
    simp [Machine.run, chat, step, here, nothing, TCPsocket.Send]
  refine ⟨_, next, rfl, fun bs s'' hs => ?_⟩
  have silent : Silent { s with client := .recv, asked := s.asked ++ [[]] } := by
    refine ⟨⟨?_, ?_⟩, toClient, ⟨?_, ?_⟩, fun _ => toServer⟩
    · simp
    · simp
    · intro buf e
      have e : s.server = .input buf := e
      rw [e] at server
      cases server
    · intro buf e
      have e : s.server = .send buf := e
      rw [e] at server
      cases server
  exact silent.run ((Machine.reachable_of_run as rfl h).run next) hs

theorem silent_of_endOfInput_exchange : ∃ s s',
    (chat .threadServTCP).run exchange connected = some s ∧
      (chat .threadServTCP).run [.input none, .send (some 0)] s = some s' ∧ s'.client = .recv := by
  obtain ⟨s', next, waits, -⟩ := silent_of_endOfInput run_exchange (by decide +kernel) rfl
  exact ⟨_, s', run_exchange, next, waits⟩

/-! ## One answer -/

/-- How far `servTCP.cpp` has got with a connection. -/
structure Once (s : Session) : Prop where
  said : s.said.length ≤ 1
  recv : s.server = .recv → s.said = []
  answers : s.server ≠ .left → s.answers = []
  answer : s.answers.length ≤ 1

theorem Once.move (h : Once s) (hs : Move .servTCP s a s') : Once s' := by
  cases hs with
  | input | send | sendFails | recv | recvFails | recvOverruns =>
      exact ⟨h.said, h.recv, h.answers, h.answer⟩
  | @hear r bs rest here gets =>
      have first : s.said = [] := h.recv here
      have none_ : s.answers = [] := h.answers (by rw [here]; exact nofun)
      refine ⟨?_, nofun, fun _ => none_, h.answer⟩
      simp [first]
  | hearFails here fails | hearOverruns here some_ =>
      have none_ : s.answers = [] := h.answers (by rw [here]; exact nofun)
      exact ⟨h.said, nofun, fun _ => none_, h.answer⟩
  | answer word here =>
      have none_ : s.answers = [] := h.answers (by rw [here]; exact nofun)
      exact ⟨h.said, nofun, fun _ => none_, h.answer⟩
  | @reply buf r sent here sends =>
      have none_ : s.answers = [] := h.answers (by rw [here]; exact nofun)
      refine ⟨h.said, nofun, fun more => absurd rfl more, ?_⟩
      simp [none_]
  | replyFails here =>
      have none_ : s.answers = [] := h.answers (by rw [here]; exact nofun)
      exact ⟨h.said, nofun, fun _ => none_, h.answer⟩

/-- `servTCP.cpp` hears one piece of a connection and answers once.  A client that has printed the
answer and speaks again waits for ever, whatever it has sent. -/
theorem once_of_reachable (h : (chat .servTCP).Reachable s) :
    s.said.length ≤ 1 ∧ s.answers.length ≤ 1 ∧
      (s.answers ≠ [] → s.client = .recv → s.toClient = [] →
        ∀ bs s', (chat .servTCP).run bs s = some s' → s'.said = s.said ∧ s'.shown = s.shown) := by
  have once : Once s := by
    refine invariant_of_moves ?_ (fun s a s' once hs => once.move hs) h
    exact ⟨Nat.zero_le _, fun _ => rfl, fun _ => rfl, Nat.zero_le _⟩
  refine ⟨once.said, once.answer, fun answered here heard bs s' hs => ?_⟩
  have left : s.server = .left := not_not.1 fun stays => answered (once.answers stays)
  have silent : Silent s := by
    refine ⟨⟨?_, ?_⟩, heard, ⟨?_, ?_⟩, ?_⟩ <;> simp [here, left]
  exact silent.run h hs

/-- The client of `servTCP.cpp` says a second word. -/
theorem once_of_reachable_again : ∃ s, (chat .servTCP).Reachable s ∧ s.toServer = [98] ∧
    ∀ bs s', (chat .servTCP).run bs s = some s' → s'.said = s.said ∧ s'.shown = s.shown := by
  have run : (chat .servTCP).run (exchange ++ [.input (some [98]), .send (some 1)]) connected =
      some ⟨.recv, .left, [98], [], [[104, 105], [98]], [[104, 105]], [[121]], [[121]]⟩ := by
    decide +kernel
  have h := Machine.reachable_of_run _ rfl run
  exact ⟨_, h, rfl, (once_of_reachable h).2.2 (List.cons_ne_nil _ _) rfl rfl⟩

end LinuxNote.TcpChat
