import LinuxNote.Conc.Progress
import LinuxNote.Socket.RoundTrip

/-!
# The chat of `cliUDP.cpp` with `servUDP.cpp` or `servUDP.c`

Any number of clients ask one server over a network that loses, reorders and duplicates datagrams.
A client sends the words that are typed to it and waits for a reply after each; the server prints
what comes, lets its operator type a word and sends that back.

Seen from one client the net is a talk with the server in which the other clients do not occur:
`talk_step` says that each step of the net is one of `Talk.Step` or `Talk.Copy` for each client, as
long as the words typed fit into the buffers, and `talk_of_meets` takes the invariants of a talk
over to all clients.
-/

namespace LinuxNote.UdpChat

open Conc Function Socket Text

/-- Before the call that it names; `overrun` has read or written behind an array. -/
inductive Client
  | input
  | send (buf : List UInt8)
  | recv
  | ended
  | overrun
  deriving DecidableEq

/-- The client that is answered is the `peer`. -/
inductive Server (ι : Type*)
  | recv
  | input (buf : List UInt8) (peer : ι)
  | send (buf : List UInt8) (peer : ι)
  | ended
  | overrun

/-- Which server it is. -/
inductive Program
  | cpp
  | c

/-- A client, the datagrams from and to it that are under way, the words that it has read, the texts
that the server printed with its address, the replies made to it and those that it printed. -/
structure Line where
  client : Client
  requests : List (List UInt8)
  replies : List (List UInt8)
  asked : List (List UInt8)
  said : List (List UInt8)
  answers : List (List UInt8)
  shown : List (List UInt8)
  deriving DecidableEq

structure Net (ι : Type*) where
  lines : ι → Line
  server : Server ι

/-- An `input` gets a word, or none at the end of the input; `none` and `false` are the return value
−1.  The network loses or duplicates a datagram, which is a reply or a request. -/
inductive Act (ι : Type*)
  | input (i : ι) (word : Option (List UInt8))
  | send (i : ι) (ok : Bool)
  | recv (i : ι) (d : Option (List UInt8))
  | hear (d : Option (ι × List UInt8))
  | answer (word : Option (List UInt8))
  | reply (ok : Bool)
  | lose (i : ι) (isReply : Bool) (d : List UInt8)
  | copy (i : ι) (isReply : Bool) (d : List UInt8)

/-! ## The client -/

namespace Line

/-- `std::string buf; std::cin >> buf`. -/
def input (word : Option (List UInt8)) (t : Line) : Option Line :=
  match t.client with
  | .input =>
      let buf := word.getD []
      some { t with client := .send buf, asked := t.asked ++ [buf] }
  | _ => none

def send (ok : Bool) (t : Line) : Option Line :=
  match t.client with
  | .send buf =>
      match UDPsocket.Send () buf ok with
      | (true, some d) => some { t with client := .recv, requests := d.payload :: t.requests }
      | _ => some { t with client := .ended }
  | _ => none

/-- And `std::cout << "回复: " << buf.c_str() << std::endl`. -/
def recv (d : Option (List UInt8)) (t : Line) : Option Line :=
  match t.client, d with
  | .recv, none => some { t with client := .ended }
  | .recv, some p =>
      if t.replies.contains p then
        let t := { t with replies := t.replies.erase p }
        match UDPsocket.Recv (some ⟨(), p⟩) [] () with
        | some (_, buf, _) => some { t with client := .input, shown := t.shown ++ [text buf] }
        | none => some { t with client := .overrun }
      else none
  | _, _ => none

def lose (isReply : Bool) (d : List UInt8) (t : Line) : Option Line :=
  if isReply then
    if t.replies.contains d then some { t with replies := t.replies.erase d } else none
  else if t.requests.contains d then some { t with requests := t.requests.erase d } else none

def copy (isReply : Bool) (d : List UInt8) (t : Line) : Option Line :=
  if isReply then
    if t.replies.contains d then some { t with replies := d :: t.replies } else none
  else if t.requests.contains d then some { t with requests := d :: t.requests } else none

end Line

/-! ## The server -/

/-- What is sent back: at the end of its input, `std::cin >> buf` leaves the message in `buf`, and
`scanf` leaves the buffer cleared; `scanf` does not look at the size of the buffer. -/
def Program.reply (p : Program) (buf : List UInt8) (word : Option (List UInt8)) :
    Option (List UInt8) :=
  match p, word with
  | .cpp, none => some buf
  | .cpp, some w => some w
  | .c, none => some []
  | .c, some w => if w.length < BUFSIZ then some (text w) else none

variable {ι : Type*} [DecidableEq ι]

namespace Net

def set (s : Net ι) (i : ι) (t : Line) : Net ι := { s with lines := update s.lines i t }

/-- And `printf("[%s:%d]client say: %s\n", …)`. -/
def hear (d : Option (ι × List UInt8)) (s : Net ι) : Option (Net ι) :=
  match s.server, d with
  | .recv, none => some { s with server := .ended }
  | .recv, some (i, p) =>
      let t := s.lines i
      if t.requests.contains p then
        let t := { t with requests := t.requests.erase p }
        match UDPsocket.Recv (some ⟨i, p⟩) [] i with
        | some (_, buf, peer) =>
            some { s.set peer { t with said := t.said ++ [text buf] } with
              server := .input buf peer }
        | none => some { s.set i t with server := .overrun }
      else none
  | _, _ => none

def answer (p : Program) (word : Option (List UInt8)) (s : Net ι) : Option (Net ι) :=
  match s.server with
  | .input buf peer =>
      let t := s.lines peer
      match p.reply buf word with
      | some r =>
          some { s.set peer { t with answers := t.answers ++ [r] } with server := .send r peer }
      | none => some { s with server := .overrun }
  | _ => none

def reply (ok : Bool) (s : Net ι) : Option (Net ι) :=
  match s.server with
  | .send buf peer =>
      let t := s.lines peer
      match UDPsocket.Send () buf ok with
      | (true, some d) =>
          some { s.set peer { t with replies := d.payload :: t.replies } with server := .recv }
      | _ => some { s with server := .ended }
  | _ => none

end Net

def step (p : Program) (a : Act ι) (s : Net ι) : Option (Net ι) :=
  match a with
  | .input i word => ((s.lines i).input word).map (s.set i)
  | .send i ok => ((s.lines i).send ok).map (s.set i)
  | .recv i d => ((s.lines i).recv d).map (s.set i)
  | .hear d => s.hear d
  | .answer word => s.answer p word
  | .reply ok => s.reply ok
  | .lose i isReply d => ((s.lines i).lose isReply d).map (s.set i)
  | .copy i isReply d => ((s.lines i).copy isReply d).map (s.set i)

def opened (ι : Type*) : Net ι := ⟨fun _ => ⟨.input, [], [], [], [], [], []⟩, .recv⟩

def chat (ι : Type*) [DecidableEq ι] (p : Program) : Machine (Net ι) (Act ι) where
  init s := s = opened ι
  step := step p

/-- A word that a buffer of `BUFSIZ` bytes holds as a string. -/
structure Fits (w : List UInt8) : Prop where
  noNul : 0 ∉ w
  room : w.length < BUFSIZ

/-- What is typed fits. -/
def Typed : Act ι → Net ι → Prop
  | .input _ word, _ | .answer word, _ => ∀ w ∈ word, Fits w
  | _, _ => True

/-- The network duplicates nothing. -/
def Single : Act ι → Net ι → Prop
  | .copy _ _ _, _ => False
  | _, _ => True

instance (w : List UInt8) : Decidable (Fits w) :=
  decidable_of_iff (0 ∉ w ∧ w.length < BUFSIZ) ⟨fun h => ⟨h.1, h.2⟩, fun h => ⟨h.noNul, h.room⟩⟩

instance (a : Act ι) (s : Net ι) : Decidable (Typed a s) := by
  cases a <;> unfold Typed <;> infer_instance

instance (a : Act ι) (s : Net ι) : Decidable (Single a s) := by
  cases a <;> unfold Single <;> infer_instance

/-! ## One client and the server -/

/-- The server, as far as it has to do with one client. -/
inductive Clerk
  | away
  | input (buf : List UInt8)
  | send (buf : List UInt8)
  | ended
  | overrun
  deriving DecidableEq

def Server.clerk (i : ι) : Server ι → Clerk
  | .recv => .away
  | .input buf peer => if peer = i then .input buf else .away
  | .send buf peer => if peer = i then .send buf else .away
  | .ended => .ended
  | .overrun => .overrun

/-- The net as the client `i` sees it. -/
def Net.talk (s : Net ι) (i : ι) : Line × Clerk := (s.lines i, s.server.clerk i)

/-- The steps of one client and the server with words that fit. -/
inductive Talk.Step : Line × Clerk → Line × Clerk → Prop
  | ask {t k} (w : List UInt8) : t.client = .input → Fits w →
      Step (t, k) ({ t with client := .send w, asked := t.asked ++ [w] }, k)
  | send {t k} (w : List UInt8) : t.client = .send w →
      Step (t, k) ({ t with client := .recv, requests := w :: t.requests }, k)
  | leave {t k} : Step (t, k) ({ t with client := .ended }, k)
  | print {t k} (w : List UInt8) : t.client = .recv → w ∈ t.replies →
      Step (t, k)
        ({ t with client := .input, replies := t.replies.erase w, shown := t.shown ++ [w] }, k)
  | hear {t} (w : List UInt8) : w ∈ t.requests →
      Step (t, .away) ({ t with requests := t.requests.erase w, said := t.said ++ [w] }, .input w)
  | answer {t buf} (w : List UInt8) : Fits w →
      Step (t, .input buf) ({ t with answers := t.answers ++ [w] }, .send w)
  | reply {t} (w : List UInt8) : Step (t, .send w) ({ t with replies := w :: t.replies }, .away)
  | shut {t k} : Step (t, k) (t, .ended)
  | loseRequest {t k} (w : List UInt8) : Step (t, k) ({ t with requests := t.requests.erase w }, k)
  | loseReply {t k} (w : List UInt8) : Step (t, k) ({ t with replies := t.replies.erase w }, k)

inductive Talk.Copy : Line × Clerk → Line × Clerk → Prop
  | request {t k} (w : List UInt8) : w ∈ t.requests →
      Copy (t, k) ({ t with requests := w :: t.requests }, k)
  | reply {t k} (w : List UInt8) : w ∈ t.replies →
      Copy (t, k) ({ t with replies := w :: t.replies }, k)

/-- Nobody has overrun an array or is about to. -/
structure Fitting (x : Line × Clerk) : Prop where
  client : x.1.client ≠ .overrun
  clerk : x.2 ≠ .overrun
  send : ∀ w, x.1.client = .send w → Fits w
  requests : ∀ w ∈ x.1.requests, Fits w
  replies : ∀ w ∈ x.1.replies, Fits w
  input : ∀ w, x.2 = .input w → Fits w
  reply : ∀ w, x.2 = .send w → Fits w

variable {p : Program} {s s' : Net ι} {a : Act ι} {i : ι} {t t' : Line} {k : Clerk}
variable {x y : Line × Clerk} {w d : List UInt8} {word : Option (List UInt8)} {ok : Bool}

theorem fits_nil : Fits [] := ⟨List.not_mem_nil, by decide⟩

theorem recv_of_fits {α : Type*} {from_ peer : α} {buf : List UInt8} (h : Fits w) :
    UDPsocket.Recv (some ⟨from_, w⟩) buf peer = some (true, w, from_) := by
  have small : w.length ≤ BUFSIZ := h.room.le
  rw [UDPsocket.Recv]
  dsimp only
  rw [List.take_of_length_le small, str_received small, if_pos (Or.inl h.room), text_eq h.noNul]
  rfl

theorem send_true {α : Type*} (from_ : α) :
    UDPsocket.Send from_ w true = (true, some ⟨from_, w⟩) := by
  rw [UDPsocket.Send, if_pos rfl, c_str_take]

theorem Program.reply_of_fits (p : Program) (buf : Fits w) (typed : ∀ w ∈ word, Fits w) :
    ∃ r, p.reply w word = some r ∧ Fits r := by
  cases p with
  | cpp =>
      cases word with
      | none => exact ⟨w, rfl, buf⟩
      | some v => exact ⟨v, rfl, typed v rfl⟩
  | c =>
      cases word with
      | none => exact ⟨[], rfl, fits_nil⟩
      | some v =>
          have fits := typed v rfl
          exact ⟨v, by rw [reply, if_pos fits.room, text_eq fits.noNul], fits⟩

theorem Fitting.step (h : Fitting x) (hs : Talk.Step x y) : Fitting y := by
  cases hs with
  | ask w _ fits => exact { h with client := nofun, send := fun _ e => by cases e; exact fits }
  | send w sending =>
      exact { h with
        client := nofun
        send := nofun
        requests := List.forall_mem_cons.2 ⟨h.send w sending, h.requests⟩ }
  | leave => exact { h with client := nofun, send := nofun }
  | print w _ _ =>
      exact { h with
        client := nofun
        send := nofun
        replies := fun v hv => h.replies v (List.mem_of_mem_erase hv) }
  | hear w hw =>
      exact { h with
        clerk := nofun
        requests := fun v hv => h.requests v (List.mem_of_mem_erase hv)
        input := fun _ e => by cases e; exact h.requests w hw
        reply := nofun }
  | answer w fits =>
      exact { h with
        clerk := nofun
        input := nofun
        reply := fun _ e => by cases e; exact fits }
  | reply w =>
      exact { h with
        clerk := nofun
        replies := List.forall_mem_cons.2 ⟨h.reply w rfl, h.replies⟩
        input := nofun
        reply := nofun }
  | shut => exact { h with clerk := nofun, input := nofun, reply := nofun }
  | loseRequest w =>
      exact { h with requests := fun v hv => h.requests v (List.mem_of_mem_erase hv) }
  | loseReply w => exact { h with replies := fun v hv => h.replies v (List.mem_of_mem_erase hv) }

theorem Fitting.copy (h : Fitting x) (hs : Talk.Copy x y) : Fitting y := by
  cases hs with
  | request w hw =>
      exact { h with requests := List.forall_mem_cons.2 ⟨h.requests w hw, h.requests⟩ }
  | reply w hw => exact { h with replies := List.forall_mem_cons.2 ⟨h.replies w hw, h.replies⟩ }

/-! ## The net is made of such talks -/

theorem Line.step_input (h : t.input word = some t') (typed : ∀ w ∈ word, Fits w) :
    Talk.Step (t, k) (t', k) := by
  unfold Line.input at h
  split at h
  · next here =>
      obtain rfl := Option.some.inj h
      refine .ask _ here ?_
      cases word with
      | none => exact fits_nil
      | some w => exact typed w rfl
  · cases h

theorem Line.step_send (h : t.send ok = some t') : Talk.Step (t, k) (t', k) := by
  unfold Line.send at h
  split at h
  · next buf here =>
      cases ok with
      | true =>
          rw [send_true] at h
          obtain rfl := Option.some.inj h
          exact .send buf here
      | false =>
          obtain rfl := Option.some.inj h
          exact .leave
  · cases h

theorem Line.step_recv {d : Option (List UInt8)} (h : t.recv d = some t')
    (fitting : ∀ w ∈ t.replies, Fits w) : Talk.Step (t, k) (t', k) := by
  unfold Line.recv at h
  split at h
  · obtain rfl := Option.some.inj h
    exact .leave
  · next w here =>
      split at h
      · next arrived =>
          have hw : w ∈ t.replies := List.contains_iff_mem.1 arrived
          have fits := fitting w hw
          rw [recv_of_fits fits] at h
          obtain rfl := Option.some.inj h
          have whole : text w = w := text_eq fits.noNul
          rw [whole]
          exact .print w here hw
      · cases h
  · cases h

theorem Line.step_lose {isReply : Bool} (h : t.lose isReply d = some t') :
    Talk.Step (t, k) (t', k) := by
  unfold Line.lose at h
  split at h
  · split at h
    · obtain rfl := Option.some.inj h
      exact .loseReply d
    · cases h
  · split at h
    · obtain rfl := Option.some.inj h
      exact .loseRequest d
    · cases h

theorem Line.copy_copy {isReply : Bool} (h : t.copy isReply d = some t') :
    Talk.Copy (t, k) (t', k) := by
  unfold Line.copy at h
  split at h
  · split at h
    · next hd =>
        obtain rfl := Option.some.inj h
        exact .reply d (List.contains_iff_mem.1 hd)
    · cases h
  · split at h
    · next hd =>
        obtain rfl := Option.some.inj h
        exact .request d (List.contains_iff_mem.1 hd)
    · cases h

@[simp] theorem talk_set_self (server : Server ι) :
    Net.talk { s.set i t with server } i = (t, server.clerk i) := by
  have line : update s.lines i t i = t := update_self i t s.lines
  exact Prod.ext line rfl

theorem talk_set_of_ne {j : ι} (ne : i ≠ j) (server : Server ι) :
    Net.talk { s.set j t with server } i = (s.lines i, server.clerk i) := by
  have line : update s.lines j t i = s.lines i := update_of_ne ne t s.lines
  exact Prod.ext line rfl

theorem clerk_input_of_ne {j : ι} (ne : i ≠ j) : (Server.input w j).clerk i = .away :=
  if_neg ne.symm

theorem clerk_send_of_ne {j : ι} (ne : i ≠ j) : (Server.send w j).clerk i = .away :=
  if_neg ne.symm

theorem Net.step_hear {d : Option (ι × List UInt8)} (h : s.hear d = some s')
    (fitting : ∀ i, Fitting (s.talk i)) (i : ι) :
    s'.talk i = s.talk i ∨ Talk.Step (s.talk i) (s'.talk i) := by
  unfold Net.hear at h
  split at h
  · obtain rfl := Option.some.inj h
    exact Or.inr .shut
  · next j w here =>
      dsimp only at h
      split at h
      · next arrived =>
          have hw : w ∈ (s.lines j).requests := List.contains_iff_mem.1 arrived
          have fits := (fitting j).requests w hw
          rw [recv_of_fits fits] at h
          obtain rfl := Option.some.inj h
          have whole : text w = w := text_eq fits.noNul
          rw [whole]
          by_cases e : i = j
          · subst e
            right
            have free : s.talk i = (s.lines i, .away) := by rw [Net.talk, here]; rfl
            rw [free, talk_set_self, Server.clerk, if_pos rfl]
            exact .hear w hw
          · left
            rw [talk_set_of_ne e, Net.talk, here, clerk_input_of_ne e]
            rfl
      · cases h
  · cases h

theorem Net.step_answer (h : s.answer p word = some s') (typed : ∀ w ∈ word, Fits w)
    (fitting : ∀ i, Fitting (s.talk i)) (i : ι) :
    s'.talk i = s.talk i ∨ Talk.Step (s.talk i) (s'.talk i) := by
  unfold Net.answer at h
  split at h
  · next buf j here =>
      have held : (s.talk j).2 = .input buf := by rw [Net.talk, here]; exact if_pos rfl
      obtain ⟨r, reply, fits⟩ := p.reply_of_fits ((fitting j).input buf held) typed
      dsimp only at h
      rw [reply] at h
      obtain rfl := Option.some.inj h
      by_cases e : i = j
      · subst e
        right
        have busy : s.talk i = (s.lines i, .input buf) := Prod.ext rfl held
        rw [busy, talk_set_self, Server.clerk, if_pos rfl]
        exact .answer r fits
      · left
        rw [talk_set_of_ne e, Net.talk, here, clerk_input_of_ne e, clerk_send_of_ne e]
  · cases h

theorem Net.step_reply (h : s.reply ok = some s') (i : ι) :
    s'.talk i = s.talk i ∨ Talk.Step (s.talk i) (s'.talk i) := by
  unfold Net.reply at h
  split at h
  · next buf j here =>
      cases ok with
      | false =>
          obtain rfl := Option.some.inj h
          exact Or.inr .shut
      | true =>
          dsimp only at h
          rw [send_true] at h
          obtain rfl := Option.some.inj h
          by_cases e : i = j
          · subst e
            right
            have busy : s.talk i = (s.lines i, .send buf) := by
              rw [Net.talk, here, Server.clerk, if_pos rfl]
            rw [busy, talk_set_self]
            exact .reply buf
          · left
            rw [talk_set_of_ne e, Net.talk, here, clerk_send_of_ne e]
            rfl
  · cases h

/-- What a client does with its own line. -/
theorem step_set {j : ι} {f : Line → Option Line} (h : (f (s.lines j)).map (s.set j) = some s')
    {R : Line × Clerk → Line × Clerk → Prop}
    (hf : ∀ t' k, f (s.lines j) = some t' → R (s.lines j, k) (t', k)) (i : ι) :
    s'.talk i = s.talk i ∨ R (s.talk i) (s'.talk i) := by
  obtain ⟨t', line, rfl⟩ := Option.map_eq_some_iff.1 h
  by_cases e : i = j
  · subst e
    right
    have next : (s.set i t').talk i = (t', s.server.clerk i) := talk_set_self s.server
    rw [next]
    exact hf t' _ line
  · left
    exact talk_set_of_ne e s.server

theorem talk_step (hs : step p a s = some s') (typed : Typed a s)
    (fitting : ∀ i, Fitting (s.talk i)) (i : ι) :
    s'.talk i = s.talk i ∨ Talk.Step (s.talk i) (s'.talk i) ∨
      ¬ Single a s ∧ Talk.Copy (s.talk i) (s'.talk i) := by
  cases a with
  | input j word =>
      exact (step_set hs (fun t' k h => Line.step_input h typed) i).imp_right Or.inl
  | send j ok => exact (step_set hs (fun t' k h => Line.step_send h) i).imp_right Or.inl
  | recv j d =>
      exact (step_set hs (fun t' k h => Line.step_recv h (fitting j).replies) i).imp_right Or.inl
  | hear d => exact (Net.step_hear hs fitting i).imp_right Or.inl
  | answer word => exact (Net.step_answer hs typed fitting i).imp_right Or.inl
  | reply ok => exact (Net.step_reply hs i).imp_right Or.inl
  | lose j isReply d => exact (step_set hs (fun t' k h => Line.step_lose h) i).imp_right Or.inl
  | copy j isReply d =>
      refine (step_set hs (fun t' k h => Line.copy_copy h) i).imp_right fun h => Or.inr ⟨?_, h⟩
      exact id

/-- Nothing is on the way. -/
def idle : Line := ⟨.input, [], [], [], [], [], []⟩

theorem fitting_idle : Fitting (idle, .away) where
  client := nofun
  clerk := nofun
  send _ h := by cases h
  requests _ h := by cases h
  replies _ h := by cases h
  input _ h := by cases h
  reply _ h := by cases h

theorem fitting_step (hs : step p a s = some s') (typed : Typed a s)
    (fitting : ∀ i, Fitting (s.talk i)) (i : ι) : Fitting (s'.talk i) := by
  rcases talk_step hs typed fitting i with same | next | ⟨-, again⟩
  · rw [same]
    exact fitting i
  · exact (fitting i).step next
  · exact (fitting i).copy again

/-- An invariant of a talk holds for all clients, in runs that duplicate nothing or else where a
copy keeps it. -/
theorem talk_of_meets {cond : Act ι → Net ι → Prop} {I : Line × Clerk → Prop}
    (typed : ∀ a s, cond a s → Typed a s) (init : I (idle, .away))
    (keep : ∀ x y, I x → Talk.Step x y → I y)
    (copy : (∀ a s, cond a s → Single a s) ∨ ∀ x y, I x → Talk.Copy x y → I y)
    {as : List (Act ι)} (h : (chat ι p).run as (opened ι) = some s)
    (meets : (chat ι p).Meets cond as (opened ι)) (i : ι) : Fitting (s.talk i) ∧ I (s.talk i) := by
  have start : ∀ i, Fitting ((opened ι).talk i) ∧ I ((opened ι).talk i) :=
    fun i => ⟨fitting_idle, init⟩
  have all : ∀ i, Fitting (s.talk i) ∧ I (s.talk i) := by
    refine Machine.invariant_of_meets (I := fun s => ∀ i, Fitting (s.talk i) ∧ I (s.talk i))
      (fun a s s' ih ok hs i => ?_) start h meets
    have fitting : ∀ i, Fitting (s.talk i) := fun i => (ih i).1
    refine ⟨fitting_step hs (typed a s ok) fitting i, ?_⟩
    rcases talk_step hs (typed a s ok) fitting i with same | next | ⟨double, again⟩
    · rw [same]
      exact (ih i).2
    · exact keep _ _ (ih i).2 next
    · rcases copy with single | copy
      · exact absurd (single a s ok) double
      · exact copy _ _ (ih i).2 again
  exact all i

theorem fitting_of_meets {as : List (Act ι)} (h : (chat ι p).run as (opened ι) = some s)
    (meets : (chat ι p).Meets Typed as (opened ι)) (i : ι) : Fitting (s.talk i) :=
  (talk_of_meets (I := fun _ => True) (fun _ _ typed => typed) trivial (fun _ _ _ _ => trivial)
    (Or.inr fun _ _ _ _ => trivial) h meets i).1

end LinuxNote.UdpChat
