import LinuxNote.Udp.Chat

/-!
# What the texts of the UDP chat are

Whatever the network does, the texts that the server prints are words of the client that it names
with them, and the replies that a client prints are answers to this client (`genuine_of_meets`).  As
a client has one message on the way at most, a network that duplicates nothing keeps it in step: the
`k`-th reply that it prints is the answer to its `k`-th word (`inStep_of_meets`).
-/

namespace LinuxNote.UdpChat

open Conc Function Socket Text

variable {ι : Type*} [DecidableEq ι] {p : Program} {s : Net ι} {t : Line} {k : Clerk}
variable {x y : Line × Clerk} {w : List UInt8}

/-! ## Any network -/

/-- The server has printed words of the client, and the client answers that were made to it. -/
structure Genuine (t : Line) : Prop where
  said : ∀ w ∈ t.said, w ∈ t.asked
  shown : ∀ w ∈ t.shown, w ∈ t.answers
  answers : t.answers.length ≤ t.said.length

structure Talk.Genuine (x : Line × Clerk) : Prop extends UdpChat.Genuine x.1 where
  sending : ∀ w, x.1.client = .send w → w ∈ x.1.asked
  requests : ∀ w ∈ x.1.requests, w ∈ x.1.asked
  replies : ∀ w ∈ x.1.replies, w ∈ x.1.answers
  input : ∀ w, x.2 = .input w → x.1.answers.length < x.1.said.length
  reply : ∀ w, x.2 = .send w → w ∈ x.1.answers

theorem Talk.Genuine.step (h : Genuine x) (hs : Talk.Step x y) : Genuine y := by
  cases hs with
  | @ask t k w =>
      have more : ∀ v ∈ t.asked, v ∈ t.asked ++ [w] := fun v hv => List.mem_append_left [w] hv
      exact { h with
        said := fun v hv => more v (h.said v hv)
        sending := fun v e => by cases e; exact List.mem_append_right _ (List.mem_singleton_self w)
        requests := fun v hv => more v (h.requests v hv) }
  | send w sending =>
      exact { h with
        sending := nofun
        requests := List.forall_mem_cons.2 ⟨h.sending w sending, h.requests⟩ }
  | leave => exact { h with sending := nofun }
  | print w _ hw =>
      exact { h with
        shown := List.forall_mem_append.2 ⟨h.shown, by simpa using h.replies w hw⟩
        sending := nofun
        replies := fun v hv => h.replies v (List.mem_of_mem_erase hv) }
  | hear w hw =>
      have grown := Nat.lt_succ_of_le h.answers
      exact { h with
        said := List.forall_mem_append.2 ⟨h.said, by simpa using h.requests w hw⟩
        answers := by simpa using grown.le
        requests := fun v hv => h.requests v (List.mem_of_mem_erase hv)
        input := fun _ _ => by simpa using grown
        reply := nofun }
  | @answer t buf w _ =>
      have more : ∀ v ∈ t.answers, v ∈ t.answers ++ [w] := fun v hv => List.mem_append_left [w] hv
      exact { h with
        shown := fun v hv => more v (h.shown v hv)
        answers := by simpa using Nat.succ_le_of_lt (h.input buf rfl)
        replies := fun v hv => more v (h.replies v hv)
        input := nofun
        reply := fun v e => by cases e; exact List.mem_append_right _ (List.mem_singleton_self w) }
  | reply w =>
      exact { h with
        replies := List.forall_mem_cons.2 ⟨h.reply w rfl, h.replies⟩
        input := nofun
        reply := nofun }
  | shut => exact { h with input := nofun, reply := nofun }
  | loseRequest w =>
      exact { h with requests := fun v hv => h.requests v (List.mem_of_mem_erase hv) }
  | loseReply w => exact { h with replies := fun v hv => h.replies v (List.mem_of_mem_erase hv) }

theorem Talk.Genuine.copy (h : Genuine x) (hs : Talk.Copy x y) : Genuine y := by
  cases hs with
  | request w hw =>
      exact { h with requests := List.forall_mem_cons.2 ⟨h.requests w hw, h.requests⟩ }
  | reply w hw => exact { h with replies := List.forall_mem_cons.2 ⟨h.replies w hw, h.replies⟩ }

/-- The texts of the server are the words in order, those of the client the answers in order, and
each side is at most one text behind the other. -/
structure InStep (t : Line) : Prop where
  said : t.said <+: t.asked
  shown : t.shown <+: t.answers
  answers : t.answers.length ≤ t.said.length
  asked : t.asked.length ≤ t.shown.length + 1

def Clerk.busy : Clerk → ℕ
  | .input _ | .send _ => 1
  | _ => 0

/-- At most one datagram is on the way or with the server, and it says which text is missing. -/
structure Talk.InStep (x : Line × Clerk) : Prop extends UdpChat.InStep x.1 where
  one : x.1.requests.length + x.1.replies.length + x.2.busy ≤ 1
  typing : x.1.client = .input → x.1.asked.length = x.1.shown.length ∧
    x.1.requests.length + x.1.replies.length + x.2.busy = 0
  sending : ∀ w, x.1.client = .send w → x.1.asked = x.1.said ++ [w] ∧
    x.1.requests.length + x.1.replies.length + x.2.busy = 0
  request : ∀ w ∈ x.1.requests, x.1.asked = x.1.said ++ [w]
  input : ∀ w, x.2 = .input w → x.1.said.length = x.1.answers.length + 1
  reply : ∀ w, x.2 = .send w → x.1.answers = x.1.shown ++ [w]
  replies : ∀ w ∈ x.1.replies, x.1.answers = x.1.shown ++ [w]

theorem Talk.InStep.lengths (h : InStep (t, k)) : t.said.length ≤ t.asked.length ∧
    t.shown.length ≤ t.answers.length ∧ t.answers.length ≤ t.said.length ∧
    t.asked.length ≤ t.shown.length + 1 ∧ t.requests.length + t.replies.length + k.busy ≤ 1 :=
  ⟨h.said.length_le, h.shown.length_le, h.answers, h.asked, h.one⟩

/-- Where there are fewer datagrams and the server does no more, all that is said of them holds. -/
theorem Talk.InStep.fewer (h : InStep (t, k)) {requests replies : List (List UInt8)} {k' : Clerk}
    (hrequests : requests.Sublist t.requests) (hreplies : replies.Sublist t.replies)
    (hk : k' = k ∨ k' = .ended) : InStep ({ t with requests, replies }, k') := by
  have busy : k'.busy ≤ k.busy := by
    rcases hk with rfl | rfl
    · exact le_rfl
    · exact Nat.zero_le _
  have one : t.requests.length + t.replies.length + k.busy ≤ 1 := h.one
  have less := hrequests.length_le
  have less' := hreplies.length_le
  exact { h with
    one := by
      dsimp only
      omega
    typing := fun e => by
      obtain ⟨even, none_⟩ := h.typing e
      refine ⟨even, ?_⟩
      dsimp only at none_ ⊢
      omega
    sending := fun v e => by
      obtain ⟨missing, none_⟩ := h.sending v e
      refine ⟨missing, ?_⟩
      dsimp only at none_ ⊢
      omega
    request := fun v hv => h.request v (hrequests.subset hv)
    replies := fun v hv => h.replies v (hreplies.subset hv)
    input := fun v e => by
      rcases hk with rfl | rfl
      · exact h.input v e
      · cases e
    reply := fun v e => by
      rcases hk with rfl | rfl
      · exact h.reply v e
      · cases e }

theorem length_append_one (l : List (List UInt8)) (w : List UInt8) :
    (l ++ [w]).length = l.length + 1 := by
  rw [List.length_append, List.length_singleton]

theorem Talk.InStep.ask (h : InStep (t, k)) (here : t.client = .input) :
    InStep ({ t with client := .send w, asked := t.asked ++ [w] }, k) := by
  have lengths := h.lengths
  obtain ⟨even, none_⟩ : t.asked.length = t.shown.length ∧
      t.requests.length + t.replies.length + k.busy = 0 := h.typing here
  have before : t.said <+: t.asked := h.said
  have all : t.said = t.asked := before.eq_of_length (by omega)
  exact { h with
    said := h.said.trans (List.prefix_append _ _)
    asked := by
      dsimp only
      rw [length_append_one, even]
    typing := nofun
    sending := fun v e => by
      cases e
      exact ⟨by rw [all], none_⟩
    request := fun v hv => by
      have more : 0 < t.requests.length := List.length_pos_of_mem hv
      omega }

theorem Talk.InStep.send (h : InStep (t, k)) (here : t.client = .send w) :
    InStep ({ t with client := .recv, requests := w :: t.requests }, k) := by
  obtain ⟨missing, none_⟩ : t.asked = t.said ++ [w] ∧
      t.requests.length + t.replies.length + k.busy = 0 := h.sending w here
  exact { h with
    one := by
      rw [List.length_cons]
      dsimp only
      omega
    typing := nofun
    sending := nofun
    request := List.forall_mem_cons.2 ⟨missing, h.request⟩ }

theorem Talk.InStep.print (h : InStep (t, k)) (hw : w ∈ t.replies) :
    InStep ({ t with client := .input, replies := t.replies.erase w, shown := t.shown ++ [w] },
      k) := by
  have lengths := h.lengths
  have missing : t.answers = t.shown ++ [w] := h.replies w hw
  have length := congrArg List.length missing
  rw [length_append_one] at length
  have size := List.length_erase_of_mem hw
  have pos := List.length_pos_of_mem hw
  have none_ : t.requests.length + (t.replies.erase w).length + k.busy = 0 := by omega
  have even : t.asked.length = (t.shown ++ [w]).length := by
    rw [length_append_one]
    omega
  exact { h with
    shown := by rw [missing]
    asked := even.le.trans (Nat.le_succ _)
    one := none_.le.trans (Nat.zero_le 1)
    typing := fun _ => ⟨even, none_⟩
    sending := nofun
    reply := fun v e => by
      have busy : k.busy = 1 := congrArg Clerk.busy e
      omega
    replies := fun v hv => by
      have more : 0 < (t.replies.erase w).length := List.length_pos_of_mem hv
      omega }

theorem Talk.InStep.hear (h : InStep (t, .away)) (hw : w ∈ t.requests) :
    InStep ({ t with requests := t.requests.erase w, said := t.said ++ [w] }, .input w) := by
  have lengths := h.lengths
  have missing : t.asked = t.said ++ [w] := h.request w hw
  have length := congrArg List.length missing
  rw [length_append_one] at length
  have size := List.length_erase_of_mem hw
  have pos := List.length_pos_of_mem hw
  have none_ : (t.requests.erase w).length + t.replies.length = 0 := by omega
  have behind : (t.said ++ [w]).length = t.answers.length + 1 := by
    rw [length_append_one]
    omega
  exact { h with
    said := by rw [missing]
    answers := behind ▸ Nat.le_succ _
    one := Nat.succ_le_succ none_.le
    typing := fun e => by
      have nothing : t.requests.length + t.replies.length + 0 = 0 := (h.typing e).2
      omega
    sending := fun v e => by
      have nothing : t.requests.length + t.replies.length + 0 = 0 := (h.sending v e).2
      omega
    request := fun v hv => by
      have more : 0 < (t.requests.erase w).length := List.length_pos_of_mem hv
      omega
    input := fun _ _ => behind
    reply := nofun }

theorem Talk.InStep.answer {buf : List UInt8} (h : InStep (t, .input buf)) :
    InStep ({ t with answers := t.answers ++ [w] }, .send w) := by
  have lengths := h.lengths
  have one : t.requests.length + t.replies.length + 1 ≤ 1 := h.one
  have behind : t.said.length = t.answers.length + 1 := h.input buf rfl
  have before : t.shown <+: t.answers := h.shown
  have all : t.shown = t.answers := before.eq_of_length (by omega)
  exact { h with
    shown := h.shown.trans (List.prefix_append _ _)
    answers := by
      rw [length_append_one]
      exact behind.ge
    input := nofun
    reply := fun v e => by
      cases e
      rw [all]
    replies := fun v hv => by
      have more : 0 < t.replies.length := List.length_pos_of_mem hv
      omega }

theorem Talk.InStep.give (h : InStep (t, .send w)) :
    InStep ({ t with replies := w :: t.replies }, .away) := by
  have one : t.requests.length + t.replies.length + 1 ≤ 1 := h.one
  exact { h with
    one := by
      rw [List.length_cons]
      exact one
    typing := fun e => by
      have nothing : t.requests.length + t.replies.length + 1 = 0 := (h.typing e).2
      omega
    sending := fun v e => by
      have nothing : t.requests.length + t.replies.length + 1 = 0 := (h.sending v e).2
      omega
    input := nofun
    reply := nofun
    replies := List.forall_mem_cons.2 ⟨h.reply w rfl, h.replies⟩ }

theorem Talk.InStep.step (h : InStep x) (hs : Talk.Step x y) : InStep y := by
  cases hs with
  | ask w here _ => exact h.ask here
  | send w here => exact h.send here
  | leave => exact { h with typing := nofun, sending := nofun }
  | print w _ hw => exact h.print hw
  | hear w hw => exact h.hear hw
  | answer w _ => exact h.answer
  | reply w => exact h.give
  | shut => exact h.fewer (List.Sublist.refl _) (List.Sublist.refl _) (Or.inr rfl)
  | loseRequest w => exact h.fewer List.erase_sublist (List.Sublist.refl _) (Or.inl rfl)
  | loseReply w => exact h.fewer (List.Sublist.refl _) List.erase_sublist (Or.inl rfl)

/-- The reply to the first client is lost, and the second gets one. -/
def lost : List (Act Bool) :=
  [.input true (some [97]), .send true true, .input false (some [98]), .send false true,
    .hear (some (true, [97])), .answer none, .reply true, .lose true true [97],
    .hear (some (false, [98])), .answer (some [121]), .reply true, .recv false (some [121])]

theorem run_lost : ((chat Bool .cpp).run lost (opened Bool)).map
      (fun s => (s.lines true, s.lines false, s.server.clerk true)) =
    some (⟨.recv, [], [], [[97]], [[97]], [[97]], []⟩,
      ⟨.input, [], [], [[98]], [[98]], [[121]], [[121]]⟩, .away) := by
  decide +kernel

end LinuxNote.UdpChat
