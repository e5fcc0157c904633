import LinuxNote.Udp.Lockstep

/-!
# Who waits for ever in the UDP chat

Nobody sends a message again.  So a client that waits can get a reply in some way as long as its
message is on the way to a server that runs, with the server or on the way back, and never when it
is lost (`canPrint_iff`).
-/

namespace LinuxNote.UdpChat

open Conc Function Socket Text

variable {ι : Type*} [DecidableEq ι] {p : Program} {s s' : Net ι} {a : Act ι} {i : ι}
variable {t t' : Line} {k : Clerk} {w : List UInt8}

/-- Some run with words that fit leads to where the client has printed one more reply. -/
def CanPrint (p : Program) (s : Net ι) (i : ι) : Prop :=
  ∃ as s', (chat ι p).run as s = some s' ∧ (chat ι p).Meets Typed as s ∧
    (s.lines i).shown.length < (s'.lines i).shown.length

/-- The server has a reply for the client or can get to one. -/
def Pending (t : Line) (k : Clerk) : Prop :=
  t.replies ≠ [] ∨ k.busy = 1 ∨ t.requests ≠ [] ∧ k = .away

/-- The client has given up, or waits for nothing. -/
def Forgotten (n : ℕ) (t : Line) (k : Clerk) : Prop :=
  t.shown.length = n ∧ (t.client = .ended ∨ t.client = .recv ∧ ¬ Pending t k)

theorem not_pending_iff : ¬ Pending t k ↔
    t.replies = [] ∧ k.busy ≠ 1 ∧ (t.requests ≠ [] → k ≠ .away) := by
  rw [Pending, not_or, not_or, not_and, not_not]

theorem Forgotten.step {n : ℕ} {k' : Clerk} (h : Forgotten n t k)
    (hs : Talk.Step (t, k) (t', k')) : Forgotten n t' k' := by
  obtain ⟨shown, ended | ⟨waits, nothing⟩⟩ := h
  · cases hs with
    | ask w here => cases here.symm.trans ended
    | send w here => cases here.symm.trans ended
    | print w here _ => cases here.symm.trans ended
    | leave => exact ⟨shown, Or.inl rfl⟩
    | hear | answer | reply | shut | loseRequest | loseReply => exact ⟨shown, Or.inl ended⟩
  · obtain ⟨noReply, free, unheard⟩ := not_pending_iff.1 nothing
    cases hs with
    | ask w here => cases here.symm.trans waits
    | send w here => cases here.symm.trans waits
    | leave => exact ⟨shown, Or.inl rfl⟩
    | print w _ hw => exact absurd (noReply ▸ hw) List.not_mem_nil
    | hear w hw => exact absurd rfl (unheard (List.ne_nil_of_mem hw))
    | answer => cases free rfl
    | reply => cases free rfl
    | shut =>
        refine ⟨shown, Or.inr ⟨waits, not_pending_iff.2 ⟨noReply, ?_, fun _ => ?_⟩⟩⟩
        · exact Nat.zero_ne_one
        · exact nofun
    | loseRequest w =>
        refine ⟨shown, Or.inr ⟨waits, not_pending_iff.2 ⟨noReply, free, fun rest => ?_⟩⟩⟩
        refine unheard fun none_ => rest ?_
        rw [none_]
        rfl
    | loseReply w =>
        refine ⟨shown, Or.inr ⟨waits, not_pending_iff.2 ⟨?_, free, unheard⟩⟩⟩
        rw [noReply]
        rfl

theorem Forgotten.copy {n : ℕ} {k' : Clerk} (h : Forgotten n t k)
    (hs : Talk.Copy (t, k) (t', k')) : Forgotten n t' k' := by
  obtain ⟨shown, ended | ⟨waits, nothing⟩⟩ := h
  · cases hs with
    | request | reply => exact ⟨shown, Or.inl ended⟩
  · obtain ⟨noReply, free, unheard⟩ := not_pending_iff.1 nothing
    cases hs with
    | request w hw =>
        have deaf := unheard (List.ne_nil_of_mem hw)
        exact ⟨shown, Or.inr ⟨waits, not_pending_iff.2 ⟨noReply, free, fun _ => deaf⟩⟩⟩
    | reply w hw => exact absurd (noReply ▸ hw) List.not_mem_nil

theorem pending_of_canPrint (fitting : ∀ i, Fitting (s.talk i))
    (here : (s.lines i).client = .recv) (h : CanPrint p s i) :
    Pending (s.lines i) (s.server.clerk i) := by
  by_contra nothing
  obtain ⟨as, s', run, meets, more⟩ := h
  have keep : ∀ a s₁ s₂, (∀ i, Fitting (s₁.talk i)) ∧
      Forgotten (s.lines i).shown.length (s₁.lines i) (s₁.server.clerk i) → Typed a s₁ →
      (chat ι p).step a s₁ = some s₂ → (∀ i, Fitting (s₂.talk i)) ∧
      Forgotten (s.lines i).shown.length (s₂.lines i) (s₂.server.clerk i) := by
    rintro a s₁ s₂ ⟨fitting, forgotten⟩ typed hs
    refine ⟨fitting_step hs typed fitting, ?_⟩
    rcases talk_step hs typed fitting i with same | next | ⟨-, again⟩
    · obtain ⟨line, clerk⟩ := Prod.mk.inj same
      rw [line, clerk]
      exact forgotten
    · exact forgotten.step next
    · exact forgotten.copy again
  have last := Machine.invariant_of_meets keep ⟨fitting, rfl, Or.inr ⟨here, nothing⟩⟩ run meets
  exact more.ne last.2.1.symm

theorem CanPrint.cons (hs : step p a s = some s') (typed : Typed a s)
    (same : (s'.lines i).shown = (s.lines i).shown) (h : CanPrint p s' i) : CanPrint p s i := by
  obtain ⟨as, last, run, meets, more⟩ := h
  refine ⟨a :: as, last, ?_, ⟨typed, fun s₁ h₁ => ?_⟩, same ▸ more⟩
  · exact (congrArg (Option.bind · ((chat ι p).run as)) hs).trans run
  · obtain rfl := Option.some.inj (hs.symm.trans h₁)
    exact meets

theorem canPrint_of_reply (fitting : Fitting (s.talk i)) (here : (s.lines i).client = .recv)
    (hw : w ∈ (s.lines i).replies) : CanPrint p s i := by
  have fits := fitting.replies w hw
  have line : (s.lines i).recv (some w) = some { s.lines i with
      client := .input
      replies := (s.lines i).replies.erase w
      shown := (s.lines i).shown ++ [w] } := by
    have arrived := List.contains_iff_mem.2 hw
    simp only [Line.recv, here, arrived, if_true, recv_of_fits fits, text_eq fits.noNul]
  have hs : step p (.recv i (some w)) s = some (s.set i { s.lines i with
      client := .input
      replies := (s.lines i).replies.erase w
      shown := (s.lines i).shown ++ [w] }) := by
    rw [step, line]
    rfl
  have meets : (chat ι p).Meets Typed [.recv i (some w)] s := ⟨trivial, fun _ _ => trivial⟩
  refine ⟨[.recv i (some w)], _, congrArg (Option.bind · some) hs, meets, ?_⟩
  simp [Net.set]

omit [DecidableEq ι] in
/-- What a line keeps, all lines keep. -/
theorem update_line [DecidableEq ι] {β : Type*} (f : Line → β) {lines : ι → Line} {j : ι} {t : Line}
    (h : f t = f (lines j)) (i : ι) : f (update lines j t i) = f (lines i) := by
  by_cases e : i = j
  · subst e
    rw [update_self, h]
  · rw [update_of_ne e]

/-- A step of the server, which leaves the clients alone. -/
structure Serves (p : Program) (a : Act ι) (s s' : Net ι) : Prop where
  step : step p a s = some s'
  client : ∀ i, (s'.lines i).client = (s.lines i).client
  shown : ∀ i, (s'.lines i).shown = (s.lines i).shown

theorem exists_serves_reply {j : ι} (here : s.server = .send w j) :
    ∃ s', Serves p (.reply true) s s' ∧ s'.server = .recv ∧ w ∈ (s'.lines j).replies ∧
      ∀ i, (s'.lines i).requests = (s.lines i).requests := by
  have hs : step p (.reply true) s = some { s.set j { s.lines j with
      replies := w :: (s.lines j).replies } with server := .recv } := by
    simp only [step, Net.reply, here, send_true]
  refine ⟨_, ⟨hs, update_line Line.client rfl, update_line Line.shown rfl⟩, rfl, ?_,
    update_line Line.requests rfl⟩
  simp [Net.set]

theorem exists_serves_answer {j : ι} (here : s.server = .input w j) :
    ∃ s', Serves p (.answer (some [])) s s' ∧ s'.server = .send [] j ∧
      ∀ i, (s'.lines i).requests = (s.lines i).requests := by
  have reply : p.reply w (some []) = some [] := by cases p <;> rfl
  have hs : step p (.answer (some [])) s = some { s.set j { s.lines j with
      answers := (s.lines j).answers ++ [[]] } with server := .send [] j } := by
    simp only [step, Net.answer, here, reply]
  exact ⟨_, ⟨hs, update_line Line.client rfl, update_line Line.shown rfl⟩, rfl,
    update_line Line.requests rfl⟩

theorem exists_serves_hear (fitting : Fitting (s.talk i)) (here : s.server = .recv)
    (hw : w ∈ (s.lines i).requests) :
    ∃ s', Serves p (.hear (some (i, w))) s s' ∧ s'.server = .input w i := by
  have hs : step p (.hear (some (i, w))) s = some { s.set i { s.lines i with
      requests := (s.lines i).requests.erase w
      said := (s.lines i).said ++ [text w] } with server := .input w i } := by
    have arrived := List.contains_iff_mem.2 hw
    simp only [step, Net.hear, here, arrived, if_true, recv_of_fits (fitting.requests w hw)]
  exact ⟨_, ⟨hs, update_line Line.client rfl, update_line Line.shown rfl⟩, rfl⟩

section Turn

variable (fitting : ∀ i, Fitting (s.talk i)) (waits : (s.lines i).client = .recv)
include fitting waits

theorem canPrint_of_sends (here : s.server = .send w i) : CanPrint p s i := by
  obtain ⟨s', serves, -, hw, -⟩ := exists_serves_reply (p := p) here
  have next := fitting_step serves.step trivial fitting i
  refine CanPrint.cons serves.step trivial (serves.shown i) ?_
  exact canPrint_of_reply next ((serves.client i).trans waits) hw

theorem canPrint_of_asked (here : s.server = .input w i) : CanPrint p s i := by
  obtain ⟨s', serves, next, -⟩ := exists_serves_answer (p := p) here
  have typed : Typed (.answer (some [])) s := fun _ h => by cases h; exact fits_nil
  refine CanPrint.cons serves.step typed (serves.shown i) ?_
  exact canPrint_of_sends (fitting_step serves.step typed fitting) ((serves.client i).trans waits)
    next

theorem canPrint_of_free (here : s.server = .recv) (some_ : (s.lines i).requests ≠ []) :
    CanPrint p s i := by
  obtain ⟨w, hw⟩ := List.exists_mem_of_ne_nil _ some_
  obtain ⟨s', serves, next⟩ := exists_serves_hear (p := p) (fitting i) here hw
  refine CanPrint.cons serves.step trivial (serves.shown i) ?_
  exact canPrint_of_asked (fitting_step serves.step trivial fitting)
    ((serves.client i).trans waits) next

/-- The server comes to the end of its reply to any client. -/
theorem canPrint_of_reply_first {j : ι} (here : s.server = .send w j)
    (some_ : (s.lines i).requests ≠ []) : CanPrint p s i := by
  obtain ⟨s', serves, next, -, requests⟩ := exists_serves_reply (p := p) here
  refine CanPrint.cons serves.step trivial (serves.shown i) ?_
  exact canPrint_of_free (fitting_step serves.step trivial fitting)
    ((serves.client i).trans waits) next (requests i ▸ some_)

theorem canPrint_of_answer_first {j : ι} (here : s.server = .input w j)
    (some_ : (s.lines i).requests ≠ []) : CanPrint p s i := by
  obtain ⟨s', serves, next, requests⟩ := exists_serves_answer (p := p) here
  have typed : Typed (.answer (some [])) s := fun _ h => by cases h; exact fits_nil
  refine CanPrint.cons serves.step typed (serves.shown i) ?_
  exact canPrint_of_reply_first (fitting_step serves.step typed fitting)
    ((serves.client i).trans waits) next (requests i ▸ some_)

theorem canPrint_of_pending (h : Pending (s.lines i) (s.server.clerk i)) : CanPrint p s i := by
  rcases h with reply | busy | ⟨some_, free⟩
  · obtain ⟨w, hw⟩ := List.exists_mem_of_ne_nil _ reply
    exact canPrint_of_reply (fitting i) waits hw
  · cases here : s.server with
    | input w j =>
        rw [here] at busy
        by_cases e : i = j
        · exact canPrint_of_asked fitting waits (e ▸ here)
        · rw [clerk_input_of_ne e] at busy
          cases busy
    | send w j =>
        rw [here] at busy
        by_cases e : i = j
        · exact canPrint_of_sends fitting waits (e ▸ here)
        · rw [clerk_send_of_ne e] at busy
          cases busy
    | recv | ended | overrun =>
        rw [here] at busy
        cases busy
  · cases here : s.server with
    | recv => exact canPrint_of_free fitting waits here some_
    | input w j => exact canPrint_of_answer_first fitting waits here some_
    | send w j => exact canPrint_of_reply_first fitting waits here some_
    | ended | overrun =>
        rw [here] at free
        cases free

end Turn

theorem canPrint_iff {as : List (Act ι)} (h : (chat ι p).run as (opened ι) = some s)
    (meets : (chat ι p).Meets Typed as (opened ι)) (here : (s.lines i).client = .recv) :
    CanPrint p s i ↔ Pending (s.lines i) (s.server.clerk i) := by
  have fitting := fitting_of_meets h meets
  exact ⟨pending_of_canPrint fitting here, canPrint_of_pending fitting here⟩

theorem canPrint_iff_lost : ∃ s, (chat Bool .cpp).run lost (opened Bool) = some s ∧
    (s.lines true).client = .recv ∧ ¬ CanPrint .cpp s true := by
  obtain ⟨s, run, line⟩ := Option.map_eq_some_iff.1 run_lost
  have here : (s.lines true).client = .recv := congrArg (·.1.client) line
  have free : s.server.clerk true = .away := congrArg (·.2.2) line
  refine ⟨s, run, here, fun h => ?_⟩
  have pending := (canPrint_iff run (by decide +kernel) here).1 h
  rw [free, show s.lines true = _ from congrArg (·.1) line] at pending
  simp [Pending, Clerk.busy] at pending

end LinuxNote.UdpChat
