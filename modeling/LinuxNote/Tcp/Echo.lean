import LinuxNote.Tcp.Server
import Mathlib.Data.List.Induction

/-!
# What the `select` server sends back

The server answers each `Read` that is not the end of the file with a `Write` of the upper-cased
bytes.  It does not look for errors: after a failed `Read` it writes with the length −1, and what a
`Write` leaves over is dropped.

So a connection is echoed faithfully (`Echoed`) exactly as long as the kernel accepts bytes only
from a `Write` that follows a successful `Read` and comes after complete ones
(`echoed_iff_complete`).
-/

namespace LinuxNote.Tcp

open Conc Wrap Function

/-- The bytes that are to be sent back. -/
def Exchange.upper (e : Exchange) : List UInt8 := e.got.map toupper

/-- What has been accepted is a prefix of the upper-cased bytes read; each `Write` sends bytes of
its own round, and only after all that was read before has been sent. -/
structure Echoed (es : List Exchange) : Prop where
  upto : es.flatMap Exchange.sent <+: (es.flatMap Exchange.got).map toupper
  own : ∀ e ∈ es, e.sent <+: e.upper
  inOrder : es.Pairwise fun e e' => e'.sent ≠ [] → e.sent = e.upper

/-- Of every connection, open or closed. -/
def Server.Echoed (s : Server) : Prop :=
  (∀ fd, Tcp.Echoed (s.rounds fd)) ∧ ∀ es ∈ s.past, Tcp.Echoed es

/-- The kernel accepts bytes only from a `Write` after a successful `Read`, and only when it has
accepted all bytes of the earlier ones on the connection. -/
def Complete (a : Answer) (s : Server) : Prop :=
  match s.loc, a with
  | .write _ sockfd n, .write (.accepted k _) =>
      k = 0 ∨ 0 ≤ n ∧ ∀ e ∈ (s.rounds sockfd).dropLast, e.sent = e.upper
  | _, _ => True

instance (a : Answer) (s : Server) : Decidable (Complete a s) := by
  unfold Complete
  cases s.loc <;> cases a <;> try infer_instance
  next r => cases r <;> infer_instance

/-! ## One connection -/

section Echoed

variable {es : List Exchange} {e : Exchange}

theorem flatMap_sent (h : ∀ e ∈ es, e.sent = e.upper) :
    es.flatMap Exchange.sent = (es.flatMap Exchange.got).map toupper := by
  induction es with
  | nil => rfl
  | cons e es ih =>
      rw [List.forall_mem_cons] at h
      rw [List.flatMap_cons, List.flatMap_cons, List.map_append, h.1, ih h.2]
      rfl

theorem echoed_nil : Echoed [] := ⟨List.prefix_refl _, by simp, List.Pairwise.nil⟩

theorem sent_upto (own : ∀ e ∈ es, e.sent <+: e.upper)
    (inOrder : es.Pairwise fun e e' => e'.sent ≠ [] → e.sent = e.upper) :
    es.flatMap Exchange.sent <+: (es.flatMap Exchange.got).map toupper := by
  induction es using List.reverseRecOn with
  | nil => exact List.prefix_refl _
  | append_singleton es e ih =>
      simp only [List.pairwise_append, List.mem_singleton, forall_eq] at inOrder
      obtain ⟨before, -, last⟩ := inOrder
      simp only [List.flatMap_append, List.flatMap_singleton, List.map_append]
      by_cases silent : e.sent = []
      · rw [silent, List.append_nil]
        exact (ih (fun x hx => own x (List.mem_append_left _ hx)) before).trans
          (List.prefix_append _ _)
      · rw [flatMap_sent fun x hx => last x hx silent]
        exact (List.prefix_append_right_inj _).2 (own e List.mem_concat_self)

/-- Rounds that each send their own bytes in order send a prefix of all. -/
theorem echoed_iff : Echoed es ↔ (∀ e ∈ es, e.sent <+: e.upper) ∧
    es.Pairwise fun e e' => e'.sent ≠ [] → e.sent = e.upper :=
  ⟨fun h => ⟨h.own, h.inOrder⟩, fun h => ⟨sent_upto h.1 h.2, h.1, h.2⟩⟩

/-- One round more. -/
theorem echoed_concat_iff : Echoed (es ++ [e]) ↔
    Echoed es ∧ e.sent <+: e.upper ∧ (e.sent ≠ [] → ∀ x ∈ es, x.sent = x.upper) := by
  simp only [echoed_iff, List.forall_mem_append, List.pairwise_append, List.pairwise_singleton,
    List.mem_singleton, forall_eq, true_and]
  constructor
  · rintro ⟨⟨own, here⟩, before, last⟩
    exact ⟨⟨own, before⟩, here, fun some x hx => last x hx some⟩
  · rintro ⟨⟨own, before⟩, here, last⟩
    exact ⟨⟨own, here⟩, before, fun x hx some => last some x hx⟩

end Echoed

/-! ## Steps -/

/-- What the server is about to write: the bytes of the last round in upper case, or with the length
−1 after a failed `Read`. -/
def Server.Pending (s : Server) : Loc → Prop
  | .write _ sockfd n => ∃ es e, s.rounds sockfd = es ++ [e] ∧ e.sent = [] ∧
      (n = -1 ∧ e.got = [] ∨
        n = e.got.length ∧ e.got.length ≤ MAXLINE ∧ s.buf.take e.got.length = e.upper)
  | _ => True

structure Faithful (s : Server) : Prop where
  echoed : s.Echoed
  pending : s.Pending s.loc

section Steps

variable {listenfd : ℤ} {s s' : Server} {i : ℕ} {connfd sockfd n : ℤ}

theorem pending_next : (s.next i).Pending (s.next i).loc := by
  unfold Server.next
  dsimp only
  split <;> trivial

theorem Server.Echoed.update (h : s.Echoed) {es : List Exchange} (hes : Tcp.Echoed es)
    (rounds : s'.rounds = update s.rounds sockfd es) (past : s'.past = s.past) : s'.Echoed := by
  unfold Server.Echoed
  rw [rounds, past]
  exact ⟨(forall_update_iff s.rounds fun _ es => Tcp.Echoed es).2 ⟨hes, fun fd _ => h.1 fd⟩, h.2⟩

theorem Faithful.enroll (h : Faithful s) : Faithful (s.enroll connfd) := by
  unfold Server.enroll
  dsimp only
  split
  · exact ⟨h.echoed, trivial⟩
  · exact ⟨h.echoed.update echoed_nil rfl rfl, pending_next⟩

/-- A round begins. -/
theorem Server.Echoed.begin (h : s.Echoed) (got : List UInt8)
    (rounds : s'.rounds = Function.update s.rounds sockfd (s.rounds sockfd ++ [⟨got, []⟩]))
    (past : s'.past = s.past) : s'.Echoed :=
  h.update (echoed_concat_iff.2 ⟨h.1 sockfd, List.nil_prefix, fun some => absurd rfl some⟩) rounds
    past

theorem Faithful.received (h : Faithful s) {bs : List UInt8} (le : bs.length ≤ MAXLINE) :
    Faithful (s.received i sockfd bs) := by
  unfold Server.received
  dsimp only
  split
  · exact ⟨h.echoed, trivial⟩
  · refine ⟨h.echoed.begin bs rfl rfl, s.rounds sockfd, ⟨bs, []⟩, update_self .., rfl,
      Or.inr ⟨rfl, le, ?_⟩⟩
    simp [Exchange.upper, Text.overlay]

theorem Faithful.failed (h : Faithful s) : Faithful (s.failed i sockfd) :=
  ⟨h.echoed.begin [] rfl rfl, s.rounds sockfd, ⟨[], []⟩, update_self .., rfl, Or.inl ⟨rfl, rfl⟩⟩

theorem Faithful.closed (h : Faithful s) : Faithful (s.closed i sockfd) where
  echoed := by
    refine ⟨(forall_update_iff s.rounds fun _ es => Tcp.Echoed es).2
      ⟨echoed_nil, fun fd _ => h.echoed.1 fd⟩, fun es hes => ?_⟩
    rcases List.mem_append.1 hes with hes | hes
    · exact h.echoed.2 es hes
    · exact List.mem_singleton.1 hes ▸ h.echoed.1 sockfd
  pending := pending_next

theorem sizeT_natCast {k : ℕ} (le : k ≤ MAXLINE) : sizeT k = k := by
  have : k < 18446744073709551616 := lt_of_le_of_lt le (by decide)
  simp [sizeT, Nat.mod_eq_of_lt this]

/-- The round that a `Write` ends. -/
theorem rounds_sent {es : List Exchange} {e : Exchange} (h : s.rounds sockfd = es ++ [e])
    (bs : List UInt8) :
    (s.sent sockfd bs).rounds = update s.rounds sockfd (es ++ [{ e with sent := bs }]) := by
  simp only [Server.sent, h, List.modifyLast_concat]

theorem Faithful.sent (h : Faithful s) (hl : s.loc = .write i sockfd n) {k : ℕ}
    {beyond : List UInt8} (ok : Complete (.write (.accepted k beyond)) s) (le : k ≤ sizeT n) :
    ((s.sent sockfd ((s.buf ++ beyond).take k)).next (i + 1)).Echoed := by
  have pending := h.pending
  rw [hl] at pending
  obtain ⟨es, e, rounds, silent, write⟩ := pending
  simp only [Complete, hl, rounds, List.dropLast_concat] at ok
  have before := h.echoed.1 sockfd
  rw [rounds, echoed_concat_iff] at before
  refine h.echoed.update (echoed_concat_iff.2 ⟨before.1, ?_⟩) (rounds_sent rounds _) rfl
  rcases ok with rfl | ⟨pos, complete⟩
  · exact ⟨List.nil_prefix, fun some => absurd rfl some⟩
  · refine ⟨?_, fun _ => complete⟩
    rcases write with ⟨rfl, -⟩ | ⟨rfl, small, buf⟩
    · omega
    · rw [sizeT_natCast small] at le
      have size : e.got.length ≤ s.buf.length := by
        have := congrArg List.length buf
        simp only [Exchange.upper, List.length_take, List.length_map] at this
        omega
      rw [List.take_append_of_le_length (le.trans size)]
      exact buf ▸ List.take_prefix_take_left le

theorem Faithful.step (h : Faithful s) {a : Answer} (ok : Complete a s)
    (hs : step listenfd a s = some s') : Faithful s' := by
  cases step_cases hs with
  | exit => exact ⟨h.echoed, trivial⟩
  | again => exact h
  | select ready =>
      refine ⟨h.echoed, ?_⟩
      dsimp only
      split <;> trivial
  | enroll fd pos fresh => exact h.enroll
  | scan i =>
      unfold Server.scan
      split
      · refine ⟨h.echoed, ?_⟩
        dsimp only
        split <;> trivial
      · exact ⟨h.echoed, trivial⟩
  | received i sockfd bs hl le => exact h.received le
  | failed i sockfd hl => exact h.failed
  | closed i sockfd hl => exact h.closed
  | sent i sockfd n k beyond hl ha le inside =>
      subst ha
      exact ⟨h.sent hl ok le, pending_next⟩
  | unsent i sockfd n hl => exact ⟨h.echoed, pending_next⟩

/-- Bytes that are accepted from any other `Write` are not the ones to send. -/
theorem Faithful.not_echoed (h : Faithful s) {a : Answer} (bad : ¬ Complete a s)
    (hs : Tcp.step listenfd a s = some s') : ¬ s'.Echoed := by
  unfold Complete at bad
  split at bad
  · next i sockfd n k beyond hl =>
      simp only [not_or, not_and, not_forall] at bad
      obtain ⟨some, bad⟩ := bad
      simp only [Tcp.step, hl] at hs
      obtain ⟨⟨le, inside⟩, hs⟩ := Option.ite_none_right_eq_some.1 hs
      obtain rfl := Option.some.inj hs
      have pending := h.pending
      rw [hl] at pending
      obtain ⟨es, e, rounds, silent, write⟩ := pending
      intro echoed
      have after := echoed.1 sockfd
      rw [show ((s.sent sockfd ((s.buf ++ beyond).take k)).next (i + 1)).rounds = _ from
        rounds_sent rounds _, update_self, echoed_concat_iff] at after
      obtain ⟨-, own, complete⟩ := after
      have sent : (s.buf ++ beyond).take k ≠ [] := by
        intro none
        rcases List.take_eq_nil_iff.1 none with zero | none
        · exact some zero
        · rw [none] at inside
          exact some (Nat.le_zero.1 inside)
      rcases write with ⟨rfl, got⟩ | ⟨rfl, -, -⟩
      · rw [Exchange.upper, got] at own
        exact sent (List.prefix_nil.1 own)
      · obtain ⟨x, hx, incomplete⟩ := bad (Int.natCast_nonneg _)
        rw [rounds, List.dropLast_concat] at hx
        exact incomplete (complete sent x hx)
  · exact absurd trivial bad

end Steps

/-- For every run, whatever the kernel answers. -/
theorem echoed_iff_complete {listenfd : ℤ} {opened : Finset ℤ} {buf : List UInt8}
    {as : List Answer} {s : Server}
    (h : (server listenfd opened buf).run as (created listenfd opened buf) = some s) :
    (server listenfd opened buf).Along Server.Echoed as (created listenfd opened buf) ↔
      (server listenfd opened buf).Meets Complete as (created listenfd opened buf) := by
  have start : Faithful (created listenfd opened buf) :=
    ⟨⟨fun _ => echoed_nil, by simp [created]⟩, trivial⟩
  exact Machine.along_iff_meets (fun _ h => h.echoed) (fun _ _ _ h ok hs => h.step ok hs)
    (fun _ _ _ h bad hs => h.not_echoed bad hs) start h

/-- The answers for one connection: `Read` delivers `bs` and the kernel accepts `k` bytes. -/
def round (bs : List UInt8) (k : ℕ) : List Answer :=
  [.select (some {4}), .tau, .read (.error .EINTR), .read (.bytes bs), .write (.error .EINTR),
    .write (.accepted k [])]

/-- A client sends "ab" and "cd", and the second answer is cut. -/
def cutLast : List Answer :=
  [.select (some {3}), .accept (.connfd 4)] ++ round [97, 98] 2 ++ round [99, 100] 1

theorem echoed_iff_complete_cutLast :
    ((server 3 {0, 1, 2} []).run cutLast (created 3 {0, 1, 2} [])).isSome ∧
      (server 3 {0, 1, 2} []).Along Server.Echoed cutLast (created 3 {0, 1, 2} []) :=
  ⟨rfl, (echoed_iff_complete rfl).2 (by decide)⟩

/-- The first answer is cut. -/
def cutFirst : List Answer :=
  [.select (some {3}), .accept (.connfd 4)] ++ round [97, 98] 1 ++ round [99, 100] 2

/-- `Read` fails, and the kernel accepts a byte of what is still in `buf`. -/
def failedRead : List Answer :=
  [.select (some {3}), .accept (.connfd 4)] ++ round [97] 1 ++
    [.select (some {4}), .tau, .read (.error (.other 5)), .write (.accepted 1 [])]

/-- "ACD" is sent for "abcd", or a byte after a `Read` that failed. -/
theorem not_echoed_cutFirst :
    (∃ s, (server 3 {0, 1, 2} []).Reachable s ∧
      s.rounds 4 = [⟨[97, 98], [65]⟩, ⟨[99, 100], [67, 68]⟩] ∧ ¬ s.Echoed) ∧
    ∃ s, (server 3 {0, 1, 2} []).Reachable s ∧ s.rounds 4 = [⟨[97], [65]⟩, ⟨[], [65]⟩] ∧
      ¬ s.Echoed := by
  constructor
  · refine ⟨_, Machine.reachable_of_run cutFirst rfl rfl, rfl, fun h => ?_⟩
    exact absurd (h.1 4).upto (by decide)
  · refine ⟨_, Machine.reachable_of_run failedRead rfl rfl, rfl, fun h => ?_⟩
    exact absurd (h.1 4).upto (by decide)

end LinuxNote.Tcp
