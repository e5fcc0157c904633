import LinuxNote.Conc.Machine
import LinuxNote.Text.Buffer
import LinuxNote.Wrap.Descriptor
import Mathlib.Data.Finset.Card
import Mathlib.Data.Finset.Insert
import Mathlib.Data.List.ModifyLast
import Mathlib.Data.List.Nodup

/-!
# The `select` server of `TCP/server.c`

The loop of `main`, one system call or one round of the scan at a time.  The kernel decides what the
calls return: which descriptors are ready, the descriptor of a new connection, what is read and how
much of a write is accepted.

`client[]`, `allset`, `maxi` and `maxfd` describe one and the same set of connections
(`Consistent`), in every reachable state (`consistent_of_reachable`).
-/

namespace LinuxNote.Tcp

open Conc Wrap Function

def MAXLINE : ℕ := 80

def FD_SETSIZE : ℕ := 1024

def ECONNABORTED : Errno := .other 103

def toupper (c : UInt8) : UInt8 := if 97 ≤ c ∧ c ≤ 122 then c - 32 else c

/-- One round of a connection: the bytes that `Read` stored, none when it failed, and the bytes that
the kernel accepted from `Write`. -/
structure Exchange where
  got : List UInt8
  sent : List UInt8
  deriving DecidableEq

/-- Before the call that it names; `scan i` is before the test `i <= maxi`. -/
inductive Loc
  | select
  | accept
  | scan (i : ℕ)
  | read (i : ℕ) (sockfd : ℤ)
  | close (i : ℕ) (sockfd : ℤ)
  | write (i : ℕ) (sockfd : ℤ) (n : ℤ)
  | exited
  deriving DecidableEq

/-- The variables of `main`, the descriptors that are open in the process, and the rounds of the
connections: of the open ones by descriptor, and of those that have been closed. -/
structure Server where
  client : List ℤ
  allset : Finset ℤ
  rset : Finset ℤ
  maxi : ℤ
  maxfd : ℤ
  nready : ℤ
  buf : List UInt8
  loc : Loc
  opened : Finset ℤ
  rounds : ℤ → List Exchange
  past : List (List Exchange)

inductive AcceptResult
  | connfd (fd : ℤ)
  | error (errno : Errno)

/-- The kernel takes `k` bytes; behind `buf` the memory holds `beyond`. -/
inductive WriteResult
  | accepted (k : ℕ) (beyond : List UInt8)
  | error (errno : Errno)

/-- What the kernel answers; `tau` is a step of the server alone. -/
inductive Answer
  | select (ready : Option (Finset ℤ))
  | accept (r : AcceptResult)
  | read (r : ReadResult)
  | close (ok : Bool)
  | write (r : WriteResult)
  | tau

namespace Server

variable (listenfd : ℤ) (s : Server)

/-- `if (--nready == 0)` back to `select`, else on with the scan at `i`. -/
def next (i : ℕ) : Server :=
  { s with
    nready := s.nready - 1
    loc := if s.nready - 1 = 0 then .select else .scan i }

/-- A new connection: the first free entry of `client[]`. -/
def enroll (connfd : ℤ) : Server :=
  let i := s.client.findIdx (· < 0)
  if i = FD_SETSIZE then { s with loc := .exited, opened := insert connfd s.opened }
  else
    { s with
      client := s.client.set i connfd
      allset := insert connfd s.allset
      maxfd := if connfd > s.maxfd then connfd else s.maxfd
      maxi := if i > s.maxi then i else s.maxi
      opened := insert connfd s.opened
      rounds := update s.rounds connfd [] }.next 0

/-- The round of the scan at `i` up to `Read`. -/
def scan (i : ℕ) : Server :=
  if i ≤ s.maxi then
    let sockfd := s.client.getD i (-1)
    { s with loc := if sockfd < 0 ∨ sockfd ∉ s.rset then .scan (i + 1) else .read i sockfd }
  else { s with loc := .select }

/-- `Read` has returned `bs.length`. -/
def received (i : ℕ) (sockfd : ℤ) (bs : List UInt8) : Server :=
  let buf := Text.overlay bs s.buf
  if bs.length = 0 then { s with buf, loc := .close i sockfd }
  else
    { s with
      buf := (buf.take bs.length).map toupper ++ buf.drop bs.length
      loc := .write i sockfd bs.length
      rounds := update s.rounds sockfd (s.rounds sockfd ++ [⟨bs, []⟩]) }

/-- `Read` has returned −1: no byte is changed to upper case. -/
def failed (i : ℕ) (sockfd : ℤ) : Server :=
  { s with
    loc := .write i sockfd (-1)
    rounds := update s.rounds sockfd (s.rounds sockfd ++ [⟨[], []⟩]) }

def closed (i : ℕ) (sockfd : ℤ) : Server :=
  { s with
    allset := s.allset.erase sockfd
    client := s.client.set i (-1)
    opened := s.opened.erase sockfd
    rounds := update s.rounds sockfd []
    past := s.past ++ [s.rounds sockfd] }.next (i + 1)

/-- The kernel has accepted `bs` from the `Write` of this round. -/
def sent (sockfd : ℤ) (bs : List UInt8) : Server :=
  { s with
    rounds := update s.rounds sockfd ((s.rounds sockfd).modifyLast fun e => { e with sent := bs }) }

end Server

/-- `n` as the third argument of `Write` -/
def sizeT (n : ℤ) : ℕ := (BitVec.ofInt 64 n).toNat

def step (listenfd : ℤ) (a : Answer) (s : Server) : Option Server :=
  match s.loc, a with
  | .select, .select none => some { s with loc := .exited }
  | .select, .select (some ready) =>
      if ready.Nonempty ∧ ready ⊆ s.allset ∧ ∀ fd ∈ ready, fd ≤ s.maxfd then
        some { s with
          rset := ready
          nready := ready.card
          loc := if listenfd ∈ ready then .accept else .scan 0 }
      else none
  | .accept, .accept (.connfd fd) =>
      if 0 ≤ fd ∧ fd < FD_SETSIZE ∧ fd ∉ s.opened then some (s.enroll fd) else none
  | .accept, .accept (.error errno) =>
      if errno = ECONNABORTED ∨ errno = .EINTR then some s else some { s with loc := .exited }
  | .scan i, .tau => some (s.scan i)
  | .read i sockfd, .read (.bytes bs) =>
      if bs.length ≤ MAXLINE then some (s.received i sockfd bs) else none
  | .read i sockfd, .read (.error errno) =>
      if errno = .EINTR then some s else some (s.failed i sockfd)
  | .close i sockfd, .close ok => some (if ok then s.closed i sockfd else { s with loc := .exited })
  | .write i sockfd n, .write (.accepted k beyond) =>
      if k ≤ sizeT n ∧ k ≤ (s.buf ++ beyond).length then
        some ((s.sent sockfd ((s.buf ++ beyond).take k)).next (i + 1))
      else none
  | .write i _ _, .write (.error errno) => if errno = .EINTR then some s else some (s.next (i + 1))
  | _, _ => none

/-- Before the loop: `opened` are the descriptors of the process, `buf` is what the stack holds. -/
def created (listenfd : ℤ) (opened : Finset ℤ) (buf : List UInt8) : Server where
  client := List.replicate FD_SETSIZE (-1)
  allset := {listenfd}
  rset := ∅
  maxi := -1
  maxfd := listenfd
  nready := 0
  buf := buf
  loc := .select
  opened := insert listenfd opened
  rounds _ := []
  past := []

def server (listenfd : ℤ) (opened : Finset ℤ) (buf : List UInt8) : Machine Server Answer where
  init s := s = created listenfd opened buf
  step := step listenfd

/-- All that a step can be. -/
inductive Step (listenfd : ℤ) (a : Answer) (s : Server) : Server → Prop
  | exit : Step listenfd a s { s with loc := .exited }
  | again : Step listenfd a s s
  | select (ready : Finset ℤ) : Step listenfd a s
      { s with
        rset := ready
        nready := ready.card
        loc := if listenfd ∈ ready then .accept else .scan 0 }
  | enroll (fd : ℤ) (pos : 0 ≤ fd) (fresh : fd ∉ s.opened) : Step listenfd a s (s.enroll fd)
  | scan (i : ℕ) : Step listenfd a s (s.scan i)
  | received (i : ℕ) (sockfd : ℤ) (bs : List UInt8) (hl : s.loc = .read i sockfd)
      (le : bs.length ≤ MAXLINE) : Step listenfd a s (s.received i sockfd bs)
  | failed (i : ℕ) (sockfd : ℤ) (hl : s.loc = .read i sockfd) :
      Step listenfd a s (s.failed i sockfd)
  | closed (i : ℕ) (sockfd : ℤ) (hl : s.loc = .close i sockfd) :
      Step listenfd a s (s.closed i sockfd)
  | sent (i : ℕ) (sockfd n : ℤ) (k : ℕ) (beyond : List UInt8) (hl : s.loc = .write i sockfd n)
      (ha : a = .write (.accepted k beyond)) (le : k ≤ sizeT n)
      (inside : k ≤ (s.buf ++ beyond).length) :
      Step listenfd a s ((s.sent sockfd ((s.buf ++ beyond).take k)).next (i + 1))
  | unsent (i : ℕ) (sockfd n : ℤ) (hl : s.loc = .write i sockfd n) :
      Step listenfd a s (s.next (i + 1))

theorem step_cases {listenfd : ℤ} {a : Answer} {s s' : Server} (h : step listenfd a s = some s') :
    Step listenfd a s s' := by
  unfold step at h
  split at h
  · obtain rfl := Option.some.inj h
    exact .exit
  · obtain ⟨-, h⟩ := Option.ite_none_right_eq_some.1 h
    obtain rfl := Option.some.inj h
    exact .select _
  · obtain ⟨⟨pos, -, fresh⟩, h⟩ := Option.ite_none_right_eq_some.1 h
    obtain rfl := Option.some.inj h
    exact .enroll _ pos fresh
  · split at h <;> obtain rfl := Option.some.inj h
    · exact .again
    · exact .exit
  · obtain rfl := Option.some.inj h
    exact .scan _
  · next hl =>
      obtain ⟨le, h⟩ := Option.ite_none_right_eq_some.1 h
      obtain rfl := Option.some.inj h
      exact .received _ _ _ hl le
  · next hl =>
      split at h <;> obtain rfl := Option.some.inj h
      · exact .again
      · exact .failed _ _ hl
  · next ok hl =>
      obtain rfl := Option.some.inj h
      cases ok with
      | true => exact .closed _ _ hl
      | false => exact .exit
  · next hl =>
      obtain ⟨⟨le, inside⟩, h⟩ := Option.ite_none_right_eq_some.1 h
      obtain rfl := Option.some.inj h
      exact .sent _ _ _ _ _ hl rfl le inside
  · next hl =>
      split at h <;> obtain rfl := Option.some.inj h
      · exact .again
      · exact .unsent _ _ _ hl
  · cases h

/-! ## The table of connections -/

/-- Entry `i` of `client[]` is in use and holds `fd`. -/
def Server.Entry (s : Server) (i : ℕ) (fd : ℤ) : Prop := s.client[i]? = some fd ∧ 0 ≤ fd

/-- What the variables say of each other. -/
structure Consistent (listenfd : ℤ) (s : Server) : Prop where
  size : s.client.length = FD_SETSIZE
  distinct : ∀ i j fd, s.Entry i fd → s.Entry j fd → i = j
  members : ∀ fd, (∃ i, s.Entry i fd) ↔ fd ∈ s.allset ∧ fd ≠ listenfd
  listen : listenfd ∈ s.allset
  maxi : ∀ i fd, s.Entry i fd → i ≤ s.maxi
  maxfd : ∀ fd ∈ s.allset, fd ≤ s.maxfd

/-- The descriptor that the server is busy with is the one of its entry. -/
def Server.Here (s : Server) : Loc → Prop
  | .read i sockfd | .close i sockfd | .write i sockfd _ => s.Entry i sockfd
  | _ => True

structure Invariant (listenfd : ℤ) (s : Server) : Prop where
  consistent : Consistent listenfd s
  opened : s.allset ⊆ s.opened
  here : s.Here s.loc

section Table

variable {listenfd : ℤ} {s s' : Server} {i j : ℕ} {fd connfd sockfd : ℤ}

/-- What `client[i]` is, as the scan reads it. -/
theorem entry_iff_getD : s.Entry i fd ↔ s.client.getD i (-1) = fd ∧ 0 ≤ fd := by
  rw [Server.Entry, List.getD_eq_getElem?_getD]
  cases hi : s.client[i]? with
  | none =>
      simp
      omega
  | some fd' => simp

theorem Consistent.frame (h : Consistent listenfd s) (client : s'.client = s.client)
    (allset : s'.allset = s.allset) (maxi : s'.maxi = s.maxi) (maxfd : s'.maxfd = s.maxfd) :
    Consistent listenfd s' := by
  have entry : s'.Entry = s.Entry := by
    unfold Server.Entry
    rw [client]
  constructor
  · rw [client]; exact h.size
  · rw [entry]; exact h.distinct
  · rw [entry, allset]; exact h.members
  · rw [allset]; exact h.listen
  · rw [entry, maxi]; exact h.maxi
  · rw [allset, maxfd]; exact h.maxfd

/-- A store into `client[]` changes one entry. -/
theorem entry_set (client : s'.client = s.client.set i connfd) (hi : i < s.client.length) :
    s'.Entry j fd ↔ if j = i then fd = connfd ∧ 0 ≤ fd else s.Entry j fd := by
  unfold Server.Entry
  rw [client]
  by_cases e : j = i
  · subst e
    simp [hi, eq_comm]
  · simp [e, Ne.symm e]

/-- A new connection in a free entry. -/
theorem Consistent.add (h : Consistent listenfd s) (free : ∀ fd, ¬ s.Entry i fd)
    (hi : i < FD_SETSIZE) (pos : 0 ≤ connfd) (fresh : connfd ∉ s.allset)
    (client : s'.client = s.client.set i connfd) (allset : s'.allset = insert connfd s.allset)
    (maxi : s.maxi ≤ s'.maxi ∧ i ≤ s'.maxi) (maxfd : s.maxfd ≤ s'.maxfd ∧ connfd ≤ s'.maxfd) :
    Consistent listenfd s' := by
  have entry : ∀ j fd, s'.Entry j fd ↔ if j = i then fd = connfd ∧ 0 ≤ fd else s.Entry j fd :=
    fun j fd => entry_set client (h.size.symm ▸ hi)
  have unused : ∀ j, ¬ s.Entry j connfd := fun j hj => fresh ((h.members connfd).1 ⟨j, hj⟩).1
  refine ⟨?_, fun j k fd hj hk => ?_, fun fd => ?_, ?_, fun j fd hj => ?_, fun fd hfd => ?_⟩
  · rw [client, List.length_set]
    exact h.size
  · rw [entry] at hj hk
    split at hj <;> split at hk
    · next ej ek => exact ej.trans ek.symm
    · exact absurd (hj.1 ▸ hk) (unused k)
    · exact absurd (hk.1 ▸ hj) (unused j)
    · exact h.distinct j k fd hj hk
  · rw [allset, Finset.mem_insert]
    constructor
    · rintro ⟨j, hj⟩
      rw [entry] at hj
      split at hj
      · exact ⟨Or.inl hj.1, fun e => fresh (hj.1 ▸ e ▸ h.listen)⟩
      · have := (h.members fd).1 ⟨j, hj⟩
        exact ⟨Or.inr this.1, this.2⟩
    · rintro ⟨rfl | mem, ne⟩
      · exact ⟨i, by rw [entry, if_pos rfl]; exact ⟨rfl, pos⟩⟩
      · obtain ⟨j, hj⟩ := (h.members fd).2 ⟨mem, ne⟩
        refine ⟨j, ?_⟩
        rw [entry, if_neg fun e : j = i => free fd (e ▸ hj)]
        exact hj
  · rw [allset]
    exact Finset.mem_insert_of_mem h.listen
  · rw [entry] at hj
    split at hj
    · next e => exact e ▸ maxi.2
    · exact (h.maxi j fd hj).trans maxi.1
  · rw [allset, Finset.mem_insert] at hfd
    rcases hfd with rfl | mem
    · exact maxfd.2
    · exact (h.maxfd fd mem).trans maxfd.1

/-- A connection and its entry are given up. -/
theorem Consistent.drop (h : Consistent listenfd s) (hi : s.Entry i sockfd)
    (client : s'.client = s.client.set i (-1)) (allset : s'.allset = s.allset.erase sockfd)
    (maxi : s'.maxi = s.maxi) (maxfd : s'.maxfd = s.maxfd) : Consistent listenfd s' := by
  have lt : i < s.client.length := (List.getElem?_eq_some_iff.1 hi.1).1
  have entry : ∀ j fd, s'.Entry j fd ↔ j ≠ i ∧ s.Entry j fd := by
    intro j fd
    rw [entry_set client lt]
    by_cases e : j = i
    · rw [if_pos e]
      refine iff_of_false (fun used => ?_) fun other => other.1 e
      have := used.1
      omega
    · simp [e]
  have mem := (h.members sockfd).1 ⟨i, hi⟩
  refine ⟨?_, fun j k fd hj hk => ?_, fun fd => ?_, ?_, fun j fd hj => ?_, fun fd hfd => ?_⟩
  · rw [client, List.length_set]
    exact h.size
  · exact h.distinct j k fd ((entry j fd).1 hj).2 ((entry k fd).1 hk).2
  · rw [allset, Finset.mem_erase]
    constructor
    · rintro ⟨j, hj⟩
      obtain ⟨ne, hj⟩ := (entry j fd).1 hj
      have := (h.members fd).1 ⟨j, hj⟩
      exact ⟨⟨fun e => ne (h.distinct j i sockfd (e ▸ hj) hi), this.1⟩, this.2⟩
    · rintro ⟨⟨ne, mem⟩, other⟩
      obtain ⟨j, hj⟩ := (h.members fd).2 ⟨mem, other⟩
      refine ⟨j, (entry j fd).2 ⟨?_, hj⟩⟩
      rintro rfl
      exact ne (Option.some.inj (hj.1.symm.trans hi.1))
  · rw [allset, Finset.mem_erase]
    exact ⟨mem.2.symm, h.listen⟩
  · rw [maxi]
    exact h.maxi j fd ((entry j fd).1 hj).2
  · rw [allset, Finset.mem_erase] at hfd
    rw [maxfd]
    exact h.maxfd fd hfd.2

end Table

/-! ## Steps -/

section Steps

variable {listenfd : ℤ} {s s' : Server} {i : ℕ} {connfd sockfd : ℤ}

theorem here_next : (s.next i).Here (s.next i).loc := by
  unfold Server.next
  dsimp only
  split <;> trivial

/-- The first free entry. -/
theorem free_findIdx (lt : s.client.findIdx (· < 0) < s.client.length) (fd : ℤ) :
    ¬ s.Entry (s.client.findIdx (· < 0)) fd := by
  rintro ⟨hfd, pos⟩
  have neg := List.findIdx_getElem (w := lt)
  rw [List.getElem?_eq_getElem lt, Option.some.injEq] at hfd
  simp only [hfd, decide_eq_true_eq] at neg
  omega

theorem Invariant.enroll (h : Invariant listenfd s) (pos : 0 ≤ connfd) (fresh : connfd ∉ s.opened) :
    Invariant listenfd (s.enroll connfd) := by
  unfold Server.enroll
  dsimp only
  split
  · exact ⟨h.consistent.frame rfl rfl rfl rfl,
      h.opened.trans (Finset.subset_insert connfd s.opened), trivial⟩
  · next full =>
      have le : s.client.findIdx (· < 0) ≤ s.client.length := List.findIdx_le_length
      have lt : s.client.findIdx (· < 0) < s.client.length := by
        have := h.consistent.size
        omega
      refine ⟨h.consistent.add (free_findIdx lt) (h.consistent.size ▸ lt) pos
        (fun mem => fresh (h.opened mem)) rfl rfl ?_ ?_,
        Finset.insert_subset_insert connfd h.opened, here_next⟩
      · simp only [Server.next]
        split <;> omega
      · simp only [Server.next]
        split <;> omega

theorem Invariant.closed (h : Invariant listenfd s) (hi : s.Entry i sockfd) :
    Invariant listenfd (s.closed i sockfd) where
  consistent := h.consistent.drop hi rfl rfl rfl rfl
  opened := Finset.erase_subset_erase sockfd h.opened
  here := here_next

theorem Invariant.scan (h : Invariant listenfd s) (i : ℕ) : Invariant listenfd (s.scan i) := by
  unfold Server.scan
  dsimp only
  split
  · next le =>
      refine ⟨h.consistent.frame rfl rfl rfl rfl, h.opened, ?_⟩
      dsimp only
      split
      · trivial
      · next ready =>
          simp only [not_or, not_lt] at ready
          exact entry_iff_getD.2 ⟨rfl, ready.1⟩
  · exact ⟨h.consistent.frame rfl rfl rfl rfl, h.opened, trivial⟩

theorem Invariant.received (h : Invariant listenfd s) (hi : s.Entry i sockfd) (bs : List UInt8) :
    Invariant listenfd (s.received i sockfd bs) := by
  unfold Server.received
  dsimp only
  split <;> exact ⟨h.consistent.frame rfl rfl rfl rfl, h.opened, hi⟩

theorem Invariant.step (h : Invariant listenfd s) {a : Answer}
    (hs : step listenfd a s = some s') : Invariant listenfd s' := by
  have here := h.here
  cases step_cases hs with
  | exit => exact ⟨h.consistent.frame rfl rfl rfl rfl, h.opened, trivial⟩
  | again => exact h
  | select ready =>
      refine ⟨h.consistent.frame rfl rfl rfl rfl, h.opened, ?_⟩
      dsimp only
      split <;> trivial
  | enroll fd pos fresh => exact h.enroll pos fresh
  | scan i => exact h.scan i
  | received i sockfd bs hl le =>
      rw [hl] at here
      exact h.received here bs
  | failed i sockfd hl =>
      rw [hl] at here
      exact ⟨h.consistent.frame rfl rfl rfl rfl, h.opened, here⟩
  | closed i sockfd hl =>
      rw [hl] at here
      exact h.closed here
  | sent i sockfd n k beyond hl ha le inside =>
      exact ⟨h.consistent.frame rfl rfl rfl rfl, h.opened, here_next⟩
  | unsent i sockfd n hl => exact ⟨h.consistent.frame rfl rfl rfl rfl, h.opened, here_next⟩

end Steps

theorem invariant_created (listenfd : ℤ) (opened : Finset ℤ) (buf : List UInt8) :
    Invariant listenfd (created listenfd opened buf) := by
  have unused : ∀ i fd, ¬ (created listenfd opened buf).Entry i fd := by
    rintro i fd ⟨hfd, pos⟩
    have := (List.mem_replicate.1 (List.mem_of_getElem? hfd)).2
    omega
  refine ⟨⟨List.length_replicate, fun i j fd hi => absurd hi (unused i fd), fun fd => ?_,
    Finset.mem_singleton_self listenfd, fun i fd hi => absurd hi (unused i fd), fun fd hfd => ?_⟩,
    ?_, trivial⟩
  · refine iff_of_false (fun ⟨i, hi⟩ => unused i fd hi) fun mem => ?_
    exact mem.2 (Finset.mem_singleton.1 mem.1)
  · exact (Finset.mem_singleton.1 hfd).le
  · exact Finset.singleton_subset_iff.2 (Finset.mem_insert_self listenfd opened)

theorem invariant_of_reachable {listenfd : ℤ} {opened : Finset ℤ} {buf : List UInt8} {s : Server}
    (h : (server listenfd opened buf).Reachable s) : Invariant listenfd s := by
  have key : (server listenfd opened buf).Inductive (Invariant listenfd) := by
    refine ⟨fun s hs => ?_, fun a s s' _ h hs => h.step hs⟩
    obtain rfl : s = created listenfd opened buf := hs
    exact invariant_created listenfd opened buf
  exact key.reachable h

/-- In every run, at every return to the top of the loop and everywhere else. -/
theorem consistent_of_reachable {listenfd : ℤ} {opened : Finset ℤ} {buf : List UInt8} {s : Server}
    (h : (server listenfd opened buf).Reachable s) : Consistent listenfd s :=
  (invariant_of_reachable h).consistent

/-- Three connections; the first one ends, and its entry and descriptor are used again. -/
def reconnect : List Answer :=
  [.select (some {3}), .accept (.connfd 4), .select (some {3}), .accept (.connfd 5),
    .select (some {3, 4}), .accept (.connfd 6), .tau, .read (.bytes []), .close true,
    .select (some {3}), .accept (.connfd 4)]

theorem consistent_reconnect : ∃ s, (server 3 {0, 1, 2} []).Reachable s ∧ s.loc = .select ∧
    s.client.take 4 = [4, 5, 6, -1] ∧ Consistent 3 s := by
  have h := Machine.reachable_of_run (M := server 3 {0, 1, 2} []) reconnect rfl rfl
  exact ⟨_, h, rfl, rfl, consistent_of_reachable h⟩

end LinuxNote.Tcp
