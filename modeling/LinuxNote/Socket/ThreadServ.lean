import LinuxNote.Conc.Machine
import Mathlib.Data.Int.Notation

/-!
# The server of `threadServTCP.cpp`

`main` writes what `accept` returns to one local variable and two globals, and starts a thread that
reads them.  The next `accept` writes to the same places, and does not wait for the thread; a
failing one writes −1.

`handsOver_of_meets`: in every run where the threads have read what `main` overwrites, and all of
them can be started, each connection has a thread of its own that works with what `accept` returned
for it.
-/

namespace LinuxNote.ThreadServ

open Conc

/-- What `accept` returns for a connection: the descriptor, and the peer as `inet_ntoa` and `ntohs`
give it. -/
structure Conn where
  sockfd : ℤ
  ip : String
  port : UInt16
  deriving DecidableEq

/-- How far `thr_start` has got: its copies of the variables, and then what it serves with. -/
inductive Thread
  | created
  | hasSockfd (newSockfd : ℤ)
  | hasPort (newSockfd : ℤ) (newPort : UInt16)
  | serving (c : Conn)
  | exited (c : Conn)
  deriving DecidableEq

/-- `main` is before `accept`, in `Accept` with the rest of its result, or before
`pthread_create`. -/
inductive Loc
  | accept
  | ip (c : Conn)
  | port (c : Conn)
  | create (c : Conn)
  deriving DecidableEq

/-- The shared variables; all connections accepted and all threads started so far, in order. -/
structure Server where
  newSockfd : ℤ
  tmpIp : String
  tmpPort : UInt16
  loc : Loc
  conns : List Conn
  threads : List Thread

/-- A return of `accept` (a failure is `none`) or of `pthread_create`, a step of `main`, or a step
of a thread; with `more` it gets through a round of its loop. -/
inductive Act
  | accept (r : Option Conn)
  | ip
  | port
  | create (ok : Bool)
  | thread (i : ℕ) (more : Bool)

/-- One step of `thr_start`. -/
def Thread.step (s : Server) (more : Bool) : Thread → Option Thread
  | .created => some (.hasSockfd s.newSockfd)
  | .hasSockfd sockfd => some (.hasPort sockfd s.tmpPort)
  | .hasPort sockfd port => some (.serving ⟨sockfd, s.tmpIp, port⟩)
  | .serving c => some (if more then .serving c else .exited c)
  | .exited _ => none

def step : Act → Server → Option Server
  | .accept none, s => if s.loc = .accept then some { s with newSockfd := -1 } else none
  | .accept (some c), s =>
      if s.loc = .accept then
        some { s with newSockfd := c.sockfd, conns := s.conns ++ [c], loc := .ip c }
      else none
  | .ip, s =>
      match s.loc with
      | .ip c => some { s with tmpIp := c.ip, loc := .port c }
      | _ => none
  | .port, s =>
      match s.loc with
      | .port c => some { s with tmpPort := c.port, loc := .create c }
      | _ => none
  | .create ok, s =>
      match s.loc with
      | .create _ =>
          some { s with
            threads := if ok then s.threads ++ [.created] else s.threads
            loc := .accept }
      | _ => none
  | .thread i more, s =>
      (s.threads[i]?.bind (Thread.step s more)).map fun t => { s with threads := s.threads.set i t }

def created : Server := ⟨-1, "", 0, .accept, [], []⟩

def server : Machine Server Act where
  init s := s = created
  step := step

/-- What a thread works with. -/
def Thread.uses : Thread → Option Conn
  | .serving c => some c
  | .exited c => some c
  | _ => none

/-- The connection that `main` has no thread for yet. -/
def Loc.owed : Loc → List Conn
  | .accept => []
  | .ip c => [c]
  | .port c => [c]
  | .create c => [c]

/-- The threads are one for each connection, in order, and work with what `accept` returned. -/
structure HandsOver (s : Server) : Prop where
  count : s.threads.length + s.loc.owed.length = s.conns.length
  own : ∀ (i : ℕ) (t : Thread) (c : Conn),
    s.threads[i]? = some t → t.uses = some c → s.conns[i]? = some c

def Thread.readSockfd : Thread → Bool
  | .created => false
  | _ => true

def Thread.readPort : Thread → Bool
  | .created => false
  | .hasSockfd _ => false
  | _ => true

def Thread.readIp : Thread → Bool
  | .serving _ => true
  | .exited _ => true
  | _ => false

/-- A variable is written when all threads have read it, and threads can be started. -/
def Waits (a : Act) (s : Server) : Prop :=
  match a with
  | .accept _ => ∀ t ∈ s.threads, t.readSockfd
  | .ip => ∀ t ∈ s.threads, t.readIp
  | .port => ∀ t ∈ s.threads, t.readPort
  | .create ok => ok = true
  | .thread _ _ => True

instance (a : Act) (s : Server) : Decidable (Waits a s) := by
  unfold Waits
  cases a <;> infer_instance

/-! ## Threads and connections -/

/-- The copies of a thread are those of its connection, and the shared variables still are where it
has no copy. -/
def Thread.Fits (s : Server) (c : Conn) : Thread → Prop
  | .created => s.newSockfd = c.sockfd ∧ s.tmpPort = c.port ∧ s.tmpIp = c.ip
  | .hasSockfd sockfd => sockfd = c.sockfd ∧ s.tmpPort = c.port ∧ s.tmpIp = c.ip
  | .hasPort sockfd port => sockfd = c.sockfd ∧ port = c.port ∧ s.tmpIp = c.ip
  | .serving c' => c' = c
  | .exited c' => c' = c

/-- The variables that `main` has written for the connection that it is about to hand over. -/
def Loc.Written (s : Server) : Loc → Prop
  | .accept => True
  | .ip c => s.newSockfd = c.sockfd
  | .port c => s.newSockfd = c.sockfd ∧ s.tmpIp = c.ip
  | .create c => s.newSockfd = c.sockfd ∧ s.tmpIp = c.ip ∧ s.tmpPort = c.port

structure Sound (s : Server) : Prop where
  count : s.threads.length + s.loc.owed.length = s.conns.length
  owed : s.loc.owed <:+ s.conns
  written : s.loc.Written s
  fits : ∀ (i : ℕ) (t : Thread) (c : Conn),
    s.threads[i]? = some t → s.conns[i]? = some c → t.Fits s c

section Steps

variable {s s' : Server} {t t' : Thread} {c : Conn} {more : Bool}

theorem Thread.Fits.uses (h : t.Fits s c) {c' : Conn} (uses : t.uses = some c') : c' = c := by
  cases t with
  | serving d =>
      obtain rfl := Option.some.inj uses
      exact h
  | exited d =>
      obtain rfl := Option.some.inj uses
      exact h
  | _ => cases uses

theorem Thread.Fits.step (h : t.Fits s c) (hstep : t.step s more = some t') : t'.Fits s c := by
  cases t with
  | created =>
      obtain rfl := Option.some.inj hstep
      exact h
  | hasSockfd sockfd =>
      obtain rfl := Option.some.inj hstep
      exact ⟨h.1, h.2.1, h.2.2⟩
  | hasPort sockfd port =>
      obtain rfl := Option.some.inj hstep
      obtain ⟨rfl, rfl, ip⟩ := h
      exact congrArg (Conn.mk c.sockfd · c.port) ip
  | serving c' =>
      obtain rfl := Option.some.inj hstep
      cases more <;> exact h
  | exited c' => cases hstep

/-- Only `newSockfd` is written. -/
theorem Thread.Fits.of_readSockfd (h : t.Fits s c) (read : t.readSockfd) (ip : s'.tmpIp = s.tmpIp)
    (port : s'.tmpPort = s.tmpPort) : t.Fits s' c := by
  cases t with
  | created => cases read
  | _ => simpa [Fits, ip, port] using h

theorem Thread.Fits.of_readPort (h : t.Fits s c) (read : t.readPort) (ip : s'.tmpIp = s.tmpIp) :
    t.Fits s' c := by
  cases t with
  | created => cases read
  | hasSockfd sockfd => cases read
  | _ => simpa [Fits, ip] using h

theorem Thread.Fits.of_readIp (h : t.Fits s c) (read : t.readIp) : t.Fits s' c := by
  cases t with
  | serving c' => exact h
  | exited c' => exact h
  | _ => cases read

theorem Sound.handsOver (h : Sound s) : HandsOver s where
  count := h.count
  own i t c thread uses := by
    have inside : i < s.conns.length := by
      have := (List.getElem?_eq_some_iff.1 thread).1
      have := h.count
      omega
    have conn := List.getElem?_eq_getElem inside
    rw [conn, (h.fits i t _ thread conn).uses uses]

/-- The threads that there are do not lose their connections to a new one. -/
theorem Sound.getElem?_conns (h : Sound s) (loc : s.loc = .accept) {i : ℕ} {d : Conn}
    (thread : s.threads[i]? = some t) (conn : (s.conns ++ [d])[i]? = some c) :
    s.conns[i]? = some c := by
  have inside := (List.getElem?_eq_some_iff.1 thread).1
  have count := h.count
  rw [loc] at count
  rwa [List.getElem?_append_left (lt_of_lt_of_eq inside count)] at conn

theorem Sound.accept (h : Sound s) (loc : s.loc = .accept) (waits : ∀ t ∈ s.threads, t.readSockfd)
    (d : Conn) :
    Sound { s with newSockfd := d.sockfd, conns := s.conns ++ [d], loc := .ip d } where
  count := by
    have count := h.count
    rw [loc] at count
    rw [List.length_append, ← count]
    rfl
  owed := List.suffix_append _ _
  written := rfl
  fits i t c thread conn :=
    (h.fits i t c thread (h.getElem?_conns loc thread conn)).of_readSockfd
      (waits t (List.mem_of_getElem? thread)) rfl rfl

/-- The new thread finds what has been written. -/
theorem Sound.create (h : Sound s) {d : Conn} (loc : s.loc = .create d) :
    Sound { s with threads := s.threads ++ [.created], loc := .accept } where
  count := by
    have count := h.count
    rw [loc] at count
    rw [List.length_append, ← count]
    rfl
  owed := List.nil_suffix
  written := trivial
  fits i t c thread conn := by
    have count := h.count
    have owed := h.owed
    have written := h.written
    rw [loc] at count owed written
    obtain ⟨before, eq⟩ := owed
    dsimp only at thread conn
    rw [List.getElem?_append] at thread
    split at thread
    · exact h.fits i t c thread conn
    · next last =>
        obtain ⟨inside, rfl⟩ := List.getElem?_eq_some_iff.1 thread
        have index : i = before.length := by
          have := congrArg List.length eq
          simp only [Loc.owed, List.length_append, List.length_singleton] at this inside count
          omega
        rw [← eq, index] at conn
        obtain rfl : d = c := by simpa [Loc.owed] using conn
        rw [List.getElem_singleton]
        exact ⟨written.1, written.2.2, written.2.1⟩

theorem Sound.thread (h : Sound s) {i : ℕ} (thread : s.threads[i]? = some t)
    (hstep : t.step s more = some t') : Sound { s with threads := s.threads.set i t' } where
  count := by
    rw [List.length_set]
    exact h.count
  owed := h.owed
  written := by
    have written := h.written
    cases hl : s.loc <;> rw [hl] at written <;> exact written
  fits j u c other conn := by
    dsimp only at other
    rw [List.getElem?_set] at other
    split at other
    · next same =>
        subst same
        rw [if_pos (List.getElem?_eq_some_iff.1 thread).1, Option.some.injEq] at other
        subst other
        have fits := (h.fits i t c thread conn).step hstep
        cases t' <;> exact fits
    · have fits := h.fits j u c other conn
      cases u <;> exact fits

theorem Sound.step {a : Act} (h : Sound s) (waits : Waits a s)
    (hstep : ThreadServ.step a s = some s') : Sound s' := by
  cases a with
  | accept r =>
      cases r with
      | none =>
          obtain ⟨loc, rfl⟩ := Option.ite_some_none_eq_some.1 hstep
          refine ⟨h.count, h.owed, ?_, fun i t c thread conn => ?_⟩
          · rw [loc]
            trivial
          · exact (h.fits i t c thread conn).of_readSockfd (waits t (List.mem_of_getElem? thread))
              rfl rfl
      | some d =>
          obtain ⟨loc, rfl⟩ := Option.ite_some_none_eq_some.1 hstep
          exact h.accept loc waits d
  | ip =>
      simp only [ThreadServ.step] at hstep
      split at hstep
      · next d loc =>
          obtain rfl := Option.some.inj hstep
          obtain ⟨count, owed, written, fits⟩ := h
          rw [loc] at count owed written
          exact ⟨count, owed, ⟨written, rfl⟩, fun i t c thread conn =>
            (fits i t c thread conn).of_readIp (waits t (List.mem_of_getElem? thread))⟩
      · cases hstep
  | port =>
      simp only [ThreadServ.step] at hstep
      split at hstep
      · next d loc =>
          obtain rfl := Option.some.inj hstep
          obtain ⟨count, owed, written, fits⟩ := h
          rw [loc] at count owed written
          exact ⟨count, owed, ⟨written.1, written.2, rfl⟩, fun i t c thread conn =>
            (fits i t c thread conn).of_readPort (waits t (List.mem_of_getElem? thread)) rfl⟩
      · cases hstep
  | create ok =>
      obtain rfl : ok = true := waits
      simp only [ThreadServ.step] at hstep
      split at hstep
      · next d loc =>
          obtain rfl := Option.some.inj hstep
          exact h.create loc
      · cases hstep
  | thread i more =>
      obtain ⟨t', ht, rfl⟩ := Option.map_eq_some_iff.1 hstep
      obtain ⟨t, thread, hstep⟩ := Option.bind_eq_some_iff.1 ht
      exact h.thread thread hstep

end Steps

/-- For any results of `accept` and any order of the steps of `main` and of the threads. -/
theorem handsOver_of_meets {as : List Act} {s : Server} (h : server.run as created = some s)
    (meets : server.Meets Waits as created) : HandsOver s := by
  have sound : Sound created := ⟨rfl, List.nil_suffix, trivial, by simp [created]⟩
  exact (Machine.invariant_of_meets (fun a s s' h ok hs => h.step ok hs) sound h meets).handsOver

def first : Conn := ⟨4, "10.0.0.1", 40001⟩

def second : Conn := ⟨5, "10.0.0.2", 40002⟩

/-- The first thread reads all before the second connection. -/
def inTurn : List Act :=
  [.accept (some first), .ip, .port, .create true, .thread 0 true, .thread 0 true, .thread 0 true,
    .accept none, .accept (some second), .ip, .thread 0 false, .port, .create true,
    .thread 1 true, .thread 1 true, .thread 1 true]

theorem handsOver_of_meets_inTurn : ∃ s, server.run inTurn created = some s ∧
    s.threads = [.exited first, .serving second] ∧ HandsOver s := by
  have final : (server.run inTurn created).map Server.threads =
      some [.exited first, .serving second] := by decide
  obtain ⟨s, run, threads⟩ := Option.map_eq_some_iff.1 final
  exact ⟨s, run, threads, handsOver_of_meets run (by decide)⟩

/-- The second connection is accepted before the first thread has read anything. -/
def overtaken : List Act :=
  [.accept (some first), .ip, .port, .create true, .accept (some second), .ip, .port, .create true,
    .thread 0 true, .thread 0 true, .thread 0 true, .thread 1 true, .thread 1 true, .thread 1 true]

/-- Both threads serve it. -/
theorem not_handsOver_overtaken : ∃ s, server.Reachable s ∧ s.conns = [first, second] ∧
    s.threads = [.serving second, .serving second] ∧ ¬ HandsOver s := by
  have final : (server.run overtaken created).map (fun s => (s.conns, s.threads)) =
      some ([first, second], [.serving second, .serving second]) := by decide
  obtain ⟨s, run, eq⟩ := Option.map_eq_some_iff.1 final
  obtain ⟨conns, threads⟩ := Prod.mk.inj eq
  refine ⟨s, Machine.reachable_of_run overtaken rfl run, conns, threads, fun h => ?_⟩
  have own := h.own 0 (.serving second) second (by rw [threads]; rfl) rfl
  rw [conns] at own
  exact absurd own (by decide)

end LinuxNote.ThreadServ
