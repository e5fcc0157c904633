import LinuxNote.Conc.Machine
import LinuxNote.Conc.Table
import Mathlib.Data.Nat.Notation

/-!
# The book of children of the forking echo servers

`main2` of `TCP/server.c` and `main` of `UNIXDomainSocketIPC/server.c` write each child into the
first free slot of `pid_book`, and call `waitpid` for every slot that is not free before they wait
for a connection.  They do not clear the slot of a child that they have reaped.

So a slot is used once: `booked_iff` says that the book is sound exactly as long as no more than 20
children have been started, however few of them are left.
-/

namespace LinuxNote.PidBook

open Conc

/-- `main2` of `TCP/server.c`, and `main` of `UNIXDomainSocketIPC/server.c`. -/
inductive Program
  | main2
  | main
  deriving DecidableEq

/-- A connection, or an error of `accept`; `EINTR` and `ECONNABORTED` make `Accept` try again. -/
inductive Accepted
  | connection
  | again
  | error
  deriving DecidableEq

/-- Before the next `waitpid`, `accept`, `fork`, `close` or search; `overrun` is behind a write
outside of `pid_book`. -/
inductive Loc
  | poll (i : ℕ)
  | accept
  | fork
  | close (pid : ℕ)
  | store (pid : ℕ)
  | exited
  | overrun
  deriving DecidableEq

/-- The process, with its children that are not reaped and all that it has started. -/
structure Server where
  pid_book : List ℕ
  alive : List ℕ
  zombies : List ℕ
  started : List ℕ
  loc : Loc

/-- A child exits, or the process makes its next step; `fork` can fail, and so can `close`. -/
inductive Act
  | exit (pid : ℕ)
  | poll
  | accept (r : Accepted)
  | fork (r : Option ℕ)
  | close (ok : Bool)
  | store

/-- `waitpid(pid_book[i], NULL, WNOHANG)` for a slot that is not free. -/
def Server.wait (i : ℕ) (s : Server) : Server :=
  if s.pid_book.getD i 0 ≠ 0 then
    { s with zombies := s.zombies.erase (s.pid_book.getD i 0), loc := .poll (i + 1) }
  else { s with loc := .poll (i + 1) }

/-- `Accept` and `Close` exit on errors; the result of `serv_accept` is not looked at. -/
def Program.afterAccept : Program → Accepted → Loc
  | .main2, .connection => .fork
  | .main2, .again => .accept
  | .main2, .error => .exited
  | .main, _ => .fork

def Program.afterClose : Program → Bool → ℕ → Loc
  | .main2, false, _ => .exited
  | _, _, pid => .store pid

/-- The first free slot; after a search without success `i` is 20. -/
def Server.store (pid : ℕ) (s : Server) : Server :=
  let i := s.pid_book.findIdx (· = 0)
  if i < 20 then { s with pid_book := s.pid_book.set i pid, loc := .poll 0 }
  else { s with loc := .overrun }

def step (p : Program) : Act → Server → Option Server
  | .exit pid, s =>
      if pid ∈ s.alive then
        some { s with alive := s.alive.erase pid, zombies := s.zombies ++ [pid] }
      else none
  | .poll, s =>
      match s.loc with
      | .poll i => some (if i < 20 then s.wait i else { s with loc := .accept })
      | _ => none
  | .accept r, s => if s.loc = .accept then some { s with loc := p.afterAccept r } else none
  | .fork none, s => if s.loc = .fork then some { s with loc := .exited } else none
  | .fork (some pid), s =>
      if s.loc = .fork ∧ pid ≠ 0 ∧ pid ∉ s.alive ∧ pid ∉ s.zombies then
        some { s with alive := pid :: s.alive, started := s.started ++ [pid], loc := .close pid }
      else none
  | .close ok, s =>
      match s.loc with
      | .close pid => some { s with loc := p.afterClose ok pid }
      | _ => none
  | .store, s =>
      match s.loc with
      | .store pid => some (s.store pid)
      | _ => none

def created : Server := ⟨List.replicate 20 0, [], [], [], .poll 0⟩

def server (p : Program) : Machine Server Act where
  init s := s = created
  step := step p

/-- The child that is started and not yet in the book. -/
def Loc.held : Loc → List ℕ
  | .close pid => [pid]
  | .store pid => [pid]
  | _ => []

/-- No write outside of `pid_book`, and every child that is not reaped is in it or about to be. -/
structure Booked (s : Server) : Prop where
  inside : s.loc ≠ .overrun
  recorded : s.loc ≠ .exited →
    ∀ pid, pid ∈ s.alive ∨ pid ∈ s.zombies → pid ∈ s.pid_book ∨ pid ∈ s.loc.held

/-- A child is written into the book as one of the first 20. -/
def Room (a : Act) (s : Server) : Prop :=
  match a with
  | .store => s.started.length ≤ 20
  | _ => True

instance (a : Act) (s : Server) : Decidable (Room a s) := by
  unfold Room
  cases a <;> infer_instance

/-- All children so far, each in a slot of its own. -/
structure Filled (s : Server) : Prop where
  slots : ∃ past, s.started = past ++ s.loc.held ∧ past.length ≤ 20 ∧
    s.pid_book = past ++ List.replicate (20 - past.length) 0

structure Sound (s : Server) : Prop where
  inside : s.loc ≠ .overrun
  filled : s.loc ≠ .exited → Filled s
  nonzero : ∀ pid ∈ s.started, pid ≠ 0
  known : ∀ pid, pid ∈ s.alive ∨ pid ∈ s.zombies → pid ∈ s.started

/-! ## Steps -/

section Steps

variable {p : Program} {s s' : Server} {pid : ℕ}

theorem Sound.booked (h : Sound s) : Booked s where
  inside := h.inside
  recorded live pid unreaped := by
    obtain ⟨past, started, -, book⟩ := (h.filled live).slots
    have known := h.known pid unreaped
    rw [started, List.mem_append] at known
    exact known.imp_left fun mem => book ▸ List.mem_append_left _ mem

theorem exists_of_store (hs : PidBook.step p .store s = some s') :
    ∃ pid, s.loc = .store pid ∧ s' = s.store pid := by
  simp only [PidBook.step] at hs
  split at hs
  · next pid loc => exact ⟨pid, loc, (Option.some.inj hs).symm⟩
  · cases hs

/-- Steps that leave the book as it is. -/
theorem Sound.move (h : Sound s) {alive zombies : List ℕ} {loc : Loc}
    (known : ∀ pid, pid ∈ alive ∨ pid ∈ zombies → pid ∈ s.alive ∨ pid ∈ s.zombies)
    (inside : loc ≠ .overrun)
    (held : loc ≠ .exited → s.loc ≠ .exited ∧ loc.held = s.loc.held) :
    Sound { s with alive, zombies, loc } where
  inside := inside
  filled live := by
    obtain ⟨before, same⟩ := held live
    obtain ⟨past, started, slots⟩ := (h.filled before).slots
    exact ⟨past, same ▸ started, slots⟩
  nonzero := h.nonzero
  known pid mem := h.known pid (known pid mem)

theorem Sound.wait (h : Sound s) {i : ℕ} (loc : s.loc = .poll i) : Sound (s.wait i) := by
  have held : s.loc ≠ .exited ∧ Loc.held (.poll (i + 1)) = s.loc.held := by
    rw [loc]
    exact ⟨by simp, rfl⟩
  unfold Server.wait
  split
  · exact h.move (fun pid mem => mem.imp_right List.mem_of_mem_erase) (by simp) fun _ => held
  · exact h.move (fun _ => id) (by simp) fun _ => held

theorem Sound.fork (h : Sound s) (loc : s.loc = .fork) (pos : pid ≠ 0) :
    Sound { s with alive := pid :: s.alive, started := s.started ++ [pid], loc := .close pid } where
  inside := by simp
  filled _ := by
    have live : s.loc ≠ .exited := by simp [loc]
    obtain ⟨past, started, slots⟩ := (h.filled live).slots
    rw [loc] at started
    exact ⟨past, congrArg (· ++ [pid]) (started.trans (List.append_nil past)), slots⟩
  nonzero q mem := by
    rcases List.mem_append.1 mem with old | new
    · exact h.nonzero q old
    · exact List.mem_singleton.1 new ▸ pos
  known q mem := by
    rw [List.mem_cons, or_assoc] at mem
    rcases mem with rfl | mem
    · exact List.mem_append_right _ (List.mem_singleton.2 rfl)
    · exact List.mem_append_left _ (h.known q mem)

/-- Where the search ends. -/
theorem Sound.exists_past (h : Sound s) (loc : s.loc = .store pid) :
    ∃ past, s.started = past ++ [pid] ∧ past.length ≤ 20 ∧
      s.pid_book = past ++ List.replicate (20 - past.length) 0 ∧
      s.pid_book.findIdx (· = 0) = past.length := by
  have live : s.loc ≠ .exited := by simp [loc]
  obtain ⟨past, started, small, book⟩ := (h.filled live).slots
  rw [loc] at started
  have nonzero : ∀ q ∈ past, q ≠ 0 := fun q mem =>
    h.nonzero q (started ▸ List.mem_append_left _ mem)
  refine ⟨past, started, small, book, ?_⟩
  rw [book, findIdx_append_replicate (by simpa using nonzero) (by decide)]

theorem Sound.store (h : Sound s) (loc : s.loc = .store pid) (room : s.started.length ≤ 20) :
    Sound (s.store pid) := by
  obtain ⟨past, started, -, book, index⟩ := h.exists_past loc
  rw [started, List.length_append, List.length_singleton, Nat.add_one_le_iff] at room
  unfold Server.store
  dsimp only
  rw [index, if_pos room]
  refine ⟨by simp, fun _ => ⟨past ++ [pid], ?_, ?_, ?_⟩, h.nonzero, h.known⟩
  · exact started.trans (List.append_nil _).symm
  · rwa [List.length_append, List.length_singleton]
  · dsimp only
    rw [book, List.length_append, List.length_singleton,
      show 20 - past.length = 20 - (past.length + 1) + 1 by omega, set_append_replicate]

/-- Without a free slot the write is behind the last one. -/
theorem Sound.overrun (h : Sound s) (loc : s.loc = .store pid) (full : ¬ s.started.length ≤ 20) :
    (s.store pid).loc = .overrun := by
  obtain ⟨past, started, -, -, index⟩ := h.exists_past loc
  rw [started, List.length_append, List.length_singleton, Nat.add_one_le_iff] at full
  unfold Server.store
  dsimp only
  rw [index, if_neg full]

theorem Sound.step {a : Act} (h : Sound s) (room : Room a s)
    (hstep : PidBook.step p a s = some s') : Sound s' := by
  cases a with
  | exit pid =>
      obtain ⟨alive, rfl⟩ := Option.ite_some_none_eq_some.1 hstep
      refine h.move (fun q mem => ?_) h.inside fun live => ⟨live, rfl⟩
      rw [List.mem_append, List.mem_singleton] at mem
      rcases mem with mem | mem | rfl
      · exact Or.inl (List.mem_of_mem_erase mem)
      · exact Or.inr mem
      · exact Or.inl alive
  | poll =>
      simp only [PidBook.step] at hstep
      split at hstep
      · next i loc =>
          obtain rfl := Option.some.inj hstep
          split
          · exact h.wait loc
          · exact h.move (fun _ => id) (by simp) fun _ => by simp [loc, Loc.held]
      · cases hstep
  | accept r =>
      obtain ⟨loc, rfl⟩ := Option.ite_some_none_eq_some.1 hstep
      refine h.move (fun _ => id) ?_ fun _ => ⟨by simp [loc], ?_⟩
      · cases p <;> cases r <;> simp [Program.afterAccept]
      · rw [loc]
        cases p <;> cases r <;> rfl
  | fork r =>
      cases r with
      | none =>
          obtain ⟨-, rfl⟩ := Option.ite_some_none_eq_some.1 hstep
          exact h.move (fun _ => id) (by simp) fun live => absurd rfl live
      | some pid =>
          obtain ⟨⟨loc, pos, -⟩, rfl⟩ := Option.ite_some_none_eq_some.1 hstep
          exact h.fork loc pos
  | close ok =>
      simp only [PidBook.step] at hstep
      split at hstep
      · next pid loc =>
          obtain rfl := Option.some.inj hstep
          refine h.move (fun _ => id) ?_ fun live => ⟨by simp [loc], ?_⟩
          · cases p <;> cases ok <;> simp [Program.afterClose]
          · rw [loc]
            cases p <;> cases ok <;> first | rfl | exact absurd rfl live
      · cases hstep
  | store =>
      obtain ⟨pid, loc, rfl⟩ := exists_of_store hstep
      exact h.store loc room

/-- The only step that can fail is the one that writes. -/
theorem Sound.not_booked {a : Act} (h : Sound s) (full : ¬ Room a s)
    (hstep : PidBook.step p a s = some s') : ¬ Booked s' := by
  cases a with
  | store =>
      obtain ⟨pid, loc, rfl⟩ := exists_of_store hstep
      exact fun booked => booked.inside (h.overrun loc full)
  | _ => exact absurd trivial full

end Steps

/-- For both servers and any connections and exits: the book is sound in every state that a run
visits exactly when no child behind the first 20 is written into it. -/
theorem booked_iff {p : Program} {as : List Act} {s : Server}
    (h : (server p).run as created = some s) :
    (server p).Along Booked as created ↔ (server p).Meets Room as created := by
  have start : Sound created := by
    refine ⟨by simp [created], fun _ => ⟨[], rfl, by simp, rfl⟩, ?_, ?_⟩ <;> simp [created]
  exact Machine.along_iff_meets (I := Sound) (fun _ sound => sound.booked)
    (fun _ _ _ sound room hs => sound.step room hs)
    (fun _ _ _ sound full hs => sound.not_booked full hs) start h

/-- One round for a client that leaves at once; the child has the given number. -/
def round (pid : ℕ) : List Act :=
  List.replicate 21 .poll ++ [.accept .connection, .fork (some pid), .close true, .exit pid, .store]

theorem booked_iff_twoClients : ∃ s, (server .main2).run (round 1 ++ round 2) created = some s ∧
    s.pid_book.take 3 = [1, 2, 0] ∧ (server .main2).Along Booked (round 1 ++ round 2) created := by
  have final : ((server .main2).run (round 1 ++ round 2) created).map (·.pid_book.take 3) =
      some [1, 2, 0] := by decide +kernel
  obtain ⟨s, run, book⟩ := Option.map_eq_some_iff.1 final
  exact ⟨s, run, book, (booked_iff run).2 (by decide +kernel)⟩

/-- 21 such clients, one after the other. -/
def clients : List Act := (List.range 21).flatMap fun i => round (i + 1)

/-- All children but the last have been reaped, and it is written to `pid_book[20]`. -/
theorem not_booked_clients : ∃ s, (server .main2).Reachable s ∧ s.alive = [] ∧ s.zombies = [21] ∧
    s.loc = .overrun ∧ ¬ Booked s := by
  have final : ((server .main2).run clients created).map (fun s => (s.alive, s.zombies, s.loc)) =
      some ([], [21], .overrun) := by decide +kernel
  obtain ⟨s, run, eq⟩ := Option.map_eq_some_iff.1 final
  simp only [Prod.mk.injEq] at eq
  obtain ⟨alive, zombies, loc⟩ := eq
  exact ⟨s, Machine.reachable_of_run clients rfl run, alive, zombies, loc,
    fun booked => booked.inside loc⟩

end LinuxNote.PidBook
