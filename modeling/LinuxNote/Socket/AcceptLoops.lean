import LinuxNote.Conc.Machine
import Mathlib.Data.Int.Notation
import Mathlib.Data.List.Perm.Basic

/-!
# The descriptors of three accept loops

`main` of `servTCP.cpp` closes a connection when `Recv` or `Send` fails, and not when both succeed.
The parent in `processServTCP.cpp` leaves the descriptor to its child and closes none.  The parent
in `Webserver.c` closes the number that `waitpid` has returned, that of a child, as if it were a
descriptor.

`conserves_iff` says for each of them in which runs it is back at `accept` with all connections, and
nothing else, closed.
-/

namespace LinuxNote.AcceptLoops

open Conc

/-- Before the call of that name; `waitpid` with what `connfd` still holds from the round before. -/
inductive Loc
  | waitpid (connfd : ℤ)
  | accept
  | recv (fd : ℤ)
  | send (fd : ℤ)
  | fork (fd : ℤ)
  | exited
  deriving DecidableEq

/-- The descriptor table and the children; all descriptors that have been accepted, and closed. -/
structure Process where
  listenfd : ℤ
  fds : List ℤ
  children : List ℤ
  accepted : List ℤ
  closed : List ℤ
  loc : Loc

/-- What a call returns; or SIGCHLD, whose handler reaps a child. -/
inductive Act
  | waitpid (r : ℤ)
  | accept (r : ℤ)
  | recv (ok : Bool)
  | send (ok : Bool)
  | fork (r : ℤ)
  | sigChld (pid : ℤ)

/-- `close` fails where no descriptor of that number is open. -/
def Process.close (fd : ℤ) (s : Process) : Process :=
  if fd ∈ s.fds then { s with fds := s.fds.erase fd, closed := s.closed ++ [fd] } else s

/-- `accept` returns a descriptor that is not open, and the loop goes on at `ok`, or fails. -/
def Process.accept (r : ℤ) (ok error : Loc) (s : Process) : Option Process :=
  if r < 0 then some { s with loc := error }
  else if r ∈ s.fds then none
  else some { s with fds := r :: s.fds, accepted := s.accepted ++ [r], loc := ok }

/-- `fork` in the parent: a new child, or a failure. -/
def Process.fork (r : ℤ) (ok error : Loc) (s : Process) : Option Process :=
  if r < 0 then some { s with loc := error }
  else if r = 0 ∨ r ∈ s.children then none
  else some { s with children := r :: s.children, loc := ok }

def servTCP : Act → Process → Option Process
  | .accept r, s => if s.loc = .accept then s.accept r (.recv r) .accept else none
  | .recv ok, s =>
      match s.loc with
      | .recv fd =>
          some (if ok then { s with loc := .send fd } else { s.close fd with loc := .accept })
      | _ => none
  | .send ok, s =>
      match s.loc with
      | .send fd =>
          some (if ok then { s with loc := .accept } else { s.close fd with loc := .accept })
      | _ => none
  | _, _ => none

def processServTCP : Act → Process → Option Process
  | .accept r, s => if s.loc = .accept then s.accept r (.fork r) .accept else none
  | .fork r, s =>
      match s.loc with
      | .fork _ => s.fork r .accept .accept
      | _ => none
  | .sigChld pid, s =>
      if pid ∈ s.children then some { s with children := s.children.erase pid } else none
  | _, _ => none

/-- The result of `accept` is not looked at. -/
def webserver : Act → Process → Option Process
  | .waitpid r, s =>
      match s.loc with
      | .waitpid _ =>
          if r ≤ 0 then some { s with loc := .accept }
          else if r ∈ s.children then
            some { s.close r with children := s.children.erase r, loc := .accept }
          else none
      | _ => none
  | .accept r, s => if s.loc = .accept then s.accept r (.fork r) (.fork r) else none
  | .fork r, s =>
      match s.loc with
      | .fork fd => s.fork r (.waitpid fd) .exited
      | _ => none
  | _, _ => none

inductive Program
  | servTCP
  | processServTCP
  | webserver

def Program.step : Program → Act → Process → Option Process
  | .servTCP => AcceptLoops.servTCP
  | .processServTCP => AcceptLoops.processServTCP
  | .webserver => AcceptLoops.webserver

def Program.start : Program → Loc
  | .webserver => .waitpid (-1)
  | _ => .accept

/-- A process that listens, with the descriptors that it has then. -/
def created (p : Program) (listenfd : ℤ) (fds : List ℤ) : Process :=
  ⟨listenfd, fds, [], [], [], p.start⟩

def process (p : Program) (listenfd : ℤ) (fds : List ℤ) : Machine Process Act where
  init s := s = created p listenfd fds
  step := p.step

/-- Before `accept`: each descriptor accepted has been closed, as often as it was accepted, and no
other one; and the listening socket is open. -/
def Conserves (s : Process) : Prop :=
  s.loc = .accept → s.closed.Perm s.accepted ∧ s.listenfd ∈ s.fds

/-- In `servTCP.cpp` a `Send` fails.  In `processServTCP.cpp` there is nothing to close, which does
not happen behind `accept`.  In `Webserver.c` the child that is reaped has the number of the
descriptor accepted in the round before; if none was, it has the number of no open descriptor. -/
def Closes (p : Program) (a : Act) (s : Process) : Prop :=
  match p, a, s.loc with
  | .servTCP, .send ok, _ => ok = false
  | .processServTCP, .fork _, .fork fd => fd < 0
  | .webserver, .waitpid r, .waitpid connfd =>
      if connfd < 0 then 0 < r → r ∉ s.fds else r = connfd ∧ 0 < r
  | _, _, _ => True

instance (p : Program) (a : Act) (s : Process) : Decidable (Closes p a s) := by
  unfold Closes
  cases p <;> cases a <;> cases s.loc <;> infer_instance

/-- The descriptor that is accepted and not yet closed. -/
def Loc.pending : Loc → List ℤ
  | .waitpid connfd => if connfd < 0 then [] else [connfd]
  | .recv fd => [fd]
  | .send fd => [fd]
  | .fork fd => if fd < 0 then [] else [fd]
  | _ => []

/-- Besides the descriptors of the beginning only that one is open. -/
structure Kept (fds : List ℤ) (s : Process) : Prop where
  open_ : s.fds.Perm (s.loc.pending ++ fds)
  logs : s.accepted.Perm (s.closed ++ s.loc.pending)

structure Sound (listenfd : ℤ) (fds : List ℤ) (s : Process) : Prop where
  listens : s.listenfd = listenfd
  kept : s.loc ≠ .exited → Kept fds s

/-! ## The calls -/

section Calls

variable {s s' : Process} {fd r : ℤ} {sent : Bool} {loc error : Loc}

theorem accepted_close : (s.close fd).accepted = s.accepted := by
  unfold Process.close
  split <;> rfl

theorem closed_close :
    (s.close fd).closed = s.closed ∨ (s.close fd).closed = s.closed ++ [fd] := by
  unfold Process.close
  split
  · exact Or.inr rfl
  · exact Or.inl rfl

theorem exists_of_fork (hs : s.fork r loc error = some s') :
    ∃ children, s' = { s with children, loc } ∨ s' = { s with children, loc := error } := by
  unfold Process.fork at hs
  split at hs
  · exact ⟨s.children, Or.inr (Option.some.inj hs).symm⟩
  · split at hs
    · cases hs
    · exact ⟨r :: s.children, Or.inl (Option.some.inj hs).symm⟩

theorem exists_of_send (hs : servTCP (.send sent) s = some s') :
    ∃ fd, s.loc = .send fd ∧
      s' = if sent then { s with loc := .accept } else { s.close fd with loc := .accept } := by
  simp only [servTCP] at hs
  split at hs
  · next fd at_ => exact ⟨fd, at_, (Option.some.inj hs).symm⟩
  · cases hs

/-- Whether `fork` succeeds makes no difference to the parent. -/
theorem exists_of_processServTCP (hs : processServTCP (.fork r) s = some s') :
    ∃ fd children, s.loc = .fork fd ∧ s' = { s with children, loc := .accept } := by
  simp only [processServTCP] at hs
  split at hs
  · next fd at_ =>
      obtain ⟨children, eq | eq⟩ := exists_of_fork hs
      · exact ⟨fd, children, at_, eq⟩
      · exact ⟨fd, children, at_, eq⟩
  · cases hs

theorem exists_of_waitpid (hs : webserver (.waitpid r) s = some s') :
    ∃ connfd, s.loc = .waitpid connfd ∧ (r ≤ 0 ∧ s' = { s with loc := .accept } ∨
      0 < r ∧ s' = { s.close r with children := s.children.erase r, loc := .accept }) := by
  simp only [webserver] at hs
  split at hs
  · next connfd at_ =>
      refine ⟨connfd, at_, ?_⟩
      split at hs
      · next none => exact Or.inl ⟨none, (Option.some.inj hs).symm⟩
      · next pos =>
          obtain ⟨-, rfl⟩ := Option.ite_some_none_eq_some.1 hs
          exact Or.inr ⟨Int.not_le.1 pos, rfl⟩
  · cases hs

theorem pending_fork (h : ¬ fd < 0) : (Loc.fork fd).pending = [fd] := if_neg h

theorem pending_fork_of_neg (h : fd < 0) : (Loc.fork fd).pending = [] := if_pos h

theorem pending_waitpid (h : ¬ fd < 0) : (Loc.waitpid fd).pending = [fd] := if_neg h

theorem pending_waitpid_of_neg (h : fd < 0) : (Loc.waitpid fd).pending = [] := if_pos h

theorem ne_exited_of_pending (h : s.loc.pending = [fd]) : s.loc ≠ .exited := by
  intro exited
  rw [exited] at h
  cases h

theorem closes_fork (at_ : s.loc = .fork fd) : Closes .processServTCP (.fork r) s ↔ fd < 0 := by
  simp only [Closes, at_]

theorem closes_waitpid (at_ : s.loc = .waitpid fd) : Closes .webserver (.waitpid r) s ↔
    if fd < 0 then 0 < r → r ∉ s.fds else r = fd ∧ 0 < r := by
  simp only [Closes, at_]

end Calls

/-! ## Steps -/

section Steps

variable {listenfd : ℤ} {fds : List ℤ} {s s' : Process} {a : Act} {fd r : ℤ} {loc error : Loc}

theorem Sound.conserves (h : Sound listenfd fds s) (listening : listenfd ∈ fds) : Conserves s := by
  intro loc
  obtain ⟨open_, logs⟩ := h.kept (by simp [loc])
  rw [loc] at open_ logs
  refine ⟨(logs.trans (List.append_nil _ ▸ List.Perm.refl _)).symm, ?_⟩
  exact open_.mem_iff.2 (h.listens ▸ listening)

/-- A step of the loop that opens and closes nothing. -/
theorem Sound.move (h : Sound listenfd fds s) (children : List ℤ)
    (same : loc ≠ .exited → s.loc ≠ .exited ∧ loc.pending = s.loc.pending) :
    Sound listenfd fds { s with children, loc } where
  listens := h.listens
  kept live := by
    obtain ⟨before, pending⟩ := same live
    obtain ⟨open_, logs⟩ := h.kept before
    exact ⟨pending ▸ open_, pending ▸ logs⟩

/-- The descriptor that is to be closed is closed. -/
theorem Sound.close (h : Sound listenfd fds s) (pending : s.loc.pending = [fd])
    (children : List ℤ) : Sound listenfd fds { s.close fd with children, loc := .accept } := by
  obtain ⟨open_, logs⟩ := h.kept (ne_exited_of_pending pending)
  rw [pending] at open_ logs
  have mem : fd ∈ s.fds := open_.mem_iff.2 (List.mem_append_left _ (List.mem_singleton.2 rfl))
  rw [Process.close, if_pos mem]
  refine ⟨h.listens, fun _ => ⟨?_, ?_⟩⟩
  · have rest := open_.erase fd
    rwa [List.singleton_append, List.erase_cons_head] at rest
  · exact logs.trans (List.append_nil _ ▸ List.Perm.refl _)

theorem Sound.accept (h : Sound listenfd fds s) (at_ : s.loc = .accept)
    (hloc : 0 ≤ r → loc.pending = [r]) (herror : r < 0 → error ≠ .exited ∧ error.pending = [])
    (hs : s.accept r loc error = some s') : Sound listenfd fds s' := by
  have live : s.loc ≠ .exited := by simp [at_]
  have none : s.loc.pending = [] := by rw [at_]; rfl
  unfold Process.accept at hs
  split at hs
  · next neg =>
      obtain rfl := Option.some.inj hs
      exact h.move s.children fun _ => ⟨live, (herror neg).2.trans none.symm⟩
  · next nonneg =>
      split at hs
      · cases hs
      · obtain rfl := Option.some.inj hs
        obtain ⟨open_, logs⟩ := h.kept live
        have pending := hloc (Int.not_lt.1 nonneg)
        rw [none, List.nil_append] at open_
        rw [none, List.append_nil] at logs
        refine ⟨h.listens, fun _ => ⟨?_, ?_⟩⟩
        · show (r :: s.fds).Perm (loc.pending ++ fds)
          rw [pending]
          exact open_.cons r
        · exact pending ▸ logs.append_right [r]

/-- The loop is back without having closed the descriptor. -/
theorem Sound.not_conserves (h : Sound listenfd fds s) (pending : s.loc.pending = [fd])
    (hs : s'.accepted = s.accepted) (closed : s'.closed = s.closed ∨
      ∃ r, r ≠ fd ∧ s'.closed = s.closed ++ [r]) (at_ : s'.loc = .accept) : ¬ Conserves s' := by
  intro conserves
  have same := (conserves at_).1
  rw [hs] at same
  have logs := (h.kept (ne_exited_of_pending pending)).logs
  rw [pending] at logs
  have all := same.trans logs
  rcases closed with eq | ⟨r, ne, eq⟩
  · rw [eq] at all
    have := all.length_eq
    rw [List.length_append, List.length_singleton] at this
    omega
  · rw [eq, List.perm_append_left_iff, List.singleton_perm_singleton] at all
    exact ne all

theorem Sound.servTCP (h : Sound listenfd fds s) (closes : Closes .servTCP a s)
    (hs : AcceptLoops.servTCP a s = some s') : Sound listenfd fds s' := by
  cases a with
  | accept r =>
      obtain ⟨at_, hs⟩ := Option.ite_none_right_eq_some.1 hs
      exact h.accept at_ (fun _ => rfl) (fun _ => ⟨by simp, rfl⟩) hs
  | recv ok =>
      simp only [AcceptLoops.servTCP] at hs
      split at hs
      · next fd at_ =>
          obtain rfl := Option.some.inj hs
          cases ok with
          | true => exact h.move s.children fun _ => ⟨by simp [at_], by rw [at_]; rfl⟩
          | false => exact h.close (by rw [at_]; rfl) (s.close fd).children
      · cases hs
  | send ok =>
      obtain rfl : ok = false := closes
      obtain ⟨fd, at_, rfl⟩ := exists_of_send hs
      exact h.close (by rw [at_]; rfl) (s.close fd).children
  | _ => cases hs

theorem Sound.not_servTCP (h : Sound listenfd fds s) (leaks : ¬ Closes .servTCP a s)
    (hs : AcceptLoops.servTCP a s = some s') : ¬ Conserves s' := by
  cases a with
  | send ok =>
      obtain ⟨fd, at_, rfl⟩ := exists_of_send hs
      cases ok with
      | true => exact h.not_conserves (by rw [at_]; rfl) rfl (Or.inl rfl) rfl
      | false => exact absurd rfl leaks
  | _ => exact absurd trivial leaks

theorem Sound.processServTCP (h : Sound listenfd fds s) (closes : Closes .processServTCP a s)
    (hs : AcceptLoops.processServTCP a s = some s') : Sound listenfd fds s' := by
  cases a with
  | accept r =>
      obtain ⟨at_, hs⟩ := Option.ite_none_right_eq_some.1 hs
      exact h.accept at_ (fun nonneg => pending_fork (Int.not_lt.2 nonneg))
        (fun _ => ⟨by simp, rfl⟩) hs
  | fork r =>
      obtain ⟨fd, children, at_, rfl⟩ := exists_of_processServTCP hs
      refine h.move children fun _ => ⟨by simp [at_], ?_⟩
      rw [at_, pending_fork_of_neg ((closes_fork at_).1 closes)]
      rfl
  | sigChld pid =>
      obtain ⟨-, rfl⟩ := Option.ite_some_none_eq_some.1 hs
      exact h.move (s.children.erase pid) fun live => ⟨live, rfl⟩
  | _ => cases hs

theorem Sound.not_processServTCP (h : Sound listenfd fds s) (leaks : ¬ Closes .processServTCP a s)
    (hs : AcceptLoops.processServTCP a s = some s') : ¬ Conserves s' := by
  cases a with
  | fork r =>
      obtain ⟨fd, children, at_, rfl⟩ := exists_of_processServTCP hs
      have pending : s.loc.pending = [fd] := by
        rw [at_, pending_fork fun neg => leaks ((closes_fork at_).2 neg)]
      exact h.not_conserves pending rfl (Or.inl rfl) rfl
  | _ => exact absurd trivial leaks

/-- `waitpid` returns what is to be closed, or nothing is to be closed and nothing is. -/
theorem Sound.waitpid (h : Sound listenfd fds s) (closes : Closes .webserver (.waitpid r) s)
    (hs : AcceptLoops.webserver (.waitpid r) s = some s') : Sound listenfd fds s' := by
  obtain ⟨connfd, at_, after⟩ := exists_of_waitpid hs
  have live : s.loc ≠ .exited := by simp [at_]
  have closes := (closes_waitpid at_).1 closes
  by_cases neg : connfd < 0
  · rw [if_pos neg] at closes
    have none : Loc.accept.pending = s.loc.pending := by
      rw [at_, pending_waitpid_of_neg neg]
      rfl
    rcases after with ⟨-, rfl⟩ | ⟨pos, rfl⟩
    · exact h.move s.children fun _ => ⟨live, none⟩
    · rw [Process.close, if_neg (closes pos)]
      exact h.move (s.children.erase r) fun _ => ⟨live, none⟩
  · rw [if_neg neg] at closes
    obtain ⟨rfl, pos⟩ := closes
    rcases after with ⟨none, -⟩ | ⟨-, rfl⟩
    · exact absurd pos (Int.not_lt.2 none)
    · exact h.close (by rw [at_, pending_waitpid neg]) (s.children.erase r)

theorem Sound.webserver (h : Sound listenfd fds s) (closes : Closes .webserver a s)
    (hs : AcceptLoops.webserver a s = some s') : Sound listenfd fds s' := by
  cases a with
  | waitpid r => exact h.waitpid closes hs
  | accept r =>
      obtain ⟨at_, hs⟩ := Option.ite_none_right_eq_some.1 hs
      exact h.accept at_ (fun nonneg => pending_fork (Int.not_lt.2 nonneg))
        (fun neg => ⟨by simp, pending_fork_of_neg neg⟩) hs
  | fork r =>
      simp only [AcceptLoops.webserver] at hs
      split at hs
      · next fd at_ =>
          obtain ⟨children, rfl | rfl⟩ := exists_of_fork hs
          · exact h.move children fun _ => ⟨by simp [at_], by rw [at_]; rfl⟩
          · exact h.move children fun live => absurd rfl live
      · cases hs
  | _ => cases hs

theorem Sound.not_webserver (h : Sound listenfd fds s) (leaks : ¬ Closes .webserver a s)
    (hs : AcceptLoops.webserver a s = some s') : ¬ Conserves s' := by
  cases a with
  | waitpid r =>
      obtain ⟨connfd, at_, after⟩ := exists_of_waitpid hs
      rw [closes_waitpid at_] at leaks
      by_cases neg : connfd < 0
      · -- a descriptor is closed that was not accepted
        rw [if_pos neg, Classical.not_imp, not_not] at leaks
        obtain ⟨pos, mem⟩ := leaks
        rcases after with ⟨none, -⟩ | ⟨-, rfl⟩
        · exact absurd pos (Int.not_lt.2 none)
        · intro conserves
          have same := (conserves rfl).1.length_eq
          have logs := (h.kept (by simp [at_])).logs.length_eq
          rw [at_, pending_waitpid_of_neg neg, List.append_nil] at logs
          simp only [Process.close, if_pos mem, List.length_append, List.length_singleton] at same
          omega
      · rw [if_neg neg] at leaks
        have pending : s.loc.pending = [connfd] := by rw [at_, pending_waitpid neg]
        rcases after with ⟨-, rfl⟩ | ⟨pos, rfl⟩
        · exact h.not_conserves pending rfl (Or.inl rfl) rfl
        · have other : r ≠ connfd := fun eq => leaks ⟨eq, pos⟩
          refine h.not_conserves pending ?_ ?_ rfl
          · exact accepted_close
          · exact closed_close.imp_right fun eq => ⟨r, other, eq⟩
  | _ => exact absurd trivial leaks

theorem Sound.step {p : Program} (h : Sound listenfd fds s) (closes : Closes p a s)
    (hs : p.step a s = some s') : Sound listenfd fds s' := by
  cases p with
  | servTCP => exact h.servTCP closes hs
  | processServTCP => exact h.processServTCP closes hs
  | webserver => exact h.webserver closes hs

theorem Sound.not_step {p : Program} (h : Sound listenfd fds s) (leaks : ¬ Closes p a s)
    (hs : p.step a s = some s') : ¬ Conserves s' := by
  cases p with
  | servTCP => exact h.not_servTCP leaks hs
  | processServTCP => exact h.not_processServTCP leaks hs
  | webserver => exact h.not_webserver leaks hs

theorem sound_created (p : Program) (listenfd : ℤ) (fds : List ℤ) :
    Sound listenfd fds (created p listenfd fds) := by
  refine ⟨rfl, fun _ => ?_⟩
  cases p <;> exact ⟨List.Perm.refl _, List.Perm.refl _⟩

end Steps

/-- For each of the three programs and all results of its calls: whenever a run comes to `accept`
all connections and nothing else is closed, exactly when its steps close what they should. -/
theorem conserves_iff {p : Program} {listenfd : ℤ} {fds : List ℤ} (listening : listenfd ∈ fds)
    {as : List Act} {s : Process}
    (h : (process p listenfd fds).run as (created p listenfd fds) = some s) :
    (process p listenfd fds).Along Conserves as (created p listenfd fds) ↔
      (process p listenfd fds).Meets (Closes p) as (created p listenfd fds) :=
  Machine.along_iff_meets (I := Sound listenfd fds) (fun _ sound => sound.conserves listening)
    (fun _ _ _ sound closes hs => sound.step closes hs)
    (fun _ _ _ sound leaks hs => sound.not_step leaks hs) (sound_created p listenfd fds) h

/-- Two sessions that break off. -/
def brokenOff : List Act :=
  [.accept 4, .recv false, .accept (-1), .accept 4, .recv true, .send false]

theorem conserves_iff_brokenOff : ∃ s,
    (process .servTCP 3 [0, 1, 2, 3]).run brokenOff (created .servTCP 3 [0, 1, 2, 3]) = some s ∧
    s.closed = [4, 4] ∧ (process .servTCP 3 [0, 1, 2, 3]).Along Conserves brokenOff
      (created .servTCP 3 [0, 1, 2, 3]) := by
  have final : ((process .servTCP 3 [0, 1, 2, 3]).run brokenOff
      (created .servTCP 3 [0, 1, 2, 3])).map Process.closed = some [4, 4] := by decide +kernel
  obtain ⟨s, run, closed⟩ := Option.map_eq_some_iff.1 final
  exact ⟨s, run, closed, (conserves_iff (by decide) run).2 (by decide +kernel)⟩

/-- A session in which all succeeds. -/
def served : List Act := [.accept 4, .recv true, .send true]

/-- A connection for a child with the number 3, that exits. -/
def childThree : List Act := [.waitpid 0, .accept 4, .fork 3, .waitpid 3]

theorem not_conserves_of_closed {s : Process} {accepted closed : List ℤ}
    (eq : (s.loc, s.accepted, s.closed) = (.accept, accepted, closed))
    (ne : ¬ closed.Perm accepted) : ¬ Conserves s := by
  simp only [Prod.mk.injEq] at eq
  obtain ⟨loc, rfl, rfl⟩ := eq
  exact fun conserves => ne (conserves loc).1

/-- `servTCP.cpp` leaves the connection open, and `Webserver.c` closes its listening socket. -/
theorem not_conserves_served :
    (∃ s, (process .servTCP 3 [0, 1, 2, 3]).Reachable s ∧
      (s.loc, s.accepted, s.closed) = (.accept, [4], []) ∧ ¬ Conserves s) ∧
    ∃ s, (process .webserver 3 [0, 1, 2, 3]).Reachable s ∧
      (s.loc, s.accepted, s.closed) = (.accept, [4], [3]) ∧ ¬ Conserves s := by
  have tcp : ((process .servTCP 3 [0, 1, 2, 3]).run served (created .servTCP 3 [0, 1, 2, 3])).map
      (fun s => (s.loc, s.accepted, s.closed)) = some (.accept, [4], []) := by decide +kernel
  have web : ((process .webserver 3 [0, 1, 2, 3]).run childThree
      (created .webserver 3 [0, 1, 2, 3])).map (fun s => (s.loc, s.accepted, s.closed)) =
        some (.accept, [4], [3]) := by decide +kernel
  obtain ⟨s, run, eq⟩ := Option.map_eq_some_iff.1 tcp
  obtain ⟨s', run', eq'⟩ := Option.map_eq_some_iff.1 web
  exact ⟨⟨s, Machine.reachable_of_run served rfl run, eq, not_conserves_of_closed eq (by decide)⟩,
    s', Machine.reachable_of_run childThree rfl run', eq', not_conserves_of_closed eq' (by decide)⟩

end LinuxNote.AcceptLoops
