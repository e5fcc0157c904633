import LinuxNote.Conc.Progress
import LinuxNote.Ipc.Pipe

/-!
# `ps -ef | grep sshd`

`pipe2.c` makes a pipe and two children.  The first writes its output into the pipe, the second
closes the write end and reads until the end of file; the parent closes both ends and waits.

`delivers_of_reachable`: the second child reads what the first has written, and meets the end of
file only behind all of it.  The first child does not close the read end: it is never killed by
SIGPIPE, and `returned_iff_of_stuck` says when it is left behind instead, blocked in `write` for
ever.
-/

namespace LinuxNote.Pipe2

open Conc Function Ipc

inductive Proc
  | parent
  | ps
  | grep
  deriving DecidableEq

instance : Fintype Proc := ⟨{.parent, .ps, .grep}, fun p => by cases p <;> decide⟩

/-- Each location is before the call it names, with the index of the call. -/
inductive Parent
  | fork1
  | fork2
  | close0
  | close1
  | wait1
  | wait2
  | returned
  deriving DecidableEq

/-- The first child; `runs` is behind `execl`, `failed` behind an `execl` that has returned. -/
inductive Ps
  | unborn
  | dup2
  | execl
  | runs
  | exited
  | failed
  | killed
  deriving DecidableEq

/-- The second child. -/
inductive Grep
  | unborn
  | close1
  | dup2
  | execl
  | runs
  | exited
  | failed
  deriving DecidableEq

structure State (α : Type*) where
  parent : Parent
  ps : Ps
  grep : Grep
  pid1 : Option Proc
  pid2 : Option Proc
  reaped : List Proc
  /-- What `ps` has still to write, and what `grep` has read. -/
  left : List α
  got : List α
  pipe : Pipe Proc α

/-- `fork` and `execl` can fail; a `read` and a `write` transfer `n` bytes. -/
inductive Act
  | parent (ok : Bool)
  | ps (ok : Bool) (n : ℕ)
  | grep (ok : Bool) (n : ℕ)

variable {α : Type*}

/-- The child has been started. -/
def State.Born (s : State α) : Proc → Prop
  | .parent => False
  | .ps => s.ps ≠ .unborn
  | .grep => s.grep ≠ .unborn

/-- The process has come to its end. -/
def State.Ended (s : State α) : Proc → Prop
  | .parent => s.parent = .returned
  | .ps => s.ps = .exited ∨ s.ps = .failed ∨ s.ps = .killed
  | .grep => s.grep = .exited ∨ s.grep = .failed

instance (s : State α) (p : Proc) : Decidable (s.Born p) := by
  unfold State.Born
  cases p <;> infer_instance

instance (s : State α) (p : Proc) : Decidable (s.Ended p) := by
  unfold State.Ended
  cases p <;> infer_instance

/-- The children that `waitpid(pid, NULL, 0)` can be about; `none` is -1, which means any. -/
def State.waited (s : State α) (pid : Option Proc) : List Proc :=
  [.ps, .grep].filter fun c => s.Born c ∧ c ∉ s.reaped ∧ (pid = none ∨ pid = some c)

/-- Returns at once where there is no such child, and else with the first one that has ended. -/
def State.waitpid (s : State α) (pid : Option Proc) (next : Parent) : Option (State α) :=
  if s.waited pid = [] then some { s with parent := next }
  else match (s.waited pid).find? fun c => s.Ended c with
    | some c => some { s with parent := next, reaped := c :: s.reaped }
    | none => none

def State.stepParent (s : State α) (ok : Bool) : Option (State α) :=
  match s.parent with
  | .fork1 =>
      if ok then
        some { s with
          parent := .fork2
          ps := .dup2
          pid1 := some .ps
          pipe := s.pipe.fork .parent .ps }
      else some { s with parent := .fork2 }
  | .fork2 =>
      if ok then
        some { s with
          parent := .close0
          grep := .close1
          pid2 := some .grep
          pipe := s.pipe.fork .parent .grep }
      else some { s with parent := .close0 }
  | .close0 => some { s with parent := .close1, pipe := s.pipe.close .parent 3 }
  | .close1 => some { s with parent := .wait1, pipe := s.pipe.close .parent 4 }
  | .wait1 => s.waitpid s.pid1 .wait2
  | .wait2 => s.waitpid s.pid2 .returned
  | .returned => none

def State.stepPs (cap : ℕ) (s : State α) (ok : Bool) (n : ℕ) : Option (State α) :=
  match s.ps with
  | .dup2 => some { s with ps := .execl, pipe := s.pipe.dup2 .ps 4 1 }
  | .execl =>
      if ok then some { s with ps := .runs }
      else some { s with ps := .failed, pipe := s.pipe.exit .ps }
  | .runs =>
      if s.left = [] then some { s with ps := .exited, pipe := s.pipe.exit .ps }
      else match s.pipe.write cap s.left n with
        | .wrote k => some { s with left := s.left.drop n, pipe := k }
        | .sigpipe => some { s with ps := .killed, pipe := s.pipe.exit .ps }
        | .blocked => none
  | _ => none

/-- Reads at most `asked` bytes at a time. -/
def State.stepGrep (asked : ℕ) (s : State α) (ok : Bool) (n : ℕ) : Option (State α) :=
  match s.grep with
  | .close1 => some { s with grep := .dup2, pipe := s.pipe.close .grep 4 }
  | .dup2 => some { s with grep := .execl, pipe := s.pipe.dup2 .grep 3 0 }
  | .execl =>
      if ok then some { s with grep := .runs }
      else some { s with grep := .failed, pipe := s.pipe.exit .grep }
  | .runs =>
      match s.pipe.read asked n with
      | some (bytes, k) =>
          if bytes = [] then some { s with grep := .exited, pipe := k.exit .grep }
          else some { s with got := s.got ++ bytes, pipe := k }
      | none => none
  | _ => none

def step (cap asked : ℕ) : Act → State α → Option (State α)
  | .parent ok, s => s.stepParent ok
  | .ps ok n, s => s.stepPs cap ok n
  | .grep ok n, s => s.stepGrep asked ok n

/-- The descriptors behind `pipe`: 0, 1 and 2 are open already. -/
def created : List (Option File) :=
  [some .other, some .other, some .other, some .reader, some .writer]

def start (out : List α) : State α where
  parent := .fork1
  ps := .unborn
  grep := .unborn
  pid1 := none
  pid2 := none
  reaped := []
  left := out
  got := []
  pipe := ⟨[], fun p => if p = .parent then created else []⟩

/-- `out` is the output of the first child, and the pipe has room for `cap` bytes. -/
def system (cap asked : ℕ) (out : List α) : Machine (State α) Act where
  init s := s = start out
  step := step cap asked

/-! ## Descriptors -/

def Parent.fds : Parent → List (Option File)
  | .fork1 | .fork2 | .close0 => created
  | .close1 => [some .other, some .other, some .other, none, some .writer]
  | .wait1 | .wait2 | .returned => [some .other, some .other, some .other, none, none]

def Ps.fds : Ps → List (Option File)
  | .dup2 => created
  | .execl | .runs => [some .other, some .writer, some .other, some .reader, some .writer]
  | .unborn | .exited | .failed | .killed => []

def Grep.fds : Grep → List (Option File)
  | .close1 => created
  | .dup2 => [some .other, some .other, some .other, some .reader, none]
  | .execl | .runs => [some .reader, some .other, some .other, some .reader, none]
  | .unborn | .exited | .failed => []

def State.table (s : State α) : Proc → List (Option File)
  | .parent => s.parent.fds
  | .ps => s.ps.fds
  | .grep => s.grep.fds

/-- The parent has closed the write end. -/
def Parent.Closed : Parent → Prop
  | .wait1 | .wait2 | .returned => True
  | _ => False

/-- The child does nothing more, or has never been started. -/
def Ps.Over : Ps → Prop
  | .unborn | .exited | .failed | .killed => True
  | _ => False

def Grep.Over : Grep → Prop
  | .unborn | .exited | .failed => True
  | _ => False

/-- What the parent knows of its children. -/
def Parent.Knows (ps : Ps) (grep : Grep) : Parent → Prop
  | .fork1 => ps = .unborn ∧ grep = .unborn
  | .fork2 => grep = .unborn
  | .close0 | .close1 | .wait1 => True
  | .wait2 => ps.Over
  | .returned => ps.Over ∧ grep.Over

structure Sound (cap : ℕ) (out : List α) (s : State α) : Prop where
  fds : s.pipe.fds = s.table
  knows : s.parent.Knows s.ps s.grep
  pid1 : s.pid1 = if s.ps = .unborn then none else some .ps
  pid2 : s.pid2 = if s.grep = .unborn then none else some .grep
  reaped : ∀ c ∈ s.reaped, c ≠ .parent ∧ s.Ended c
  alive : s.ps ≠ .killed
  bytes : s.got ++ s.pipe.buf ++ s.left = out
  room : s.pipe.buf.length ≤ cap
  unread : s.got ≠ [] → s.grep = .runs ∨ s.grep = .exited
  unwritten : s.ps ≠ .runs → s.ps ≠ .exited → s.left = out
  written : s.ps = .exited → s.left = []
  eof : s.grep = .exited → s.pipe.buf = [] ∧ s.parent.Closed ∧ s.ps.Over

variable {cap asked n : ℕ} {ok : Bool} {out : List α} {s s' : State α} {pid : Option Proc}
  {next : Parent} {c : Proc}

theorem sound_start : Sound cap out (start out) where
  fds := funext fun p => by cases p <;> rfl
  knows := ⟨rfl, rfl⟩
  pid1 := rfl
  pid2 := rfl
  reaped c hc := by cases hc
  alive h := by cases h
  bytes := rfl
  room := Nat.zero_le _
  unread h := absurd rfl h
  unwritten _ _ := rfl
  written h := by cases h
  eof h := by cases h

/-- Somebody holds the write end unless the parent has closed it, the first child is over and the
second has closed its own. -/
theorem open_writer_iff (fds : s.pipe.fds = s.table) :
    s.pipe.Open .writer ↔ ¬ s.parent.Closed ∨ ¬ s.ps.Over ∨ s.grep = .close1 := by
  unfold Pipe.Open
  rw [fds]
  constructor
  · rintro ⟨p, hp⟩
    cases p with
    | parent =>
        refine .inl fun closed => ?_
        cases h : s.parent <;> simp_all [State.table, Parent.fds, Parent.Closed]
    | ps =>
        refine .inr (.inl fun done => ?_)
        cases h : s.ps <;> simp_all [State.table, Ps.fds, Ps.Over]
    | grep =>
        refine .inr (.inr ?_)
        cases h : s.grep <;> simp_all [State.table, Grep.fds, created]
  · rintro (more | more | here)
    · refine ⟨.parent, ?_⟩
      cases h : s.parent <;> simp_all [State.table, Parent.fds, Parent.Closed, created]
    · refine ⟨.ps, ?_⟩
      cases h : s.ps <;> simp_all [State.table, Ps.fds, Ps.Over, created]
    · exact ⟨.grep, by simp [State.table, here, Grep.fds, created]⟩

theorem open_reader_of_runs (fds : s.pipe.fds = s.table) (runs : s.ps = .runs) :
    s.pipe.Open .reader :=
  ⟨.ps, by rw [fds, State.table, runs]; simp [Ps.fds]⟩

/-! ## Waiting -/

theorem mem_waited : c ∈ s.waited pid ↔
    s.Born c ∧ c ∉ s.reaped ∧ (pid = none ∨ pid = some c) := by
  rw [State.waited, List.mem_filter, decide_eq_true_iff, and_iff_right_iff_imp]
  rintro ⟨born, -⟩
  cases c with
  | parent => exact born.elim
  | ps | grep => simp

theorem waitpid_cases (h : s.waitpid pid next = some s') :
    ∃ r, s' = { s with parent := next, reaped := r } ∧
      (∀ c ∈ r, c ∈ s.reaped ∨ c ≠ .parent ∧ s.Ended c) ∧
      (s.waited pid = [] ∨ ∃ c ∈ s.waited pid, s.Ended c) := by
  unfold State.waitpid at h
  split at h
  · next nobody => exact ⟨s.reaped, (Option.some.inj h).symm, fun c hc => .inl hc, .inl nobody⟩
  · split at h
    · next c hc =>
        have ended : s.Ended c := by simpa using List.find?_some hc
        refine ⟨c :: s.reaped, (Option.some.inj h).symm, fun d hd => ?_,
          .inr ⟨c, List.mem_of_find?_eq_some hc, ended⟩⟩
        rcases List.mem_cons.1 hd with rfl | old
        · refine .inr ⟨?_, ended⟩
          rintro rfl
          exact (mem_waited.1 (List.mem_of_find?_eq_some hc)).1
        · exact .inl old
    · cases h

/-- `waitpid` returns from a child that was started only when that child has ended. -/
theorem ended_of_waitpid (reaped : ∀ c ∈ s.reaped, c ≠ .parent ∧ s.Ended c) (born : s.Born c)
    (h : s.waitpid (some c) next = some s') : s.Ended c := by
  obtain ⟨-, -, -, nobody | ⟨d, hd, ended⟩⟩ := waitpid_cases h
  · by_contra running
    have waited : c ∈ s.waited (some c) :=
      mem_waited.2 ⟨born, fun old => running (reaped c old).2, .inr rfl⟩
    rw [nobody] at waited
    cases waited
  · rcases (mem_waited.1 hd).2.2 with e | e
    · cases e
    · exact Option.some.inj e ▸ ended

theorem exists_waitpid (all : ∀ c, s.Born c → s.Ended c) : ∃ s', s.waitpid pid next = some s' := by
  unfold State.waitpid
  split
  · exact ⟨_, rfl⟩
  · next some_ =>
      obtain ⟨c, hc⟩ := List.exists_mem_of_ne_nil _ some_
      have found : ((s.waited pid).find? fun c => s.Ended c).isSome :=
        List.find?_isSome.2 ⟨c, hc, by simpa using all c (mem_waited.1 hc).1⟩
      obtain ⟨d, hd⟩ := Option.isSome_iff_exists.1 found
      rw [hd]
      exact ⟨_, rfl⟩

/-! ## Steps -/

theorem over_ps (alive : s.ps ≠ .killed) (waited : s.Born .ps → s.Ended .ps) : s.ps.Over := by
  cases e : s.ps <;> simp_all [State.Born, State.Ended, Ps.Over]

theorem over_grep (waited : s.Born .grep → s.Ended .grep) : s.grep.Over := by
  cases e : s.grep <;> simp_all [State.Born, State.Ended, Grep.Over]

/-- The parent goes on, with what `waitpid` has reaped. -/
theorem Sound.goParent (h : Sound cap out s) {p : Parent} {k : Pipe Proc α} {r : List Proc}
    (buf : k.buf = s.pipe.buf) (fds : k.fds = update s.pipe.fds .parent p.fds)
    (old : ∀ c ∈ r, c ≠ .parent ∧ s.Ended c) (knows : p.Knows s.ps s.grep)
    (closed : s.parent.Closed → p.Closed) :
    Sound cap out { s with parent := p, pipe := k, reaped := r } where
  fds := by
    funext c
    cases c <;> simp [fds, h.fds, State.table]
  knows := knows
  pid1 := h.pid1
  pid2 := h.pid2
  reaped c hc := by
    obtain ⟨ne, ended⟩ := old c hc
    refine ⟨ne, ?_⟩
    cases c with
    | parent => exact absurd rfl ne
    | ps | grep => exact ended
  alive := h.alive
  bytes := buf ▸ h.bytes
  room := buf ▸ h.room
  unread := h.unread
  unwritten := h.unwritten
  written := h.written
  eof e := ⟨buf ▸ (h.eof e).1, closed (h.eof e).2.1, (h.eof e).2.2⟩

theorem Sound.fork1 (h : Sound cap out s) (at_ : s.parent = .fork1) : Sound cap out { s with
    parent := .fork2, ps := .dup2, pid1 := some .ps, pipe := s.pipe.fork .parent .ps } := by
  have knows := h.knows
  rw [at_] at knows
  obtain ⟨unborn, unborn'⟩ := knows
  exact { h with
    fds := by
      funext c
      cases c <;> simp [h.fds, State.table, at_, Parent.fds, Ps.fds]
    knows := unborn'
    pid1 := rfl
    reaped := fun c hc => by
      have ended := h.reaped c hc
      cases c <;> simp_all [State.Ended]
    alive := fun e => by cases e
    unwritten := fun _ _ => h.unwritten (by simp [unborn]) (by simp [unborn])
    written := fun e => by cases e
    eof := fun e => by simp [unborn'] at e }

theorem Sound.fork2 (h : Sound cap out s) (at_ : s.parent = .fork2) : Sound cap out { s with
    parent := .close0, grep := .close1, pid2 := some .grep,
    pipe := s.pipe.fork .parent .grep } := by
  have unborn := h.knows
  rw [at_] at unborn
  exact { h with
    fds := by
      funext c
      cases c <;> simp [h.fds, State.table, at_, Parent.fds, Grep.fds]
    knows := trivial
    pid2 := rfl
    reaped := fun c hc => by
      have ended := h.reaped c hc
      cases c <;> simp_all [State.Ended, Parent.Knows]
    unread := fun some_ => by
      have reading := h.unread some_
      simp_all [Parent.Knows]
    eof := fun e => by cases e }

theorem Sound.stepParent (h : Sound cap out s) (hs : s.stepParent ok = some s') :
    Sound cap out s' := by
  have here : s.pipe.fds .parent = s.parent.fds := congrFun h.fds .parent
  have same {p : Parent} (e : s.parent.fds = p.fds) :
      s.pipe.fds = update s.pipe.fds .parent p.fds := by
    rw [← e, ← here, update_eq_self]
  have knows := h.knows
  unfold State.stepParent at hs
  split at hs
  · next at_ =>
      rw [at_] at here knows
      split at hs
      · obtain rfl := Option.some.inj hs
        exact h.fork1 at_
      · obtain rfl := Option.some.inj hs
        exact h.goParent rfl (same (by rw [at_]; rfl)) h.reaped
          knows.2 (by rw [at_]; exact id)
  · next at_ =>
      rw [at_] at here knows
      split at hs
      · obtain rfl := Option.some.inj hs
        exact h.fork2 at_
      · obtain rfl := Option.some.inj hs
        exact h.goParent rfl (same (by rw [at_]; rfl)) h.reaped
          trivial (by rw [at_]; exact id)
  · next at_ =>
      rw [at_] at here
      obtain rfl := Option.some.inj hs
      exact h.goParent rfl (by rw [Pipe.close, here]; rfl) h.reaped trivial (by rw [at_]; exact id)
  · next at_ =>
      rw [at_] at here
      obtain rfl := Option.some.inj hs
      exact h.goParent rfl (by rw [Pipe.close, here]; rfl) h.reaped trivial (fun _ => trivial)
  · next at_ =>
      rw [at_] at here
      have ended : s.Born .ps → s.Ended .ps := fun born => by
        have waited : s.waitpid (some .ps) .wait2 = some s' := by rwa [h.pid1, if_neg born] at hs
        exact ended_of_waitpid h.reaped born waited
      obtain ⟨r, rfl, old, -⟩ := waitpid_cases hs
      refine h.goParent rfl (same (by rw [at_]; rfl)) (fun c hc => ?_)
        (over_ps h.alive ended) (fun _ => trivial)
      exact (old c hc).elim (h.reaped c) id
  · next at_ =>
      rw [at_] at here knows
      have ended : s.Born .grep → s.Ended .grep := fun born => by
        have waited : s.waitpid (some .grep) .returned = some s' := by
          rwa [h.pid2, if_neg born] at hs
        exact ended_of_waitpid h.reaped born waited
      obtain ⟨r, rfl, old, -⟩ := waitpid_cases hs
      refine h.goParent rfl (same (by rw [at_]; rfl)) (fun c hc => ?_)
        ⟨knows, over_grep ended⟩ (fun _ => trivial)
      exact (old c hc).elim (h.reaped c) id
  · cases hs

theorem Parent.Knows.movePs {p : Parent} {ps ps' : Ps} {grep : Grep} (h : p.Knows ps grep)
    (running : ¬ ps.Over) : p.Knows ps' grep := by
  cases p with
  | fork1 => exact absurd (h.1 ▸ trivial) running
  | fork2 | close0 | close1 | wait1 => exact h
  | wait2 => exact absurd h running
  | returned => exact absurd h.1 running

theorem Parent.Knows.moveGrep {p : Parent} {ps : Ps} {grep grep' : Grep} (h : p.Knows ps grep)
    (running : ¬ grep.Over) : p.Knows ps grep' := by
  cases p with
  | fork1 => exact absurd (h.2 ▸ trivial) running
  | fork2 => exact absurd (h ▸ trivial) running
  | close0 | close1 | wait1 | wait2 => exact h
  | returned => exact absurd h.2 running

/-- The first child goes on, which was not over. -/
theorem Sound.goPs (h : Sound cap out s) (running : ¬ s.ps.Over) {q : Ps} {k : Pipe Proc α}
    {left : List α} (born : q ≠ .unborn) (alive : q ≠ .killed)
    (fds : k.fds = update s.pipe.fds .ps q.fds) (bytes : s.got ++ k.buf ++ left = out)
    (room : k.buf.length ≤ cap) (unwritten : q ≠ .runs → q ≠ .exited → left = out)
    (written : q = .exited → left = []) :
    Sound cap out { s with ps := q, left := left, pipe := k } where
  fds := by
    funext c
    cases c <;> simp [fds, h.fds, State.table]
  knows := h.knows.movePs running
  pid1 := by
    have unborn : s.ps ≠ .unborn := fun e => running (by rw [e]; trivial)
    rw [h.pid1, if_neg unborn, if_neg born]
  pid2 := h.pid2
  reaped c hc := by
    obtain ⟨ne, ended⟩ := h.reaped c hc
    refine ⟨ne, ?_⟩
    cases c with
    | ps => exact absurd (by rcases ended with e | e | e <;> rw [e] <;> trivial) running
    | parent | grep => exact ended
  alive := alive
  bytes := bytes
  room := room
  unread := h.unread
  unwritten := unwritten
  written := written
  eof e := absurd (h.eof e).2.2 running

theorem Sound.stepPs (h : Sound cap out s) {n : ℕ} (hs : s.stepPs cap ok n = some s') :
    Sound cap out s' := by
  have here : s.pipe.fds .ps = s.ps.fds := congrFun h.fds .ps
  have same {q : Ps} (e : s.ps.fds = q.fds) : s.pipe.fds = update s.pipe.fds .ps q.fds := by
    rw [← e, ← here, update_eq_self]
  unfold State.stepPs at hs
  split at hs
  · next at_ =>
      rw [at_] at here
      obtain rfl := Option.some.inj hs
      refine h.goPs (by rw [at_]; exact id) (by decide) (by decide) ?_ h.bytes h.room
        (fun _ _ => ?_) (fun e => by cases e)
      · rw [Pipe.dup2, here]
        rfl
      · exact h.unwritten (by rw [at_]; decide) (by rw [at_]; decide)
  · next at_ =>
      have left := h.unwritten (by rw [at_]; decide) (by rw [at_]; decide)
      split at hs
      · obtain rfl := Option.some.inj hs
        exact h.goPs (by rw [at_]; exact id) (by decide) (by decide) (same (by rw [at_]; rfl))
          h.bytes h.room (fun e => absurd rfl e) (fun e => by cases e)
      · obtain rfl := Option.some.inj hs
        exact h.goPs (by rw [at_]; exact id) (by decide) (by decide) rfl h.bytes h.room
          (fun _ _ => left) (fun e => by cases e)
  · next at_ =>
      have running : ¬ s.ps.Over := by rw [at_]; exact id
      split at hs
      · next none_ =>
          obtain rfl := Option.some.inj hs
          exact h.goPs running (by decide) (by decide) rfl h.bytes h.room
            (fun _ e => absurd rfl e) (fun _ => none_)
      · split at hs
        · next k wrote =>
            obtain rfl := Option.some.inj hs
            obtain ⟨sent, rest, -, bytes, rfl, buf, fds, room⟩ := Pipe.write_cases wrote
            refine h.goPs running (by rw [at_]; decide) (by rw [at_]; decide) (fds ▸ same rfl) ?_
              room (fun e => absurd at_ e) (fun e => absurd (at_.symm.trans e) (by decide))
            rw [buf, ← List.append_assoc, List.append_assoc _ sent, ← bytes]
            exact h.bytes
        · next broken =>
            exact absurd (open_reader_of_runs h.fds at_) (Pipe.not_open_of_sigpipe broken)
        · cases hs
  · cases hs

/-- The second child goes on, which was not over. -/
theorem Sound.goGrep (h : Sound cap out s) (running : ¬ s.grep.Over) {q : Grep} {k : Pipe Proc α}
    {got : List α} (born : q ≠ .unborn) (fds : k.fds = update s.pipe.fds .grep q.fds)
    (bytes : got ++ k.buf ++ s.left = out) (room : k.buf.length ≤ cap)
    (unread : got ≠ [] → q = .runs ∨ q = .exited)
    (eof : q = .exited → k.buf = [] ∧ s.parent.Closed ∧ s.ps.Over) :
    Sound cap out { s with grep := q, got := got, pipe := k } where
  fds := by
    funext c
    cases c <;> simp [fds, h.fds, State.table]
  knows := h.knows.moveGrep running
  pid1 := h.pid1
  pid2 := by
    have unborn : s.grep ≠ .unborn := fun e => running (by rw [e]; trivial)
    rw [h.pid2, if_neg unborn, if_neg born]
  reaped c hc := by
    obtain ⟨ne, ended⟩ := h.reaped c hc
    refine ⟨ne, ?_⟩
    cases c with
    | grep => exact absurd (by rcases ended with e | e <;> rw [e] <;> trivial) running
    | parent | ps => exact ended
  alive := h.alive
  bytes := bytes
  room := room
  unread := unread
  unwritten := h.unwritten
  written := h.written
  eof := eof

theorem Sound.stepGrep (h : Sound cap out s) (hs : s.stepGrep asked ok n = some s') :
    Sound cap out s' := by
  have here : s.pipe.fds .grep = s.grep.fds := congrFun h.fds .grep
  have same {q : Grep} (e : s.grep.fds = q.fds) : s.pipe.fds = update s.pipe.fds .grep q.fds := by
    rw [← e, ← here, update_eq_self]
  unfold State.stepGrep at hs
  split at hs
  · next at_ =>
      rw [at_] at here
      obtain rfl := Option.some.inj hs
      refine h.goGrep (by rw [at_]; exact id) (by decide) (by rw [Pipe.close, here]; rfl) h.bytes
        h.room (fun some_ => ?_) (fun e => by cases e)
      simpa [at_] using h.unread some_
  · next at_ =>
      rw [at_] at here
      obtain rfl := Option.some.inj hs
      refine h.goGrep (by rw [at_]; exact id) (by decide) (by rw [Pipe.dup2, here]; rfl) h.bytes
        h.room (fun some_ => ?_) (fun e => by cases e)
      simpa [at_] using h.unread some_
  · next at_ =>
      have running : ¬ s.grep.Over := by rw [at_]; exact id
      split at hs
      · obtain rfl := Option.some.inj hs
        exact h.goGrep running (by decide) (same (by rw [at_]; rfl)) h.bytes h.room
          (fun _ => .inl rfl) (fun e => by cases e)
      · obtain rfl := Option.some.inj hs
        refine h.goGrep running (by decide) rfl h.bytes h.room (fun some_ => ?_)
          (fun e => by cases e)
        simpa [at_] using h.unread some_
  · next at_ =>
      have running : ¬ s.grep.Over := by rw [at_]; exact id
      split at hs
      · next bytes k read =>
          obtain ⟨whole, fds, -, last⟩ := Pipe.read_cases read
          have room : k.buf.length ≤ cap := by
            have := h.room
            rw [← whole, List.length_append] at this
            omega
          split at hs
          · next none_ =>
              obtain rfl := Option.some.inj hs
              obtain ⟨empty, closed⟩ := last none_
              rw [open_writer_iff h.fds, not_or, not_or, not_not, not_not] at closed
              rw [none_, List.nil_append] at whole
              refine h.goGrep running (by decide) ?_ ?_ room (fun _ => .inr rfl)
                fun _ => ⟨whole.trans empty, closed.1, closed.2.1⟩
              · rw [Pipe.exit, Pipe.setFds, fds]
                rfl
              · exact whole ▸ h.bytes
          · obtain rfl := Option.some.inj hs
            refine h.goGrep running (by rw [at_]; decide) (fds ▸ same rfl) ?_ room
              (fun _ => .inl at_) (fun e => absurd (at_.symm.trans e) (by decide))
            rw [List.append_assoc _ bytes, whole]
            exact h.bytes
      · cases hs
  · cases hs

theorem sound_of_reachable (h : (system cap asked out).Reachable s) : Sound cap out s := by
  have key : (system cap asked out).Inductive (Sound cap out) := by
    refine ⟨fun s init => ?_, fun a s s' _ ih hs => ?_⟩
    · obtain rfl : s = start out := init
      exact sound_start
    · cases a with
      | parent ok => exact ih.stepParent hs
      | ps ok n => exact ih.stepPs hs
      | grep ok n => exact ih.stepGrep hs
  exact key.reachable h

/-- What `grep` reads is the beginning of the output; and it meets the end of file where `ps` has
written everything, or was never there. -/
structure Delivers (out : List α) (s : State α) : Prop where
  bytes : s.got ++ s.pipe.buf ++ s.left = out
  complete : s.grep = .exited →
    (s.ps = .exited ∧ s.got = out) ∨ ((s.ps = .unborn ∨ s.ps = .failed) ∧ s.got = [])
  alive : s.ps ≠ .killed

def Parent.weight : Parent → ℕ
  | .fork1 => 6
  | .fork2 => 5
  | .close0 => 4
  | .close1 => 3
  | .wait1 => 2
  | .wait2 => 1
  | .returned => 0

def Ps.weight : Ps → ℕ
  | .unborn | .dup2 => 3
  | .execl => 2
  | .runs => 1
  | .exited | .failed | .killed => 0

def Grep.weight : Grep → ℕ
  | .unborn | .close1 => 4
  | .dup2 => 3
  | .execl => 2
  | .runs => 1
  | .exited | .failed => 0

/-- A byte takes a step to be written and one to be read, at most. -/
def State.weight (s : State α) : ℕ :=
  s.parent.weight + s.ps.weight + s.grep.weight + 2 * s.left.length + s.pipe.buf.length

theorem Sound.weight_lt (h : Sound cap out s) {a : Act} (hs : step cap asked a s = some s') :
    s'.weight < s.weight := by
  have knows := h.knows
  unfold State.weight
  cases a with
  | parent ok =>
      simp only [step, State.stepParent] at hs
      split at hs
      · next at_ =>
          rw [at_] at knows
          split at hs
          · obtain rfl := Option.some.inj hs
            simp [at_, knows.1, Parent.weight, Ps.weight]
          · obtain rfl := Option.some.inj hs
            simp [at_, Parent.weight]
      · next at_ =>
          rw [at_] at knows
          split at hs
          · obtain rfl := Option.some.inj hs
            simp [at_, show s.grep = .unborn from knows, Parent.weight, Grep.weight]
          · obtain rfl := Option.some.inj hs
            simp [at_, Parent.weight]
      · next at_ =>
          obtain rfl := Option.some.inj hs
          simp [at_, Parent.weight]
      · next at_ =>
          obtain rfl := Option.some.inj hs
          simp [at_, Parent.weight]
      · next at_ =>
          obtain ⟨r, rfl, -⟩ := waitpid_cases hs
          simp [at_, Parent.weight]
      · next at_ =>
          obtain ⟨r, rfl, -⟩ := waitpid_cases hs
          simp [at_, Parent.weight]
      · cases hs
  | ps ok n =>
      simp only [step, State.stepPs] at hs
      split at hs
      · next at_ =>
          obtain rfl := Option.some.inj hs
          simp [at_, Ps.weight]
      · next at_ =>
          split at hs <;> obtain rfl := Option.some.inj hs <;> simp [at_, Ps.weight]
      · next at_ =>
          split at hs
          · obtain rfl := Option.some.inj hs
            simp [at_, Ps.weight]
          · split at hs
            · next k wrote =>
                obtain rfl := Option.some.inj hs
                obtain ⟨sent, rest, some_, bytes, rfl, buf, -, -⟩ := Pipe.write_cases wrote
                have sent_ := List.length_pos_iff.2 some_
                have length := congrArg List.length bytes
                rw [List.length_append] at length
                simp only [buf, List.length_append]
                omega
            · obtain rfl := Option.some.inj hs
              simp [at_, Ps.weight]
            · cases hs
      · cases hs
  | grep ok n =>
      simp only [step, State.stepGrep] at hs
      split at hs
      · next at_ =>
          obtain rfl := Option.some.inj hs
          simp [at_, Grep.weight]
      · next at_ =>
          obtain rfl := Option.some.inj hs
          simp [at_, Grep.weight]
      · next at_ =>
          split at hs <;> obtain rfl := Option.some.inj hs <;> simp [at_, Grep.weight]
      · next at_ =>
          split at hs
          · next bytes k read =>
              obtain ⟨whole, -, -, -⟩ := Pipe.read_cases read
              have length := congrArg List.length whole
              rw [List.length_append] at length
              split at hs
              · obtain rfl := Option.some.inj hs
                simp only [at_, Pipe.exit, Pipe.setFds, Grep.weight]
                omega
              · next some_ =>
                  obtain rfl := Option.some.inj hs
                  have := List.length_pos_iff.2 some_
                  simp only
                  omega
          · cases hs
      · cases hs

/-- No process can go on. -/
def Stuck (cap asked : ℕ) (s : State α) : Prop := ∀ a, step cap asked a s = none

/-- The parent has returned, and no child is running. -/
def Returned (s : State α) : Prop := s.parent = .returned ∧ s.ps.Over ∧ s.grep.Over

theorem closed_of_stuck (stuck : Stuck cap asked s) : s.parent.Closed := by
  have blocked := stuck (.parent true)
  simp only [step, State.stepParent] at blocked
  cases at_ : s.parent <;> simp_all [Parent.Closed]

/-- The first child is over, or it has filled the pipe. -/
theorem Sound.ps_of_stuck (h : Sound cap out s) (stuck : Stuck cap asked s) :
    s.ps.Over ∨ (s.ps = .runs ∧ s.left ≠ [] ∧ s.pipe.buf.length = cap) := by
  cases at_ : s.ps with
  | unborn | exited | failed | killed => exact .inl trivial
  | dup2 | execl =>
      have blocked := stuck (.ps true 0)
      simp [step, State.stepPs, at_] at blocked
  | runs =>
      refine .inr ⟨rfl, fun none_ => ?_, ?_⟩
      · have blocked := stuck (.ps true 0)
        simp [step, State.stepPs, at_, none_] at blocked
      · by_contra room
        have some_ : s.left ≠ [] := fun none_ => by
          have blocked := stuck (.ps true 0)
          simp [step, State.stepPs, at_, none_] at blocked
        obtain ⟨n, k, wrote⟩ := (Pipe.exists_write_iff (open_reader_of_runs h.fds at_) some_).2
          (lt_of_le_of_ne h.room room)
        have blocked := stuck (.ps true n)
        simp [step, State.stepPs, at_, some_, wrote] at blocked

theorem Sound.grep_of_stuck (h : Sound cap out s) (positive : 0 < cap) (one : 0 < asked)
    (stuck : Stuck cap asked s) : s.grep.Over := by
  cases at_ : s.grep with
  | unborn | exited | failed => trivial
  | close1 | dup2 | execl =>
      have blocked := stuck (.grep true 0)
      simp [step, State.stepGrep, at_] at blocked
  | runs =>
      obtain ⟨n, ⟨bytes, k⟩, read⟩ := (Pipe.exists_read_iff (k := s.pipe) one).2 (by
        by_cases empty : s.pipe.buf = []
        · refine .inr fun opened => ?_
          rcases (open_writer_iff h.fds).1 opened with more | running | here
          · exact more (closed_of_stuck stuck)
          · obtain ⟨-, -, full⟩ := (h.ps_of_stuck stuck).resolve_left running
            rw [empty] at full
            exact positive.ne full
          · rw [at_] at here
            cases here
        · exact .inl empty)
      have blocked := stuck (.grep true n)
      simp only [step, State.stepGrep, at_, read] at blocked
      split at blocked <;> cases blocked

/-- A run is no longer than the output takes; and where it cannot go on all has come to its end, but
for an output that nobody reads and that the pipe has no room for. -/
theorem returned_iff_of_stuck (positive : 0 < cap) (one : 0 < asked) {as : List Act}
    (run : (system cap asked out).run as (start out) = some s) :
    as.length ≤ 13 + 2 * out.length ∧ (Stuck cap asked s →
      (Returned s ↔ s.ps = .unborn ∨ s.ps = .failed ∨ s.grep = .exited ∨ out.length ≤ cap)) := by
  have reachable := Machine.reachable_of_run (M := system cap asked out) as rfl run
  have sound := sound_of_reachable reachable
  constructor
  · have bound := Machine.length_run_le (M := system cap asked out) (μ := State.weight)
      (fun a s s' h hs => (sound_of_reachable h).weight_lt hs) (.init rfl) run
    have first : (start out).weight = 13 + 2 * out.length := by
      simp [State.weight, start, Parent.weight, Ps.weight, Grep.weight]
    omega
  intro stuck
  have done := sound.grep_of_stuck positive one stuck
  have bytes := congrArg List.length sound.bytes
  simp only [List.length_append] at bytes
  constructor
  · rintro ⟨-, ps, -⟩
    by_contra no
    simp only [not_or] at no
    obtain ⟨unborn, failed, exited, long⟩ := no
    have exited_ps : s.ps = .exited := by
      cases at_ : s.ps <;> simp_all [Ps.Over, sound.alive]
    have unread : s.got = [] := by
      by_contra some_
      rcases sound.unread some_ with runs | exited_
      · rw [runs] at done
        exact done
      · exact exited exited_
    have room := sound.room
    simp only [sound.written exited_ps, unread, List.length_nil] at bytes
    omega
  · intro enough
    have ended : s.ps.Over := by
      refine (sound.ps_of_stuck stuck).resolve_right fun ⟨runs, more, full⟩ => ?_
      have := List.length_pos_iff.2 more
      rcases enough with e | e | e | room
      · cases runs.symm.trans e
      · cases runs.symm.trans e
      · have done := (sound.eof e).2.2
        rw [runs] at done
        exact done
      · omega
    refine ⟨?_, ended, done⟩
    have all : ∀ c, s.Born c → s.Ended c := by
      intro c born
      cases c with
      | parent => exact born.elim
      | ps => cases at_ : s.ps <;> simp_all [State.Born, State.Ended, Ps.Over]
      | grep => cases at_ : s.grep <;> simp_all [State.Born, State.Ended, Grep.Over]
    have closed := closed_of_stuck stuck
    have blocked := stuck (.parent true)
    simp only [step, State.stepParent] at blocked
    cases at_ : s.parent with
    | wait1 =>
        obtain ⟨s', waited⟩ : ∃ s', s.waitpid s.pid1 .wait2 = some s' := exists_waitpid all
        rw [at_] at blocked
        cases waited.symm.trans blocked
    | wait2 =>
        obtain ⟨s', waited⟩ : ∃ s', s.waitpid s.pid2 .returned = some s' := exists_waitpid all
        rw [at_] at blocked
        cases waited.symm.trans blocked
    | returned => rfl
    | fork1 | fork2 | close0 | close1 =>
        rw [at_] at closed
        exact closed.elim

/-- The parent waits for a child that waits for a reader. -/
theorem Sound.stuck_of_full (h : Sound cap out s) (waits : s.parent = .wait1) (runs : s.ps = .runs)
    (done : s.grep.Over) (more : s.left ≠ []) (full : s.pipe.buf.length = cap) :
    Stuck cap asked s := by
  intro a
  cases a with
  | parent ok =>
      have running : ¬ s.Ended .ps := by simp [State.Ended, runs]
      have here : Proc.ps ∈ s.waited s.pid1 := by
        rw [h.pid1, if_neg (by rw [runs]; decide)]
        refine mem_waited.2 ⟨by simp [State.Born, runs], fun old => running (h.reaped _ old).2, ?_⟩
        exact .inr rfl
      have only : ∀ c ∈ s.waited s.pid1, c = .ps := by
        intro c hc
        have wanted := (mem_waited.1 hc).2.2
        rw [h.pid1, if_neg (by rw [runs]; decide)] at wanted
        simpa [eq_comm] using wanted
      simp only [step, State.stepParent, waits, State.waitpid]
      rw [if_neg (List.ne_nil_of_mem here), List.find?_eq_none.2 fun c hc => ?_]
      simpa [only c hc] using running
  | ps ok n =>
      have blocked : ∀ k, s.pipe.write cap s.left n ≠ .wrote k := by
        intro k wrote
        have room := (Pipe.exists_write_iff (open_reader_of_runs h.fds runs) more).1 ⟨n, k, wrote⟩
        exact room.ne full
      have reader := open_reader_of_runs h.fds runs
      simp only [step, State.stepPs, runs, if_neg more]
      split
      · next k wrote => exact absurd wrote (blocked k)
      · next broken => exact absurd reader (Pipe.not_open_of_sigpipe broken)
      · rfl
  | grep ok n =>
      simp only [step, State.stepGrep]
      cases at_ : s.grep <;> simp_all [Grep.Over]

/-- The second `fork` fails. -/
def alone : List Act :=
  [.parent true, .parent false, .ps true 0, .ps true 0, .ps true 2, .parent true, .parent true]

theorem returned_iff_of_stuck_alone : ∃ s, (system 2 4096 [7, 8, 9]).run alone (start [7, 8, 9]) =
    some s ∧ Stuck 2 4096 s ∧ ¬ Returned s := by
  have run : (system 2 4096 [7, 8, 9]).run alone (start [7, 8, 9]) = some _ := rfl
  have sound := sound_of_reachable (Machine.reachable_of_run (M := system 2 4096 _) alone rfl run)
  have stuck : Stuck 2 4096 _ := sound.stuck_of_full rfl rfl trivial (by decide) rfl
  refine ⟨_, run, stuck, fun all => ?_⟩
  have enough := ((returned_iff_of_stuck (by decide) (by decide) run).2 stuck).1 all
  exact absurd enough (by decide)

end LinuxNote.Pipe2
