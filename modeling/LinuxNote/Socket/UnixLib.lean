import LinuxNote.Socket.UnixConn
import LinuxNote.Wrap.Descriptor
import Mathlib.Data.Finset.Basic

/-!
# The error paths of `serv_listen`, `serv_accept` and `cli_conn`

A process with any descriptors and files calls one of the functions, and every system call fails or
succeeds as its answer says.  All failures behind the first call go to one label, which closes the
descriptor and keeps `errno`.  It does not unlink what `bind` has created (`clean_iff`).
-/

namespace LinuxNote.UnixLib

open UnixConn Wrap Function

/-- The size of `sun_path` -/
def UNIX_PATH_MAX : ℕ := 108

/-- The descriptors, the files and `errno`; `*uidptr`; the names that `bind` has created, and the
`errno` of the call that has made the function fail. -/
structure Process where
  fds : Finset ℤ
  files : List Char → Option File
  uid : ℕ
  errno : Errno
  uidptr : Option ℕ
  bound : List (List Char)
  failed : Option Errno

/-- Before the call of the function. -/
def entry (fds : Finset ℤ) (files : List Char → Option File) (uid : ℕ) (errno : Errno) : Process :=
  ⟨fds, files, uid, errno, none, [], none⟩

namespace Process

variable (s : Process)

/-- A call that fails. -/
def fail (e : Errno) : Process := { s with errno := e, failed := some e }

/-- With one more descriptor. -/
def add (fd : ℤ) : Process := { s with fds := insert fd s.fds }

/-- A descriptor that was not open. -/
def install (fd : ℤ) : Option (ℤ × Process) :=
  if 0 ≤ fd ∧ fd ∉ s.fds then some (fd, s.add fd) else none

def socket : Except Errno ℤ → Option (ℤ × Process)
  | .ok fd => s.install fd
  | .error e => some (-1, s.fail e)

/-- The descriptor, and the name in `un`. -/
def accept : Except Errno (ℤ × List Char) → Option ((ℤ × List Char) × Process)
  | .ok (fd, un) => (s.install fd).map fun r => ((r.1, un), r.2)
  | .error e => some ((-1, []), s.fail e)

/-- Nobody looks at the result. -/
def unlink (name : List Char) : Except Errno Unit → Process
  | .ok () => { s with files := update s.files name none }
  | .error e => { s with errno := e }

/-- Binding succeeds where there is no file, and creates one; the empty name stands for an address
without a file. -/
def bind (name : List Char) : Except Errno Unit → Option (ℤ × Process)
  | .ok () =>
      if name = [] then some (0, s)
      else if (s.files name).isNone then
        some (0, { s with
          files := update s.files name (some ⟨true, s.uid⟩)
          bound := s.bound ++ [name] })
      else none
  | .error e => some (-1, s.fail e)

/-- `listen` and `connect` -/
def call : Except Errno Unit → ℤ × Process
  | .ok () => (0, s)
  | .error e => (-1, s.fail e)

/-- The file, or a failure, for whatever reason. -/
def stat (name : List Char) : Except Errno Unit → Option (Option File × Process)
  | .ok () => (s.files name).map fun f => (some f, s)
  | .error e => some (none, s.fail e)

/-- The descriptor is free again whatever `close` returns. -/
def close (fd : ℤ) : Except Errno Unit → Process
  | .ok () => { s with fds := s.fds.erase fd }
  | .error e => { s with fds := s.fds.erase fd, errno := e }

/-- `errout:` -/
def errout (fd rval : ℤ) (r : Except Errno Unit) : ℤ × Process :=
  let err := s.errno
  (rval, { s.close fd r with errno := err })

end Process

/-- What the calls of `serv_listen` return. -/
structure ListenAnswers where
  socket : Except Errno ℤ
  unlink : Except Errno Unit
  bind : Except Errno Unit
  listen : Except Errno Unit
  close : Except Errno Unit

/-- What the calls of `serv_accept` return. -/
structure AcceptAnswers where
  accept : Except Errno (ℤ × List Char)
  stat : Except Errno Unit
  unlink : Except Errno Unit
  close : Except Errno Unit

/-- What the calls of `cli_conn` return. -/
structure ConnAnswers where
  socket : Except Errno ℤ
  unlink : Except Errno Unit
  bind : Except Errno Unit
  connect : Except Errno Unit
  close : Except Errno Unit

/-- No result where `strcpy` overflows `sun_path`. -/
def servListen (name : List Char) (k : ListenAnswers) (s : Process) : Option (ℤ × Process) := do
  let (fd, s) ← s.socket k.socket
  if fd < 0 then return (-1, s)
  let s := s.unlink name k.unlink
  guard (name.length < UNIX_PATH_MAX)
  let (r, s) ← s.bind name k.bind
  if r < 0 then return s.errout fd (-1) k.close
  let (r, s) := s.call k.listen
  if r < 0 then return s.errout fd (-3) k.close
  return (fd, s)

/-- `uidptr` is not null; no result where the NUL is stored behind `sun_path`. -/
def servAccept (k : AcceptAnswers) (s : Process) : Option (ℤ × Process) := do
  let ((clifd, un), s) ← s.accept k.accept
  if clifd < 0 then return (-1, s)
  guard (un.length < UNIX_PATH_MAX)
  let name := un.takeWhile (· ≠ Char.ofNat 0)
  let (file, s) ← s.stat name k.stat
  match file with
  | none => return s.errout clifd (-2) k.close
  | some f =>
      if f.isSock then
        let s := { s with uidptr := some f.uid }
        return (clifd, s.unlink name k.unlink)
      else return s.errout clifd (-3) k.close

/-- No result where `strcpy` overflows `sun_path`. -/
def cliConn (pid : ℕ) (name : List Char) (k : ConnAnswers) (s : Process) :
    Option (ℤ × Process) := do
  let (fd, s) ← s.socket k.socket
  if fd < 0 then return (-1, s)
  let s := s.unlink (path pid) k.unlink
  let (r, s) ← s.bind (path pid) k.bind
  if r < 0 then return s.errout fd (-2) k.close
  guard (name.length < UNIX_PATH_MAX)
  let (r, s) := s.call k.connect
  if r < 0 then return s.errout fd (-4) k.close
  return (fd, s)

/-- A call of the library. -/
inductive Call
  | servListen (name : List Char) (k : ListenAnswers)
  | servAccept (k : AcceptAnswers)
  | cliConn (pid : ℕ) (name : List Char) (k : ConnAnswers)

def Call.run : Call → Process → Option (ℤ × Process)
  | .servListen name k => UnixLib.servListen name k
  | .servAccept k => UnixLib.servAccept k
  | .cliConn pid name k => UnixLib.cliConn pid name k

/-- The descriptors are as before, `errno` is that of the call that failed (as before where none
did), and no file is left that the function has created. -/
structure Clean (s s' : Process) : Prop where
  fds : s'.fds = s.fds
  errno : s'.errno = s'.failed.getD s.errno
  unbound : ∀ name ∈ s'.bound, s'.files name = none

/-- `bind` creates a file, and a later call fails. -/
def Call.FailsBound : Call → Prop
  | .servListen name k => name ≠ [] ∧ k.socket.isOk ∧ k.bind.isOk ∧ ¬ k.listen.isOk
  | .servAccept _ => False
  | .cliConn _ _ k => k.socket.isOk ∧ k.bind.isOk ∧ ¬ k.connect.isOk

instance : ∀ c : Call, Decidable c.FailsBound
  | .servListen name k =>
      inferInstanceAs (Decidable (name ≠ [] ∧ k.socket.isOk ∧ k.bind.isOk ∧ ¬ k.listen.isOk))
  | .servAccept _ => inferInstanceAs (Decidable False)
  | .cliConn _ _ k =>
      inferInstanceAs (Decidable (k.socket.isOk ∧ k.bind.isOk ∧ ¬ k.connect.isOk))

/-! ## The calls -/

section

variable {s s' s₁ : Process} {fd rval : ℤ} {name : List Char} {r : Except Errno Unit}

theorem install_eq_some {r : ℤ × Process} (h : s.install fd = some r) :
    0 ≤ fd ∧ fd ∉ s.fds ∧ r = (fd, s.add fd) := by
  obtain ⟨⟨pos, fresh⟩, h⟩ := Option.ite_none_right_eq_some.1 h
  exact ⟨pos, fresh, (Option.some.inj h).symm⟩

/-- A call that fails first has nothing to undo. -/
theorem clean_fail (bound : s.bound = []) (e : Errno) : Clean s (s.fail e) where
  fds := rfl
  errno := rfl
  unbound name mem := by
    have none : name ∈ s.bound := mem
    rw [bound] at none
    cases none

/-- The label undoes all but `bind`. -/
theorem clean_errout_iff (fds : s₁.fds = insert fd s.fds) (fresh : fd ∉ s.fds)
    (errno : s₁.errno = s₁.failed.getD s.errno) :
    Clean s (s₁.errout fd rval r).2 ↔ ∀ name ∈ s₁.bound, s₁.files name = none := by
  have closed : (s₁.close fd r).fds = s.fds := by
    have erased : (s₁.close fd r).fds = s₁.fds.erase fd := by cases r <;> rfl
    rw [erased, fds, Finset.erase_insert fresh]
  have kept : (s₁.close fd r).failed = s₁.failed ∧ (s₁.close fd r).bound = s₁.bound ∧
      (s₁.close fd r).files = s₁.files := by
    cases r <;> exact ⟨rfl, rfl, rfl⟩
  obtain ⟨failed, bound, files⟩ := kept
  constructor
  · intro h name mem
    have := h.unbound name (bound.symm ▸ mem)
    rwa [← files]
  · intro h
    refine ⟨closed, ?_, fun name mem => ?_⟩
    · exact errno.trans (congrArg (·.getD s.errno) failed.symm)
    · have := h name (bound ▸ mem)
      rwa [← files] at this

/-- Before `bind` it undoes all. -/
theorem clean_errout (s₁ : Process) (fds : s₁.fds = insert fd s.fds) (fresh : fd ∉ s.fds)
    (errno : s₁.errno = s₁.failed.getD s.errno) (bound : s₁.bound = []) (rval : ℤ)
    (r : Except Errno Unit) : Clean s (s₁.errout fd rval r).2 := by
  refine (clean_errout_iff fds fresh errno).2 fun name mem => ?_
  rw [bound] at mem
  cases mem

/-- Before `bind`: the descriptor is the only thing to undo. -/
structure Opened (s : Process) (fd : ℤ) (s₁ : Process) : Prop where
  pos : 0 ≤ fd
  fds : s₁.fds = insert fd s.fds
  fresh : fd ∉ s.fds
  bound : s₁.bound = []
  failed : s₁.failed = none

theorem opened_socket {r : Except Errno ℤ} (bound : s.bound = []) (failed : s.failed = none)
    (h : s.socket r = some (fd, s₁)) (pos : ¬ fd < 0) :
    r.isOk ∧ ∀ name k, Opened s fd (s₁.unlink name k) := by
  cases r with
  | error e =>
      obtain ⟨rfl, -⟩ := Prod.mk.inj (Option.some.inj h)
      exact absurd (by decide) pos
  | ok fd' =>
      obtain ⟨le, fresh, eq⟩ := install_eq_some h
      obtain ⟨rfl, rfl⟩ := Prod.mk.inj eq
      refine ⟨rfl, fun name k => ?_⟩
      cases k <;> exact ⟨le, rfl, fresh, bound, failed⟩

theorem bind_ok {s₂ : Process} {res : ℤ} (h : s₁.bind name (.ok ()) = some (res, s₂)) :
    res = 0 ∧ s₂.fds = s₁.fds ∧ s₂.failed = s₁.failed ∧
      (name = [] ∧ s₂.bound = s₁.bound ∨
        name ≠ [] ∧ name ∈ s₂.bound ∧ s₂.files name = some ⟨true, s₁.uid⟩) := by
  unfold Process.bind at h
  dsimp only at h
  split at h
  · next empty =>
      obtain ⟨rfl, rfl⟩ := Prod.mk.inj (Option.some.inj h)
      exact ⟨rfl, rfl, rfl, Or.inl ⟨empty, rfl⟩⟩
  · next some =>
      obtain ⟨-, h⟩ := Option.ite_none_right_eq_some.1 h
      obtain ⟨rfl, rfl⟩ := Prod.mk.inj (Option.some.inj h)
      refine ⟨rfl, rfl, rfl, Or.inr ⟨some, List.mem_append_right _ List.mem_cons_self, ?_⟩⟩
      exact update_self ..

/-- From `bind` on: one more call, and the label. -/
theorem clean_bind_iff {s₂ : Process} {res e₁ e₂ : ℤ} {call close : Except Errno Unit}
    (h : Opened s fd s₁) (hb : s₁.bind name r = some (res, s₂)) (neg : e₂ < 0)
    (hr : (if res < 0 then pure (s₂.errout fd e₁ close)
      else if (s₂.call call).1 < 0 then pure ((s₂.call call).2.errout fd e₂ close)
      else pure (fd, (s₂.call call).2)) = some (rval, s')) :
    (rval < 0 → Clean s s') ↔ ¬ (name ≠ [] ∧ r.isOk ∧ ¬ call.isOk) := by
  cases r with
  | error e =>
      obtain ⟨rfl, rfl⟩ := Prod.mk.inj (Option.some.inj hb)
      rw [if_pos (by decide)] at hr
      have clean : Clean s ((s₁.fail e).errout fd e₁ close).2 :=
        clean_errout (s₁.fail e) h.fds h.fresh rfl h.bound e₁ close
      rw [Option.some.inj hr] at clean
      exact iff_of_true (fun _ => clean) fun ⟨_, ok, _⟩ => by cases ok
  | ok u =>
      obtain ⟨rfl, fds, -, file⟩ := bind_ok hb
      rw [if_neg (by decide)] at hr
      cases call with
      | ok v =>
          rw [if_neg (show ¬ (s₂.call (.ok v)).1 < 0 from lt_irrefl (0 : ℤ))] at hr
          obtain ⟨rfl, -⟩ := Prod.mk.inj (Option.some.inj hr)
          refine iff_of_true (fun neg => absurd neg (not_lt.2 h.pos)) ?_
          exact fun ⟨_, _, failed⟩ => failed rfl
      | error e =>
          rw [if_pos (show (s₂.call (.error e)).1 < 0 from Int.negSucc_lt_zero 0)] at hr
          obtain ⟨rfl, rfl⟩ := Prod.mk.inj (Option.some.inj hr)
          have undone : Clean s ((s₂.fail e).errout fd e₂ close).2 ↔
              ∀ name ∈ (s₂.fail e).bound, (s₂.fail e).files name = none :=
            clean_errout_iff (fds.trans h.fds) h.fresh rfl
          rw [imp_iff_right neg]
          refine undone.trans ?_
          rcases file with ⟨empty, none⟩ | ⟨some, mem, file⟩
          · refine iff_of_true (fun x hx => ?_) fun both => both.1 empty
            have := none ▸ (show x ∈ s₂.bound from hx)
            rw [h.bound] at this
            cases this
          · refine iff_of_false (fun all => ?_) fun all => all ⟨some, rfl, Bool.false_ne_true⟩
            have gone : s₂.files name = Option.none := all name mem
            rw [file] at gone
            cases gone

end

/-! ## The functions -/

section

variable {s s' : Process} {rval : ℤ} {name : List Char}

theorem clean_socket {r : Except Errno ℤ} {fd : ℤ} {s₁ : Process} (bound : s.bound = [])
    (h : s.socket r = some (fd, s₁)) (neg : fd < 0) : Clean s s₁ ∧ ¬ r.isOk := by
  cases r with
  | error e =>
      obtain ⟨-, rfl⟩ := Prod.mk.inj (Option.some.inj h)
      exact ⟨clean_fail bound e, Bool.false_ne_true⟩
  | ok fd' =>
      obtain ⟨pos, -, eq⟩ := install_eq_some h
      obtain ⟨rfl, -⟩ := Prod.mk.inj eq
      exact absurd neg (not_lt.2 pos)

theorem servListen_clean_iff {k : ListenAnswers} (bound : s.bound = []) (failed : s.failed = none)
    (h : servListen name k s = some (rval, s')) :
    (rval < 0 → Clean s s') ↔
      ¬ (name ≠ [] ∧ k.socket.isOk ∧ k.bind.isOk ∧ ¬ k.listen.isOk) := by
  obtain ⟨⟨fd, s₁⟩, socket, h⟩ := Option.bind_eq_some_iff.1 h
  dsimp only at h
  split at h
  · next neg =>
      obtain ⟨rfl, rfl⟩ := Prod.mk.inj (Option.some.inj h)
      obtain ⟨clean, error⟩ := clean_socket bound socket neg
      exact iff_of_true (fun _ => clean) fun ⟨_, ok, _⟩ => error ok
  · next pos =>
      obtain ⟨ok, opened⟩ := opened_socket bound failed socket pos
      obtain ⟨-, -, h⟩ := Option.bind_eq_some_iff.1 h
      obtain ⟨⟨res, s₂⟩, bind, h⟩ := Option.bind_eq_some_iff.1 h
      rw [and_iff_right ok]
      exact clean_bind_iff (opened name k.unlink) bind (by decide) h

theorem cliConn_clean_iff {pid : ℕ} {k : ConnAnswers} (bound : s.bound = [])
    (failed : s.failed = none) (h : cliConn pid name k s = some (rval, s')) :
    (rval < 0 → Clean s s') ↔ ¬ (k.socket.isOk ∧ k.bind.isOk ∧ ¬ k.connect.isOk) := by
  obtain ⟨⟨fd, s₁⟩, socket, h⟩ := Option.bind_eq_some_iff.1 h
  dsimp only at h
  split at h
  · next neg =>
      obtain ⟨rfl, rfl⟩ := Prod.mk.inj (Option.some.inj h)
      obtain ⟨clean, error⟩ := clean_socket bound socket neg
      exact iff_of_true (fun _ => clean) fun ⟨ok, _⟩ => error ok
  · next pos =>
      obtain ⟨ok, opened⟩ := opened_socket bound failed socket pos
      obtain ⟨⟨res, s₂⟩, bind, h⟩ := Option.bind_eq_some_iff.1 h
      have named : path pid ≠ [] := List.cons_ne_nil _ _
      have tail : (if res < 0 then pure (s₂.errout fd (-2) k.close)
          else if (s₂.call k.connect).1 < 0 then pure ((s₂.call k.connect).2.errout fd (-4) k.close)
          else pure (fd, (s₂.call k.connect).2)) = some (rval, s') := by
        dsimp only at h
        by_cases failed : res < 0
        · rw [if_pos failed] at h ⊢
          exact h
        · rw [if_neg failed] at h ⊢
          obtain ⟨-, -, h⟩ := Option.bind_eq_some_iff.1 h
          exact h
      refine (clean_bind_iff (opened (path pid) k.unlink) bind (by decide) tail).trans ?_
      rw [and_iff_right named, and_iff_right ok]

theorem accept_cases {r : Except Errno (ℤ × List Char)} {fd : ℤ} {un : List Char} {s₁ : Process}
    (h : s.accept r = some ((fd, un), s₁)) :
    (fd = -1 ∧ ∃ e, s₁ = s.fail e) ∨ (0 ≤ fd ∧ fd ∉ s.fds ∧ s₁ = s.add fd) := by
  cases r with
  | error e =>
      obtain ⟨first, rfl⟩ := Prod.mk.inj (Option.some.inj h)
      exact Or.inl ⟨(Prod.mk.inj first).1.symm, e, rfl⟩
  | ok r =>
      obtain ⟨⟨fd', s₁'⟩, install, eq⟩ := Option.map_eq_some_iff.1 h
      obtain ⟨pos, fresh, opened⟩ := install_eq_some install
      obtain ⟨rfl, rfl⟩ := Prod.mk.inj opened
      obtain ⟨first, rfl⟩ := Prod.mk.inj eq
      obtain ⟨rfl, -⟩ := Prod.mk.inj first
      exact Or.inr ⟨pos, fresh, rfl⟩

theorem stat_cases {r : Except Errno Unit} {file : Option File} {s₁ : Process}
    (h : s.stat name r = some (file, s₁)) :
    (file = none ∧ ∃ e, s₁ = s.fail e) ∨ ((∃ f, file = some f) ∧ s₁ = s) := by
  cases r with
  | error e =>
      obtain ⟨rfl, rfl⟩ := Prod.mk.inj (Option.some.inj h)
      exact Or.inl ⟨rfl, e, rfl⟩
  | ok u =>
      obtain ⟨f, -, eq⟩ := Option.map_eq_some_iff.1 h
      obtain ⟨rfl, rfl⟩ := Prod.mk.inj eq
      exact Or.inr ⟨⟨f, rfl⟩, rfl⟩

theorem servAccept_clean {k : AcceptAnswers} (bound : s.bound = []) (failed : s.failed = none)
    (h : servAccept k s = some (rval, s')) (neg : rval < 0) : Clean s s' := by
  obtain ⟨⟨⟨clifd, un⟩, s₁⟩, accept, h⟩ := Option.bind_eq_some_iff.1 h
  dsimp only at h
  rcases accept_cases accept with ⟨rfl, e, rfl⟩ | ⟨pos, fresh, rfl⟩
  · rw [if_pos (by decide)] at h
    obtain ⟨rfl, rfl⟩ := Prod.mk.inj (Option.some.inj h)
    exact clean_fail bound e
  · rw [if_neg (not_lt.2 pos)] at h
    obtain ⟨-, -, h⟩ := Option.bind_eq_some_iff.1 h
    obtain ⟨⟨file, s₂⟩, stat, h⟩ := Option.bind_eq_some_iff.1 h
    rcases stat_cases stat with ⟨rfl, e, rfl⟩ | ⟨⟨f, rfl⟩, rfl⟩
    · obtain ⟨rfl, rfl⟩ := Prod.mk.inj (Option.some.inj h)
      exact clean_errout ((s.add clifd).fail e) rfl fresh rfl bound (-2) k.close
    · dsimp only at h
      split at h
      · obtain ⟨rfl, -⟩ := Prod.mk.inj (Option.some.inj h)
        exact absurd neg (not_lt.2 pos)
      · obtain ⟨rfl, rfl⟩ := Prod.mk.inj (Option.some.inj h)
        have none : s.errno = s.failed.getD s.errno := by rw [failed, Option.getD_none]
        exact clean_errout (s.add clifd) rfl fresh none bound (-3) k.close

end

/-- For all descriptors and files, and whatever the system calls return: a failure is clean exactly
when it does not come behind a `bind` that has created a file. -/
theorem clean_iff (c : Call) (fds : Finset ℤ) (files : List Char → Option File) (uid : ℕ)
    (errno : Errno) {rval : ℤ} {s' : Process}
    (h : c.run (entry fds files uid errno) = some (rval, s')) :
    (rval < 0 → Clean (entry fds files uid errno) s') ↔ ¬ c.FailsBound := by
  cases c with
  | servListen name k => exact servListen_clean_iff rfl rfl h
  | servAccept k => exact iff_of_true (servAccept_clean rfl rfl h) not_false
  | cliConn pid name k => exact cliConn_clean_iff rfl rfl h

/-- A process with standard input, output and error, and an empty file system. -/
def shell : Process := entry {0, 1, 2} (fun _ => none) 1000 (.other 0)

/-- `bind` fails with EACCES. -/
def denied : Call :=
  .cliConn 77 ['s'] ⟨.ok 3, .error (.other 2), .error (.other 13), .ok (), .ok ()⟩

theorem clean_iff_denied : ∃ s', denied.run shell = some (-2, s') ∧ s'.errno = .other 13 ∧
    Clean shell s' :=
  ⟨_, rfl, rfl, (clean_iff denied _ _ _ _ rfl).2 (by decide) (by decide)⟩

/-- No server: `connect` fails with ECONNREFUSED. -/
def refused : Call :=
  .cliConn 77 ['s'] ⟨.ok 3, .error (.other 2), .ok (), .error (.other 111), .ok ()⟩

/-- `listen` fails with EADDRINUSE. -/
def deaf : Call := .servListen ['s'] ⟨.ok 3, .error (.other 2), .ok (), .error (.other 98), .ok ()⟩

/-- The file of the client stays, and so does that of the server. -/
theorem not_clean_refused :
    (∃ s', refused.run shell = some (-4, s') ∧ s'.files (path 77) = some ⟨true, 1000⟩ ∧
      ¬ Clean shell s') ∧
    ∃ s', deaf.run shell = some (-3, s') ∧ s'.files ['s'] = some ⟨true, 1000⟩ ∧
      ¬ Clean shell s' := by
  constructor
  · refine ⟨_, rfl, rfl, fun clean => ?_⟩
    cases clean.unbound (path 77) List.mem_cons_self
  · refine ⟨_, rfl, rfl, fun clean => ?_⟩
    cases clean.unbound ['s'] List.mem_cons_self

end LinuxNote.UnixLib
