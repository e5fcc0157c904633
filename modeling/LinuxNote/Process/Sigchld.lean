import LinuxNote.Conc.Machine
import Mathlib.Data.List.Perm.Basic
import Mathlib.Data.List.Nodup

/-!
# The handlers for SIGCHLD

`sigChld` of `processServTCP.cpp` and `sigcb` of `zombie.c` call `waitpid` until no child is left
that has exited.  A signal that is pending absorbs further ones, so a run of the handler can stand
for many exits; and a child can exit behind the last `waitpid` of a run.

`reaps_of_reachable`: where no signal is pending and no handler runs, every child that has exited
has been reaped, and reaped once.  As long as there is a zombie the handler has another `waitpid` to
come, or the signal is pending.
-/

namespace LinuxNote.Process

open Conc

/-- The two handlers; `sigcb` prints the children that it has reaped. -/
inductive Handler
  | sigChld
  | sigcb
  deriving DecidableEq

/-- The main program runs, or the handler: before `waitpid`, in the body of its loop, or behind. -/
inductive Loc (ι : Type*)
  | main
  | waitpid
  | body (pid : ι)
  | leave
  deriving DecidableEq

/-- The children of a process, and its signal; a process number that is used again counts as another
child. -/
structure Parent (ι : Type*) where
  alive : List ι
  zombies : List ι
  /-- All exits and all results of `waitpid` so far. -/
  exited : List ι
  reaped : List ι
  printed : List ι
  pending : Bool
  loc : Loc ι

/-- `exit` posts the signal; others can post it too. -/
inductive Act (ι : Type*)
  | fork (pid : ι)
  | exit (pid : ι)
  | post
  | deliver
  | waitpid (pid : Option ι)
  | body
  | leave

variable {ι : Type*} [DecidableEq ι]

/-- `waitpid(-1, NULL, WNOHANG)` returns a zombie, and no positive number where there is none. -/
def Parent.waitpid (s : Parent ι) : Option ι → Option (Parent ι)
  | some pid =>
      if pid ∈ s.zombies then
        some { s with
          zombies := s.zombies.erase pid
          reaped := s.reaped ++ [pid]
          loc := .body pid }
      else none
  | none => if s.zombies = [] then some { s with loc := .leave } else none

/-- The signal is blocked while the handler runs. -/
def step (h : Handler) : Act ι → Parent ι → Option (Parent ι)
  | .fork pid, s =>
      if s.loc = .main ∧ pid ∉ s.alive ∧ pid ∉ s.exited then some { s with alive := pid :: s.alive }
      else none
  | .exit pid, s =>
      if pid ∈ s.alive then
        some { s with
          alive := s.alive.erase pid
          zombies := s.zombies ++ [pid]
          exited := s.exited ++ [pid]
          pending := true }
      else none
  | .post, s => some { s with pending := true }
  | .deliver, s =>
      if s.loc = .main ∧ s.pending then some { s with pending := false, loc := .waitpid } else none
  | .waitpid pid, s => if s.loc = .waitpid then s.waitpid pid else none
  | .body, s =>
      match s.loc with
      | .body pid =>
          some { s with
            printed := if h = .sigcb then s.printed ++ [pid] else s.printed
            loc := .waitpid }
      | _ => none
  | .leave, s => if s.loc = .leave then some { s with loc := .main } else none

/-- No child yet. -/
def created : Parent ι := ⟨[], [], [], [], [], false, .main⟩

def parent (h : Handler) : Machine (Parent ι) (Act ι) where
  init s := s = created
  step := step h

/-- No child is reaped twice, or before its exit; and each one is reaped before all is quiet. -/
structure Reaps (s : Parent ι) : Prop where
  once : ∀ c, s.reaped.count c ≤ 1
  exited : ∀ c ∈ s.reaped, c ∈ s.exited
  quiet : s.pending = false → s.loc = .main → ∀ c ∈ s.exited, s.reaped.count c = 1

/-- The loop of the handler has another `waitpid` to come. -/
def Loc.Loops : Loc ι → Prop
  | .waitpid => True
  | .body _ => True
  | _ => False

/-- The child that the body of the loop is about to print. -/
def Loc.untold : Loc ι → List ι
  | .body pid => [pid]
  | _ => []

structure Sound (h : Handler) (s : Parent ι) : Prop where
  distinct : (s.alive ++ s.exited).Nodup
  kinds : s.exited.Perm (s.zombies ++ s.reaped)
  noticed : s.zombies ≠ [] → s.pending = true ∨ s.loc.Loops
  told : h = .sigcb → s.printed ++ s.loc.untold = s.reaped

section Steps

variable {h : Handler} {s s' : Parent ι} {c : ι}

theorem Sound.count_reaped (hs : Sound h s) (c : ι) :
    s.zombies.count c + s.reaped.count c = s.exited.count c := by
  rw [hs.kinds.count_eq, List.count_append]

theorem Sound.reaps (hs : Sound h s) : Reaps s where
  once c := by
    have once := List.nodup_iff_count_le_one.1 (List.nodup_append.1 hs.distinct).2.1 c
    have := hs.count_reaped c
    omega
  exited c mem := hs.kinds.mem_iff.2 (List.mem_append_right _ mem)
  quiet quiet main c mem := by
    have none : s.zombies = [] := by
      by_contra some
      have := hs.noticed some
      rw [quiet, main] at this
      rcases this with pending | loops
      · exact absurd pending (by decide)
      · exact loops
    have once := List.count_eq_one_of_mem (List.nodup_append.1 hs.distinct).2.1 mem
    have := hs.count_reaped c
    rw [none, List.count_nil] at this
    omega

/-- A child that is moved from one list to the end of the next. -/
theorem erase_append_concat {l m : List ι} (mem : c ∈ l) :
    (l.erase c ++ (m ++ [c])).Perm (l ++ m) := by
  rw [← List.append_assoc]
  exact List.perm_append_comm.trans ((List.perm_cons_erase mem).symm.append_right m)

/-- The new zombie has posted the signal. -/
theorem Sound.exit (hs : Sound h s) (alive : c ∈ s.alive) :
    Sound h { s with
      alive := s.alive.erase c
      zombies := s.zombies ++ [c]
      exited := s.exited ++ [c]
      pending := true } where
  distinct := (erase_append_concat alive).nodup_iff.2 hs.distinct
  kinds := by
    have last := hs.kinds.append_right [c]
    rw [List.append_assoc] at last ⊢
    exact last.trans (List.perm_append_comm.append_left _)
  noticed _ := Or.inl rfl
  told := hs.told

/-- The handler goes on to look for others. -/
theorem Sound.reap (hs : Sound h s) (waits : s.loc = .waitpid) (zombie : c ∈ s.zombies) :
    Sound h
      { s with zombies := s.zombies.erase c, reaped := s.reaped ++ [c], loc := .body c } where
  distinct := hs.distinct
  kinds := hs.kinds.trans (erase_append_concat zombie).symm
  noticed _ := Or.inr trivial
  told sigcb := by
    have told := hs.told sigcb
    rw [waits] at told
    exact congrArg (· ++ [c]) ((List.append_nil _).symm.trans told)

theorem Sound.step (hs : Sound h s) (a : Act ι) (hstep : Process.step h a s = some s') :
    Sound h s' := by
  cases a with
  | fork pid =>
      obtain ⟨⟨-, alive, exited⟩, rfl⟩ := Option.ite_some_none_eq_some.1 hstep
      have fresh : pid ∉ s.alive ++ s.exited := by
        rw [List.mem_append, not_or]
        exact ⟨alive, exited⟩
      exact ⟨List.nodup_cons.2 ⟨fresh, hs.distinct⟩, hs.kinds, hs.noticed, hs.told⟩
  | exit pid =>
      obtain ⟨alive, rfl⟩ := Option.ite_some_none_eq_some.1 hstep
      exact hs.exit alive
  | post =>
      obtain rfl := Option.some.inj hstep
      exact ⟨hs.distinct, hs.kinds, fun _ => Or.inl rfl, hs.told⟩
  | deliver =>
      -- the handler now looks for the zombies that the signal stood for
      obtain ⟨⟨main, -⟩, rfl⟩ := Option.ite_some_none_eq_some.1 hstep
      have told := hs.told
      rw [main] at told
      exact ⟨hs.distinct, hs.kinds, fun _ => Or.inr trivial, told⟩
  | waitpid pid =>
      obtain ⟨waits, hstep⟩ := Option.ite_none_right_eq_some.1 hstep
      cases pid with
      | some pid =>
          obtain ⟨zombie, rfl⟩ := Option.ite_some_none_eq_some.1 hstep
          exact hs.reap waits zombie
      | none =>
          obtain ⟨none, rfl⟩ := Option.ite_some_none_eq_some.1 hstep
          have told := hs.told
          rw [waits] at told
          exact ⟨hs.distinct, hs.kinds, fun some => absurd none some, told⟩
  | body =>
      simp only [Process.step] at hstep
      split at hstep
      · next body =>
          obtain rfl := Option.some.inj hstep
          refine ⟨hs.distinct, hs.kinds, fun _ => Or.inr trivial, fun sigcb => ?_⟩
          have told := hs.told sigcb
          rw [body] at told
          exact (List.append_nil _).trans ((if_pos sigcb).trans told)
      · cases hstep
  | leave =>
      obtain ⟨leave, rfl⟩ := Option.ite_some_none_eq_some.1 hstep
      obtain ⟨distinct, kinds, noticed, told⟩ := hs
      rw [leave] at noticed told
      exact ⟨distinct, kinds, fun some => Or.inl ((noticed some).resolve_right id), told⟩

end Steps

theorem sound_of_reachable {h : Handler} {s : Parent ι} (hs : (parent h).Reachable s) :
    Sound h s := by
  have start : Sound h (created : Parent ι) :=
    ⟨List.nodup_nil, List.Perm.refl [], fun some => absurd rfl some, fun _ => rfl⟩
  exact Machine.Inductive.reachable
    ⟨fun _ init => init ▸ start, fun a _ _ _ sound hstep => sound.step a hstep⟩ hs

/-- The handler of `zombie.c` has printed what it has reaped. -/
theorem printed_of_reachable {s : Parent ι} (hs : (parent .sigcb).Reachable s)
    (main : s.loc = .main) : s.printed = s.reaped := by
  have told := (sound_of_reachable hs).told rfl
  rw [main] at told
  exact (List.append_nil _).symm.trans told

/-- For any children, and any order of exits, signals and steps of the handler. -/
theorem reaps_of_reachable {h : Handler} {s : Parent ι} (hs : (parent h).Reachable s) : Reaps s :=
  (sound_of_reachable hs).reaps

/-- Two exits for one signal, and one behind the last `waitpid` of the handler. -/
def threeChildren : List (Act ℕ) :=
  [.fork 0, .fork 1, .fork 2, .exit 0, .exit 1, .deliver, .waitpid (some 1), .body,
    .waitpid (some 0), .body, .waitpid none, .exit 2, .leave, .deliver, .waitpid (some 2), .body,
    .waitpid none, .leave]

theorem reaps_of_reachable_threeChildren : ∃ s, (parent .sigcb).run threeChildren created = some s ∧
    s.pending = false ∧ s.loc = .main ∧ s.exited = [0, 1, 2] ∧ Reaps s := by
  have final : ((parent .sigcb).run threeChildren created).map
      (fun s => (s.pending, s.loc, s.exited)) = some (false, .main, [0, 1, 2]) := by decide
  obtain ⟨s, run, eq⟩ := Option.map_eq_some_iff.1 final
  simp only [Prod.mk.injEq] at eq
  obtain ⟨quiet, main, exited⟩ := eq
  exact ⟨s, run, quiet, main, exited,
    reaps_of_reachable (Machine.reachable_of_run threeChildren rfl run)⟩

end LinuxNote.Process
