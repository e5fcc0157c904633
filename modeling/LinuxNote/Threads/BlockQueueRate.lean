import LinuxNote.Conc.Rate
import LinuxNote.Threads.BlockQueue

/-!
# The rate of the blocking queue of `pro_con.cpp`

A value that is put in or taken out pays for the signal, for the thread that it wakes and for the
rest of the loop.  And no more values are put in than are taken out and as the queue can hold.  So
values come out at a fixed rate, whatever the schedule (`popped_of_run`).
-/

namespace LinuxNote.BlockQueue

open Conc

/-- How far it is to the next change of the queue or to sleep; 3 steps of it are those of a woken
thread. -/
def Loc.distance : Loc → ℕ
  | .pushEnqueue _ _ | .popDequeue _ _ | .undefined => 0
  | .pushWait _ | .popWait | .popFront _ => 1
  | .pushTest _ _ | .popTest _ => 2
  | .pushLock _ | .popLock => 3
  | .ready => 4
  | .pushSignal | .popSignal => 8
  | .pushUnlock | .popUnlock => 9

/-- The changes of the queue. -/
def Queue.changes (q : Queue) : ℕ := q.pushed.length + q.popped.length

section

variable {ι X : Type*} {next : ι → X → Call} {qmax : ℕ}

theorem prog_earns (qmax : ℕ) (t : ι) (l : Loc) :
    (prog (next t) l).Settles Loc.distance (fun _ => 0) (fun q : Queue => -(10 * q.changes : ℕ)) 3
      (fun _ => True) (fun q => l.locked → l.Asserts qmax q) l := by
  cases l with
  | ready =>
      intro x _
      dsimp only
      cases next t x <;> exact Nat.lt_succ_self _
  | pushLock data | pushUnlock | pushSignal | popLock | popUnlock | popSignal =>
      exact Nat.lt_succ_self _
  | pushTest again data | popTest again =>
      intro q _
      dsimp only
      split <;> simp [Loc.distance]
  | pushWait data | popWait => exact ⟨Nat.one_pos, le_rfl⟩
  | pushEnqueue again data =>
      intro q _
      simp only [Queue.changes, Queue.push, Loc.distance, List.length_append, List.length_singleton]
      omega
  | popFront again =>
      rintro ⟨queue, capacity, pushed, popped⟩ known
      obtain ⟨data, rest, rfl⟩ := List.exists_cons_of_ne_nil (known rfl).2
      simp [Loc.distance]
  | popDequeue again data =>
      rintro ⟨queue, capacity, pushed, popped⟩ known
      obtain ⟨rest, rfl⟩ := List.head?_eq_some_iff.1 (known rfl).2
      simp only [Queue.changes, Queue.pop, Loc.distance, List.length_append, List.length_singleton]
      omega
  | undefined => exact fun q known => (known rfl).2.elim

theorem distance_le (s : State ι) (t : ι) :
    (s.thr t).burden Loc.distance (fun _ => 0) ≤ 10 := by
  have small : ∀ l : Loc, l.distance ≤ 9 := fun l => by cases l <;> simp [Loc.distance]
  exact Status.burden_le small (fun _ => Nat.zero_le _) (s.thr t)

variable [Fintype ι] [DecidableEq ι] {s s' : State ι}

/-- From every reachable state, whatever calls the threads make. -/
theorem length_run_le (h : (system next qmax).Reachable s) {as : List (Act ι X)}
    (run : (system next qmax).run as s = some s') :
    as.length + 20 * s.mem.popped.length ≤ 20 * s'.mem.popped.length + 10 * qmax +
      10 * Fintype.card ι + 4 * as.countP Act.isSpurious := by
  have bound := length_run_le_ledger prog_respects (prog_earns qmax)
    (fun s hs => (monitored hs).inside) (distance_le s) h run
  have order := congrArg List.length (boundedInOrder_of_reachable h).order
  have order' := congrArg List.length (boundedInOrder_of_reachable (h.run run)).order
  have bounded := (boundedInOrder_of_reachable (h.run run)).bounded
  rw [List.length_append] at order order'
  simp only [Queue.changes] at bound
  omega

/-- From every reachable state of producers and consumers that loop on a queue of capacity at least
one: runs that are long enough take `n` values out, and there are runs of every length. -/
theorem popped_of_run {role : ι → Role} (hq : 1 ≤ qmax) {p q : ι} (hp : role p = .productor)
    (hc : role q = .consumer) (h : (system (fun t => (role t).next) qmax).Reachable s) (n : ℕ) :
    (∀ as s', (system (fun t => (role t).next) qmax).run as s = some s' →
      20 * n + 10 * qmax + 10 * Fintype.card ι + 4 * as.countP Act.isSpurious ≤ as.length →
        s.mem.popped.length + n ≤ s'.mem.popped.length) ∧
      ∀ length, ∃ as s', as.length = length ∧ as.countP Act.isSpurious = 0 ∧
        (system (fun t => (role t).next) qmax).run as s = some s' := by
  constructor
  · intro as s' run long
    have bound := length_run_le h run
    omega
  · intro length
    refine exists_run_of_awake (fun s hs => ?_) h length
    have own := owned_of_reachable (fun t m => by simp [Loc.holds, Loc.locked]) prog_respects hs
    exact exists_awake_of_not_blocked prog_respects (fun _ _ _ _ => ⟨0⟩) own
      (no_lost_wakeup hq hp hc hs).2

end

/-- The consumer that is woken is about to take the only value.  However the three go on, after 60
steps one more value has been taken out, unless threads wake up without a signal. -/
theorem popped_of_run_wokenFirst : ∃ s as s',
    (system (fun t => (oneForTwo t).next) 1).Reachable s ∧ s.thr 1 = .run (.popFront true) ∧
    as.length = 60 ∧ (system (fun t => (oneForTwo t).next) 1).run as s = some s' ∧
      s.mem.popped.length + 1 ≤ s'.mem.popped.length := by
  have h := Machine.reachable_of_run (M := system (fun t => (oneForTwo t).next) 1) wokenFirst rfl
    rfl
  obtain ⟨pops, goes⟩ := popped_of_run (p := 0) (q := 1) le_rfl rfl rfl h 1
  obtain ⟨as, s', length, awake, run⟩ := goes 60
  have long : 20 * 1 + 10 * 1 + 10 * Fintype.card (Fin 3) + 4 * as.countP Act.isSpurious ≤
      as.length := by
    rw [length, awake, Fintype.card_fin]
  exact ⟨_, as, s', h, rfl, length, run, pops as s' run long⟩

end LinuxNote.BlockQueue
