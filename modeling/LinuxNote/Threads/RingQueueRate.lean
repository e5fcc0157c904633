import LinuxNote.Conc.Rate
import LinuxNote.Threads.RingQueue

/-!
# The rate of the ring queue of `con_pro.cpp`

A call has seven steps, and there are at most as many values stored and not taken out as the queue
has slots.  So the threads cannot go on for long without taking values out, whatever the schedule
(`pops_of_run`).
-/

namespace LinuxNote.RingQueue

open Conc

/-- How many steps ago the thread has accessed the array. -/
def Loc.hour : Loc → ℕ
  | .pushAdvance | .popAdvance => 0
  | .pushUnlock | .popUnlock => 1
  | .pushPost | .popPost => 2
  | .ready => 3
  | .pushSpace _ | .popData => 4
  | .pushLock _ | .popLock => 5
  | .pushStore _ | .popTake => 6

theorem Loc.hour_le (l : Loc) : l.hour ≤ 6 := by
  cases l <;> simp [Loc.hour]

/-- Each access to the array makes up for the steps of one call. -/
def Queue.ledger (q : Queue) : ℕ := 7 * (q.pushed.length + q.popped.length)

section

variable {ι X : Type*} {next : ι → X → Call} {maxq : ℕ}

theorem loop_ticks (t : ι) (l : Loc) : (loop next t l).Ticks Loc.hour Queue.ledger l := by
  cases l with
  | ready =>
      intro x
      dsimp only
      cases next t x <;> rfl
  | pushStore data =>
      intro q
      simp only [Queue.ledger, Queue.store, Loc.hour, List.length_append, List.length_singleton]
      omega
  | popTake =>
      intro q
      simp only [Queue.ledger, Queue.take, Loc.hour, List.length_append, List.length_singleton]
      omega
  | pushAdvance | popAdvance => exact fun q => rfl
  | pushSpace data | pushLock data | popData | popLock => rfl
  | pushUnlock | pushPost | popUnlock | popPost => rfl

variable [Fintype ι] [DecidableEq ι] {s s' : State ι}

theorem stored_of_reachable (h : (loops next maxq).Reachable s) :
    s.mem.popped.length ≤ s.mem.pushed.length ∧
      s.mem.pushed.length ≤ s.mem.popped.length + maxq := by
  obtain ⟨-, value, slot⟩ := tokens_of_reachable (reachable_of_comap h)
  constructor
  · omega
  · omega

theorem length_run_le (h : (loops next maxq).Reachable s) {as : List (Act ι X)}
    (run : (loops next maxq).run as s = some s') :
    as.length + 14 * s.mem.popped.length ≤
      14 * s'.mem.popped.length + 7 * maxq + 6 * Fintype.card ι := by
  have clock := clock_of_run loop_ticks run
  have late := clock_le (s := s') (r := Queue.ledger) Loc.hour_le
  have early : s.mem.ledger ≤ s.clock Loc.hour Queue.ledger := Nat.le_add_right _ _
  obtain ⟨before, -⟩ := stored_of_reachable h
  obtain ⟨-, after⟩ := stored_of_reachable (h.run run)
  simp only [Queue.ledger] at late early
  omega

/-- From every reachable state: runs that are long enough take `n` values out, and where one thread
loops on `Push` and one on `Pop` there are runs of every length. -/
theorem pops_of_run (h : (loops next maxq).Reachable s) (n : ℕ) :
    (∀ as s', (loops next maxq).run as s = some s' →
      14 * n + 7 * maxq + 6 * Fintype.card ι ≤ as.length →
        s.mem.popped.length + n ≤ s'.mem.popped.length) ∧
      (1 ≤ maxq → ∀ p q, (∀ x, ∃ data, next p x = .push data) → (∀ x, next q x = .pop) →
        Nonempty X → ∀ length, ∃ as s', as.length = length ∧
          (loops next maxq).run as s = some s') := by
  constructor
  · intro as s' run long
    have bound := length_run_le h run
    omega
  · intro hq p q pushes pops _ length
    refine Machine.exists_run_of_live (fun s hs => ?_) h length
    exact ((conserved_and_exists_step hq hs).2 p q pushes pops).2

end

/-- The only slot is taken.  However the two threads go on, after 33 steps one value more has been
taken out. -/
theorem pops_of_run_pushOrPop : ∃ s as s', (loops pushOrPop 1).Reachable s ∧ s.sem .space = 0 ∧
    as.length = 33 ∧ (loops pushOrPop 1).run as s = some s' ∧
      s.mem.popped.length + 1 ≤ s'.mem.popped.length := by
  have h := Machine.reachable_of_run (M := loops pushOrPop 1)
    [.input 0 (), .input 1 (), .exec 0, .exec 0] rfl rfl
  obtain ⟨pops, goes⟩ := pops_of_run h 1
  obtain ⟨as, s', length, run⟩ := goes le_rfl 0 1 (fun _ => ⟨0, rfl⟩) (fun _ => rfl) ⟨()⟩ 33
  exact ⟨_, as, s', h, rfl, length, run, pops as s' run length.ge⟩

end LinuxNote.RingQueue
