import LinuxNote.Threads.PthSem
import LinuxNote.Threads.SemTest

/-!
# The rate of the rings of `pth_sem.c` and `sem_test.c`

A producer goes round its loop in seven steps and the consumer in six, and the values not yet
printed are at most as many as the ring has slots.  As the two threads are never both blocked, every
13 steps, but for the first 47, the consumer prints a further value (`SemRing.prints_of_keeps`).
-/

namespace LinuxNote.SemRing

open Conc

/-- How many steps ago the consumer has printed. -/
def ConsumerLoc.hour : ConsumerLoc → ℕ
  | .clear _ => 0
  | .post _ => 1
  | .advance _ => 2
  | .wait _ => 3
  | .read _ => 4
  | .print _ _ => 5

/-- `hour` tells how many steps ago the producer has stored its value. -/
def Loc.hour (hour : ProducerLoc → ℕ) : Loc → ℕ
  | .producer l => hour l
  | .consumer l => l.hour

/-- Each value stored makes up for a round of the producer and each value printed for one of the
consumer. -/
def Ring.ledger (q : Ring) : ℕ := 7 * q.stored.length + 6 * q.consumed.length

theorem Ring.ledger_store (q : Ring) (p : ℕ) (num : ℤ) :
    (q.store p num).ledger = q.ledger + 7 := by
  simp only [ledger, store, List.length_append, List.length_singleton]
  omega

theorem Ring.ledger_printConsume (q : Ring) (num : ℤ) :
    (q.printConsume num).ledger = q.ledger + 6 := by
  simp only [ledger, printConsume, List.length_append, List.length_singleton]
  omega

section

variable {produce : ProducerLoc → Instr Empty Empty Sem ℕ Ring ProducerLoc} {V : View}
  {hour : ProducerLoc → ℕ} {s s' : State}

theorem Loc.hour_le (le : ∀ l, hour l ≤ 6) (l : Loc) : l.hour hour ≤ 6 := by
  cases l with
  | producer l => exact le l
  | consumer l => cases l <;> simp [Loc.hour, ConsumerLoc.hour]

theorem consumer_ticks (l : ConsumerLoc) :
    (consumer l).Ticks ConsumerLoc.hour Ring.ledger l := by
  cases l with
  | wait c | post c => rfl
  | print c num => exact fun q => q.ledger_printConsume num
  | read c | clear c | advance c => exact fun q => rfl

theorem prog_ticks (ticks : ∀ l, (produce l).Ticks hour Ring.ledger l) (_ : Thread) (l : Loc) :
    (prog produce l).Ticks (Loc.hour hour) Ring.ledger l := by
  cases l with
  | producer l => exact (ticks l).within fun _ => rfl
  | consumer l => exact (consumer_ticks l).within fun _ => rfl

theorem ordered_of_reachable (keeps : Keeps produce V) (h : (system produce).Reachable s) :
    s.mem.consumed <+: s.mem.stored ∧ s.mem.stored.length ≤ s.mem.consumed.length + NUM := by
  obtain ⟨lp, lc, -, inv⟩ := sound_of_reachable keeps h
  have blank := inv.blank
  exact ⟨inv.order, by omega⟩

theorem length_run_le (keeps : Keeps produce V) (le : ∀ l, hour l ≤ 6)
    (ticks : ∀ l, (produce l).Ticks hour Ring.ledger l) (h : (system produce).Reachable s)
    {as : List (Act Thread ℕ)} (run : (system produce).run as s = some s') :
    as.length + 13 * s.mem.consumed.length ≤ 13 * s'.mem.consumed.length + 47 := by
  have clock := clock_of_run (prog_ticks ticks) run
  have late := clock_le (s := s') (r := Ring.ledger) (Loc.hour_le le)
  have early : s.mem.ledger ≤ s.clock (Loc.hour hour) Ring.ledger := Nat.le_add_right _ _
  have before := (ordered_of_reachable keeps h).1.length_le
  have after := (ordered_of_reachable keeps (h.run run)).2
  have two : Fintype.card Thread = 2 := rfl
  simp only [Ring.ledger, two, NUM] at late early after
  omega

/-- What the consumer does with a producer that goes round in seven steps: it has printed what was
stored, in order; runs that are long enough print `n` further values; and there are runs of every
length. -/
theorem prints_of_keeps (keeps : Keeps produce V) (le : ∀ l, hour l ≤ 6)
    (ticks : ∀ l, (produce l).Ticks hour Ring.ledger l) (h : (system produce).Reachable s) (n : ℕ) :
    s.mem.consumed <+: s.mem.stored ∧
      (∀ as s', (system produce).run as s = some s' → 13 * n + 47 ≤ as.length →
        s.mem.consumed.length + n ≤ s'.mem.consumed.length) ∧
      ∀ length, ∃ as s', as.length = length ∧ (system produce).run as s = some s' := by
  refine ⟨(ordered_of_reachable keeps h).1, fun as s' run long => ?_, fun length => ?_⟩
  · have bound := length_run_le keeps le ticks h run
    omega
  · refine Machine.exists_run_of_live (fun s hs => ?_) h length
    obtain ⟨t, ht⟩ := exists_not_blocked keeps (sound_of_reachable keeps hs)
    exact exists_step_of_free ht

end

end LinuxNote.SemRing

namespace LinuxNote.PthSem

open Conc SemRing

def hour : ProducerLoc → ℕ
  | .read _ => 0
  | .print _ _ => 1
  | .post _ => 2
  | .advance _ => 3
  | .wait _ => 4
  | .rand _ => 5
  | .store _ _ => 6

theorem hour_le (l : ProducerLoc) : hour l ≤ 6 := by
  cases l <;> simp [hour]

theorem producer_ticks (l : ProducerLoc) : (producer l).Ticks hour Ring.ledger l := by
  cases l with
  | wait p | post p => rfl
  | rand p => exact fun rand => rfl
  | store p num => exact fun q => q.ledger_store p num
  | read p | print p num | advance p => exact fun q => rfl

/-- From every reachable state of `pth_sem.c`: the consumer has printed what was stored, in order;
runs that are long enough print `n` further values; and there are runs of every length. -/
theorem prints_of_run {s : State} (h : system.Reachable s) (n : ℕ) :
    s.mem.consumed <+: s.mem.stored ∧
      (∀ as s', system.run as s = some s' → 13 * n + 47 ≤ as.length →
        s.mem.consumed.length + n ≤ s'.mem.consumed.length) ∧
      ∀ length, ∃ as s', as.length = length ∧ system.run as s = some s' :=
  prints_of_keeps keeps hour_le producer_ticks h n

/-- The producer has stored 8 and goes round its loop.  However the threads go on, after 60 steps
the consumer has printed. -/
theorem prints_of_run_eight : ∃ s as s', system.Reachable s ∧ s.mem.stored = [8] ∧
    as.length = 60 ∧ system.run as s = some s' ∧
      s.mem.consumed.length + 1 ≤ s'.mem.consumed.length := by
  have h := Machine.reachable_of_run (M := system)
    [.exec .producer, .input .producer 7, .exec .producer, .exec .producer] rfl rfl
  obtain ⟨-, prints, goes⟩ := prints_of_run h 1
  obtain ⟨as, s', length, run⟩ := goes 60
  exact ⟨_, as, s', h, rfl, length, run, prints as s' run length.ge⟩

end LinuxNote.PthSem

namespace LinuxNote.SemTest

open Conc SemRing

def hour : ProducerLoc → ℕ
  | .post _ => 0
  | .read _ => 1
  | .print _ _ => 2
  | .advance _ => 3
  | .wait _ => 4
  | .rand _ => 5
  | .store _ _ => 6

theorem hour_le (l : ProducerLoc) : hour l ≤ 6 := by
  cases l <;> simp [hour]

theorem producer_ticks (l : ProducerLoc) : (producer l).Ticks hour Ring.ledger l := by
  cases l with
  | wait top | post top => rfl
  | rand top => exact fun rand => rfl
  | store top num => exact fun q => q.ledger_store top num
  | read top | print top num | advance top => exact fun q => rfl

/-- The same holds of `sem_test.c`, whose producer may print what it did not store: the consumer
prints what was stored, in order and at the same rate, and the program does not stop. -/
theorem prints_of_reachable {s : State} (h : system.Reachable s) (n : ℕ) :
    s.mem.consumed <+: s.mem.stored ∧
      (∀ as s', system.run as s = some s' → 13 * n + 47 ≤ as.length →
        s.mem.consumed.length + n ≤ s'.mem.consumed.length) ∧
      ∀ length, ∃ as s', as.length = length ∧ system.run as s = some s' :=
  prints_of_keeps keeps hour_le producer_ticks h n

theorem prints_of_reachable_eight : ∃ s as s', system.Reachable s ∧ s.mem.stored = [8] ∧
    as.length = 60 ∧ system.run as s = some s' ∧
      s.mem.consumed.length + 1 ≤ s'.mem.consumed.length := by
  have h := Machine.reachable_of_run (M := system)
    [.exec .producer, .input .producer 7, .exec .producer, .exec .producer] rfl rfl
  obtain ⟨-, prints, goes⟩ := prints_of_reachable h 1
  obtain ⟨as, s', length, run⟩ := goes 60
  exact ⟨_, as, s', h, rfl, length, run, prints as s' run length.ge⟩

end LinuxNote.SemTest
