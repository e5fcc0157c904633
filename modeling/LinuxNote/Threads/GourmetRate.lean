import LinuxNote.Conc.Rate
import LinuxNote.Threads.Gourmet

/-!
# The rate of `cond.c`

A thread that has changed the flag goes through its loop once more and wakes one other thread, and
then both print or fall asleep.  So the messages come at a fixed rate, whatever the schedule
(`printed_of_run`).
-/

namespace LinuxNote.Gourmet

open Conc

/-- How far it is to the next message or to sleep; 3 steps of it are those of a woken thread. -/
def Loc.weight : Loc → ℕ
  | .gourmetPrint _ | .chiefPrint _ => 0
  | .gourmetWait | .chiefWait => 1
  | .gourmetTest _ | .chiefTest _ => 2
  | .gourmetLock | .chiefLock => 3
  | .gourmetSignal | .chiefSignal => 7
  | .gourmetUnlock | .chiefUnlock => 8
  | .gourmetTake _ | .chiefPut _ => 9

theorem prog_settles (l : Loc) :
    (prog l).Settles Loc.weight (fun _ => 0) (fun g : Table => -(10 * g.printed.length : ℕ)) 3
      (fun _ => True) (fun _ => True) l := by
  cases l with
  | gourmetLock | gourmetUnlock | chiefLock | chiefUnlock => exact Nat.lt_succ_self _
  | gourmetSignal | chiefSignal => exact Nat.lt_succ_self _
  | gourmetWait | chiefWait => exact ⟨Nat.one_pos, le_rfl⟩
  | gourmetTest again | chiefTest again =>
      intro g _
      dsimp only
      split <;> simp [Loc.weight]
  | gourmetPrint again | chiefPrint again =>
      intro g _
      simp only [Table.print, Loc.weight, List.length_append, List.length_singleton]
      omega
  | gourmetTake again | chiefPut again =>
      intro g _
      simp only [Table.take, Table.put, Loc.weight]
      omega

section

variable {ι : Type*} [Fintype ι] [DecidableEq ι] {role : ι → Role} {s : State ι}

omit [Fintype ι] [DecidableEq ι] in
theorem burden_le (s : State ι) (t : ι) : (s.thr t).burden Loc.weight (fun _ => 0) ≤ 10 := by
  have small : ∀ l : Loc, l.weight ≤ 9 := fun l => by cases l <;> simp [Loc.weight]
  exact Status.burden_le small (fun _ => Nat.zero_le _) (s.thr t)

/-- For any threads, at least one of each role, and from every reachable state: runs that are long
enough print `n` messages more, which alternate, and there are runs of every length. -/
theorem printed_of_run {p q : ι} (hp : role p = .gourmet) (hq : role q = .chief)
    (h : (system role).Reachable s) (n : ℕ) :
    (∀ as s', (system role).run as s = some s' →
      10 * n + 10 * Fintype.card ι + 4 * as.countP Act.isSpurious ≤ as.length →
        s.mem.printed.length + n ≤ s'.mem.printed.length ∧ Alternates s'.mem.printed) ∧
      ∀ length, ∃ as s', as.length = length ∧ as.countP Act.isSpurious = 0 ∧
        (system role).run as s = some s' := by
  constructor
  · intro as s' run long
    have bound := length_run_le_ledger (fun _ => prog_respects) (fun _ => prog_settles)
      (fun _ _ _ _ _ => trivial) (burden_le s) h run
    exact ⟨by omega, (alternating_of_reachable hp hq (h.run run)).messages⟩
  · intro length
    refine exists_run_of_awake (fun s hs => ?_) h length
    refine exists_awake_of_not_blocked (fun _ => prog_respects) (fun t l f hi => ?_) (owned hs)
      (alternating_of_reachable hp hq hs).goes
    cases l <;> cases hi

end

/-- The gourmet sleeps, and the signal of the chief is still to come.  However the two go on, after
30 steps there is one more message, unless threads wake up without a signal. -/
theorem printed_of_run_oneOfEach : ∃ s as s', (system oneOfEach).Reachable s ∧
    (s.thr 0).AsleepOn .gourmet ∧ as.length = 30 ∧ (system oneOfEach).run as s = some s' ∧
      s.mem.printed.length + 1 ≤ s'.mem.printed.length := by
  have h := Machine.reachable_of_run (M := system oneOfEach)
    [.exec 0, .exec 0, .exec 0, .exec 1, .exec 1, .exec 1, .exec 1, .exec 1] rfl rfl
  obtain ⟨prints, goes⟩ := printed_of_run (p := 0) (q := 1) rfl rfl h 1
  obtain ⟨as, s', length, awake, run⟩ := goes 30
  have long : 10 * 1 + 10 * Fintype.card (Fin 2) + 4 * as.countP Act.isSpurious ≤ as.length := by
    rw [length, awake, Fintype.card_fin]
  exact ⟨_, as, s', h, rfl, length, run, (prints as s' run long).1⟩

end LinuxNote.Gourmet
