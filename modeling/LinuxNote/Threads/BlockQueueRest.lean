import LinuxNote.Conc.Rest
import LinuxNote.Threads.BlockQueue

/-!
# The blocking queue of `pro_con.cpp` at rest

When no thread makes a further call, the calls come to an end after at most 11 steps for each thread
and 5 for each spurious wakeup (`serves_of_reachable`).  Then all calls have returned but those of
`Pop` where the queue is empty and those of `Push` where it is full.
-/

namespace LinuxNote.BlockQueue

open Conc

/-- Between two calls. -/
def Loc.idle (l : Loc) : Prop := l = .ready

/-- How far it is to the end of the call. -/
def Loc.weight : Loc → ℕ
  | .ready | .undefined => 0
  | .pushSignal | .popSignal => 5
  | .pushUnlock | .popUnlock => 6
  | .pushEnqueue _ _ | .popDequeue _ _ | .pushWait _ | .popWait => 7
  | .popFront _ => 8
  | .pushTest _ _ | .popTest _ => 9
  | .pushLock _ | .popLock => 10

/-- Nobody begins a call, and all sleepers wait for what is not there. -/
structure Served (s : State ι) : Prop where
  thr : ∀ t, s.thr t = .run .ready ∨ ∃ c, (s.thr t).AsleepOn c
  con : (∃ t, (s.thr t).AsleepOn .con) → s.mem.queue = []
  pro : (∃ t, (s.thr t).AsleepOn .pro) → s.mem.queue.length = s.mem.capacity

section

variable {ι X : Type*} {next : ι → X → Call} {qmax : ℕ}

theorem prog_settles (t : ι) (l : Loc) (busy : ¬ l.idle) :
    (prog (next t) l).Settles Loc.weight (fun _ => 6) (fun _ => 0) 4 (fun _ => True)
      (fun q => l.locked → l.Asserts qmax q) l := by
  cases l with
  | ready => exact absurd rfl busy
  | pushLock data | pushUnlock | pushSignal | popLock | popUnlock | popSignal =>
      exact Nat.lt_succ_self _
  | pushTest again data | popTest again =>
      intro q _
      dsimp only
      split <;> simp [Loc.weight]
  | pushWait data | popWait => exact ⟨Nat.lt_succ_self _, le_rfl⟩
  | pushEnqueue again data =>
      intro q _
      simp [Loc.weight]
  | popFront again =>
      rintro ⟨queue, capacity, pushed, popped⟩ known
      obtain ⟨data, rest, rfl⟩ := List.exists_cons_of_ne_nil (known rfl).2
      simp [Loc.weight]
  | popDequeue again data =>
      rintro ⟨queue, capacity, pushed, popped⟩ known
      obtain ⟨rest, rfl⟩ := List.head?_eq_some_iff.1 (known rfl).2
      simp [Loc.weight]
  | undefined => exact fun q known => (known rfl).2.elim

theorem not_holds_of_idle (l : Loc) (m : Unit) (h : l.idle) : ¬ l.holds m := by
  rw [Loc.idle] at h
  subst h
  exact Bool.false_ne_true

theorem burden_le (s : State ι) (t : ι) : (s.thr t).burden Loc.weight (fun _ => 6) ≤ 11 := by
  have small : ∀ l : Loc, l.weight ≤ 10 := fun l => by cases l <;> simp [Loc.weight]
  exact Status.burden_le small (fun _ => by decide) (s.thr t)

variable [Fintype ι] [DecidableEq ι] {s s' : State ι}

/-- Where all threads rest, nothing is owed, so nothing is left for a sleeper. -/
theorem served_of_rests (h : (system next qmax).Reachable s)
    (rests : ∀ t, (s.thr t).Rests Loc.idle) : Served s := by
  have nothing : ∀ c, (∃ t, (s.thr t).AsleepOn c) → s.mem.available c = 0 := by
    intro c asleep
    by_contra some_
    obtain ⟨t, l, hl, owes⟩ := (covered h c).exists_owing asleep (Nat.pos_of_ne_zero some_)
    have idle := rests t
    rcases hl with hl | ⟨m, hl⟩ <;> rw [hl] at idle
    · obtain rfl : l = .ready := idle
      cases c <;> cases owes
    · exact idle.elim
  refine ⟨fun t => ?_, fun asleep => ?_, fun asleep => ?_⟩
  · have idle := rests t
    cases hl : s.thr t with
    | run l =>
        rw [hl] at idle
        exact Or.inl (congrArg _ idle)
    | asleep c m k => exact Or.inr ⟨c, rfl⟩
    | woken m k =>
        rw [hl] at idle
        exact idle.elim
  · exact List.length_eq_zero_iff.1 (nothing .con asleep)
  · have bounded := (boundedInOrder_of_reachable h).bounded
    have capacity := (boundedInOrder_of_reachable h).capacity
    have full : s.mem.capacity - s.mem.queue.length = 0 := nothing .pro asleep
    omega

theorem serves_of_reachable (h : (system next qmax).Reachable s) {as : List (Act ι X)}
    (run : (system next qmax).run as s = some s')
    (calm : (system next qmax).Meets (Calm Loc.idle fun _ => True) as s) :
    as.length ≤ 11 * Fintype.card ι + 5 * as.countP Act.isSpurious ∧
      (Stuck (fun t => prog (next t)) Loc.idle (fun _ => True) s' → Served s') := by
  have known : ∀ s, (system next qmax).Reachable s → ∀ t l, s.thr t = .run l → l.locked →
      l.Asserts qmax s.mem := fun s hs => (monitored hs).inside
  have length := length_run_le_unrest prog_respects prog_settles not_holds_of_idle known h run calm
  have bound := unrest_le (r := fun _ => 0) (burden_le s)
  have rest : 0 ≤ s'.unrest Loc.weight (fun _ => 6) fun _ => 0 := unrest_nonneg fun _ => le_rfl
  refine ⟨?_, fun stuck => served_of_rests (h.run run) ?_⟩
  · rw [zero_add] at bound
    omega
  · refine rests_of_stuck (fun t m => by simp [Loc.holds, Loc.locked]) prog_respects
      not_holds_of_idle (fun t l f hi busy => ?_) (h.run run) stuck
    cases l <;> first | exact absurd rfl busy | cases hi

end

/-- The consumer that is woken gets the value, and the other one sleeps on. -/
theorem serves_of_reachable_wokenFirst : ∃ s s',
    (system (fun t => (oneForTwo t).next) 1).Reachable s ∧ s.thr 1 = .run (.popFront true) ∧
    (system (fun t => (oneForTwo t).next) 1).CanReach s s' ∧ Served s' := by
  have h := Machine.reachable_of_run (M := system (fun t => (oneForTwo t).next) 1) wokenFirst rfl
    rfl
  obtain ⟨as, s', run, calm, -, stuck⟩ := exists_stuck prog_respects prog_settles not_holds_of_idle
    (fun s hs => (monitored hs).inside) (fun _ => le_rfl) h
  exact ⟨_, s', h, rfl, ⟨as, run⟩, (serves_of_reachable h run calm).2 stuck⟩

end LinuxNote.BlockQueue
