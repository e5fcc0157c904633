import LinuxNote.Conc.Rest
import LinuxNote.Threads.ThreadPool

/-!
# The thread pool of `threadPool.cpp` at rest

When no thread begins a further `PushTask`, the workers come to rest after a number of steps that
the tasks and threads bound, and then each task that was pushed has been run once
(`drains_of_reachable`).
-/

namespace LinuxNote.ThreadPool

open Conc

variable {ι H : Type*}

/-- Outside the pool a thread is idle. -/
def Loc.idle (l : Loc H) : Prop := l = .main

/-- A handler pushes no further task. -/
def Returns (x : Option (ThreadTask H)) : Prop := x = none

/-- How far it is to `main`, or to the next round of a worker without a task. -/
def Loc.weight : Loc H → ℕ
  | .main | .undefined => 0
  | .wait => 1
  | .pop _ _ => 3
  | .front _ => 4
  | .test _ => 5
  | .lock => 6
  | .running => 7
  | .run _ _ => 8
  | .unlock _ _ => 9
  | .pushSignal _ => 14
  | .pushUnlock _ => 15
  | .pushEnqueue _ _ => 23
  | .pushLock _ _ => 24

/-- A task in the queue will cost one round of a worker. -/
def Pool.work (pool : Pool ι H) : ℤ := 7 * pool.queue.length

theorem work_nonneg (pool : Pool ι H) : 0 ≤ pool.work := by
  unfold Pool.work
  omega

theorem prog_settles (t : ι) (l : Loc H) (busy : ¬ l.idle) :
    (prog t l).Settles Loc.weight (fun _ => 0) Pool.work 6 Returns
      (fun pool => l.locked → l.Asserts pool) l := by
  cases l with
  | main => exact absurd rfl busy
  | pushLock nested task | pushUnlock nested | lock | unlock index task => exact Nat.lt_succ_self _
  | pushEnqueue nested task =>
      intro pool _
      simp only [Pool.work, Pool.push, Loc.weight, List.length_append, List.length_singleton]
      omega
  | pushSignal nested => cases nested <;> simp [prog, Instr.Settles, Loc.weight]
  | test again =>
      intro pool _
      dsimp only
      split <;> simp [Loc.weight]
  | wait => exact ⟨Nat.one_pos, le_rfl⟩
  | front again =>
      rintro ⟨queue, pushed, removed, ran⟩ known
      obtain ⟨task, rest, rfl⟩ := List.exists_cons_of_ne_nil (known rfl).2
      simp only [Pool.work, Loc.weight]
      omega
  | pop again task =>
      rintro ⟨queue, pushed, removed, ran⟩ known
      obtain ⟨rest, rfl⟩ := List.head?_eq_some_iff.1 (known rfl).2
      simp only [Pool.work, Loc.weight, List.length_cons]
      omega
  | run index task =>
      intro pool _
      simp only [Pool.work, Pool.run, Loc.weight]
      omega
  | running =>
      rintro x rfl
      exact Nat.lt_succ_self _
  | undefined => exact fun pool known => (known rfl).2.elim

theorem not_holds_of_idle (l : Loc H) (m : Unit) (h : l.idle) : ¬ l.holds m := by
  rw [Loc.idle] at h
  subst h
  exact Bool.false_ne_true

theorem burden_le (s : State ι H) (t : ι) : (s.thr t).burden Loc.weight (fun _ => 0) ≤ 25 := by
  have small : ∀ l : Loc H, l.weight ≤ 24 := fun l => by cases l <;> simp [Loc.weight]
  exact Status.burden_le small (fun _ => Nat.zero_le _) (s.thr t)

/-- The queue is empty, and each task pushed has been run once, by a worker. -/
structure AllRan (worker : ι → Bool) (s : State ι H) : Prop where
  queue : s.mem.queue = []
  removed : s.mem.removed = s.mem.pushed
  once : ∀ n, s.mem.ran.countP (·.index = n) = if n < s.mem.pushed.length then 1 else 0
  ran : ∀ r ∈ s.mem.ran, worker r.thread ∧ s.mem.pushed[r.index]? = some r.task

section

variable [Fintype ι] [DecidableEq ι] {worker : ι → Bool} {s s' : State ι H} {w : ι}

theorem allRan_of_rests (hw : worker w) (h : (system H worker).Reachable s)
    (rests : ∀ t, (s.thr t).Rests Loc.idle) : AllRan worker s := by
  have each := exactlyOnce_of_reachable h
  obtain ⟨queue, fifo⟩ := each.order
  have asleep : (s.thr w).AsleepOn () := by
    cases hl : s.thr w with
    | run l =>
        have works := worker_of_stands h (Or.inl hl)
        have idle := rests w
        rw [hl] at idle
        obtain rfl : l = .main := idle
        cases hw.symm.trans works
    | asleep c m k => rfl
    | woken m k =>
        have awake := rests w
        rw [hl] at awake
        exact awake.elim
  have empty : s.mem.queue = [] := by
    by_contra some_
    obtain ⟨t, l, hl, owes⟩ := (covered h).exists_owing ⟨w, asleep⟩ (List.length_pos_iff.2 some_)
    have idle := rests t
    rcases hl with hl | ⟨m, hl⟩ <;> rw [hl] at idle
    · obtain rfl : l = .main := idle
      cases owes
    · exact idle.elim
  have all : s.mem.removed = s.mem.pushed := by
    have own := owned_of_reachable (fun t m => by cases worker t <;> exact Bool.false_ne_true)
      prog_respects h
    have fifo : s.mem.Fifo := (monitored h).invariant own fun _ l pool hl => hl.1
    rw [Pool.Fifo, empty, List.append_nil] at fifo
    exact fifo
  have none_ : ∀ n, total (hasInHand n) s.thr = 0 := by
    refine fun n => total_eq_zero_iff.2 fun t => ?_
    have idle := rests t
    cases hl : s.thr t with
    | run l =>
        rw [hl] at idle
        obtain rfl : l = .main := idle
        rfl
    | asleep c m k | woken m k => rfl
  refine ⟨empty, all, fun n => ?_, fun r hr => all ▸ each.ran r hr⟩
  have once := each.once n
  rwa [none_, Nat.zero_add, all] at once

/-- Every way to go on without a further push comes to an end, and then all tasks have been run. -/
theorem drains_of_reachable (hw : worker w) (h : (system H worker).Reachable s) :
    (∀ as s', (system H worker).run as s = some s' →
      (system H worker).Meets (Calm Loc.idle Returns) as s →
      as.length ≤ 7 * s.mem.queue.length + 25 * Fintype.card ι + 7 * as.countP Act.isSpurious ∧
        (Stuck prog Loc.idle Returns s' → AllRan worker s')) ∧
    ∃ as s', (system H worker).run as s = some s' ∧
      (system H worker).Meets (Calm Loc.idle Returns) as s ∧ AllRan worker s' := by
  have outside : ∀ t m, ¬ (if worker t then Loc.lock else Loc.main (H := H)).holds m := by
    intro t m
    cases worker t <;> exact Bool.false_ne_true
  have known : ∀ s, (system H worker).Reachable s → ∀ t l, s.thr t = .run l → l.locked →
      l.Asserts s.mem := fun s hs => (monitored hs).inside
  have gives : ∃ x : Option (ThreadTask H), Returns x := ⟨none, rfl⟩
  have ends : ∀ s', (system H worker).Reachable s' → Stuck prog Loc.idle Returns s' →
      AllRan worker s' := by
    intro s' hs' stuck
    apply allRan_of_rests hw hs'
    exact rests_of_stuck outside prog_respects not_holds_of_idle (fun _ _ _ _ _ => gives) hs' stuck
  refine ⟨fun as s' run calm => ⟨?_, ends s' (h.run run)⟩, ?_⟩
  · have length :=
      length_run_le_unrest prog_respects prog_settles not_holds_of_idle known h run calm
    have bound := unrest_le (r := Pool.work) (burden_le s)
    have rest : 0 ≤ s'.unrest Loc.weight (fun _ => 0) Pool.work := unrest_nonneg work_nonneg
    have work : s.mem.work = 7 * s.mem.queue.length := rfl
    omega
  · obtain ⟨as, s', run, calm, -, stuck⟩ :=
      exists_stuck prog_respects prog_settles not_holds_of_idle known work_nonneg h
    exact ⟨as, s', run, calm, ends s' (h.run run) stuck⟩

end

/-- The task is in the queue and the worker woken; and in some way to go on the worker runs it. -/
theorem drains_of_reachable_pushAndRun : ∃ s as s', (system ℕ oneWorker).Reachable s ∧
    s.mem.queue.length = 1 ∧ (system ℕ oneWorker).run as s = some s' ∧ AllRan oneWorker s' := by
  have h := Machine.reachable_of_run (M := system ℕ oneWorker) ((pushAndRun ⟨7, 0⟩).take 8) rfl rfl
  obtain ⟨-, as, s', run, -, all⟩ := drains_of_reachable (w := true) rfl h
  exact ⟨_, as, s', h, rfl, run, all⟩

end LinuxNote.ThreadPool
