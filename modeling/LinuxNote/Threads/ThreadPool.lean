import LinuxNote.Conc.Wakeup

/-!
# The thread pool of `threadPool.cpp`

Workers take tasks from a `std::queue` behind a mutex and run them outside it; any thread pushes
tasks, also a worker from inside a task's handler.  `PushTask` signals after it has unlocked.

A task that has been removed is in the hands of one worker or has been run once (`Handed`), and
while workers sleep, each queued task is matched by a signal still to be sent or by a woken worker
that has not yet removed one (`covered`).
-/

namespace LinuxNote.ThreadPool

open Conc

variable {ι H : Type*}

structure ThreadTask (H : Type*) where
  data : ℤ
  hander : H

/-- A call of a handler: the thread that made it, and which removed task it was made for. -/
structure Run (ι H : Type*) where
  thread : ι
  index : ℕ
  task : ThreadTask H

/-- `m_queue`, the tasks pushed and removed so far, and the calls of their handlers. -/
structure Pool (ι H : Type*) where
  queue : List (ThreadTask H)
  pushed : List (ThreadTask H)
  removed : List (ThreadTask H)
  ran : List (Run ι H)

/-- `main` is outside the pool, `running` inside a handler called by a worker; every other location
is before the statement it names.  `nested` says that a handler called `PushTask`, `again` that the
worker comes from `pthread_cond_wait`.  In `undefined` it has called `front` or `pop` on an empty
`std::queue`. -/
inductive Loc (H : Type*)
  | main
  | pushLock (nested : Bool) (task : ThreadTask H)
  | pushEnqueue (nested : Bool) (task : ThreadTask H)
  | pushUnlock (nested : Bool)
  | pushSignal (nested : Bool)
  | lock
  | test (again : Bool)
  | wait
  | front (again : Bool)
  | pop (again : Bool) (task : ThreadTask H)
  | unlock (index : ℕ) (task : ThreadTask H)
  | run (index : ℕ) (task : ThreadTask H)
  | running
  | undefined

/-- `m_queue.push(task)` -/
def Pool.push (pool : Pool ι H) (task : ThreadTask H) : Pool ι H :=
  { pool with queue := pool.queue ++ [task], pushed := pool.pushed ++ [task] }

/-- `task.run()` -/
def Pool.run (pool : Pool ι H) (t : ι) (index : ℕ) (task : ThreadTask H) : Pool ι H :=
  { pool with ran := pool.ran ++ [⟨t, index, task⟩] }

/-- Outside the pool and in a handler, the choice is a task to push; `none` lets the handler
return. -/
def prog (t : ι) : Loc H → Instr Unit Unit Empty (Option (ThreadTask H)) (Pool ι H) (Loc H)
  | .main => .input fun
      | some task => .pushLock false task
      | none => .main
  | .pushLock nested task => .lock () (.pushEnqueue nested task)
  | .pushEnqueue nested task => .stmt fun pool => (pool.push task, .pushUnlock nested)
  | .pushUnlock nested => .unlock () (.pushSignal nested)
  | .pushSignal nested => .signal () (if nested then .running else .main)
  | .lock => .lock () (.test false)
  | .test again => .stmt fun pool => (pool, if pool.queue = [] then .wait else .front again)
  | .wait => .wait () () (.test true)
  | .front again => .stmt fun pool =>
      match pool.queue with
      | [] => (pool, .undefined)
      | task :: _ => (pool, .pop again task)
  | .pop _ task => .stmt fun pool =>
      match pool.queue with
      | [] => (pool, .undefined)
      | head :: rest =>
          ({ pool with queue := rest, removed := pool.removed ++ [head] },
            .unlock pool.removed.length task)
  | .unlock index task => .unlock () (.run index task)
  | .run index task => .stmt fun pool => (pool.run t index task, .running)
  | .running => .input fun
      | some task => .pushLock true task
      | none => .lock
  | .undefined => .stmt fun pool => (pool, .undefined)

abbrev State (ι H : Type*) := Conc.State ι Unit Unit Empty (Pool ι H) (Loc H)

/-- An empty pool with the workers `worker`; every other thread may push tasks. -/
def system [Fintype ι] [DecidableEq ι] (H : Type*) (worker : ι → Bool) :
    Machine (State ι H) (Act ι (Option (ThreadTask H))) :=
  machine prog (start (fun t => if worker t then .lock else .main) Empty.elim ⟨[], [], [], []⟩)

/-! ## The critical sections -/

/-- The statements between `pthread_mutex_lock` and `pthread_mutex_unlock`. -/
def Loc.locked : Loc H → Bool
  | .pushEnqueue _ _ | .pushUnlock _ | .test _ | .wait | .front _ | .pop _ _ | .unlock _ _
  | .undefined => true
  | _ => false

def Loc.holds (l : Loc H) (_ : Unit) : Prop := l.locked

/-- The queue is what has been pushed and not been removed. -/
def Pool.Fifo (pool : Pool ι H) : Prop := pool.removed ++ pool.queue = pool.pushed

/-- What the thread at a location knows in addition. -/
def Loc.Known (l : Loc H) (pool : Pool ι H) : Prop :=
  match l with
  | .wait => pool.queue = []
  | .front _ => pool.queue ≠ []
  | .pop _ task => pool.queue.head? = some task
  | .undefined => False
  | _ => True

def Loc.Asserts (l : Loc H) (pool : Pool ι H) : Prop := pool.Fifo ∧ l.Known pool

theorem Pool.Fifo.push {pool : Pool ι H} (h : pool.Fifo) (task : ThreadTask H) :
    (pool.push task).Fifo := by
  unfold Pool.Fifo at h ⊢
  simp [Pool.push, ← h]

theorem prog_respects (t : ι) (l : Loc H) : (prog t l).Respects Loc.holds l := by
  cases l with
  | main | running =>
      rintro (_ | task) _ <;> exact Iff.rfl
  | pushSignal nested => cases nested <;> exact fun _ => Iff.rfl
  | test again | front again | pop again task =>
      refine Instr.respects_of_flag Loc.locked fun pool => ?_
      split <;> rfl
  | _ => simp [prog, Instr.Respects, Loc.holds, Loc.locked]

theorem prog_keeps (t : ι) (l : Loc H) :
    (prog t l).Keeps Loc.holds Pool.Fifo (fun _ => Loc.Asserts) t l := by
  cases l with
  | main | running => exact fun x pool h => by simp [Loc.holds, Loc.locked] at h
  | pushLock nested task | lock => exact fun pool h => ⟨h, trivial⟩
  | pushEnqueue nested task =>
      exact fun pool => ⟨fun _ h => ⟨h.1.push task, trivial⟩, fun h => absurd rfl h⟩
  | pushUnlock nested | unlock index task => exact fun pool h => h.1
  | pushSignal nested => exact fun pool h => by simp [Loc.holds, Loc.locked] at h
  | test again =>
      refine fun pool => ⟨fun _ h => ⟨h.1, ?_⟩, fun h => absurd rfl h⟩
      dsimp only
      split <;> assumption
  | wait => exact fun pool => ⟨fun h => h.1, fun h => ⟨h, trivial⟩⟩
  | front again =>
      refine fun pool => ⟨fun _ h => ?_, fun h => absurd rfl h⟩
      dsimp only
      split
      · next empty => exact absurd empty h.2
      · next task rest first => exact ⟨h.1, by simp [Loc.Known, first]⟩
  | pop again task =>
      refine fun pool => ⟨fun _ h => ?_, fun h => absurd rfl h⟩
      dsimp only
      split
      · next empty => simp [Loc.Asserts, Loc.Known, empty] at h
      · next head rest first =>
          have fifo : pool.removed ++ pool.queue = pool.pushed := h.1
          exact ⟨by simp [Pool.Fifo, ← fifo, first], trivial⟩
  | run index task =>
      refine fun pool => ⟨fun h => by simp [Loc.holds, Loc.locked] at h, fun _ => ⟨id, ?_⟩⟩
      -- the log of calls is in no other thread's assertion
      intro u k _ h
      cases k <;> exact h
  | undefined => exact fun pool => ⟨fun _ h => h.2.elim, fun h => absurd rfl h⟩

/-- The locations of the workers. -/
def Loc.work : Loc H → Bool
  | .main => false
  | .pushLock nested _ | .pushEnqueue nested _ | .pushUnlock nested | .pushSignal nested => nested
  | _ => true

theorem work_of_leads {t : ι} {l k : Loc H} (h : (prog t l).Leads k) : k.work = l.work := by
  cases l with
  | main | running =>
      obtain ⟨_ | task, rfl⟩ := h <;> rfl
  | pushSignal nested =>
      obtain rfl : _ = k := h
      cases nested <;> rfl
  | test again | front again | pop again task =>
      obtain ⟨pool, rfl⟩ := h
      dsimp only
      split <;> rfl
  | pushEnqueue nested task | run index task | undefined =>
      obtain ⟨pool, rfl⟩ := h
      rfl
  | pushLock nested task | pushUnlock nested | lock | wait | unlock index task =>
      obtain rfl : _ = k := h
      rfl

/-! ## Wakeups -/

/-- A `PushTask` between its push and the end of its signal, or a worker woken for a task that it
has not yet removed. -/
def Loc.owes : Loc H → Bool
  | .pushUnlock _ | .pushSignal _ | .test true | .front true | .pop true _ => true
  | _ => false

theorem prog_pays (t : ι) (l : Loc H) :
    (prog t l).Pays () Loc.owes (fun pool : Pool ι H => pool.queue.length)
      (fun l pool => l.locked → l.Asserts pool) l := by
  cases l with
  | main | running => rintro (_ | task) <;> exact id
  | pushLock nested task | pushUnlock nested | lock | unlock index task => exact id
  | pushEnqueue nested task =>
      exact fun pool _ => Or.inr (by simp [Pool.push, Loc.owes])
  | pushSignal nested => exact Or.inl rfl
  | test again =>
      intro pool _
      by_cases empty : pool.queue = []
      · exact Or.inl (by simp [empty])
      · right
        cases again <;> simp [empty] <;> exact le_rfl
  | wait =>
      refine ⟨rfl, fun pool known => ?_⟩
      have empty : pool.queue = [] := (known rfl).2
      simp [empty]
  | front again =>
      rintro ⟨queue, pushed, removed, ran⟩ known
      obtain ⟨task, rest, rfl⟩ := List.exists_cons_of_ne_nil (known rfl).2
      right
      cases again <;> exact le_rfl
  | pop again task =>
      rintro ⟨queue, pushed, removed, ran⟩ known
      obtain ⟨rest, rfl⟩ := List.head?_eq_some_iff.1 (known rfl).2
      right
      cases again <;> simp [Loc.owes]
  | run index task => exact fun pool _ => Or.inr le_rfl
  | undefined => exact fun pool known => (known rfl).2.elim

section

variable [Fintype ι] [DecidableEq ι] {worker : ι → Bool} {s s' : State ι H}

theorem monitored (h : (system H worker).Reachable s) :
    Monitored Loc.holds Pool.Fifo (fun _ => Loc.Asserts) s := by
  refine monitored_of_reachable (fun t m => ?_) ?_ prog_respects prog_keeps h
  · cases worker t <;> exact Bool.false_ne_true
  · exact List.append_nil []

theorem valid (h : (system H worker).Reachable s) (t : ι) :
    (s.thr t).Valid prog (fun l => l.work = worker t) t := by
  refine valid_of_reachable (R := fun t (l : Loc H) => l.work = worker t) (fun t => ?_)
    (fun t l k hl hk => (work_of_leads hk).trans hl) h t
  cases hw : worker t <;> rfl

/-- A woken thread goes on at the test. -/
theorem eq_test_of_woken (h : (system H worker).Reachable s) {t : ι} {m : Unit} {k : Loc H}
    (hl : s.thr t = .woken m k) : k = .test true := by
  have hv := valid h t
  rw [hl] at hv
  obtain ⟨l, c, -, hi⟩ := hv
  cases l with
  | wait => exact (Instr.wait.inj hi).2.2.symm
  | _ => cases hi

/-- A thread at a worker's location, or woken and on its way there, is a worker. -/
theorem worker_of_stands (h : (system H worker).Reachable s) {t : ι} {l : Loc H}
    (hl : (s.thr t).Stands l) : worker t = l.work := by
  have hv := valid h t
  rcases hl with hl | ⟨m, hl⟩ <;> rw [hl] at hv
  · exact hv.symm
  · obtain ⟨l', c, hw, hi⟩ := hv
    exact hw.symm.trans (work_of_leads (t := t) (by rw [hi]; rfl)).symm

/-! ## Exactly once -/

/-- The task that a worker has removed and not yet run, and the number of its removal. -/
def Loc.carried : Loc H → Option (ℕ × ThreadTask H)
  | .unlock index task | .run index task => some (index, task)
  | _ => none

def hand : Status Unit Unit (Loc H) → Option (ℕ × ThreadTask H)
  | .run l => l.carried
  | _ => none

def hasInHand (n : ℕ) (x : Status Unit Unit (Loc H)) : ℕ :=
  if (hand x).map Prod.fst = some n then 1 else 0

/-- The `n`-th removed task is in one worker's hand or has been run, once; and it is the task that
was removed. -/
structure Handed (worker : ι → Bool) (s : State ι H) : Prop where
  once : ∀ n, total (hasInHand n) s.thr + s.mem.ran.countP (·.index = n) =
    if n < s.mem.removed.length then 1 else 0
  carried : ∀ t n task, hand (s.thr t) = some (n, task) → s.mem.removed[n]? = some task
  ran : ∀ r ∈ s.mem.ran, worker r.thread ∧ s.mem.removed[r.index]? = some r.task

theorem Handed.move (h : Handed worker s) {t : ι} {x y : Status Unit Unit (Loc H)}
    (hx : s.thr t = x) (hy : s'.thr = Function.update s.thr t y) (hand_eq : hand y = hand x)
    (removed : s'.mem.removed = s.mem.removed) (ran : s'.mem.ran = s.mem.ran) :
    Handed worker s' := by
  have same : ∀ u, hand (s'.thr u) = hand (s.thr u) := by
    intro u
    by_cases e : u = t
    · subst e; rw [hy, Function.update_self, hand_eq, hx]
    · rw [hy, Function.update_of_ne e]
  refine ⟨fun n => ?_, fun u n task hu => ?_, ?_⟩
  · have : total (hasInHand n) s'.thr = total (hasInHand n) s.thr :=
      Finset.sum_congr rfl fun u _ => by rw [hasInHand, same, hasInHand]
    rw [this, removed, ran]
    exact h.once n
  · rw [removed]
    exact h.carried u n task (same u ▸ hu)
  · rw [removed, ran]
    exact h.ran

omit [Fintype ι] [DecidableEq ι] in
theorem getElem?_append_of_eq_some {tasks more : List (ThreadTask H)} {n : ℕ} {task : ThreadTask H}
    (h : tasks[n]? = some task) : (tasks ++ more)[n]? = some task :=
  (List.getElem?_append_left (List.getElem?_eq_some_iff.1 h).1).trans h

/-- A worker removes a task. -/
theorem Handed.pop (h : Handed worker s) {t : ι} {x : Status Unit Unit (Loc H)}
    {task : ThreadTask H} (hx : s.thr t = x) (empty : hand x = none)
    (hk : s'.thr = Function.update s.thr t (.run (.unlock s.mem.removed.length task)))
    (removed : s'.mem.removed = s.mem.removed ++ [task]) (ran : s'.mem.ran = s.mem.ran) :
    Handed worker s' := by
  refine ⟨fun n => ?_, fun u n task' hu => ?_, fun r hr => ?_⟩
  · have moved := total_update (hasInHand n) s.thr t (.run (.unlock s.mem.removed.length task))
    have before := h.once n
    have none_before : hasInHand n x = 0 := by simp [hasInHand, empty]
    have one_after : hasInHand n (.run (.unlock s.mem.removed.length task)) =
        if s.mem.removed.length = n then 1 else 0 := by simp [hasInHand, hand, Loc.carried]
    rw [← hk, hx, none_before, one_after] at moved
    rw [removed, ran, List.length_append, List.length_singleton]
    split_ifs at moved before ⊢ <;> omega
  · rw [removed]
    by_cases e : u = t
    · subst e
      rw [hk, Function.update_self] at hu
      obtain ⟨rfl, rfl⟩ : s.mem.removed.length = n ∧ task = task' := by
        simpa [hand, Loc.carried] using hu
      exact List.getElem?_concat_length
    · rw [hk, Function.update_of_ne e] at hu
      exact getElem?_append_of_eq_some (h.carried u n task' hu)
  · rw [ran] at hr
    rw [removed]
    obtain ⟨hw, hr⟩ := h.ran r hr
    exact ⟨hw, getElem?_append_of_eq_some hr⟩

/-- A worker runs the task in its hand. -/
theorem Handed.run (h : Handed worker s) {t : ι} {n : ℕ} {task : ThreadTask H} (hw : worker t)
    (hl : s.thr t = .run (.run n task))
    (hk : s'.thr = Function.update s.thr t (.run .running)) (hm : s'.mem = s.mem.run t n task) :
    Handed worker s' := by
  refine ⟨fun i => ?_, fun u i task' hu => ?_, fun r hr => ?_⟩
  · have moved := total_update (hasInHand i) s.thr t (.run .running)
    have before := h.once i
    have one_before : hasInHand i (.run (.run n task)) = if n = i then 1 else 0 := by
      simp [hasInHand, hand, Loc.carried]
    have none_after : hasInHand i (.run (.running (H := H))) = 0 := rfl
    rw [← hk, hl, one_before, none_after] at moved
    rw [hm, Pool.run, List.countP_append, List.countP_singleton]
    simp only [decide_eq_true_eq]
    omega
  · rw [hm]
    by_cases e : u = t
    · subst e
      simp [hk, hand, Loc.carried] at hu
    · rw [hk, Function.update_of_ne e] at hu
      exact h.carried u i task' hu
  · rw [hm] at hr ⊢
    rcases List.mem_append.1 hr with hr | hr
    · exact h.ran r hr
    · obtain rfl := List.mem_singleton.1 hr
      exact ⟨hw, h.carried t n task (by rw [hl]; rfl)⟩

theorem Handed.step (hr : (system H worker).Reachable s) (h : Handed worker s)
    (hs : Step prog t s s') : Handed worker s' := by
  cases hs with
  | instr l hl eff =>
      have known : l.locked → l.Asserts s.mem := (monitored hr).inside t l hl
      cases l with
      | main | running =>
          obtain ⟨_ | task, rfl⟩ := eff <;> exact h.move hl rfl rfl rfl rfl
      | pushLock nested task | pushUnlock nested | lock | wait | unlock index task =>
          obtain ⟨-, rfl⟩ := eff
          exact h.move hl rfl rfl rfl rfl
      | pushEnqueue nested task =>
          obtain rfl := eff
          exact h.move hl rfl rfl rfl rfl
      | pushSignal nested =>
          rcases eff with ⟨-, rfl⟩ | ⟨u, m, k', ne, hu, rfl⟩
          · exact h.move hl rfl (by cases nested <;> rfl) rfl rfl
          · have woken : Handed worker { s with thr := Function.update s.thr u (.woken m k') } :=
              h.move hu rfl rfl rfl rfl
            refine woken.move ((Function.update_of_ne ne.symm _ _).trans hl) rfl ?_ rfl rfl
            cases nested <;> rfl
      | test again =>
          obtain rfl := eff
          refine h.move hl rfl ?_ rfl rfl
          dsimp only
          split <;> rfl
      | front again =>
          obtain ⟨task, rest, first⟩ := List.exists_cons_of_ne_nil (known rfl).2
          have eff : s' = s.setMem t s.mem (.pop again task) := by
            apply Eq.trans eff
            simp only [first]
          subst eff
          exact h.move hl rfl rfl rfl rfl
      | pop again task =>
          obtain ⟨rest, first⟩ := List.head?_eq_some_iff.1 (known rfl).2
          have eff : s' = s.setMem t
              { s.mem with queue := rest, removed := s.mem.removed ++ [task] }
              (.unlock s.mem.removed.length task) := by
            apply Eq.trans eff
            simp only [first]
          subst eff
          exact h.pop hl rfl rfl rfl rfl
      | run index task =>
          obtain rfl := eff
          exact h.run ((worker_of_stands hr (Or.inl hl)).trans rfl) hl rfl rfl
      | undefined => exact (known rfl).2.elim
  | reacquire m k hl free eff =>
      subst eff
      obtain rfl := eq_test_of_woken hr hl
      exact h.move hl rfl rfl rfl rfl
  | spurious c m k hl eff =>
      subst eff
      exact h.move hl rfl rfl rfl rfl

theorem handed (h : (system H worker).Reachable s) : Handed worker s := by
  have key : (system H worker).Inductive (Handed worker) := by
    refine machine_inductive ⟨fun n => ?_, fun t n task ht => ?_, fun r hr => ?_⟩
      fun t s s' hr h hs => h.step hr hs
    · refine total_eq_zero_iff.2 fun t => ?_
      show hasInHand n (.run (if worker t then .lock else .main)) = 0
      cases worker t <;> rfl
    · change hand (.run (if worker t then .lock else .main)) = _ at ht
      cases hw : worker t <;> rw [hw] at ht <;> cases ht
    · cases hr
  exact key.reachable h

/-- Every task once and in order. -/
structure ExactlyOnce (worker : ι → Bool) (s : State ι H) : Prop where
  order : s.mem.removed <+: s.mem.pushed
  once : ∀ n, total (hasInHand n) s.thr + s.mem.ran.countP (·.index = n) =
    if n < s.mem.removed.length then 1 else 0
  inHand : ∀ t n task, hand (s.thr t) = some (n, task) →
    worker t ∧ s.mem.removed[n]? = some task
  ran : ∀ r ∈ s.mem.ran, worker r.thread ∧ s.mem.removed[r.index]? = some r.task
  front : ∀ t again, s.thr t = .run (.front again) → s.mem.queue ≠ []
  pop : ∀ t again task, s.thr t = .run (.pop again task) → s.mem.queue ≠ []
  defined : ∀ t, s.thr t ≠ .run .undefined

/-- For any workers and any threads that push, and every interleaving. -/
theorem exactlyOnce_of_reachable (h : (system H worker).Reachable s) : ExactlyOnce worker s where
  order := by
    have own := owned_of_reachable (fun t m => by cases worker t <;> exact Bool.false_ne_true)
      prog_respects h
    have fifo : s.mem.Fifo := (monitored h).invariant own fun _ l pool hl => hl.1
    exact ⟨s.mem.queue, fifo⟩
  once := (handed h).once
  inHand t n task ht := by
    refine ⟨?_, (handed h).carried t n task ht⟩
    cases hl : s.thr t with
    | run l =>
        rw [hl] at ht
        have hw := worker_of_stands h (Or.inl hl)
        cases l with
        | unlock i task' | run i task' => exact hw
        | _ => cases ht
    | asleep c m k | woken m k => rw [hl] at ht; cases ht
  ran := (handed h).ran
  front t again hl := ((monitored h).inside t _ hl rfl).2
  pop t again task hl := by
    have first : s.mem.queue.head? = some task := ((monitored h).inside t _ hl rfl).2
    rintro empty
    rw [empty] at first
    cases first
  defined t hl := ((monitored h).inside t _ hl rfl).2

/-! ## No task is left behind -/

theorem covered (h : (system H worker).Reachable s) :
    Covered () Loc.owes (fun pool => pool.queue.length) s :=
  covered_of_reachable prog_pays (fun _ hr => (monitored hr).inside) h

/-- The queue has a task, every worker sleeps, and no signal is still to be sent. -/
def Stranded (worker : ι → Bool) (s : State ι H) : Prop :=
  s.mem.queue ≠ [] ∧ (∀ t, worker t → (s.thr t).AsleepOn ()) ∧
    ∀ t nested, s.thr t ≠ .run (.pushUnlock nested) ∧ s.thr t ≠ .run (.pushSignal nested)

theorem not_stranded {w : ι} (hw : worker w) (h : (system H worker).Reachable s) :
    ¬ Stranded worker s := by
  rintro ⟨some, asleep, sent⟩
  obtain ⟨t, l, hl, owes⟩ :=
    (covered h).exists_owing ⟨w, asleep w hw⟩ (List.length_pos_iff.2 some)
  -- a thread that owes and does not push is a worker, so it sleeps
  have awake : worker t → False := by
    intro ht
    have := asleep t ht
    rcases hl with hl | ⟨m, hl⟩ <;> rw [hl] at this <;> exact this
  have works := worker_of_stands h hl
  cases l with
  | pushUnlock nested | pushSignal nested =>
      rcases hl with hl | ⟨m, hl⟩
      · first | exact (sent t nested).1 hl | exact (sent t nested).2 hl
      · cases eq_test_of_woken h hl
  | test again | front again | pop again task => exact awake works
  | _ => cases owes

end

/-- Thread `true` is the only worker. -/
def oneWorker : Bool → Bool := id

/-- The worker falls asleep, the other thread pushes a task and its signal wakes the worker, which
removes the task and runs it. -/
def pushAndRun (task : ThreadTask ℕ) : List (Act Bool (Option (ThreadTask ℕ))) :=
  [.exec true, .exec true, .exec true, .input false (some task), .exec false, .exec false,
    .exec false, .wake false true, .exec true, .exec true, .exec true, .exec true, .exec true,
    .exec true]

theorem exactlyOnce_pushAndRun : ∃ s, (system ℕ oneWorker).Reachable s ∧
    s.mem.ran.length = 1 ∧ ExactlyOnce oneWorker s := by
  have h := Machine.reachable_of_run (M := system ℕ oneWorker) (pushAndRun ⟨7, 0⟩) rfl rfl
  exact ⟨_, h, rfl, exactlyOnce_of_reachable h⟩

/-- After the signal the queue is not empty and the worker no longer asleep. -/
theorem not_stranded_pushAndRun : ∃ s, (system ℕ oneWorker).Reachable s ∧
    s.mem.queue ≠ [] ∧ ¬ Stranded oneWorker s := by
  have h := Machine.reachable_of_run (M := system ℕ oneWorker) ((pushAndRun ⟨7, 0⟩).take 8) rfl rfl
  exact ⟨_, h, List.cons_ne_nil _ _, not_stranded (w := true) rfl h⟩

end LinuxNote.ThreadPool
