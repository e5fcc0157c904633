import LinuxNote.Conc.Wakeup

/-!
# The blocking queue of `pro_con.cpp`

`BlockQueue` is a `std::queue` of bounded length behind a mutex, with a condition variable for the
producers that find it full and one for the consumers that find it empty.  Both functions signal
after they have unlocked, so other threads can run in between.

The wakeups are counted (`covered`): while a thread sleeps on a condition variable, each thing it
could take is matched by a signal still to be sent or by a woken thread that has not yet taken it.
-/

namespace LinuxNote.BlockQueue

open Conc

/-- `_cond_pro` and `_cond_con`. -/
inductive Cond
  | pro
  | con
  deriving DecidableEq

/-- The data members, and in `pushed` and `popped` the values put in and taken out so far. -/
structure Queue where
  queue : List ℤ
  capacity : ℕ
  pushed : List ℤ
  popped : List ℤ

inductive Call
  | push (data : ℤ)
  | pop

/-- `ready` is outside the two functions; every other location is before the statement it names.
`again` says that the thread comes from `pthread_cond_wait`.  In `undefined` the thread has called
`front` or `pop` on an empty `std::queue`. -/
inductive Loc
  | ready
  | pushLock (data : ℤ)
  | pushTest (again : Bool) (data : ℤ)
  | pushWait (data : ℤ)
  | pushEnqueue (again : Bool) (data : ℤ)
  | pushUnlock
  | pushSignal
  | popLock
  | popTest (again : Bool)
  | popWait
  | popFront (again : Bool)
  | popDequeue (again : Bool) (data : ℤ)
  | popUnlock
  | popSignal
  | undefined

/-- `_queue.push(data)` -/
def Queue.push (q : Queue) (data : ℤ) : Queue :=
  { q with queue := q.queue ++ [data], pushed := q.pushed ++ [data] }

/-- `_queue.pop()`, after `data` has been read from the front. -/
def Queue.pop (q : Queue) (data : ℤ) : Queue :=
  { q with queue := q.queue.tail, popped := q.popped ++ [data] }

def prog {X : Type*} (next : X → Call) : Loc → Instr Unit Cond Empty X Queue Loc
  | .ready => .input fun x =>
      match next x with
      | .push data => .pushLock data
      | .pop => .popLock
  | .pushLock data => .lock () (.pushTest false data)
  | .pushTest again data => .stmt fun q =>
      (q, if q.queue.length = q.capacity then .pushWait data else .pushEnqueue again data)
  | .pushWait data => .wait .pro () (.pushTest true data)
  | .pushEnqueue _ data => .stmt fun q => (q.push data, .pushUnlock)
  | .pushUnlock => .unlock () .pushSignal
  | .pushSignal => .signal .con .ready
  | .popLock => .lock () (.popTest false)
  | .popTest again => .stmt fun q => (q, if q.queue = [] then .popWait else .popFront again)
  | .popWait => .wait .con () (.popTest true)
  | .popFront again => .stmt fun q =>
      match q.queue with
      | [] => (q, .undefined)
      | data :: _ => (q, .popDequeue again data)
  | .popDequeue _ data => .stmt fun q =>
      match q.queue with
      | [] => (q, .undefined)
      | _ :: _ => (q.pop data, .popUnlock)
  | .popUnlock => .unlock () .popSignal
  | .popSignal => .signal .pro .ready
  | .undefined => .stmt fun q => (q, .undefined)

/-- The queue that the constructor builds. -/
def blockQueue (qmax : ℕ) : Queue := ⟨[], qmax, [], []⟩

abbrev State (ι : Type*) := Conc.State ι Unit Cond Empty Queue Loc

/-- A new queue of capacity `qmax`; `next t` is the call that thread `t` makes on a choice. -/
def system {ι X : Type*} [Fintype ι] [DecidableEq ι] (next : ι → X → Call) (qmax : ℕ) :
    Machine (State ι) (Act ι X) :=
  machine (fun t => prog (next t)) (start (fun _ => .ready) Empty.elim (blockQueue qmax))

/-! ## The critical sections -/

/-- The statements between `pthread_mutex_lock` and `pthread_mutex_unlock`. -/
def Loc.locked : Loc → Bool
  | .ready | .pushLock _ | .pushSignal | .popLock | .popSignal => false
  | _ => true

def Loc.holds (l : Loc) (_ : Unit) : Prop := l.locked

/-- What holds of the queue while no thread is in a critical section. -/
structure Queue.Sound (qmax : ℕ) (q : Queue) : Prop where
  capacity : q.capacity = qmax
  bounded : q.queue.length ≤ qmax
  fifo : q.popped ++ q.queue = q.pushed

theorem Queue.Sound.push {qmax : ℕ} {q : Queue} (h : q.Sound qmax)
    (room : q.queue.length ≠ q.capacity) (data : ℤ) : (q.push data).Sound qmax where
  capacity := h.capacity
  bounded := by
    have := h.capacity
    have := h.bounded
    simp only [Queue.push, List.length_append, List.length_singleton]
    omega
  fifo := by simp [Queue.push, ← h.fifo]

theorem Queue.Sound.pop {qmax : ℕ} {q : Queue} (h : q.Sound qmax) {data : ℤ}
    (front : q.queue.head? = some data) : (q.pop data).Sound qmax where
  capacity := h.capacity
  bounded := by
    have := h.bounded
    simp only [Queue.pop, List.length_tail]
    omega
  fifo := by
    obtain ⟨rest, hr⟩ := List.head?_eq_some_iff.1 front
    simp [Queue.pop, ← h.fifo, hr]

/-- What the thread at a location knows in addition. -/
def Loc.Known (l : Loc) (q : Queue) : Prop :=
  match l with
  | .pushWait _ => q.queue.length = q.capacity
  | .pushEnqueue _ _ => q.queue.length ≠ q.capacity
  | .popWait => q.queue = []
  | .popFront _ => q.queue ≠ []
  | .popDequeue _ data => q.queue.head? = some data
  | .undefined => False
  | _ => True

def Loc.Asserts (qmax : ℕ) (l : Loc) (q : Queue) : Prop := q.Sound qmax ∧ l.Known q

section

variable {ι X : Type*} {next : ι → X → Call} {qmax : ℕ}

theorem prog_respects (t : ι) (l : Loc) : (prog (next t) l).Respects Loc.holds l := by
  cases l with
  | ready =>
      intro x _
      show Loc.holds (match next t x with | .push data => .pushLock data | .pop => .popLock) () ↔ _
      cases next t x <;> simp [Loc.holds, Loc.locked]
  | pushTest again data | popTest again | popFront again | popDequeue again data =>
      refine Instr.respects_of_flag Loc.locked fun q => ?_
      split <;> rfl
  | _ => simp [prog, Instr.Respects, Loc.holds, Loc.locked]

theorem prog_keeps (t : ι) (l : Loc) :
    (prog (next t) l).Keeps Loc.holds (Queue.Sound qmax) (fun _ => Loc.Asserts qmax) t l := by
  cases l with
  | ready => exact fun x q h => by simp [Loc.holds, Loc.locked] at h
  | pushLock data | popLock => exact fun q h => ⟨h, trivial⟩
  | pushTest again data =>
      refine fun q => ⟨fun _ h => ⟨h.1, ?_⟩, fun h => absurd rfl h⟩
      dsimp only
      split <;> assumption
  | popTest again =>
      refine fun q => ⟨fun _ h => ⟨h.1, ?_⟩, fun h => absurd rfl h⟩
      dsimp only
      split <;> assumption
  | pushWait data | popWait => exact fun q => ⟨fun h => h.1, fun h => ⟨h, trivial⟩⟩
  | pushEnqueue again data =>
      exact fun q => ⟨fun _ h => ⟨h.1.push h.2 data, trivial⟩, fun h => absurd rfl h⟩
  | pushUnlock | popUnlock => exact fun q h => h.1
  | pushSignal | popSignal => exact fun q h => by simp [Loc.holds, Loc.locked] at h
  | popFront again =>
      refine fun q => ⟨fun _ h => ?_, fun h => absurd rfl h⟩
      dsimp only
      split
      · next empty => exact absurd empty h.2
      · next data rest front => exact ⟨h.1, by simp [Loc.Known, front]⟩
  | popDequeue again data =>
      refine fun q => ⟨fun _ h => ?_, fun h => absurd rfl h⟩
      dsimp only
      split
      · next empty => simp [Loc.Asserts, Loc.Known, empty] at h
      · exact ⟨h.1.pop h.2, trivial⟩
  | undefined => exact fun q => ⟨fun _ h => h.2.elim, fun h => absurd rfl h⟩

variable [Fintype ι] [DecidableEq ι] {s : State ι}

theorem monitored (h : (system next qmax).Reachable s) :
    Monitored Loc.holds (Queue.Sound qmax) (fun _ => Loc.Asserts qmax) s := by
  refine monitored_of_reachable (fun t m => ?_) ?_ prog_respects prog_keeps h
  · simp [Loc.holds, Loc.locked]
  · exact ⟨rfl, Nat.zero_le _, rfl⟩

/-! ## Bounded and in order -/

/-- The queue holds at most its capacity and what has been pushed and not popped, in order; and no
thread is about to call `front` or `pop` on an empty queue, or has done so. -/
structure BoundedInOrder (qmax : ℕ) (s : State ι) : Prop where
  capacity : s.mem.capacity = qmax
  bounded : s.mem.queue.length ≤ qmax
  order : s.mem.popped ++ s.mem.queue = s.mem.pushed
  front : ∀ t again, s.thr t = .run (.popFront again) → s.mem.queue ≠ []
  dequeue : ∀ t again data, s.thr t = .run (.popDequeue again data) → s.mem.queue ≠ []
  defined : ∀ t, s.thr t ≠ .run .undefined

/-- For any threads, any calls and every interleaving. -/
theorem boundedInOrder_of_reachable (h : (system next qmax).Reachable s) :
    BoundedInOrder qmax s := by
  have inside := (monitored h).inside
  have own := owned_of_reachable (fun t m => by simp [Loc.holds, Loc.locked]) prog_respects h
  have sound : s.mem.Sound qmax := (monitored h).invariant own fun _ l q hl => hl.1
  refine ⟨sound.capacity, sound.bounded, sound.fifo, ?_, ?_, ?_⟩
  · intro t again hl
    exact (inside t _ hl rfl).2
  · intro t again data hl empty
    have front : s.mem.queue.head? = some data := (inside t _ hl rfl).2
    rw [empty] at front
    cases front
  · intro t hl
    exact (inside t _ hl rfl).2

/-! ## Wakeups -/

/-- What a thread that waits on the condition variable could take: the values, or the free
places. -/
def Queue.available (q : Queue) : Cond → ℕ
  | .con => q.queue.length
  | .pro => q.capacity - q.queue.length

/-- Between the change of the queue and the end of the signal on `c`. -/
def Loc.signalling : Cond → Loc → Bool
  | .con, .pushUnlock | .con, .pushSignal | .pro, .popUnlock | .pro, .popSignal => true
  | _, _ => false

/-- Woken from `c`, the queue not yet tested again. -/
def Loc.retesting : Cond → Loc → Bool
  | .con, .popTest true | .pro, .pushTest true _ => true
  | _, _ => false

/-- Woken from `c`, the queue tested again and not yet changed. -/
def Loc.taking : Cond → Loc → Bool
  | .con, .popFront true | .con, .popDequeue true _ | .pro, .pushEnqueue true _ => true
  | _, _ => false

def Loc.owes (c : Cond) (l : Loc) : Bool := l.signalling c || l.retesting c || l.taking c

omit [Fintype ι] [DecidableEq ι] in
theorem prog_pays (c : Cond) (t : ι) (l : Loc) :
    (prog (next t) l).Pays c (Loc.owes c) (fun q : Queue => q.available c)
      (fun l q => l.locked → l.Asserts qmax q) l := by
  cases l with
  | ready =>
      intro x
      show _ → Loc.owes c (match next t x with | .push data => .pushLock data | .pop => .popLock)
      cases c <;> cases next t x <;> simp [Loc.owes, Loc.signalling, Loc.retesting, Loc.taking]
  | pushLock data | pushUnlock | popLock | popUnlock | pushSignal | popSignal =>
      cases c <;> simp [prog, Instr.Pays, Loc.owes, Loc.signalling, Loc.retesting, Loc.taking]
  | pushTest again data =>
      intro q _
      by_cases full : q.queue.length = q.capacity
      · cases c with
        | pro => exact Or.inl (by simp [Queue.available, full])
        | con => exact Or.inr (by simp [full]; exact le_rfl)
      · right
        cases c <;> cases again <;> simp [full] <;> exact le_rfl
  | popTest again =>
      intro q _
      by_cases empty : q.queue = []
      · cases c with
        | con => exact Or.inl (by simp [Queue.available, empty])
        | pro => exact Or.inr (by simp [empty]; exact le_rfl)
      · right
        cases c <;> cases again <;> simp [empty] <;> exact le_rfl
  | pushWait data =>
      cases c with
      | pro =>
          refine ⟨rfl, fun q known => ?_⟩
          have full : q.queue.length = q.capacity := (known rfl).2
          simp [Queue.available, full]
      | con => exact Bool.false_ne_true
  | popWait =>
      cases c with
      | pro => exact Bool.false_ne_true
      | con =>
          refine ⟨rfl, fun q known => ?_⟩
          have empty : q.queue = [] := (known rfl).2
          simp [Queue.available, empty]
  | pushEnqueue again data =>
      intro q known
      obtain ⟨sound, room⟩ := known rfl
      have := sound.bounded
      have := sound.capacity
      change q.queue.length ≠ q.capacity at room
      right
      cases c <;> cases again <;>
        simp [Queue.available, Queue.push, Loc.owes, Loc.signalling, Loc.retesting, Loc.taking] <;>
        omega
  | popFront again =>
      rintro ⟨queue, capacity, pushed, popped⟩ known
      obtain ⟨data, rest, rfl⟩ := List.exists_cons_of_ne_nil (known rfl).2
      right
      cases c <;> cases again <;> exact le_rfl
  | popDequeue again data =>
      rintro ⟨queue, capacity, pushed, popped⟩ known
      obtain ⟨sound, front⟩ := known rfl
      obtain ⟨rest, rfl⟩ := List.head?_eq_some_iff.1 front
      have bounded : rest.length + 1 ≤ qmax := sound.bounded
      have full : capacity = qmax := sound.capacity
      right
      cases c <;> cases again <;>
        simp [Queue.available, Queue.pop, Loc.owes, Loc.signalling, Loc.retesting, Loc.taking] <;>
        omega
  | undefined => exact fun q known => (known rfl).2.elim

/-- While threads sleep on `c`, all that they could take is owed to them. -/
theorem covered (h : (system next qmax).Reachable s) (c : Cond) :
    Covered c (Loc.owes c) (fun q => q.available c) s :=
  covered_of_reachable (prog_pays c) (fun _ hr => (monitored hr).inside) h

/-! ## No lost wakeup -/

/-- While a thread sleeps on `c` and there is something for it, the signal is still to be sent or a
woken thread is on its way to take it. -/
theorem exists_owing_of_reachable (h : (system next qmax).Reachable s) (c : Cond)
    (asleep : ∃ t, (s.thr t).AsleepOn c) (available : 0 < s.mem.available c) :
    ∃ t l, (s.thr t).Stands l ∧ (l.signalling c ∨ l.retesting c ∨ l.taking c) := by
  obtain ⟨t, l, hl, hp⟩ := (covered h c).exists_owing asleep available
  exact ⟨t, l, hl, by simpa [Loc.owes, or_assoc] using hp⟩

end

inductive Role
  | productor
  | consumer

/-- The loops of `productor` and `consumer`: the choice is the value the producer pushes. -/
def Role.next : Role → ℤ → Call
  | .productor, data => .push data
  | .consumer, _ => .pop

/-- The role whose function a location belongs to. -/
def Loc.role : Loc → Option Role
  | .ready => none
  | .pushLock _ | .pushTest _ _ | .pushWait _ | .pushEnqueue _ _ | .pushUnlock | .pushSignal =>
      some .productor
  | _ => some .consumer

/-- The condition variable on which a thread of each role sleeps. -/
def Role.cond : Role → Cond
  | .productor => .pro
  | .consumer => .con

def Role.Owns (r : Role) (l : Loc) : Prop := l.role = none ∨ l.role = some r

theorem Role.owns_leads (r : Role) {l k : Loc} (h : r.Owns l) (hk : (prog r.next l).Leads k) :
    r.Owns k := by
  cases l with
  | ready =>
      obtain ⟨data, rfl⟩ := hk
      cases r <;> exact Or.inr rfl
  | pushTest again data | popTest again | popFront again | popDequeue again data =>
      obtain ⟨q, rfl⟩ := hk
      dsimp only
      split <;> exact h
  | pushEnqueue again data | undefined =>
      obtain ⟨q, rfl⟩ := hk
      exact h
  | pushLock data | pushWait data | pushUnlock | popLock | popWait | popUnlock =>
      obtain rfl : _ = k := hk
      exact h
  | pushSignal | popSignal =>
      obtain rfl : _ = k := hk
      exact Or.inl rfl

section

variable {ι : Type*} [Fintype ι] [DecidableEq ι] {role : ι → Role} {qmax : ℕ} {s : State ι}

theorem asleepOn_cond (h : (system (fun t => (role t).next) qmax).Reachable s) {t : ι} {c : Cond}
    {m : Unit} {k : Loc} (ht : s.thr t = .asleep c m k) : c = (role t).cond := by
  have valid := valid_of_reachable (R := fun t => (role t).Owns) (fun _ => Or.inl rfl)
    (fun t l k => (role t).owns_leads) h t
  rw [ht] at valid
  obtain ⟨l, owns, hl⟩ := valid
  cases l <;> simp only [prog, reduceCtorEq, Instr.wait.injEq] at hl
  all_goals
    obtain ⟨rfl, -, -⟩ := hl
    have hr : role t = _ := (Option.some.inj (owns.resolve_left (by simp [Loc.role]))).symm
    rw [hr]
    rfl

/-- In every reachable state of at least one producer and one consumer looping on a queue of
capacity at least one, wakeups are not lost, and some thread is neither asleep nor blocked. -/
theorem no_lost_wakeup (hq : 1 ≤ qmax) {p q : ι} (hp : role p = .productor)
    (hc : role q = .consumer) (h : (system (fun t => (role t).next) qmax).Reachable s) :
    (∀ c, (∃ t, (s.thr t).AsleepOn c) → 0 < s.mem.available c →
      ∃ t l, (s.thr t).Stands l ∧ (l.signalling c ∨ l.retesting c ∨ l.taking c)) ∧
    ∃ t, ¬ Blocked (fun t => prog (role t).next) s t := by
  refine ⟨exists_owing_of_reachable h, ?_⟩
  have own := owned_of_reachable (fun t m => by simp [Loc.holds, Loc.locked]) prog_respects h
  have sound : s.mem.Sound qmax := (monitored h).invariant own fun _ l q hl => hl.1
  have progress : ∀ t, 0 < s.mem.available (role t).cond →
      ∃ t, ¬ Blocked (fun t => prog (role t).next) s t := fun t =>
    exists_not_blocked_of_covered prog_respects own (fun t c m k => asleepOn_cond h) (covered h)
  -- the queue cannot be both full and empty, so there is something for the producers or for the
  -- consumers
  by_cases full : s.mem.queue.length = s.mem.capacity
  · refine progress q ?_
    rw [hc]
    show 0 < s.mem.queue.length
    rw [full, sound.capacity]
    exact hq
  · refine progress p ?_
    rw [hp]
    show 0 < s.mem.capacity - s.mem.queue.length
    have := sound.bounded
    have := sound.capacity
    omega

end

/-- Thread 0 produces, threads 1 and 2 consume. -/
def oneForTwo : Fin 3 → Role
  | 0 => .productor
  | _ => .consumer

/-- Both consumers fall asleep, the producer pushes a value and its signal wakes the first one,
which has then tested the queue again. -/
def wokenFirst : List (Act (Fin 3) ℤ) :=
  [.input 1 0, .exec 1, .exec 1, .exec 1, .input 2 0, .exec 2, .exec 2, .exec 2,
    .input 0 7, .exec 0, .exec 0, .exec 0, .exec 0, .wake 0 1, .exec 1, .exec 1]

/-- The first consumer is about to read the front, while the second one still sleeps. -/
theorem boundedInOrder_wokenFirst : ∃ s,
    (system (fun t => (oneForTwo t).next) 1).Reachable s ∧ s.thr 1 = .run (.popFront true) ∧
    BoundedInOrder 1 s := by
  have h := Machine.reachable_of_run (M := system (fun t => (oneForTwo t).next) 1) wokenFirst rfl
    rfl
  exact ⟨_, h, rfl, boundedInOrder_of_reachable h⟩

theorem no_lost_wakeup_wokenFirst : ∃ s,
    (system (fun t => (oneForTwo t).next) 1).Reachable s ∧ (s.thr 2).AsleepOn .con ∧
    (∀ c, (∃ t, (s.thr t).AsleepOn c) → 0 < s.mem.available c →
      ∃ t l, (s.thr t).Stands l ∧ (l.signalling c ∨ l.retesting c ∨ l.taking c)) ∧
    ∃ t, ¬ Blocked (fun t => prog (oneForTwo t).next) s t := by
  have h := Machine.reachable_of_run (M := system (fun t => (oneForTwo t).next) 1) wokenFirst rfl
    rfl
  exact ⟨_, h, rfl, no_lost_wakeup (p := 0) (q := 1) le_rfl rfl rfl h⟩

/-- The woken consumer that has tested the queue and not yet popped is not in the other two places:
without it, the queue has a value and a sleeper, and nobody signals or tests again. -/
theorem woken_consumer_between_test_and_pop : ∃ s,
    (system (fun t => (oneForTwo t).next) 1).Reachable s ∧ (∃ t, (s.thr t).AsleepOn .con) ∧
    s.mem.queue ≠ [] ∧
    ¬ ∃ t l, (s.thr t).Stands l ∧ (l.signalling .con ∨ l.retesting .con) := by
  have h := Machine.reachable_of_run (M := system (fun t => (oneForTwo t).next) 1) wokenFirst rfl
    rfl
  refine ⟨_, h, ⟨2, rfl⟩, by decide, ?_⟩
  rintro ⟨t, l, hl | ⟨m, hl⟩, hp⟩
  · match t with
    | 0 =>
        obtain rfl : Loc.ready = l := Status.run.inj hl
        simp [Loc.signalling, Loc.retesting] at hp
    | 1 =>
        obtain rfl : Loc.popFront true = l := Status.run.inj hl
        simp [Loc.signalling, Loc.retesting] at hp
    | 2 => cases hl
  · match t with
    | 0 => cases hl
    | 1 => cases hl
    | 2 => cases hl

end LinuxNote.BlockQueue
