import LinuxNote.Conc.Monitor
import LinuxNote.Conc.Ring

/-!
# The ring queue of `con_pro.cpp`

`RingQueue` is an array used in a circle, with a semaphore that counts its free slots, one that
counts its values and one used as a lock.  Any number of threads call `Push` and `Pop`; every
semaphore operation and every statement between them is a step of its own.

The tokens are conserved (`Tokens`): the lock admits one call at a time, and a call between its
first `sem_wait` and its access to the array stands for a free slot or a value.  So a store never
hits an unread slot and a read never an unwritten one (`Slots`), and the queue is a bounded FIFO.
And while some thread pushes and some thread pops, they cannot all wait (`exists_not_blocked`).
-/

namespace LinuxNote.RingQueue

open Conc

/-- `_sem_space`, `_sem_data` and `_sem_lock`. -/
inductive Sem
  | space
  | data
  | lock
  deriving DecidableEq

/-- The data members, and in `pushed` and `popped` the values stored and taken out so far. -/
structure Queue where
  array : List ℤ
  capacity : ℤ
  posWrite : ℤ
  posRead : ℤ
  pushed : List ℤ
  popped : List ℤ

/-- `_array[_pos_write] = data` -/
def Queue.store (q : Queue) (data : ℤ) : Queue :=
  { q with array := q.array.set q.posWrite.toNat data, pushed := q.pushed ++ [data] }

/-- `_pos_write = (_pos_write + 1) % _capacity` -/
def Queue.advanceWrite (q : Queue) : Queue :=
  { q with posWrite := (q.posWrite + 1).tmod q.capacity }

/-- `*data = _array[_pos_read]` -/
def Queue.take (q : Queue) : Queue :=
  { q with popped := q.popped ++ [q.array.getD q.posRead.toNat 0] }

/-- `_pos_read = (_pos_read + 1) % _capacity` -/
def Queue.advanceRead (q : Queue) : Queue :=
  { q with posRead := (q.posRead + 1).tmod q.capacity }

/-- A call a thread can make. -/
inductive Call
  | push (data : ℤ)
  | pop

/-- `ready` is outside the two functions; every other location is before the statement it names. -/
inductive Loc
  | ready
  | pushSpace (data : ℤ)
  | pushLock (data : ℤ)
  | pushStore (data : ℤ)
  | pushAdvance
  | pushUnlock
  | pushPost
  | popData
  | popLock
  | popTake
  | popAdvance
  | popUnlock
  | popPost

def prog : Loc → Instr Empty Empty Sem Call Queue Loc
  | .ready => .input fun
      | .push data => .pushSpace data
      | .pop => .popData
  | .pushSpace data => .semWait .space (.pushLock data)
  | .pushLock data => .semWait .lock (.pushStore data)
  | .pushStore data => .stmt fun q => (q.store data, .pushAdvance)
  | .pushAdvance => .stmt fun q => (q.advanceWrite, .pushUnlock)
  | .pushUnlock => .semPost .lock .pushPost
  | .pushPost => .semPost .data .ready
  | .popData => .semWait .data .popLock
  | .popLock => .semWait .lock .popTake
  | .popTake => .stmt fun q => (q.take, .popAdvance)
  | .popAdvance => .stmt fun q => (q.advanceRead, .popUnlock)
  | .popUnlock => .semPost .lock .popPost
  | .popPost => .semPost .space .ready

/-- The queue that the constructor builds. -/
def ringQueue (maxq : ℕ) : Queue where
  array := List.replicate maxq 0
  capacity := maxq
  posWrite := 0
  posRead := 0
  pushed := []
  popped := []

/-- The `sem_init` calls of the constructor. -/
def semInit (maxq : ℕ) : Sem → ℕ
  | .data => 0
  | .space => maxq
  | .lock => 1

abbrev State (ι : Type*) := Conc.State ι Empty Empty Sem Queue Loc

section

variable {ι : Type*} [Fintype ι]

/-- A new queue of capacity `maxq` used by the threads `ι`. -/
def system (ι : Type*) [Fintype ι] [DecidableEq ι] (maxq : ℕ) : Machine (State ι) (Act ι Call) :=
  machine (fun _ => prog) (start (fun _ => .ready) (semInit maxq) (ringQueue maxq))

/-! ## Tokens -/

/-- Between `sem_wait(&_sem_lock)` and `sem_post(&_sem_lock)`. -/
def Loc.inside : Loc → ℕ
  | .pushStore _ | .pushAdvance | .pushUnlock | .popTake | .popAdvance | .popUnlock => 1
  | _ => 0

/-- A call that stands for a value in the queue: a `Push` after its store or a `Pop` before its
read. -/
def Loc.value : Loc → ℕ
  | .pushAdvance | .pushUnlock | .pushPost | .popLock | .popTake => 1
  | _ => 0

/-- A call that stands for a free slot: a `Push` before its store or a `Pop` after its read. -/
def Loc.slot : Loc → ℕ
  | .pushLock _ | .pushStore _ | .popAdvance | .popUnlock | .popPost => 1
  | _ => 0

structure Tokens (maxq : ℕ) (s : State ι) : Prop where
  lock : s.sem .lock + count Loc.inside s.thr = 1
  value : s.mem.popped.length + s.sem .data + count Loc.value s.thr = s.mem.pushed.length
  slot : s.mem.pushed.length + s.sem .space + count Loc.slot s.thr = maxq + s.mem.popped.length

/-- Inside the critical section a thread is alone. -/
theorem Tokens.alone {maxq : ℕ} {s : State ι} (h : Tokens maxq s) {t u : ι} {l l' : Loc}
    (ht : s.thr t = .run l) (hl : 0 < l.inside) (hu : s.thr u = .run l') (hl' : 0 < l'.inside) :
    t = u := by
  have one : total (Status.weight Loc.inside) s.thr ≤ 1 := by
    have := h.lock
    unfold count at this
    omega
  exact eq_of_total_le_one one (by simpa [ht] using hl) (by simpa [hu] using hl')

/-- While a thread is inside, it is the only one at the places that only occur inside. -/
theorem Tokens.count_eq {maxq : ℕ} {s : State ι} (h : Tokens maxq s) {w : Loc → ℕ}
    (hw : ∀ l, w l ≤ l.inside) {t : ι} {l : Loc} (ht : s.thr t = .run l) (hl : 0 < l.inside) :
    count w s.thr = w l := by
  have others : ∀ u, u ≠ t → (s.thr u).weight w = 0 := by
    intro u ne
    cases hu : s.thr u with
    | run l' =>
        by_contra pos
        have hl' : 0 < l'.inside := (Nat.pos_of_ne_zero pos).trans_le (hw l')
        exact ne (h.alone hu hl' ht hl)
    | asleep c => exact c.elim
    | woken m => exact m.elim
  rw [count, total_eq_of_unique others, ht]
  rfl

variable [DecidableEq ι]

/-- A step keeps the tokens when what it takes from the semaphores and the queue goes to the place
where the thread stands. -/
theorem Tokens.goto {maxq : ℕ} {s s' : State ι} (h : Tokens maxq s) {t : ι} {l k : Loc}
    (hl : s.thr t = .run l) (hk : s'.thr = Function.update s.thr t (.run k))
    (lock : s'.sem .lock + k.inside = s.sem .lock + l.inside)
    (value : s'.mem.popped.length + s'.sem .data + k.value + s.mem.pushed.length =
      s.mem.popped.length + s.sem .data + l.value + s'.mem.pushed.length)
    (slot : s'.mem.pushed.length + s'.sem .space + k.slot + s.mem.popped.length =
      s.mem.pushed.length + s.sem .space + l.slot + s'.mem.popped.length) : Tokens maxq s' := by
  have move := fun w => count_goto w hl k
  obtain ⟨h₁, h₂, h₃⟩ := h
  rw [← hk] at move
  refine ⟨?_, ?_, ?_⟩
  · have := move Loc.inside; omega
  · have := move Loc.value; omega
  · have := move Loc.slot; omega

theorem Tokens.step {maxq : ℕ} {s s' : State ι} (h : Tokens maxq s)
    (hs : Step (fun _ => prog) t s s') : Tokens maxq s' := by
  cases hs with
  | instr l hl eff =>
      cases l with
      | ready =>
          obtain ⟨x, rfl⟩ := eff
          cases x <;> exact h.goto hl rfl rfl rfl rfl
      | pushSpace data | pushLock data | popData | popLock =>
          obtain ⟨pos, rfl⟩ := eff
          refine h.goto hl rfl ?_ ?_ ?_ <;> simp [Loc.inside, Loc.value, Loc.slot]
          omega
      | pushUnlock | pushPost | popUnlock | popPost =>
          obtain rfl := eff
          refine h.goto hl rfl ?_ ?_ ?_ <;> simp +arith [Loc.inside, Loc.value, Loc.slot]
      | pushStore data | pushAdvance | popTake | popAdvance =>
          obtain rfl := eff
          refine h.goto hl rfl ?_ ?_ ?_ <;>
            simp [Loc.inside, Loc.value, Loc.slot, Queue.store, Queue.advanceWrite, Queue.take,
              Queue.advanceRead] <;> omega
  | reacquire m => exact m.elim
  | spurious c => exact c.elim

theorem tokens_of_reachable {maxq : ℕ} {s : State ι} (h : (system ι maxq).Reachable s) :
    Tokens maxq s := by
  have key : (system ι maxq).Inductive (Tokens maxq) := by
    refine machine_inductive ?_ fun t s s' _ h hs => h.step hs
    constructor <;> simp [count, total, start, semInit, ringQueue, Loc.inside, Loc.value, Loc.slot]
  exact key.reachable h

/-! ## Slots -/

/-- The index stands at the slot of the `n`-th value, or one behind while it is being moved. -/
def Points (maxq n moving : ℕ) (pos : ℤ) : Prop :=
  ∃ i, pos = ((i % maxq : ℕ) : ℤ) ∧ i + moving = n

theorem Points.bound {maxq n moving : ℕ} {pos : ℤ} (h : Points maxq n moving pos) (hq : 1 ≤ maxq) :
    0 ≤ pos ∧ pos < maxq := by
  obtain ⟨i, rfl, -⟩ := h
  have := Nat.mod_lt i hq
  omega

theorem Points.toNat {maxq n : ℕ} {pos : ℤ} (h : Points maxq n 0 pos) : pos.toNat = n % maxq := by
  obtain ⟨i, rfl, rfl⟩ := h
  exact Int.toNat_natCast _

/-- The value is there, the index still has to move. -/
theorem Points.succ {maxq n : ℕ} {pos : ℤ} (h : Points maxq n 0 pos) :
    Points maxq (n + 1) 1 pos := by
  obtain ⟨i, rfl, rfl⟩ := h
  exact ⟨i, rfl, rfl⟩

theorem Points.advance {maxq n : ℕ} {pos : ℤ} (h : Points maxq n 1 pos) :
    Points maxq n 0 ((pos + 1).tmod maxq) := by
  obtain ⟨i, rfl, rfl⟩ := h
  refine ⟨i + 1, ?_, rfl⟩
  rw [← Int.natCast_succ, ← Int.ofNat_tmod, Nat.succ_eq_add_one, Nat.mod_add_mod]

/-- The slots, while `w` calls are moving `_pos_write` and `r` calls `_pos_read`. -/
structure Slots (maxq : ℕ) (q : Queue) (w r : ℕ) : Prop where
  size : q.array.length = maxq
  capacity : q.capacity = maxq
  write : Points maxq q.pushed.length w q.posWrite
  read : Points maxq q.popped.length r q.posRead
  fifo : q.popped <+: q.pushed
  unread : Window q.array maxq q.pushed q.popped.length

theorem Slots.store {maxq r : ℕ} {q : Queue} (h : Slots maxq q 0 r) (hq : 1 ≤ maxq)
    (room : q.pushed.length < q.popped.length + maxq) (data : ℤ) :
    Slots maxq (q.store data) 1 r where
  size := by simpa [Queue.store] using h.size
  capacity := h.capacity
  write := by simpa [Queue.store] using h.write.succ
  read := h.read
  fifo := h.fifo.trans (List.prefix_append _ _)
  unread := by
    have := h.unread.push h.size hq room data
    rwa [← h.write.toNat] at this

theorem Slots.advanceWrite {maxq r : ℕ} {q : Queue} (h : Slots maxq q 1 r) :
    Slots maxq q.advanceWrite 0 r where
  size := h.size
  capacity := h.capacity
  write := by
    have := h.write.advance
    rwa [← h.capacity] at this
  read := h.read
  fifo := h.fifo
  unread := h.unread

theorem Slots.take {maxq w : ℕ} {q : Queue} (h : Slots maxq q w 0)
    (some : q.popped.length < q.pushed.length) : Slots maxq q.take w 1 where
  size := h.size
  capacity := h.capacity
  write := h.write
  read := by simpa [Queue.take] using h.read.succ
  fifo := by
    apply isPrefix_concat h.fifo
    rw [List.getD_eq_getElem?_getD, h.read.toNat, h.unread _ le_rfl some,
      List.getElem?_eq_getElem some]
    rfl
  unread := by simpa [Queue.take] using h.unread.pop

theorem Slots.advanceRead {maxq w : ℕ} {q : Queue} (h : Slots maxq q w 1) :
    Slots maxq q.advanceRead w 0 where
  size := h.size
  capacity := h.capacity
  write := h.write
  read := by
    have := h.read.advance
    rwa [← h.capacity] at this
  fifo := h.fifo
  unread := h.unread

/-- A `Push` that has stored its value and not yet moved the index. -/
def Loc.writing : Loc → ℕ
  | .pushAdvance => 1
  | _ => 0

/-- A `Pop` that has read its value and not yet moved the index. -/
def Loc.reading : Loc → ℕ
  | .popAdvance => 1
  | _ => 0

theorem writing_le_inside (l : Loc) : l.writing ≤ l.inside := by
  cases l <;> simp [Loc.writing, Loc.inside]

theorem reading_le_inside (l : Loc) : l.reading ≤ l.inside := by
  cases l <;> simp [Loc.reading, Loc.inside]

def SlotsAt (maxq : ℕ) (s : State ι) : Prop :=
  Slots maxq s.mem (count Loc.writing s.thr) (count Loc.reading s.thr)

theorem SlotsAt.step {maxq : ℕ} (hq : 1 ≤ maxq) {s s' : State ι} (tok : Tokens maxq s)
    (h : SlotsAt maxq s) (hs : Step (fun _ => prog) t s s') : SlotsAt maxq s' := by
  cases hs with
  | instr l hl eff =>
      -- the counts after the step, from the weights of the two locations
      have move : ∀ {s' : State ι} {k : Loc} {w r : ℕ}, s'.thr = Function.update s.thr t (.run k) →
          count Loc.writing s.thr + k.writing = w + l.writing →
          count Loc.reading s.thr + k.reading = r + l.reading → Slots maxq s'.mem w r →
          SlotsAt maxq s' := by
        intro s' k w r hk hw hr h'
        have := count_goto Loc.writing hl k
        have := count_goto Loc.reading hl k
        unfold SlotsAt
        rw [hk]
        convert h' using 1 <;> omega
      cases l with
      | ready =>
          obtain ⟨x, rfl⟩ := eff
          cases x <;> exact move rfl rfl rfl h
      | pushSpace data | pushLock data | popData | popLock =>
          obtain ⟨-, rfl⟩ := eff
          exact move rfl rfl rfl h
      | pushUnlock | pushPost | popUnlock | popPost =>
          obtain rfl := eff
          exact move rfl rfl rfl h
      | pushStore data =>
          obtain rfl := eff
          have room : s.mem.pushed.length < s.mem.popped.length + maxq := by
            have := tok.slot
            have := le_count Loc.slot hl
            simp only [Loc.slot] at this
            omega
          have hw := tok.count_eq writing_le_inside hl Nat.one_pos
          unfold SlotsAt at h
          rw [hw] at h
          exact move rfl (by rw [hw]; rfl) rfl (h.store hq room data)
      | pushAdvance =>
          obtain rfl := eff
          have hw := tok.count_eq writing_le_inside hl Nat.one_pos
          unfold SlotsAt at h
          rw [hw] at h
          exact move rfl (by rw [hw]; rfl) rfl h.advanceWrite
      | popTake =>
          obtain rfl := eff
          have unread : s.mem.popped.length < s.mem.pushed.length := by
            have := tok.value
            have := le_count Loc.value hl
            simp only [Loc.value] at this
            omega
          have hr := tok.count_eq reading_le_inside hl Nat.one_pos
          unfold SlotsAt at h
          rw [hr] at h
          exact move rfl rfl (by rw [hr]; rfl) (h.take unread)
      | popAdvance =>
          obtain rfl := eff
          have hr := tok.count_eq reading_le_inside hl Nat.one_pos
          unfold SlotsAt at h
          rw [hr] at h
          exact move rfl rfl (by rw [hr]; rfl) h.advanceRead
  | reacquire m => exact m.elim
  | spurious c => exact c.elim

theorem slots_of_reachable {maxq : ℕ} (hq : 1 ≤ maxq) {s : State ι}
    (h : (system ι maxq).Reachable s) : SlotsAt maxq s := by
  have key : (system ι maxq).Inductive (SlotsAt maxq) := by
    refine machine_inductive ?_ fun t s s' hr h hs => h.step hq (tokens_of_reachable hr) hs
    constructor <;>
      simp [count, total, start, ringQueue, Loc.writing, Loc.reading, Points, Window]
  exact key.reachable h

/-- The values taken out are a prefix of the values stored, at most `maxq` of them are unread and
each of these is still in its slot, and both indices are inside the array. -/
structure Queue.BoundedFifo (maxq : ℕ) (q : Queue) : Prop where
  fifo : q.popped <+: q.pushed
  bounded : q.pushed.length ≤ q.popped.length + maxq
  unread : ∀ i, q.popped.length ≤ i → i < q.pushed.length → q.array[i % maxq]? = q.pushed[i]?
  posRead : 0 ≤ q.posRead ∧ q.posRead < maxq
  posWrite : 0 ≤ q.posWrite ∧ q.posWrite < maxq

/-- For any number of threads and every interleaving of their calls. -/
theorem boundedFifo_of_reachable {maxq : ℕ} (hq : 1 ≤ maxq) {s : State ι}
    (h : (system ι maxq).Reachable s) : s.mem.BoundedFifo maxq where
  fifo := (slots_of_reachable hq h).fifo
  bounded := by have := (tokens_of_reachable h).slot; omega
  unread := (slots_of_reachable hq h).unread
  posRead := (slots_of_reachable hq h).read.bound hq
  posWrite := (slots_of_reachable hq h).write.bound hq

end

/-! ## Tokens are not lost -/

/-- A call between its first `sem_wait` and its last `sem_post`. -/
def Loc.inFlight (l : Loc) : ℕ := l.value + l.slot

/-- The free slots, the values and the calls in flight are as many as there are slots, and at most
one call is between the two operations on `_sem_lock`. -/
structure Conserved {ι : Type*} [Fintype ι] (maxq : ℕ) (s : State ι) : Prop where
  tokens : s.sem .space + s.sem .data + count Loc.inFlight s.thr = maxq
  lock : count Loc.inside s.thr ≤ 1

section

variable {ι X : Type*} [Fintype ι] [DecidableEq ι] {maxq : ℕ} {s : State ι}

omit [DecidableEq ι] in
theorem Tokens.conserved (h : Tokens maxq s) : Conserved maxq s := by
  obtain ⟨lock, value, slot⟩ := h
  have both : count Loc.inFlight s.thr = count Loc.value s.thr + count Loc.slot s.thr := by
    unfold count total
    rw [← Finset.sum_add_distrib]
    refine Finset.sum_congr rfl fun t _ => ?_
    cases s.thr t <;> rfl
  constructor
  · omega
  · omega

/-- Where the thread stands that makes only calls of the one or of the other kind. -/
def Loc.pushing : Loc → Bool
  | .ready | .pushSpace _ | .pushLock _ | .pushStore _ | .pushAdvance | .pushUnlock | .pushPost =>
      true
  | _ => false

def Loc.popping : Loc → Bool
  | .ready | .popData | .popLock | .popTake | .popAdvance | .popUnlock | .popPost => true
  | _ => false

/-- `next t` is the call that thread `t` makes on a choice. -/
def loop (next : ι → X → Call) (t : ι) (l : Loc) : Instr Empty Empty Sem X Queue Loc :=
  (prog l).comap (next t)

/-- The threads loop on their calls. -/
def loops (next : ι → X → Call) (maxq : ℕ) : Machine (State ι) (Act ι X) :=
  machine (loop next) (start (fun _ => .ready) (semInit maxq) (ringQueue maxq))

variable {next : ι → X → Call}

/-- A thread stands where its calls can lead. -/
theorem stands_of_calls {R : Loc → Bool} {t : ι} (ready : R .ready)
    (leads : ∀ l k, R l → (loop next t l).Leads k → R k) (h : (loops next maxq).Reachable s) :
    ∃ l, s.thr t = .run l ∧ R l := by
  have valid := valid_of_reachable (R := fun u l => u = t → R l) (fun _ _ => ready)
    (fun u l k hl hk e => by subst e; exact leads l k (hl rfl) hk) h t
  cases hl : s.thr t with
  | run l =>
      rw [hl] at valid
      exact ⟨l, rfl, valid rfl⟩
  | asleep c => exact c.elim
  | woken m => exact m.elim

omit [Fintype ι] [DecidableEq ι] in
theorem pushing_leads {t : ι} (calls : ∀ x, ∃ data, next t x = .push data) {l k : Loc}
    (hl : l.pushing) (hk : (loop next t l).Leads k) : k.pushing := by
  cases l with
  | ready =>
      obtain ⟨x, rfl⟩ := hk
      obtain ⟨data, call⟩ := calls x
      dsimp only
      rw [call]
      rfl
  | pushSpace data | pushLock data | pushUnlock | pushPost =>
      obtain rfl : _ = k := hk
      rfl
  | pushStore data | pushAdvance =>
      obtain ⟨q, rfl⟩ := hk
      rfl
  | _ => cases hl

omit [Fintype ι] [DecidableEq ι] in
theorem popping_leads {t : ι} (calls : ∀ x, next t x = .pop) {l k : Loc} (hl : l.popping)
    (hk : (loop next t l).Leads k) : k.popping := by
  cases l with
  | ready =>
      obtain ⟨x, rfl⟩ := hk
      dsimp only
      rw [calls x]
      rfl
  | popData | popLock | popUnlock | popPost =>
      obtain rfl : _ = k := hk
      rfl
  | popTake | popAdvance =>
      obtain ⟨q, rfl⟩ := hk
      rfl
  | _ => cases hl

omit [Fintype ι] [DecidableEq ι] in
/-- What a thread that cannot go on waits for. -/
theorem blocked_cases {t : ι} {l : Loc} (hl : s.thr t = .run l) (h : Blocked (loop next) s t) :
    ((∃ data, l = .pushSpace data) ∧ s.sem .space = 0) ∨ (l = .popData ∧ s.sem .data = 0) ∨
      s.sem .lock = 0 := by
  unfold Blocked at h
  rw [hl] at h
  cases l with
  | pushSpace data => exact Or.inl ⟨⟨data, rfl⟩, h⟩
  | popData => exact Or.inr (Or.inl ⟨rfl, h⟩)
  | pushLock data | popLock => exact Or.inr (Or.inr h)
  | _ => exact h.elim

omit [DecidableEq ι] in
/-- Inside the critical section nobody is blocked. -/
theorem lock_pos_of_blocked (tok : Tokens maxq s) (stuck : ∀ t, Blocked (loop next) s t) :
    s.sem .lock ≠ 0 := by
  intro taken
  have lock := tok.lock
  have someone : 0 < count Loc.inside s.thr := by omega
  obtain ⟨t, ht⟩ := total_pos_iff.1 someone
  have blocked := stuck t
  unfold Blocked at blocked
  cases hl : s.thr t with
  | run l =>
      rw [hl] at ht blocked
      cases l <;> first | exact blocked | exact Nat.lt_irrefl 0 ht
  | asleep c => exact c.elim
  | woken m => exact m.elim

theorem exists_not_blocked (hq : 1 ≤ maxq) {p q : ι}
    (pushes : ∀ x, ∃ data, next p x = .push data) (pops : ∀ x, next q x = .pop)
    (h : (loops next maxq).Reachable s) : ∃ t, ¬ Blocked (loop next) s t := by
  by_contra stuck
  simp only [not_exists, not_not] at stuck
  have tok := tokens_of_reachable (reachable_of_comap h)
  have lock := lock_pos_of_blocked tok stuck
  obtain ⟨l, hl, pushing⟩ := stands_of_calls rfl (fun _ _ => pushing_leads pushes) h
  obtain ⟨k, hk, popping⟩ := stands_of_calls rfl (fun _ _ => popping_leads pops) h
  have space : s.sem .space = 0 := by
    rcases blocked_cases hl (stuck p) with ⟨-, none⟩ | ⟨rfl, -⟩ | none
    · exact none
    · cases pushing
    · exact absurd none lock
  have data : s.sem .data = 0 := by
    rcases blocked_cases hk (stuck q) with ⟨⟨_, rfl⟩, -⟩ | ⟨-, none⟩ | none
    · cases popping
    · exact none
    · exact absurd none lock
  -- so a call is in flight, and it waits for neither
  have flight : 0 < count Loc.inFlight s.thr := by
    have := tok.conserved.tokens
    omega
  obtain ⟨t, ht⟩ := total_pos_iff.1 flight
  cases ht' : s.thr t with
  | run m =>
      rw [ht'] at ht
      rcases blocked_cases ht' (stuck t) with ⟨⟨_, rfl⟩, -⟩ | ⟨rfl, -⟩ | none
      · exact Nat.lt_irrefl 0 ht
      · exact Nat.lt_irrefl 0 ht
      · exact lock none
  | asleep c => exact c.elim
  | woken m => exact m.elim

/-- In every reachable state the tokens are conserved, and where one thread loops on `Push` and one
on `Pop`, some thread can take a step. -/
theorem conserved_and_exists_step [Nonempty X] (hq : 1 ≤ maxq) (h : (loops next maxq).Reachable s) :
    Conserved maxq s ∧
      ∀ p q, (∀ x, ∃ data, next p x = .push data) → (∀ x, next q x = .pop) →
        (∃ t, ¬ Blocked (loop next) s t) ∧ ∃ a s', (loops next maxq).step a s = some s' := by
  refine ⟨(tokens_of_reachable (reachable_of_comap h)).conserved, fun p q pushes pops => ?_⟩
  obtain ⟨t, ht⟩ := exists_not_blocked hq pushes pops h
  have own : Owned (fun _ (m : Empty) => m.elim) s.thr s.owner := fun _ m => m.elim
  have respects : ∀ t l, (loop next t l).Respects (fun _ (m : Empty) => m.elim) l := by
    intro t l
    cases l <;> first | exact fun m => m.elim | exact fun _ m => m.elim
  obtain ⟨a, s', step, -⟩ := exists_step_of_not_blocked respects own ht
  exact ⟨⟨t, ht⟩, a, s', step⟩

end

/-- One thread pushes 7 through a queue of one slot, another has read it. -/
theorem boundedFifo_push_pop : ∃ s : State (Fin 2), (system (Fin 2) 1).Reachable s ∧
    s.mem.popped = [7] ∧ s.mem.BoundedFifo 1 := by
  have h := Machine.reachable_of_run (M := system (Fin 2) 1) [.input 0 (.push 7), .exec 0, .exec 0,
    .exec 0, .exec 0, .exec 0, .exec 0, .input 1 .pop, .exec 1, .exec 1, .exec 1] rfl rfl
  exact ⟨_, h, rfl, boundedFifo_of_reachable le_rfl h⟩

/-- Thread 0 pushes zeros, thread 1 pops. -/
def pushOrPop : Fin 2 → Unit → Call
  | 0, _ => .push 0
  | 1, _ => .pop

/-- The only slot is taken, one call is about to store into it and the other waits for the value. -/
theorem conserved_and_exists_step_pushOrPop : ∃ s : State (Fin 2),
    (loops pushOrPop 1).Reachable s ∧ s.sem .space + s.sem .data = 0 ∧ Conserved 1 s ∧
      ∃ a s', (loops pushOrPop 1).step a s = some s' := by
  have h := Machine.reachable_of_run (M := loops pushOrPop 1)
    [.input 0 (), .input 1 (), .exec 0, .exec 0] rfl rfl
  obtain ⟨conserved, goes⟩ := conserved_and_exists_step le_rfl h
  exact ⟨_, h, rfl, conserved, (goes 0 1 (fun _ => ⟨0, rfl⟩) fun _ => rfl).2⟩

end LinuxNote.RingQueue
