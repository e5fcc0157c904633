import LinuxNote.Threads.SemRing

/-!
# The ring of `pth_sem.c`

The producer prints its value before it posts `product_number`, so the value is still in its slot
when the argument of `printf` is evaluated.  The two threads and the array then make a queue
(`correct_of_reachable`).
-/

namespace LinuxNote.PthSem

open Conc SemRing

/-- The environment chooses the value of `rand()`. -/
def producer : ProducerLoc → Instr Empty Empty Sem ℕ Ring ProducerLoc
  | .wait p => .semWait .blank (.rand p)
  | .rand p => .input fun rand => .store p (rand % 1000 + 1)
  | .store p num => .stmt fun q => (q.store p num, .read p)
  | .read p => .stmt fun q => (q, .print p (q.queue.getD p 0))
  | .print p num => .stmt fun q => (q.printProduce num, .post p)
  | .post p => .semPost .product (.advance p)
  | .advance p => .stmt fun q => (q, .wait ((p + 1) % NUM))

def system : Machine State (Act Thread ℕ) := SemRing.system producer

/-! ## What the producer knows -/

/-- A value for which `product_number` has not yet been posted. -/
def unposted : ProducerLoc → ℕ
  | .read _ | .print _ _ | .post _ => 1
  | _ => 0

/-- Where the index of the producer points, and how far its prints have come. -/
def Known (q : Ring) : ProducerLoc → Prop
  | .wait p | .rand p | .store p _ => p = q.stored.length % NUM ∧ q.produced = q.stored
  | .read p => p = q.produced.length % NUM ∧ ∃ num, q.produced ++ [num] = q.stored
  | .print p num => p = q.produced.length % NUM ∧ q.produced ++ [num] = q.stored
  | .post p | .advance p => q.produced = q.stored ∧ ∃ i, p = i % NUM ∧ i + 1 = q.stored.length

def view : View where
  unposted := unposted
  Known := Known
  of_eq {q q' l} h stored produced := by
    cases l <;> simpa only [Known, stored, produced] using h

section

variable {lp : ProducerLoc} {lc : ConsumerLoc} {sem : Sem → ℕ} {q : Ring} {p : ℕ} {num : ℤ}

theorem store (h : Inv view (.store p num) lc sem q) :
    Inv view (.read p) lc sem (q.store p num) := by
  obtain ⟨index, printed⟩ := h.producer
  refine h.store index rfl rfl ⟨?_, num, congrArg (· ++ [num]) printed⟩
  rw [index, ← printed]
  rfl

/-- The value is still in its slot: the consumer has no token for it. -/
theorem read (h : Inv view (.read p) lc sem q) :
    Inv view (.print p (q.queue.getD p 0)) lc sem q := by
  obtain ⟨index, num, last⟩ := h.producer
  have product := h.product
  have one : view.unposted (.read p) = 1 := rfl
  have here : q.queue[p]? = some num := by
    have inside : q.produced.length < q.stored.length := by simp [← last]
    have all : q.produced.length + 1 = q.stored.length := by simp [← last]
    rw [index, h.unread _ (by omega) inside, ← last]
    simp
  refine h.proceed q.produced rfl rfl ⟨index, ?_⟩
  rw [List.getD_eq_getElem?_getD, here]
  exact last

theorem printProduce (h : Inv view (.print p num) lc sem q) :
    Inv view (.post p) lc sem (q.printProduce num) := by
  obtain ⟨index, last⟩ := h.producer
  refine h.proceed _ rfl rfl ⟨last, _, index, ?_⟩
  simp [← last]

end

theorem producer_step {lp : ProducerLoc} {lc : ConsumerLoc} {s s' : State}
    (at_ : s.thr = places lp lc) (inv : Inv view lp lc s.sem s.mem)
    (eff : (prog producer (.producer lp)).Effect .producer s s') : Sound view s' := by
  have known := inv.producer
  cases lp with
  | wait p =>
      obtain ⟨pos, rfl⟩ := eff
      exact .producer at_ rfl (inv.semWait pos rfl rfl known)
  | rand p =>
      obtain ⟨rand, rfl⟩ := eff
      exact .producer at_ rfl (inv.proceed _ rfl rfl known)
  | store p num =>
      obtain rfl := eff
      exact .producer at_ rfl (store inv)
  | read p =>
      obtain rfl := eff
      exact .producer at_ rfl (read inv)
  | print p num =>
      obtain rfl := eff
      exact .producer at_ rfl (printProduce inv)
  | post p =>
      obtain rfl := eff
      exact .producer at_ rfl (inv.semPost rfl rfl known)
  | advance p =>
      obtain rfl := eff
      obtain ⟨printed, i, rfl, last⟩ := known
      have next := (Nat.mod_add_mod i NUM 1).trans (congrArg (· % NUM) last)
      exact .producer at_ rfl (inv.proceed _ rfl rfl ⟨next, printed⟩)

theorem keeps : Keeps producer view where
  start := ⟨rfl, rfl⟩
  posted := rfl
  waits l p k hi := by
    cases l <;> cases hi
    exact ⟨rfl, rfl, rfl⟩
  step := producer_step

/-! ## The ring is a queue -/

/-- Both threads print the values stored, in order and the producer each in its own iteration; a
value stays in its slot until the consumer has printed it, and at most `NUM` of them are unread. -/
structure Correct (s : State) : Prop where
  consumed : s.mem.consumed <+: s.mem.stored
  produced : s.mem.produced <+: s.mem.stored
  iteration : s.mem.stored.length ≤ s.mem.produced.length + 1
  unread : ∀ i, s.mem.consumed.length ≤ i → i < s.mem.stored.length →
    s.mem.queue[i % NUM]? = s.mem.stored[i]?
  bounded : s.mem.stored.length ≤ s.mem.consumed.length + NUM
  store : ∀ p num, s.thr .producer = .run (.producer (.store p num)) →
    p < NUM ∧ ∀ i, i < s.mem.stored.length → i % NUM = p → i < s.mem.consumed.length
  clear : ∀ c, s.thr .consumer = .run (.consumer (.clear c)) →
    c < NUM ∧ ∀ i, i < s.mem.stored.length → i % NUM = c → i < s.mem.consumed.length

/-- The prints of the producer are at most one value behind. -/
theorem Known.produced {lp : ProducerLoc} {q : Ring} (h : Known q lp) :
    q.produced <+: q.stored ∧ q.stored.length ≤ q.produced.length + 1 := by
  have last : ∀ {num : ℤ}, q.produced ++ [num] = q.stored →
      q.produced <+: q.stored ∧ q.stored.length ≤ q.produced.length + 1 := by
    intro num last
    exact ⟨⟨[num], last⟩, by simp [← last]⟩
  have all : q.produced = q.stored →
      q.produced <+: q.stored ∧ q.stored.length ≤ q.produced.length + 1 := by
    intro all
    exact ⟨all ▸ List.prefix_refl _, by simp [all]⟩
  cases lp with
  | wait p | rand p | store p num => exact all h.2
  | read p =>
      obtain ⟨-, num, h⟩ := h
      exact last h
  | print p num => exact last h.2
  | post p | advance p => exact all h.1

/-- After every run, whatever the order of the steps. -/
theorem correct_of_reachable {s : State} (h : system.Reachable s) : Correct s := by
  obtain ⟨lp, lc, at_, inv⟩ := sound_of_reachable keeps h
  have blank := inv.blank
  have known : Known s.mem lp := inv.producer
  obtain ⟨produced, iteration⟩ := known.produced
  have unread := inv.unread.mono (Nat.sub_le _ _)
  refine ⟨inv.order, produced, iteration, unread, by omega, ?_, ?_⟩
  · intro p num hl
    rw [at_] at hl
    obtain rfl : lp = .store p num := by simpa [places] using hl
    obtain ⟨rfl, -⟩ := inv.producer
    simp only [ProducerLoc.slot] at blank
    refine ⟨Nat.mod_lt _ NUM_pos, fun i hi same => ?_⟩
    by_contra unread
    exact mod_ne_mod hi (by omega) same
  · intro c hl
    rw [at_] at hl
    obtain rfl : lc = .clear c := by simpa [places] using hl
    obtain ⟨j, rfl, last⟩ := inv.consumer
    simp only [ConsumerLoc.slot] at blank
    refine ⟨Nat.mod_lt _ NUM_pos, fun i hi same => ?_⟩
    by_contra unread
    exact mod_ne_mod (by omega) (by omega) same.symm

/-- The producer stores 8 and posts, and the consumer prints it while the producer has gone on. -/
theorem correct_storeAndPrint : ∃ s, system.Reachable s ∧ s.mem.consumed = [8] ∧
    s.mem.stored = [8, 43] ∧ Correct s := by
  have h := Machine.reachable_of_run (M := system) [.exec .producer, .input .producer 7,
    .exec .producer, .exec .producer, .exec .producer, .exec .producer, .exec .consumer,
    .exec .producer, .exec .producer, .input .producer 2042, .exec .consumer, .exec .producer,
    .exec .consumer] rfl rfl
  exact ⟨_, h, rfl, rfl, correct_of_reachable h⟩

end LinuxNote.PthSem
