import LinuxNote.Conc.Rate
import LinuxNote.Conc.Ring

/-!
# The ring of `pth_sem.c` and `sem_test.c`

One producer and one consumer share an array of `NUM` slots and two semaphores, and no lock.  Each
keeps its index in a local variable.  The programs have the consumer in common and differ in their
producers, which are a parameter here.

The tokens tell the slots apart: those that the producer has taken from `blank_number` and those
that the consumer has taken from `product_number` are never the same.  `Inv` ties both indices to
the histories at every pair of locations, and what one thread does leaves what the other knows.  A
`View` says what a producer knows; that its steps keep `Inv` is all that is asked of it (`Keeps`).
-/

namespace LinuxNote.SemRing

open Conc

def NUM : ℕ := 5

/-- `blank_number` and `product_number`. -/
inductive Sem
  | blank
  | product
  deriving DecidableEq

/-- The array, the values stored so far, and those that each of the threads has printed. -/
structure Ring where
  queue : List ℤ
  stored : List ℤ
  produced : List ℤ
  consumed : List ℤ

/-- `queue[p] = num` -/
def Ring.store (q : Ring) (p : ℕ) (num : ℤ) : Ring :=
  { q with queue := q.queue.set p num, stored := q.stored ++ [num] }

/-- `printf("Produce %d\n", num)` -/
def Ring.printProduce (q : Ring) (num : ℤ) : Ring := { q with produced := q.produced ++ [num] }

/-- `printf("Consume %d\n", num)` -/
def Ring.printConsume (q : Ring) (num : ℤ) : Ring := { q with consumed := q.consumed ++ [num] }

/-- `queue[c] = 0` -/
def Ring.clear (q : Ring) (c : ℕ) : Ring := { q with queue := q.queue.set c 0 }

/-- Before the statement each location names; `read` is the evaluation of the argument of
`printf`. -/
inductive ProducerLoc
  | wait (p : ℕ)
  | rand (p : ℕ)
  | store (p : ℕ) (num : ℤ)
  | read (p : ℕ)
  | print (p : ℕ) (num : ℤ)
  | post (p : ℕ)
  | advance (p : ℕ)

inductive ConsumerLoc
  | wait (c : ℕ)
  | read (c : ℕ)
  | print (c : ℕ) (num : ℤ)
  | clear (c : ℕ)
  | post (c : ℕ)
  | advance (c : ℕ)

def consumer : ConsumerLoc → Instr Empty Empty Sem ℕ Ring ConsumerLoc
  | .wait c => .semWait .product (.read c)
  | .read c => .stmt fun q => (q, .print c (q.queue.getD c 0))
  | .print c num => .stmt fun q => (q.printConsume num, .clear c)
  | .clear c => .stmt fun q => (q.clear c, .post c)
  | .post c => .semPost .blank (.advance c)
  | .advance c => .stmt fun q => (q, .wait ((c + 1) % NUM))

inductive Loc
  | producer (l : ProducerLoc)
  | consumer (l : ConsumerLoc)

/-- The two threads that `main` creates. -/
inductive Thread
  | producer
  | consumer
  deriving DecidableEq

instance : Fintype Thread := ⟨{.producer, .consumer}, fun t => by cases t <;> decide⟩

def Thread.start : Thread → Loc
  | .producer => .producer (.wait 0)
  | .consumer => .consumer (.wait 0)

/-- The `sem_init` calls of `main`. -/
def semInit : Sem → ℕ
  | .blank => NUM
  | .product => 0

abbrev State := Conc.State Thread Empty Empty Sem Ring Loc

def created : State := start Thread.start semInit ⟨List.replicate NUM 0, [], [], []⟩

section

variable (produce : ProducerLoc → Instr Empty Empty Sem ℕ Ring ProducerLoc)

def prog : Loc → Instr Empty Empty Sem ℕ Ring Loc
  | .producer l => (produce l).within id (fun _ q => q) .producer
  | .consumer l => (consumer l).within id (fun _ q => q) .consumer

def system : Machine State (Act Thread ℕ) := machine (fun _ => prog produce) created

end

/-! ## What is known at each location -/

/-- A token of `blank_number` that the producer has taken. -/
def ProducerLoc.slot : ProducerLoc → ℕ
  | .rand _ | .store _ _ => 1
  | _ => 0

/-- A slot for which `blank_number` has not yet been posted. -/
def ConsumerLoc.slot : ConsumerLoc → ℕ
  | .clear _ | .post _ => 1
  | _ => 0

/-- A token of `product_number` whose value has not been printed. -/
def ConsumerLoc.value : ConsumerLoc → ℕ
  | .read _ | .print _ _ => 1
  | _ => 0

/-- The consumer is about to clear the slot of the last value that it has printed. -/
def ConsumerLoc.clearing : ConsumerLoc → ℕ
  | .clear _ => 1
  | _ => 0

def ConsumerLoc.Known (q : Ring) : ConsumerLoc → Prop
  | .wait c | .read c => c = q.consumed.length % NUM
  | .print c num => c = q.consumed.length % NUM ∧ q.stored[q.consumed.length]? = some num
  | .clear c | .post c | .advance c => ∃ i, c = i % NUM ∧ i + 1 = q.consumed.length

/-- What a producer knows of the values stored and of those that it has printed, and the values for
which it has not yet posted `product_number`. -/
structure View where
  unposted : ProducerLoc → ℕ
  Known : Ring → ProducerLoc → Prop
  of_eq : ∀ {q q' : Ring} {l : ProducerLoc}, Known q l → q'.stored = q.stored →
    q'.produced = q.produced → Known q' l

structure Inv (V : View) (lp : ProducerLoc) (lc : ConsumerLoc) (sem : Sem → ℕ) (q : Ring) :
    Prop where
  size : q.queue.length = NUM
  product : q.consumed.length + sem .product + V.unposted lp + lc.value = q.stored.length
  blank : q.stored.length + sem .blank + lp.slot + lc.slot = NUM + q.consumed.length
  order : q.consumed <+: q.stored
  unread : Window q.queue NUM q.stored (q.consumed.length - lc.clearing)
  cleared : ∀ i, i + 1 = q.stored.length → i + lc.clearing < q.consumed.length →
    q.queue[i % NUM]? = some 0
  producer : V.Known q lp
  consumer : lc.Known q

theorem NUM_pos : 0 < NUM := by decide

theorem ConsumerLoc.clearing_le (lc : ConsumerLoc) : lc.clearing ≤ lc.slot := by
  cases lc <;> simp [clearing, slot]

/-- The consumer does not look at what the producer does. -/
theorem ConsumerLoc.Known.store {lc : ConsumerLoc} {q : Ring} (h : lc.Known q) (p : ℕ) (num : ℤ) :
    lc.Known (q.store p num) := by
  cases lc with
  | print c v =>
      obtain ⟨index, value⟩ := h
      refine ⟨index, ?_⟩
      have inside := (List.getElem?_eq_some_iff.1 value).1
      rw [Ring.store, List.getElem?_append_left inside]
      exact value
  | _ => exact h

theorem ConsumerLoc.Known.of_eq {lc : ConsumerLoc} {q q' : Ring} (h : lc.Known q)
    (stored : q'.stored = q.stored) (consumed : q'.consumed = q.consumed) : lc.Known q' := by
  cases lc <;> simpa only [ConsumerLoc.Known, stored, consumed] using h

section

variable {V : View} {lp k : ProducerLoc} {lc : ConsumerLoc} {sem : Sem → ℕ} {q : Ring} {p c : ℕ}
  {num : ℤ}

/-! ## The statements of a producer -/

namespace Inv

/-- A token for a slot. -/
theorem semWait (h : Inv V lp lc sem q) (pos : 0 < sem .blank) (slot : k.slot = lp.slot + 1)
    (unposted : V.unposted k = V.unposted lp) (known : V.Known q k) :
    Inv V k lc (Function.update sem .blank (sem .blank - 1)) q := by
  have product := h.product
  have blank := h.blank
  refine { h with product := ?_, blank := ?_, producer := known }
  · simp
    omega
  · simp
    omega

/-- A token for a value. -/
theorem semPost (h : Inv V lp lc sem q) (slot : k.slot = lp.slot)
    (unposted : V.unposted lp = V.unposted k + 1) (known : V.Known q k) :
    Inv V k lc (Function.update sem .product (sem .product + 1)) q := by
  have product := h.product
  have blank := h.blank
  refine { h with product := ?_, blank := ?_, producer := known }
  · simp
    omega
  · simp
    omega

/-- The slot of the next value holds no unread one: the producer has a token for it. -/
theorem store (h : Inv V lp lc sem q) (index : p = q.stored.length % NUM)
    (slot : lp.slot = k.slot + 1) (unposted : V.unposted k = V.unposted lp + 1)
    (known : V.Known (q.store p num) k) : Inv V k lc sem (q.store p num) := by
  have product := h.product
  have blank := h.blank
  have le := lc.clearing_le
  refine ⟨?_, ?_, ?_, ?_, ?_, ?_, known, h.consumer.store p num⟩
  · simpa [Ring.store] using h.size
  · simp only [Ring.store, List.length_append, List.length_singleton]
    omega
  · simp only [Ring.store, List.length_append, List.length_singleton]
    omega
  · exact h.order.trans (List.prefix_append _ _)
  · rw [index]
    exact h.unread.push h.size NUM_pos (by omega) num
  · intro i last behind
    simp only [Ring.store, List.length_append, List.length_singleton] at last behind
    omega

/-- The producer prints or goes on. -/
theorem proceed (h : Inv V lp lc sem q) (produced : List ℤ) (slot : k.slot = lp.slot)
    (unposted : V.unposted k = V.unposted lp) (known : V.Known { q with produced } k) :
    Inv V k lc sem { q with produced } where
  size := h.size
  product := unposted ▸ h.product
  blank := slot ▸ h.blank
  order := h.order
  unread := h.unread
  cleared := h.cleared
  producer := known
  consumer := h.consumer.of_eq rfl rfl

/-! ## The statements of the consumer -/

/-- What the consumer reads is the next value that it has not printed. -/
theorem readConsume (h : Inv V lp (.read c) sem q) :
    Inv V lp (.print c (q.queue.getD c 0)) sem q := by
  have product := h.product
  simp only [ConsumerLoc.value] at product
  have index : c = q.consumed.length % NUM := h.consumer
  have unread : Window q.queue NUM q.stored q.consumed.length := h.unread
  have inside : q.consumed.length < q.stored.length := by omega
  refine { h with consumer := ⟨index, ?_⟩ }
  rw [List.getD_eq_getElem?_getD, index, unread _ le_rfl inside, List.getElem?_eq_getElem inside]
  rfl

theorem printConsume (h : Inv V lp (.print c num) sem q) :
    Inv V lp (.clear c) sem (q.printConsume num) := by
  obtain ⟨index, value⟩ := h.consumer
  have product := h.product
  have blank := h.blank
  simp only [ConsumerLoc.value, ConsumerLoc.slot] at product blank
  have more : (q.printConsume num).consumed.length = q.consumed.length + 1 := by
    simp [Ring.printConsume]
  refine ⟨h.size, ?_, ?_, isPrefix_concat h.order value, ?_, fun i last behind => ?_,
    V.of_eq h.producer rfl rfl, _, index, more.symm⟩
  · rw [more]
    simp only [Ring.printConsume, ConsumerLoc.value]
    omega
  · rw [more]
    simp only [Ring.printConsume, ConsumerLoc.slot]
    omega
  · rw [more]
    exact h.unread
  · rw [more] at behind
    exact h.cleared i last (Nat.lt_of_succ_lt_succ behind)

/-- The slot that is cleared holds no unread value: the consumer has a token for it. -/
theorem clear (h : Inv V lp (.clear c) sem q) : Inv V lp (.post c) sem (q.clear c) := by
  obtain ⟨i, rfl, last⟩ := h.consumer
  have product := h.product
  have blank := h.blank
  simp only [ConsumerLoc.value, ConsumerLoc.slot] at product blank
  have unread : Window q.queue NUM q.stored q.consumed.length := h.unread.mono (Nat.sub_le _ _)
  refine { h with
    size := by simpa [Ring.clear] using h.size
    unread := unread.set (by omega) (by omega) 0
    cleared := fun j all behind => ?_
    producer := V.of_eq h.producer rfl rfl
    consumer := ⟨i, rfl, last⟩ }
  have all' : j + 1 = q.stored.length := all
  have behind' : j < q.consumed.length := behind
  obtain rfl : j = i := by omega
  exact List.getElem?_set_self (h.size.symm ▸ Nat.mod_lt j NUM_pos)

end Inv

end

/-! ## Steps -/

/-- Where the two threads stand. -/
def places (lp : ProducerLoc) (lc : ConsumerLoc) : Thread → Status Empty Empty Loc
  | .producer => .run (.producer lp)
  | .consumer => .run (.consumer lc)

theorem update_producer (lp k : ProducerLoc) (lc : ConsumerLoc) :
    Function.update (places lp lc) .producer (.run (.producer k)) = places k lc := by
  funext t
  cases t <;> rfl

theorem update_consumer (lp : ProducerLoc) (lc k : ConsumerLoc) :
    Function.update (places lp lc) .consumer (.run (.consumer k)) = places lp k := by
  funext t
  cases t <;> rfl

section

variable {produce : ProducerLoc → Instr Empty Empty Sem ℕ Ring ProducerLoc} {V : View}
  {lp : ProducerLoc} {lc : ConsumerLoc} {s s' : State} {t : Thread}

theorem pc_places (at_ : s.thr = places lp lc) :
    s.pc .producer = .producer lp ∧ s.pc .consumer = .consumer lc := by
  simp [State.pc, at_, places, Status.loc]

/-- A step is one of the producer or one of the consumer. -/
theorem effect_of_places (at_ : s.thr = places lp lc) (hs : Step (fun _ => prog produce) t s s') :
    t = .producer ∧ (prog produce (.producer lp)).Effect .producer s s' ∨
      t = .consumer ∧ (prog produce (.consumer lc)).Effect .consumer s s' := by
  cases hs with
  | instr l hl eff =>
      rw [at_] at hl
      cases t with
      | producer =>
          obtain rfl : Loc.producer lp = l := Status.run.inj hl
          exact Or.inl ⟨rfl, eff⟩
      | consumer =>
          obtain rfl : Loc.consumer lc = l := Status.run.inj hl
          exact Or.inr ⟨rfl, eff⟩
  | reacquire m => exact m.elim
  | spurious c => exact c.elim

def Sound (V : View) (s : State) : Prop := ∃ lp lc, s.thr = places lp lc ∧ Inv V lp lc s.sem s.mem

/-- The producer begins with nothing unposted, it waits for `blank_number` where it has no token and
nothing unposted, and its steps keep what is known. -/
structure Keeps (produce : ProducerLoc → Instr Empty Empty Sem ℕ Ring ProducerLoc) (V : View) :
    Prop where
  start : V.Known created.mem (.wait 0)
  posted : V.unposted (.wait 0) = 0
  waits : ∀ l p k, produce l = .semWait p k → p = .blank ∧ l.slot = 0 ∧ V.unposted l = 0
  step : ∀ {lp lc s s'}, s.thr = places lp lc → Inv V lp lc s.sem s.mem →
    (prog produce (.producer lp)).Effect .producer s s' → Sound V s'

theorem Sound.producer {k : ProducerLoc} (at_ : s.thr = places lp lc)
    (thr : s'.thr = Function.update s.thr .producer (.run (.producer k)))
    (inv : Inv V k lc s'.sem s'.mem) : Sound V s' := by
  refine ⟨k, lc, ?_, inv⟩
  rw [thr, at_, update_producer]

theorem Sound.consumer {k : ConsumerLoc} (at_ : s.thr = places lp lc)
    (thr : s'.thr = Function.update s.thr .consumer (.run (.consumer k)))
    (inv : Inv V lp k s'.sem s'.mem) : Sound V s' := by
  refine ⟨lp, k, ?_, inv⟩
  rw [thr, at_, update_consumer]

theorem Sound.consumer_step (at_ : s.thr = places lp lc) (inv : Inv V lp lc s.sem s.mem)
    (eff : (prog produce (.consumer lc)).Effect .consumer s s') : Sound V s' := by
  have product := inv.product
  have blank := inv.blank
  have known := inv.consumer
  cases lc with
  | wait c =>
      obtain ⟨pos, rfl⟩ := eff
      refine .consumer at_ rfl { inv with product := ?_, blank := ?_, consumer := known }
      · simp [ConsumerLoc.value] at product ⊢
        omega
      · simpa [ConsumerLoc.slot] using blank
  | read c =>
      obtain rfl := eff
      exact .consumer at_ rfl inv.readConsume
  | print c num =>
      obtain rfl := eff
      exact .consumer at_ rfl inv.printConsume
  | clear c =>
      obtain rfl := eff
      exact .consumer at_ rfl inv.clear
  | post c =>
      obtain rfl := eff
      refine .consumer at_ rfl { inv with product := ?_, blank := ?_, consumer := known }
      · simpa [ConsumerLoc.value] using product
      · simp [ConsumerLoc.slot] at blank ⊢
        omega
  | advance c =>
      obtain rfl := eff
      obtain ⟨i, rfl, last⟩ := known
      have next := (Nat.mod_add_mod i NUM 1).trans (congrArg (· % NUM) last)
      exact .consumer at_ rfl { inv with consumer := next }

theorem Sound.step (keeps : Keeps produce V) (h : Sound V s)
    (hs : Step (fun _ => prog produce) t s s') : Sound V s' := by
  obtain ⟨lp, lc, at_, inv⟩ := h
  rcases effect_of_places at_ hs with ⟨-, eff⟩ | ⟨-, eff⟩
  · exact keeps.step at_ inv eff
  · exact .consumer_step at_ inv eff

theorem sound_created (keeps : Keeps produce V) : Sound V created := by
  refine ⟨.wait 0, .wait 0, funext fun t => by cases t <;> rfl, rfl, ?_, rfl, List.nil_prefix,
    fun i _ hi => absurd hi (Nat.not_lt_zero i), fun i last => absurd last (Nat.succ_ne_zero i),
    keeps.start, rfl⟩
  rw [keeps.posted]
  rfl

theorem sound_of_reachable (keeps : Keeps produce V) (h : (system produce).Reachable s) :
    Sound V s := by
  have key : (system produce).Inductive (Sound V) :=
    machine_inductive (sound_created keeps) fun t s s' _ h hs => h.step keeps hs
  exact key.reachable h

/-- Two threads that wait for a semaphore leave no token. -/
theorem exists_not_blocked (keeps : Keeps produce V) (h : Sound V s) :
    ∃ t, ¬ Blocked (fun _ => prog produce) s t := by
  obtain ⟨lp, lc, at_, inv⟩ := h
  have blank := inv.blank
  have product := inv.product
  by_contra stuck
  simp only [not_exists, not_not] at stuck
  have producer := stuck .producer
  have consumer := stuck .consumer
  simp only [Blocked, at_, places, prog] at producer consumer
  cases hi : produce lp with
  | semWait p k =>
      obtain ⟨rfl, noSlot, posted⟩ := keeps.waits lp p k hi
      rw [hi] at producer
      have none : s.sem .blank = 0 := producer
      cases lc with
      | wait c =>
          have nothing : s.sem .product = 0 := consumer
          simp only [noSlot, posted, ConsumerLoc.slot, ConsumerLoc.value, none, nothing,
            NUM] at blank product
          omega
      | _ => exact consumer
  | lock m => exact m.elim
  | _ =>
      rw [hi] at producer
      exact producer

end

end LinuxNote.SemRing
