import LinuxNote.Conc.Abstraction
import LinuxNote.Conc.Stack
import LinuxNote.Threads.ListThreads

/-!
# The linked-list stack of `pth_cond.c`

Producers push a message and consumers take the first one off, print it and free it outside the
critical section.  Every access to a node is a step of its own, and one to a cell that is not
allocated leads to `undefined`.

Messages are numbered in the order of their pushes: `serial` says which one was pushed last in a
cell, `log` is the history of the list, and `freed` are the messages given back.  The list stands
for a stack with that history, and each message is in one place (`Shared.Stack`).
-/

namespace LinuxNote.PthCond

open Conc Function ListThreads

/-- The memory; and the history: pushes and removals, the message in each cell, and the messages
freed. -/
structure Shared (A : Type*) extends Memory A where
  log : List (StackOp ℕ)
  serial : A → ℕ
  freed : List ℕ

/-- Each location is before the statement it names and has the local variables that are still used.
In `undefined` the thread has followed a pointer that is null or to a cell that is not allocated. -/
inductive Loc (A : Type*)
  | malloc
  | allocate (cell : A) (garbage : Node A ℤ)
  | rand (mp : A)
  | setNum (mp : A) (num : ℤ)
  | printProducer (mp : A)
  | producerLock (mp : A)
  | setNext (mp : A)
  | setHead (mp : A)
  | producerUnlock
  | signal
  | consumerLock
  | consumerTest
  | wait
  | take
  | advance (mp : A)
  | consumerUnlock (mp : A)
  | printConsumer (mp : A)
  | free (mp : A)
  | undefined (inside : Bool)

section

variable {A : Type*} [DecidableEq A]

/-- The number of the next message. -/
def Shared.pushes (g : Shared A) : ℕ := (pushed g.log).length

/-- `head = mp` -/
def Shared.setHead (g : Shared A) (mp : A) : Shared A :=
  { g with
    head := some mp
    log := g.log ++ [.push g.pushes]
    serial := update g.serial mp g.pushes }

/-- `head = mp->next`, where `*mp` is `n`. -/
def Shared.advance (g : Shared A) (mp : A) (n : Node A ℤ) : Shared A :=
  { g with head := n.next, log := g.log ++ [.pop (g.serial mp)] }

/-- `free(mp)` -/
def Shared.free (g : Shared A) (mp : A) : Shared A :=
  { g with heap := update g.heap mp none, freed := g.freed ++ [g.serial mp] }

def prog : Loc A → Instr Unit Unit Empty (Choice A) (Shared A) (Loc A)
  | .malloc => .input fun x => .allocate x.cell x.garbage
  -- a cell that is taken is not what `malloc` returns
  | .allocate cell garbage => .stmt fun g =>
      if g.heap cell = none then ({ g with toMemory := g.store cell garbage }, .rand cell)
      else (g, .malloc)
  | .rand mp => .input fun x => .setNum mp (x.rand % 1000 + 1)
  | .setNum mp num => .stmt fun g => g.deref mp (g, .undefined false) fun n =>
      ({ g with toMemory := g.store mp { n with value := num } }, .printProducer mp)
  | .printProducer mp => .stmt fun g =>
      g.deref mp (g, .undefined false) fun _ => (g, .producerLock mp)
  | .producerLock mp => .lock () (.setNext mp)
  | .setNext mp => .stmt fun g => g.deref mp (g, .undefined true) fun n =>
      ({ g with toMemory := g.store mp { n with next := g.head } }, .setHead mp)
  | .setHead mp => .stmt fun g => (g.setHead mp, .producerUnlock)
  | .producerUnlock => .unlock () .signal
  | .signal => .signal () .malloc
  | .consumerLock => .lock () .consumerTest
  | .consumerTest => .stmt fun g => (g, if g.head = none then .wait else .take)
  | .wait => .wait () () .consumerTest
  | .take => .stmt fun g =>
      match g.head with
      | some mp => (g, .advance mp)
      | none => (g, .undefined true)
  | .advance mp => .stmt fun g =>
      g.deref mp (g, .undefined true) fun n => (g.advance mp n, .consumerUnlock mp)
  | .consumerUnlock mp => .unlock () (.printConsumer mp)
  | .printConsumer mp => .stmt fun g => g.deref mp (g, .undefined false) fun _ => (g, .free mp)
  | .free mp => .stmt fun g => g.deref mp (g, .undefined false) fun _ => (g.free mp, .consumerLock)
  | .undefined inside => .stmt fun g => (g, .undefined inside)

end

def Loc.start {A : Type*} : Role → Loc A
  | .producer => .malloc
  | .consumer => .consumerLock

abbrev State (ι A : Type*) := Conc.State ι Unit Unit Empty (Shared A) (Loc A)

/-- The threads, each with its function, and an empty list. -/
def system {ι : Type*} (A : Type*) [Fintype ι] [DecidableEq ι] [DecidableEq A] (role : ι → Role) :
    Machine (State ι A) (Act ι (Choice A)) :=
  machine (fun _ => prog)
    (start (fun t => .start (role t)) Empty.elim ⟨.empty A, [], fun _ => 0, []⟩)

/-! ## The critical sections -/

section

variable {A : Type*}

/-- The statements between `pthread_mutex_lock` and `pthread_mutex_unlock`. -/
def Loc.locked : Loc A → Bool
  | .setNext _ | .setHead _ | .producerUnlock | .consumerTest | .wait | .take | .advance _
  | .consumerUnlock _ => true
  | .undefined inside => inside
  | _ => false

def Loc.holds (l : Loc A) (_ : Unit) : Prop := l.locked

/-- The node that a consumer has taken off and not yet freed. -/
def Loc.consuming : Loc A → Option A
  | .consumerUnlock mp | .printConsumer mp | .free mp => some mp
  | _ => none

/-- The node that the thread has for itself: a producer until it is on the list, a consumer from
then on that it is off. -/
def Loc.held : Loc A → Option A
  | .rand mp | .setNum mp _ | .printProducer mp | .producerLock mp | .setNext mp | .setHead mp =>
      some mp
  | k => k.consuming

/-- The thread has message `i` in its hands. -/
def Loc.hand (g : Shared A) (i : ℕ) (k : Loc A) : ℕ :=
  if k.consuming.map g.serial = some i then 1 else 0

/-- What the thread at a location knows, while the nodes of the list are those of `l`. -/
def Loc.Known (g : Shared A) (l : List (A × ℤ)) : Loc A → Prop
  | .rand mp | .setNum mp _ | .printProducer mp | .producerLock mp | .setNext mp
  | .consumerUnlock mp | .printConsumer mp | .free mp => g.heap mp ≠ none
  | .setHead mp => ∃ num, g.heap mp = some ⟨num, (cells l).head?⟩
  | .wait => l = []
  | .take => l ≠ []
  | .advance mp => ∃ v l', l = (mp, v) :: l'
  | .undefined _ => False
  | _ => True

theorem Loc.Known.frame {k : Loc A} {g g' : Shared A} {l l' : List (A × ℤ)} (h : k.Known g l)
    (own : ∀ a, k.held = some a → g'.heap a = g.heap a) (inside : k.locked → l' = l) :
    k.Known g' l' := by
  cases k with
  | rand mp | setNum mp num | printProducer mp | producerLock mp | printConsumer mp | free mp =>
      show g'.heap mp ≠ none
      rw [own mp rfl]
      exact h
  | setNext mp | consumerUnlock mp =>
      show g'.heap mp ≠ none
      rw [own mp rfl]
      exact h
  | setHead mp =>
      obtain rfl := inside rfl
      obtain ⟨num, cell⟩ := h
      exact ⟨num, (own mp rfl).trans cell⟩
  | wait | take | advance mp =>
      obtain rfl := inside rfl
      exact h
  | undefined inside => exact h.elim
  | malloc | allocate cell garbage | producerUnlock | signal | consumerLock | consumerTest =>
      trivial

/-- The messages on the list. -/
def Shared.onList (g : Shared A) (l : List (A × ℤ)) : List ℕ := (cells l).map g.serial

/-- The cells are separate, the list is what its history leaves, and each message that was pushed is
on the list or in a thread's hands or freed. -/
structure Shared.Stack {ι : Type*} [Fintype ι] (g : Shared A) (l : List (A × ℤ)) (pc : ι → Loc A) :
    Prop where
  separate : Separate g.heap g.head (fun t => (pc t).held) l
  leaves : Leaves g.log (g.onList l)
  numbered : pushed g.log = List.range g.pushes
  once : ∀ i, (g.onList l).count i + total (Loc.hand g i) pc + g.freed.count i =
    (pushed g.log).count i

end

/-! ## One statement -/

section

variable {A ι : Type*} [DecidableEq A] [DecidableEq ι] {g : Shared A} {l : List (A × ℤ)}
  {held : ι → Option A} {t : ι} {k k' : Loc A} {mp : A}

omit [DecidableEq A] in
theorem Loc.held_of_consuming {a : A} (h : k.consuming = some a) : k.held = some a := by
  cases k <;> first | exact h | cases h

/-- What a statement of thread `t` does: it leads to the data `g'` and the location `k'`, and the
list is then `l'`. -/
structure Kept (held : ι → Option A) (t : ι) (g : Shared A) (l : List (A × ℤ)) (k : Loc A)
    (g' : Shared A) (k' : Loc A) (l' : List (A × ℤ)) : Prop where
  handled : Handled held t g.heap g'.heap g'.head k'.held l'
  leaves : Leaves g'.log (g'.onList l')
  numbered : pushed g'.log = List.range g'.pushes
  serial : ∀ u a, u ≠ t → held u = some a → g'.serial a = g.serial a
  once : ∀ i, (g'.onList l').count i + k'.hand g' i + g'.freed.count i + (pushed g.log).count i =
    (g.onList l).count i + k.hand g i + g.freed.count i + (pushed g'.log).count i
  known : k'.Known g' l'
  inside : l' = l ∨ k.locked

/-- The cells are separate, and the history is that of the list. -/
structure Shared.History (g : Shared A) (held : ι → Option A) (l : List (A × ℤ)) : Prop where
  separate : Separate g.heap g.head held l
  leaves : Leaves g.log (g.onList l)
  numbered : pushed g.log = List.range g.pushes

namespace Shared.History

omit [DecidableEq A] in
/-- The thread only writes to cells. -/
theorem quiet (h : g.History held l) {heap : Heap A ℤ}
    (handled : Handled held t g.heap heap g.head k'.held l) (same : k'.consuming = k.consuming)
    (known : k'.Known { g with heap := heap } l) :
    Kept held t g l k { g with heap := heap } k' l where
  handled := handled
  leaves := h.leaves
  numbered := h.numbered
  serial _ _ _ _ := rfl
  once i := by
    rw [Loc.hand, same]
    exact rfl
  known := known
  inside := Or.inl rfl

omit [DecidableEq A] in
theorem skip (h : g.History held l) (here : held t = k'.held) (same : k'.consuming = k.consuming)
    (known : k'.Known g l) : Kept held t g l k g k' l :=
  h.quiet (h.separate.handled_skip here) same known

/-- `head = mp` -/
theorem push (h : g.History held l) (here : held t = some mp) {num : ℤ}
    (cell : g.heap mp = some ⟨num, (cells l).head?⟩) :
    Kept held t g l (.setHead mp) (g.setHead mp) .producerUnlock ((mp, num) :: l) := by
  have out := h.separate.off t mp here
  have onList : (g.setHead mp).onList ((mp, num) :: l) = g.pushes :: g.onList l := by
    refine congrArg₂ List.cons (update_self ..) (List.map_congr_left fun a ha => ?_)
    exact update_of_ne (fun e : a = mp => out (e ▸ ha)) _ _
  rw [← h.separate.chain.head_eq] at cell
  refine ⟨h.separate.handled_push here cell, ?_, ?_, fun u a ne hu => ?_, fun i => ?_, trivial,
    Or.inr rfl⟩
  · rw [onList]
    exact h.leaves.push _
  · simpa [setHead, pushes, List.range_succ] using h.numbered
  · have other : a ≠ mp := fun e => ne (h.separate.single u t a hu (e ▸ here))
    exact update_of_ne other _ _
  · rw [onList]
    simp [setHead, Loc.hand, Loc.consuming, List.count_cons]
    omega

omit [DecidableEq A] in
/-- `head = mp->next` -/
theorem pop (h : g.History held ((mp, v) :: l)) :
    ∃ next, g.heap mp = some ⟨v, next⟩ ∧
      Kept held t g ((mp, v) :: l) (.advance mp) (g.advance mp ⟨v, next⟩) (.consumerUnlock mp)
        l := by
  obtain ⟨next, -, cell, handled⟩ := h.separate.handled_pop (t := t)
  refine ⟨next, cell, handled, h.leaves.pop, ?_, fun _ _ _ _ => rfl, fun i => ?_, ?_, Or.inr rfl⟩
  · simpa [advance, pushes] using h.numbered
  · simp [advance, onList, Loc.hand, Loc.consuming, List.count_cons]
  · exact h.separate.chain.allocated List.mem_cons_self

/-- `free(mp)` -/
theorem free (h : g.History held l) (here : held t = some mp) :
    Kept held t g l (.free mp) (g.free mp) .consumerLock l := by
  refine ⟨h.separate.handled_free here, h.leaves, h.numbered, fun _ _ _ _ => rfl, fun i => ?_,
    trivial, Or.inl rfl⟩
  simp [Shared.free, onList, Loc.hand, Loc.consuming, List.count_singleton]
  omega

/-- Every statement, from what is known before it. -/
theorem exists_kept (h : g.History held l) {f : Shared A → Shared A × Loc A} (known : k.Known g l)
    (here : held t = k.held) (hf : prog k = .stmt f) :
    ∃ l', Kept held t g l k (f g).1 (f g).2 l' := by
  cases k with
  | allocate cell garbage =>
      cases hf
      dsimp only
      by_cases fresh : g.heap cell = none
      · rw [if_pos fresh]
        exact ⟨l, h.quiet (h.separate.handled_malloc fresh garbage) rfl Memory.store_ne_none⟩
      · rw [if_neg fresh]
        exact ⟨l, h.skip here rfl trivial⟩
  | setNum mp num =>
      cases hf
      dsimp only
      obtain ⟨n, hn⟩ := Option.ne_none_iff_exists'.1 known
      rw [Memory.deref_some hn]
      exact ⟨l, h.quiet (h.separate.handled_write here _) rfl Memory.store_ne_none⟩
  | printProducer mp | printConsumer mp =>
      cases hf
      dsimp only
      obtain ⟨n, hn⟩ := Option.ne_none_iff_exists'.1 known
      rw [Memory.deref_some hn]
      exact ⟨l, h.skip here rfl known⟩
  | setNext mp =>
      cases hf
      dsimp only
      obtain ⟨n, hn⟩ := Option.ne_none_iff_exists'.1 known
      rw [Memory.deref_some hn]
      have cell : (g.store mp ⟨n.value, g.head⟩).heap mp = some ⟨n.value, (cells l).head?⟩ := by
        rw [Memory.store_self, ← h.separate.chain.head_eq]
      exact ⟨l, h.quiet (h.separate.handled_write here _) rfl ⟨n.value, cell⟩⟩
  | setHead mp =>
      cases hf
      obtain ⟨num, cell⟩ := known
      exact ⟨_, h.push here cell⟩
  | consumerTest =>
      cases hf
      dsimp only
      by_cases none : g.head = none
      · rw [if_pos none]
        exact ⟨l, h.skip here rfl (h.separate.chain.eq_none_iff.1 none)⟩
      · rw [if_neg none]
        exact ⟨l, h.skip here rfl (mt h.separate.chain.eq_none_iff.2 none)⟩
  | take =>
      cases hf
      dsimp only
      obtain ⟨x, l', rfl⟩ := List.exists_cons_of_ne_nil known
      rw [h.separate.chain.1]
      exact ⟨_, h.skip here rfl ⟨_, _, rfl⟩⟩
  | advance mp =>
      cases hf
      dsimp only
      obtain ⟨v, l', rfl⟩ := known
      obtain ⟨next, cell, kept⟩ := h.pop (t := t)
      rw [Memory.deref_some cell]
      exact ⟨l', kept⟩
  | free mp =>
      cases hf
      dsimp only
      obtain ⟨n, hn⟩ := Option.ne_none_iff_exists'.1 known
      rw [Memory.deref_some hn]
      exact ⟨l, h.free here⟩
  | undefined inside => exact known.elim
  | _ => cases hf

theorem exists_kept_of_eq (h : g.History held l) {f : Shared A → Shared A × Loc A} {g' : Shared A}
    (known : k.Known g l) (here : held t = k.held) (hf : prog k = .stmt f)
    (result : f g = (g', k')) : ∃ l', Kept held t g l k g' k' l' := by
  have kept := h.exists_kept known here hf
  rwa [result] at kept

/-- The other instructions leave the data alone and the node in the same hands. -/
theorem exists_kept_of_moves (h : g.History held l) {g' : Shared A} (known : k.Known g l)
    (here : held t = k.held) (moves : (prog k).Moves g k' g') :
    ∃ l', Kept held t g l k g' k' l' := by
  cases k with
  | malloc =>
      obtain ⟨⟨x, rfl⟩, rfl⟩ := moves
      exact ⟨l, h.skip here rfl trivial⟩
  | rand mp =>
      obtain ⟨⟨x, rfl⟩, rfl⟩ := moves
      exact ⟨l, h.skip here rfl known⟩
  | producerLock mp | consumerUnlock mp =>
      obtain ⟨rfl, rfl⟩ := moves
      exact ⟨l, h.skip here rfl known⟩
  | producerUnlock | signal | consumerLock | wait =>
      obtain ⟨rfl, rfl⟩ := moves
      exact ⟨l, h.skip here rfl trivial⟩
  | _ => exact h.exists_kept_of_eq known here rfl moves

end Shared.History

end

/-! ## Every run -/

theorem prog_respects {A : Type*} [DecidableEq A] (k : Loc A) :
    (prog k).Respects Loc.holds k := by
  cases k with
  | allocate cell garbage | consumerTest | take =>
      refine Instr.respects_of_flag Loc.locked fun g => ?_
      split <;> rfl
  | setNum mp num | printProducer mp | setNext mp | advance mp | printConsumer mp | free mp =>
      exact Instr.respects_of_flag Loc.locked fun g => Memory.test_deref rfl fun n => rfl
  | setHead mp | undefined inside => exact Instr.respects_of_flag Loc.locked fun g => rfl
  | _ => simp [prog, Instr.Respects, Loc.holds, Loc.locked]

section

variable {ι A : Type*} [Fintype ι] [DecidableEq ι] [DecidableEq A] {role : ι → Role}
  {s : State ι A} {t : ι}

omit [Fintype ι] [DecidableEq ι] [DecidableEq A] in
theorem not_holds_start (t : ι) (m : Unit) : ¬ Loc.holds (Loc.start (role t) : Loc A) m := by
  cases role t <;> simp [Loc.start, Loc.holds, Loc.locked]

omit [DecidableEq A] in
/-- One move of a thread. -/
theorem Shared.Stack.kept {g g' : Shared A} {l l' : List (A × ℤ)} {pc : ι → Loc A} {k : Loc A}
    (h : g.Stack l pc) (kept : Kept (fun t => (pc t).held) t g l (pc t) g' k l') :
    g'.Stack l' (update pc t k) := by
  refine ⟨?_, kept.leaves, kept.numbered, fun i => ?_⟩
  · have moved : (fun u => (update pc t k u).held) = update (fun u => (pc u).held) t k.held :=
      comp_update Loc.held pc t k
    rw [moved]
    exact kept.handled.separate
  · have others : ∀ u, u ≠ t → (pc u).hand g' i = (pc u).hand g i := by
      intro u ne
      have same : (pc u).consuming.map g'.serial = (pc u).consuming.map g.serial :=
        Option.map_congr fun a ha => kept.serial u a ne (Loc.held_of_consuming ha)
      rw [Loc.hand, Loc.hand, same]
    have hands := total_update_of_eq k others
    have once := h.once i
    have step := kept.once i
    omega

theorem stack_of_reachable (h : (system A role).Reachable s) :
    Abstracts (fun l g pc => g.Stack l pc) (fun k l g => k.Known g l) s := by
  refine abstracts_of_reachable not_holds_start (fun _ => prog_respects) ⟨[], ?_, fun t => ?_⟩
    (fun t l c m k l' g hi => ?_) (fun l g pc t k g' stack known moves => ?_) h
  · refine ⟨Memory.separate_empty fun t => ?_, .nil, rfl, fun i => ?_⟩
    · cases role t <;> rfl
    · refine Nat.add_eq_zero_iff.2 ⟨Nat.add_eq_zero_iff.2 ⟨rfl, ?_⟩, rfl⟩
      refine total_eq_zero_iff.2 fun t => ?_
      cases role t <;> rfl
  · cases role t <;> trivial
  · cases l <;> cases hi
    trivial
  · have history : g.History (fun t => (pc t).held) l :=
      ⟨stack.separate, stack.leaves, stack.numbered⟩
    obtain ⟨l', kept⟩ := history.exists_kept_of_moves known rfl moves
    refine ⟨l', stack.kept kept, kept.known, fun u e apart known => known.frame ?_ ?_⟩
    · exact fun a ha => kept.handled.others u a e ha
    · exact fun inside => kept.inside.resolve_right fun locked => apart () locked inside

/-- The list is finite and meets no node twice, and neither the free cells nor the nodes that
threads have are on it; these are allocated, each in one hand, and nobody has followed a bad
pointer; every removal takes the message that was pushed last of those not yet removed, and what has
not been removed is on the list; and every message pushed is on the list, or in a consumer's hands,
or freed, once. -/
structure LosesNone {ι A : Type*} [Fintype ι] (s : State ι A) : Prop where
  list : ∃ l, Chain s.mem.heap s.mem.head l ∧ (cells l).Nodup ∧
    (∀ a, s.mem.heap a = none → a ∉ cells l) ∧ (∀ t a, (s.pc t).held = some a → a ∉ cells l) ∧
    Leaves s.mem.log (s.mem.onList l) ∧
    ∀ i ∈ pushed s.mem.log,
      (s.mem.onList l).count i + total (Loc.hand s.mem i) s.pc + s.mem.freed.count i = 1
  allocated : ∀ t a, (s.pc t).held = some a → s.mem.heap a ≠ none
  single : ∀ t u a, (s.pc t).held = some a → (s.pc u).held = some a → t = u
  defined : ∀ t inside, s.thr t ≠ .run (.undefined inside)
  distinct : (pushed s.mem.log).Nodup
  lifo : Lifo s.mem.log

/-- For any threads and every interleaving. -/
theorem losesNone_of_reachable (h : (system A role).Reachable s) : LosesNone s := by
  obtain ⟨l, ⟨sep, leaves, numbered, once⟩, known⟩ := stack_of_reachable h
  have distinct : (pushed s.mem.log).Nodup := numbered ▸ List.nodup_range
  refine ⟨⟨l, sep.chain, sep.chain.nodup, fun a free mem => ?_, sep.off, leaves, fun i hi => ?_⟩,
    sep.allocated, sep.single, fun t inside ht => ?_, distinct, leaves.lifo distinct⟩
  · exact sep.chain.allocated mem free
  · rw [once i]
    exact List.count_eq_one_of_mem distinct hi
  · have here := known t
    rwa [State.pc, ht] at here

end

/-- One thread for each function. -/
def oneOfEach : Bool → Role
  | false => .producer
  | true => .consumer

/-- The producer goes once round its loop. -/
def produce (cell rand : ℕ) : List (Act Bool (Choice ℕ)) :=
  [.input false ⟨cell, ⟨0, none⟩, rand⟩, .exec false, .input false ⟨cell, ⟨0, none⟩, rand⟩] ++
    List.replicate 7 (.exec false)

/-- The producer has pushed two messages, and the consumer has the second one in its hands. -/
theorem losesNone_oneOfEach : ∃ s, (system ℕ oneOfEach).Reachable s ∧
    s.mem.log = [.push 0, .push 1, .pop 1] ∧ s.mem.head = some 7 ∧
    (s.pc true).hand s.mem 1 = 1 ∧ LosesNone s := by
  have h := Machine.reachable_of_run (M := system ℕ oneOfEach)
    (produce 7 4 ++ produce 8 5 ++ List.replicate 4 (.exec true)) rfl rfl
  exact ⟨_, h, rfl, rfl, rfl, losesNone_of_reachable h⟩

end LinuxNote.PthCond
