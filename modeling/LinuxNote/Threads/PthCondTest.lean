import LinuxNote.Conc.Abstraction
import LinuxNote.Conc.Wakeup
import LinuxNote.Threads.ListThreads

/-!
# The linked-list queue of `pth_cond_test.c`

Producers append a node to a shared list, walking to its end, and consumers take the first node off,
print it and free it outside the critical section.  Every access to a node is a step of its own, and
one to a cell that is not allocated leads to `undefined`.

The nodes of the list and those that threads have for themselves stay apart (`Sound`), so the list
is well formed, nothing is used after it was freed, and the numbers come out in order.  While a
consumer sleeps, each number on the list is matched by a signal still to be sent or by a consumer on
its way (`covered`).
-/

namespace LinuxNote.PthCondTest

open Conc Function ListThreads

/-- The memory, and the numbers appended and removed so far. -/
structure Shared (A : Type*) extends Memory A where
  appended : List ℤ
  removed : List ℤ

/-- Each location is before the statement it names and has the local variables that are still used.
`again` says that the thread comes from `pthread_cond_wait`.  In `undefined` the thread has followed
a pointer that is null or to a cell that is not allocated. -/
inductive Loc (A : Type*)
  | malloc
  | allocate (cell : A) (garbage : Node A ℤ)
  | setNext (tmp : A)
  | rand (tmp : A)
  | setNum (tmp : A) (num : ℤ)
  | printProducer (tmp : A)
  | producerLock (tmp : A)
  | producerTest (tmp : A)
  | first (tmp : A)
  | walk (tmp cur : A)
  | step (tmp cur : A)
  | link (tmp cur : A)
  | setHead (tmp : A)
  | producerUnlock
  | signal
  | consumerLock
  | consumerTest (again : Bool)
  | wait
  | take (again : Bool)
  | advance (again : Bool) (tmp : A)
  | consumerUnlock (tmp : A)
  | printConsumer (tmp : A)
  | free (tmp : A)
  | undefined (inside : Bool)

section

variable {A : Type*} [DecidableEq A]

/-- The number in the node `*p`, to be recorded. -/
def Shared.num (g : Shared A) (p : A) : List ℤ := ((g.heap p).map Node.value).toList

/-- `cur->next = tmp`, where `*cur` is `n`. -/
def Shared.link (g : Shared A) (tmp cur : A) (n : Node A ℤ) : Shared A :=
  { g with
    toMemory := g.store cur { n with next := some tmp }
    appended := g.appended ++ g.num tmp }

/-- `head = tmp` -/
def Shared.setHead (g : Shared A) (tmp : A) : Shared A :=
  { g with head := some tmp, appended := g.appended ++ g.num tmp }

/-- `head = head->next`, where `*head` is `n`. -/
def Shared.advance (g : Shared A) (n : Node A ℤ) : Shared A :=
  { g with head := n.next, removed := g.removed ++ [n.value] }

/-- `free(tmp)` -/
def Shared.free (g : Shared A) (tmp : A) : Shared A := { g with heap := update g.heap tmp none }

def prog : Loc A → Instr Unit Unit Empty (Choice A) (Shared A) (Loc A)
  | .malloc => .input fun x => .allocate x.cell x.garbage
  -- a cell that is taken is not what `malloc` returns
  | .allocate cell garbage => .stmt fun g =>
      if g.heap cell = none then ({ g with toMemory := g.store cell garbage }, .setNext cell)
      else (g, .malloc)
  | .setNext tmp => .stmt fun g => g.deref tmp (g, .undefined false) fun n =>
      ({ g with toMemory := g.store tmp { n with next := none } }, .rand tmp)
  | .rand tmp => .input fun x => .setNum tmp (x.rand % 1000 + 1)
  | .setNum tmp num => .stmt fun g => g.deref tmp (g, .undefined false) fun n =>
      ({ g with toMemory := g.store tmp { n with value := num } }, .printProducer tmp)
  | .printProducer tmp => .stmt fun g =>
      g.deref tmp (g, .undefined false) fun _ => (g, .producerLock tmp)
  | .producerLock tmp => .lock () (.producerTest tmp)
  | .producerTest tmp => .stmt fun g => (g, if g.head = none then .setHead tmp else .first tmp)
  | .first tmp => .stmt fun g =>
      match g.head with
      | some cur => (g, .walk tmp cur)
      | none => (g, .undefined true)
  | .walk tmp cur => .stmt fun g => g.deref cur (g, .undefined true) fun n =>
      (g, if n.next = none then .link tmp cur else .step tmp cur)
  | .step tmp cur => .stmt fun g => g.deref cur (g, .undefined true) fun n =>
      match n.next with
      | some next => (g, .walk tmp next)
      | none => (g, .undefined true)
  | .link tmp cur => .stmt fun g =>
      g.deref cur (g, .undefined true) fun n => (g.link tmp cur n, .producerUnlock)
  | .setHead tmp => .stmt fun g => (g.setHead tmp, .producerUnlock)
  | .producerUnlock => .unlock () .signal
  | .signal => .signal () .malloc
  | .consumerLock => .lock () (.consumerTest false)
  | .consumerTest again => .stmt fun g => (g, if g.head = none then .wait else .take again)
  | .wait => .wait () () (.consumerTest true)
  | .take again => .stmt fun g =>
      match g.head with
      | some tmp => (g, .advance again tmp)
      | none => (g, .undefined true)
  | .advance _ tmp => .stmt fun g =>
      match g.head with
      | some a => g.deref a (g, .undefined true) fun n => (g.advance n, .consumerUnlock tmp)
      | none => (g, .undefined true)
  | .consumerUnlock tmp => .unlock () (.printConsumer tmp)
  | .printConsumer tmp => .stmt fun g => g.deref tmp (g, .undefined false) fun _ => (g, .free tmp)
  | .free tmp => .stmt fun g =>
      g.deref tmp (g, .undefined false) fun _ => (g.free tmp, .consumerLock)
  | .undefined inside => .stmt fun g => (g, .undefined inside)

end

def Loc.start {A : Type*} : Role → Loc A
  | .producer => .malloc
  | .consumer => .consumerLock

abbrev State (ι A : Type*) := Conc.State ι Unit Unit Empty (Shared A) (Loc A)

/-- The threads, each with its function, and an empty list. -/
def system {ι : Type*} (A : Type*) [Fintype ι] [DecidableEq ι] [DecidableEq A] (role : ι → Role) :
    Machine (State ι A) (Act ι (Choice A)) :=
  machine (fun _ => prog)
    (start (fun t => .start (role t)) Empty.elim ⟨.empty A, [], []⟩)

/-! ## The critical sections -/

section

variable {A : Type*}

/-- The statements between `pthread_mutex_lock` and `pthread_mutex_unlock`. -/
def Loc.locked : Loc A → Bool
  | .producerTest _ | .first _ | .walk _ _ | .step _ _ | .link _ _ | .setHead _ | .producerUnlock
  | .consumerTest _ | .wait | .take _ | .advance _ _ | .consumerUnlock _ => true
  | .undefined inside => inside
  | _ => false

def Loc.holds (l : Loc A) (_ : Unit) : Prop := l.locked

/-- The node that the thread has for itself: a producer until it is on the list, a consumer from
then on that it is off. -/
def Loc.held : Loc A → Option A
  | .setNext tmp | .rand tmp | .setNum tmp _ | .printProducer tmp | .producerLock tmp
  | .producerTest tmp | .first tmp | .walk tmp _ | .step tmp _ | .link tmp _ | .setHead tmp
  | .consumerUnlock tmp | .printConsumer tmp | .free tmp => some tmp
  | _ => none

/-- The node of a producer is filled in and ends a list. -/
def Shared.Ready (g : Shared A) (tmp : A) : Prop := ∃ num, g.heap tmp = some ⟨num, none⟩

/-- What the thread at a location knows, while the nodes of the list are those of `l`. -/
def Loc.Known (g : Shared A) (l : List (A × ℤ)) : Loc A → Prop
  | .setNext tmp => g.heap tmp ≠ none
  | .rand tmp | .setNum tmp _ | .printProducer tmp | .producerLock tmp | .producerTest tmp =>
      g.Ready tmp
  | .first tmp => g.Ready tmp ∧ l ≠ []
  | .walk tmp cur => g.Ready tmp ∧ cur ∈ cells l
  | .step tmp cur => g.Ready tmp ∧ ∃ l₁ v l₂, l = l₁ ++ (cur, v) :: l₂ ∧ l₂ ≠ []
  | .link tmp cur => g.Ready tmp ∧ ∃ l₁ v, l = l₁ ++ [(cur, v)]
  | .setHead tmp => g.Ready tmp ∧ l = []
  | .wait => l = []
  | .take _ => l ≠ []
  | .advance _ tmp => ∃ v l', l = (tmp, v) :: l'
  | .consumerUnlock tmp | .printConsumer tmp | .free tmp => g.heap tmp ≠ none
  | .undefined _ => False
  | _ => True

/-- The nodes `l` of the list have been appended and not removed. -/
structure Shared.Lists (g : Shared A) (l : List (A × ℤ)) : Prop where
  chain : Chain g.heap g.head l
  fifo : g.removed ++ l.map Prod.snd = g.appended

theorem Loc.Known.frame {k : Loc A} {g g' : Shared A} {l l' : List (A × ℤ)} (h : k.Known g l)
    (own : ∀ a, k.held = some a → g'.heap a = g.heap a) (inside : k.locked → l' = l) :
    k.Known g' l' := by
  have ready : ∀ tmp, k.held = some tmp → (g'.Ready tmp ↔ g.Ready tmp) := by
    intro tmp hk
    rw [Shared.Ready, Shared.Ready, own tmp hk]
  cases k with
  | rand tmp | setNum tmp num | printProducer tmp | producerLock tmp => exact (ready tmp rfl).2 h
  | setNext tmp | printConsumer tmp | free tmp =>
      show g'.heap tmp ≠ none
      rw [own tmp rfl]
      exact h
  | consumerUnlock tmp =>
      show g'.heap tmp ≠ none
      rw [own tmp rfl]
      exact h
  | producerTest tmp => exact (ready tmp rfl).2 h
  | first tmp | walk tmp cur | step tmp cur | link tmp cur | setHead tmp =>
      obtain rfl := inside rfl
      exact ⟨(ready tmp rfl).2 h.1, h.2⟩
  | wait | take again | advance again tmp =>
      obtain rfl := inside rfl
      exact h
  | undefined inside => exact h.elim
  | malloc | allocate cell garbage | producerUnlock | signal | consumerLock | consumerTest again =>
      trivial

theorem Shared.Lists.head_eq_none_iff {g : Shared A} {l : List (A × ℤ)} (h : g.Lists l) :
    g.head = none ↔ l = [] := h.chain.eq_none_iff

end

/-! ## One statement -/

section

variable {A : Type*} [DecidableEq A] {g : Shared A} {l : List (A × ℤ)}

/-- The cells are separate, and the numbers come out in the order in which they went in. -/
structure Shared.Fifo {ι : Type*} (g : Shared A) (held : ι → Option A) (l : List (A × ℤ)) :
    Prop where
  separate : Separate g.heap g.head held l
  fifo : g.removed ++ l.map Prod.snd = g.appended

/-- What a statement of thread `t` does: it leads to the data `g'` and the location `k'`, and the
list is then `l'`. -/
structure Kept {ι : Type*} [DecidableEq ι] (held : ι → Option A) (t : ι) (g : Shared A)
    (l : List (A × ℤ)) (k : Loc A) (g' : Shared A) (k' : Loc A) (l' : List (A × ℤ)) : Prop where
  handled : Handled held t g.heap g'.heap g'.head k'.held l'
  fifo : g'.removed ++ l'.map Prod.snd = g'.appended
  known : k'.Known g' l'
  inside : l' = l ∨ k.locked

variable {ι : Type*} {held : ι → Option A} {t : ι} {k k' : Loc A} {tmp : A}

omit [DecidableEq A] in
theorem Shared.Fifo.lists (h : g.Fifo held l) : g.Lists l := ⟨h.separate.chain, h.fifo⟩

variable [DecidableEq ι]

omit [DecidableEq A] in
/-- A statement that only reads. -/
theorem Shared.Fifo.skip (h : g.Fifo held l) (here : held t = k'.held) (known : k'.Known g l) :
    Kept held t g l k g k' l :=
  ⟨h.separate.handled_skip here, h.fifo, known, Or.inl rfl⟩

/-- A thread writes to its own cell. -/
theorem Shared.Fifo.store (h : g.Fifo held l) (ht : held t = some tmp) (here : k'.held = some tmp)
    (n : Node A ℤ) (known : k'.Known { g with toMemory := g.store tmp n } l) :
    Kept held t g l k { g with toMemory := g.store tmp n } k' l :=
  ⟨here ▸ h.separate.handled_write ht n, h.fifo, known, Or.inl rfl⟩

/-- `tmp` goes behind the last node. -/
theorem Shared.Fifo.link {cur : A} (h : g.Fifo held l) (here : held t = some tmp)
    (known : (Loc.link tmp cur).Known g l) : ∃ n l', g.heap cur = some n ∧
      Kept held t g l (.link tmp cur) (g.link tmp cur n) .producerUnlock l' := by
  obtain ⟨⟨num, ready⟩, l₁, v, rfl⟩ := known
  obtain ⟨next, cell, rfl⟩ := h.separate.chain.read
  refine ⟨_, l₁ ++ [(cur, v), (tmp, num)], cell, h.separate.handled_concat here ready, ?_, trivial,
    Or.inr rfl⟩
  simp [← h.fifo, Shared.link, Shared.num, ready]

omit [DecidableEq A] in
/-- `tmp` becomes the only node. -/
theorem Shared.Fifo.setHead (h : g.Fifo held l) (here : held t = some tmp)
    (known : (Loc.setHead tmp).Known g l) :
    ∃ l', Kept held t g l (.setHead tmp) (g.setHead tmp) .producerUnlock l' := by
  obtain ⟨⟨num, ready⟩, rfl⟩ := known
  have empty : g.head = none := h.separate.chain
  refine ⟨[(tmp, num)], h.separate.handled_push here (empty ▸ ready), ?_, trivial, Or.inr rfl⟩
  simp [← h.fifo, Shared.setHead, Shared.num, ready]

omit [DecidableEq A] in
/-- The first node comes off. -/
theorem Shared.Fifo.advance {again : Bool} (h : g.Fifo held l)
    (known : (Loc.advance again tmp).Known g l) :
    ∃ n l', g.head = some tmp ∧ g.heap tmp = some n ∧
      Kept held t g l (.advance again tmp) (g.advance n) (.consumerUnlock tmp) l' := by
  obtain ⟨v, l', rfl⟩ := known
  obtain ⟨next, first, cell, handled⟩ := h.separate.handled_pop (t := t)
  refine ⟨_, l', first, cell, handled, ?_, ?_, Or.inr rfl⟩
  · simp [← h.fifo, Shared.advance]
  · exact h.separate.chain.allocated List.mem_cons_self

omit [DecidableEq A] in
/-- `cur` is the last node, or another one follows. -/
theorem Shared.Fifo.walk {cur : A} (h : g.Fifo held l) (here : held t = some tmp)
    (known : (Loc.walk tmp cur).Known g l) : ∃ n, g.heap cur = some n ∧
      Kept held t g l (.walk tmp cur) g
        (if n.next = none then .link tmp cur else .step tmp cur) l := by
  obtain ⟨ready, mem⟩ := known
  obtain ⟨l₁, v, l₂, rfl⟩ := exists_split_of_mem_cells mem
  obtain ⟨next, cell, rest⟩ := h.separate.chain.read
  refine ⟨_, cell, ?_⟩
  dsimp only
  cases l₂ with
  | nil =>
      obtain rfl : next = none := rest
      exact h.skip here ⟨ready, l₁, v, rfl⟩
  | cons y l₂ =>
      obtain ⟨rfl, -⟩ := rest
      exact h.skip here ⟨ready, l₁, v, _, rfl, List.cons_ne_nil _ _⟩

omit [DecidableEq A] in
theorem Shared.Fifo.step {cur : A} (h : g.Fifo held l) (here : held t = some tmp)
    (known : (Loc.step tmp cur).Known g l) : ∃ n next, g.heap cur = some n ∧ n.next = some next ∧
      Kept held t g l (.step tmp cur) g (.walk tmp next) l := by
  obtain ⟨ready, l₁, v, l₂, rfl, more⟩ := known
  obtain ⟨y, l₂, rfl⟩ := List.exists_cons_of_ne_nil more
  obtain ⟨next, cell, rfl, -⟩ := h.separate.chain.read
  exact ⟨_, _, cell, rfl, h.skip here ⟨ready, by simp⟩⟩

/-- Every statement, from what is known before it. -/
theorem Shared.Fifo.exists_kept (h : g.Fifo held l) {f : Shared A → Shared A × Loc A}
    (known : k.Known g l) (here : held t = k.held) (hf : prog k = .stmt f) :
    ∃ l', Kept held t g l k (f g).1 (f g).2 l' := by
  cases k with
  | allocate cell garbage =>
      cases hf
      dsimp only
      by_cases fresh : g.heap cell = none
      · rw [if_pos fresh]
        exact ⟨l, h.separate.handled_malloc fresh _, h.fifo, Memory.store_ne_none, Or.inl rfl⟩
      · rw [if_neg fresh]
        exact ⟨l, h.skip here trivial⟩
  | setNext tmp =>
      cases hf
      dsimp only
      obtain ⟨n, hn⟩ := Option.ne_none_iff_exists'.1 known
      rw [Memory.deref_some hn]
      exact ⟨l, h.store here rfl _ ⟨_, Memory.store_self⟩⟩
  | setNum tmp num =>
      cases hf
      dsimp only
      obtain ⟨_, hn⟩ := known
      rw [Memory.deref_some hn]
      exact ⟨l, h.store here rfl _ ⟨_, Memory.store_self⟩⟩
  | printProducer tmp =>
      cases hf
      dsimp only
      obtain ⟨_, hn⟩ := known
      rw [Memory.deref_some hn]
      exact ⟨l, h.skip here ⟨_, hn⟩⟩
  | producerTest tmp =>
      cases hf
      dsimp only
      by_cases none : g.head = none
      · rw [if_pos none]
        exact ⟨l, h.skip here ⟨known, h.lists.head_eq_none_iff.1 none⟩⟩
      · rw [if_neg none]
        exact ⟨l, h.skip here ⟨known, mt h.lists.head_eq_none_iff.2 none⟩⟩
  | first tmp =>
      cases hf
      dsimp only
      obtain ⟨ready, some⟩ := known
      obtain ⟨x, l', rfl⟩ := List.exists_cons_of_ne_nil some
      rw [h.separate.chain.1]
      exact ⟨_, h.skip here ⟨ready, List.mem_cons_self⟩⟩
  | walk tmp cur =>
      cases hf
      dsimp only
      obtain ⟨n, cell, kept⟩ := h.walk here known
      rw [Memory.deref_some cell]
      exact ⟨l, kept⟩
  | step tmp cur =>
      cases hf
      dsimp only
      obtain ⟨n, next, cell, behind, kept⟩ := h.step here known
      rw [Memory.deref_some cell, behind]
      exact ⟨l, kept⟩
  | link tmp cur =>
      cases hf
      dsimp only
      obtain ⟨n, l', cell, kept⟩ := h.link here known
      rw [Memory.deref_some cell]
      exact ⟨l', kept⟩
  | setHead tmp =>
      cases hf
      exact h.setHead here known
  | consumerTest again =>
      cases hf
      dsimp only
      by_cases none : g.head = none
      · rw [if_pos none]
        exact ⟨l, h.skip here (h.lists.head_eq_none_iff.1 none)⟩
      · rw [if_neg none]
        exact ⟨l, h.skip here (mt h.lists.head_eq_none_iff.2 none)⟩
  | take again =>
      cases hf
      dsimp only
      obtain ⟨x, l', rfl⟩ := List.exists_cons_of_ne_nil known
      rw [h.separate.chain.1]
      exact ⟨_, h.skip here ⟨_, _, rfl⟩⟩
  | advance again tmp =>
      cases hf
      dsimp only
      obtain ⟨n, l', first, cell, kept⟩ := h.advance known
      rw [first]
      dsimp only
      rw [Memory.deref_some cell]
      exact ⟨l', kept⟩
  | printConsumer tmp =>
      cases hf
      dsimp only
      obtain ⟨n, hn⟩ := Option.ne_none_iff_exists'.1 known
      rw [Memory.deref_some hn]
      exact ⟨l, h.skip here known⟩
  | free tmp =>
      cases hf
      dsimp only
      obtain ⟨n, hn⟩ := Option.ne_none_iff_exists'.1 known
      rw [Memory.deref_some hn]
      exact ⟨l, h.separate.handled_free here, h.fifo, trivial, Or.inl rfl⟩
  | undefined inside => exact known.elim
  | _ => cases hf

theorem Shared.Fifo.exists_kept_of_eq (h : g.Fifo held l) {f : Shared A → Shared A × Loc A}
    {g' : Shared A} (known : k.Known g l) (here : held t = k.held) (hf : prog k = .stmt f)
    (result : f g = (g', k')) : ∃ l', Kept held t g l k g' k' l' := by
  have kept := h.exists_kept known here hf
  rwa [result] at kept

/-- The other instructions leave the data alone and the node in the same hands. -/
theorem Shared.Fifo.exists_kept_of_moves (h : g.Fifo held l) {g' : Shared A} (known : k.Known g l)
    (here : held t = k.held) (moves : (prog k).Moves g k' g') :
    ∃ l', Kept held t g l k g' k' l' := by
  cases k with
  | malloc =>
      obtain ⟨⟨x, rfl⟩, rfl⟩ := moves
      exact ⟨l, h.skip here trivial⟩
  | rand tmp =>
      obtain ⟨⟨x, rfl⟩, rfl⟩ := moves
      exact ⟨l, h.skip here known⟩
  | producerLock tmp | consumerUnlock tmp =>
      obtain ⟨rfl, rfl⟩ := moves
      exact ⟨l, h.skip here known⟩
  | producerUnlock | signal | consumerLock | wait =>
      obtain ⟨rfl, rfl⟩ := moves
      exact ⟨l, h.skip here trivial⟩
  | _ => exact h.exists_kept_of_eq known here rfl moves

end

/-! ## Every run -/

theorem prog_respects {A : Type*} [DecidableEq A] (k : Loc A) :
    (prog k).Respects Loc.holds k := by
  cases k with
  | allocate cell garbage | producerTest tmp | first tmp | consumerTest again | take again =>
      refine Instr.respects_of_flag Loc.locked fun g => ?_
      split <;> rfl
  | setNext tmp | setNum tmp num | printProducer tmp | link tmp cur | printConsumer tmp
  | free tmp =>
      exact Instr.respects_of_flag Loc.locked fun g => Memory.test_deref rfl fun n => rfl
  | walk tmp cur | step tmp cur =>
      refine Instr.respects_of_flag Loc.locked fun g => Memory.test_deref rfl fun n => ?_
      split <;> rfl
  | advance again tmp =>
      refine Instr.respects_of_flag Loc.locked fun g => ?_
      split
      · exact Memory.test_deref rfl fun n => rfl
      · rfl
  | setHead tmp | undefined inside => exact Instr.respects_of_flag Loc.locked fun g => rfl
  | _ => simp [prog, Instr.Respects, Loc.holds, Loc.locked]

section

variable {ι A : Type*} [Fintype ι] [DecidableEq ι] [DecidableEq A] {role : ι → Role}
  {s s' : State ι A} {t : ι}

/-- The nodes of the list, those that threads have and the free cells stay apart. -/
def Sound (s : State ι A) : Prop :=
  Abstracts (fun l g pc => g.Fifo (fun t => (pc t).held) l) (fun k l g => k.Known g l) s

omit [Fintype ι] [DecidableEq ι] [DecidableEq A] in
theorem not_holds_start (t : ι) (m : Unit) : ¬ Loc.holds (Loc.start (role t) : Loc A) m := by
  cases role t <;> simp [Loc.start, Loc.holds, Loc.locked]

/-- Where a `wait` returns to. -/
theorem consumerTest_of_wait {k k' : Loc A} {c m : Unit} (h : prog k = .wait c m k') :
    k' = .consumerTest true := by
  cases k <;> cases h
  rfl

theorem sound_of_reachable (h : (system A role).Reachable s) : Sound s := by
  refine abstracts_of_reachable not_holds_start (fun _ => prog_respects) ⟨[], ?_, fun t => ?_⟩
    (fun t l c m k l' g hi => ?_) (fun l g pc t k g' fifo known moves => ?_) h
  · have free : ∀ t, (Loc.start (role t) : Loc A).held = none := fun t => by cases role t <;> rfl
    exact ⟨Memory.separate_empty free, rfl⟩
  · cases role t <;> trivial
  · obtain rfl := consumerTest_of_wait hi
    trivial
  · obtain ⟨l', kept⟩ := fifo.exists_kept_of_moves known rfl moves
    refine ⟨l', ⟨?_, kept.fifo⟩, kept.known, fun u e apart known => known.frame ?_ ?_⟩
    · have moved : (fun u => (update pc t k u).held) = update (fun u => (pc u).held) t k.held :=
        comp_update Loc.held pc t k
      rw [moved]
      exact kept.handled.separate
    · exact fun a ha => kept.handled.others u a e ha
    · exact fun inside => kept.inside.resolve_right fun locked => apart () locked inside

end

/-! ## Wakeups -/

section

variable {A : Type*}

/-- The numbers on the list. -/
def Shared.available (g : Shared A) : ℕ := g.appended.length - g.removed.length

/-- Between the append and the end of the signal. -/
def Loc.signalling : Loc A → Bool
  | .producerUnlock | .signal => true
  | _ => false

/-- Woken, and nothing taken off the list yet. -/
def Loc.returning : Loc A → Bool
  | .consumerTest true | .take true | .advance true _ => true
  | _ => false

def Loc.owes (k : Loc A) : Bool := k.signalling || k.returning

/-- What is known about the data alone. -/
def Loc.Asserts (k : Loc A) (g : Shared A) : Prop := ∃ l, g.Lists l ∧ k.Known g l

theorem Shared.Lists.available {g : Shared A} {l : List (A × ℤ)} (h : g.Lists l) :
    g.available = l.length := by
  rw [Shared.available, ← h.fifo, List.length_append, List.length_map, Nat.add_sub_cancel_left]

theorem deref_available {g : Shared A} {p : A} {k : Loc A} {f : Node A ℤ → Shared A × Loc A}
    (h : ∀ n, (f n).1.available = g.available) :
    (g.deref p (g, k) f).1.available = g.available :=
  Memory.deref_of (P := fun r : Shared A × Loc A => r.1.available = g.available) rfl h

variable [DecidableEq A] {g : Shared A} {l : List (A × ℤ)} {tmp : A}

theorem Shared.Lists.available_append (h : g.Lists l) (ready : g.Ready tmp) :
    (g.setHead tmp).available = g.available + 1 ∧
      ∀ cur n, (g.link tmp cur n).available = g.available + 1 := by
  obtain ⟨num, cell⟩ := ready
  have length := congrArg List.length h.fifo
  have more : (g.appended ++ g.num tmp).length - g.removed.length =
      g.appended.length - g.removed.length + 1 := by
    rw [Shared.num, cell]
    simp at length ⊢
    omega
  exact ⟨more, fun _ _ => more⟩

omit [DecidableEq A] in
theorem Shared.Lists.available_advance {x : A × ℤ} (h : g.Lists (x :: l)) (n : Node A ℤ) :
    (g.advance n).available + 1 = g.available := by
  have length := congrArg List.length h.fifo
  simp [Shared.available, Shared.advance] at length ⊢
  omega

theorem prog_pays (k : Loc A) :
    (prog k).Pays () Loc.owes (Shared.available (A := A)) Loc.Asserts k := by
  -- a statement of a thread that owes nothing, and the numbers on the list stay as many
  have idle : ∀ {f : Shared A → Shared A × Loc A}, k.owes = false →
      (∀ g : Shared A, (f g).1.available = g.available) →
      (Instr.stmt f : Instr Unit Unit Empty (Choice A) (Shared A) (Loc A)).Pays () Loc.owes
        Shared.available Loc.Asserts k := by
    intro f none same g known
    right
    rw [same g, none]
    exact Nat.le_add_right _ _
  cases k with
  | malloc | rand tmp => exact fun x h => by simp [Loc.owes, Loc.signalling, Loc.returning] at h
  | producerLock tmp | producerUnlock | signal | consumerLock | consumerUnlock tmp =>
      simp [prog, Instr.Pays, Loc.owes, Loc.signalling, Loc.returning]
  | allocate cell garbage | first tmp =>
      refine idle rfl fun g => ?_
      split <;> rfl
  | producerTest tmp => exact idle rfl fun g => rfl
  | setNext tmp | setNum tmp num | printProducer tmp | walk tmp cur | printConsumer tmp
  | free tmp =>
      exact idle rfl fun g => deref_available fun n => rfl
  | step tmp cur =>
      refine idle rfl fun g => deref_available fun n => ?_
      split <;> rfl
  | link tmp cur =>
      rintro g ⟨l, lists, ready, l₁, v, rfl⟩
      obtain ⟨next, cell, -⟩ := lists.chain.read
      right
      dsimp only
      rw [Memory.deref_some cell]
      exact ((lists.available_append ready).2 _ _).le
  | setHead tmp =>
      rintro g ⟨l, lists, ready, -⟩
      right
      exact (lists.available_append ready).1.le
  | consumerTest again =>
      rintro g ⟨l, lists, -⟩
      by_cases none : g.head = none
      · left
        rw [lists.available, lists.head_eq_none_iff.1 none]
        rfl
      · right
        dsimp only
        rw [if_neg none]
        cases again <;> exact le_rfl
  | wait =>
      refine ⟨rfl, ?_⟩
      rintro g ⟨l, lists, rfl⟩
      exact lists.available
  | take again =>
      rintro g ⟨l, lists, some⟩
      obtain ⟨x, l', rfl⟩ := List.exists_cons_of_ne_nil some
      right
      dsimp only
      rw [lists.chain.1]
      cases again <;> exact le_rfl
  | advance again tmp =>
      rintro g ⟨l, lists, v, l', rfl⟩
      obtain ⟨first, next, cell, rest⟩ := lists.chain
      right
      dsimp only
      rw [first]
      dsimp only
      rw [Memory.deref_some cell]
      have fewer := lists.available_advance ⟨v, next⟩
      have debt := Bool.toNat_le (Loc.advance again tmp).owes
      show (g.advance ⟨v, next⟩).available + _ ≤ g.available + 0
      omega
  | undefined inside =>
      rintro g ⟨l, lists, known⟩
      exact known.elim

/-- The role whose function a location belongs to. -/
def Loc.role : Loc A → Option Role
  | .consumerLock | .consumerTest _ | .wait | .take _ | .advance _ _ | .consumerUnlock _
  | .printConsumer _ | .free _ => some .consumer
  | .undefined _ => none
  | _ => some .producer

def Owns (r : Role) (k : Loc A) : Prop := k.role = none ∨ k.role = some r

omit [DecidableEq A] in
theorem deref_owns {r : Role} {g : Shared A} {p : A} {inside : Bool}
    {f : Node A ℤ → Shared A × Loc A} (h : ∀ n, Owns r (f n).2) :
    Owns r (g.deref p (g, .undefined inside) f).2 :=
  Memory.deref_of (P := fun s : Shared A × Loc A => Owns r s.2) (Or.inl rfl) h

theorem owns_leads (r : Role) {k k' : Loc A} (h : Owns r k) (hk : (prog k).Leads k') :
    Owns r k' := by
  cases k with
  | malloc | rand tmp =>
      obtain ⟨x, rfl⟩ := hk
      exact h
  | allocate cell garbage | producerTest tmp | consumerTest again =>
      obtain ⟨g, rfl⟩ := hk
      dsimp only
      split <;> exact h
  | first tmp | take again =>
      obtain ⟨g, rfl⟩ := hk
      dsimp only
      split
      · exact h
      · exact Or.inl rfl
  | setNext tmp | setNum tmp num | printProducer tmp | link tmp cur | printConsumer tmp
  | free tmp =>
      obtain ⟨g, rfl⟩ := hk
      exact deref_owns fun n => h
  | walk tmp cur =>
      obtain ⟨g, rfl⟩ := hk
      refine deref_owns fun n => ?_
      dsimp only
      split <;> exact h
  | step tmp cur =>
      obtain ⟨g, rfl⟩ := hk
      refine deref_owns fun n => ?_
      split
      · exact h
      · exact Or.inl rfl
  | setHead tmp | undefined inside =>
      obtain ⟨g, rfl⟩ := hk
      exact h
  | advance again tmp =>
      obtain ⟨g, rfl⟩ := hk
      dsimp only
      split
      · exact deref_owns fun n => h
      · exact Or.inl rfl
  | _ =>
      obtain rfl : _ = k' := hk
      exact h

end

/-! ## The queue -/

section

variable {ι A : Type*} [Fintype ι] [DecidableEq ι] [DecidableEq A] {role : ι → Role}
  {s : State ι A} {t : ι}

/-- While a consumer sleeps, the numbers on the list are owed to it. -/
theorem covered (h : (system A role).Reachable s) : Covered () Loc.owes Shared.available s := by
  refine covered_of_reachable (fun _ => prog_pays) (fun s hr t k hk => ?_) h
  obtain ⟨l, fifo, known⟩ := sound_of_reachable hr
  refine ⟨l, fifo.lists, ?_⟩
  have here := known t
  rwa [State.pc, hk] at here

/-- The list is finite and meets no node twice, and neither the free cells nor the nodes that
threads have are on it; these are allocated, each in one hand, and nobody has followed a bad
pointer; and the numbers come out in the order in which they went in. -/
structure WellFormed {ι A : Type*} (s : State ι A) : Prop where
  list : ∃ l, Chain s.mem.heap s.mem.head l ∧ (cells l).Nodup ∧
    (∀ a, s.mem.heap a = none → a ∉ cells l) ∧ (∀ t a, (s.pc t).held = some a → a ∉ cells l) ∧
    s.mem.removed ++ l.map Prod.snd = s.mem.appended
  allocated : ∀ t a, (s.pc t).held = some a → s.mem.heap a ≠ none
  single : ∀ t u a, (s.pc t).held = some a → (s.pc u).held = some a → t = u
  defined : ∀ t inside, s.thr t ≠ .run (.undefined inside)

theorem wellFormed_of_reachable (h : (system A role).Reachable s) : WellFormed s := by
  obtain ⟨l, ⟨sep, fifo⟩, known⟩ := sound_of_reachable h
  refine ⟨⟨l, sep.chain, sep.chain.nodup, fun a free mem => ?_, sep.off, fifo⟩, sep.allocated,
    sep.single, fun t inside ht => ?_⟩
  · exact sep.chain.allocated mem free
  · have here := known t
    rwa [State.pc, ht] at here

/-- A thread stands in the function of its role. -/
theorem owns_of_reachable (h : (system A role).Reachable s) {k : Loc A}
    (hk : (s.thr t).Stands k) : Owns (role t) k := by
  have valid := valid_of_reachable (R := fun t k => Owns (role t) k)
    (fun t => by cases role t <;> exact Or.inr rfl) (fun t k k' => owns_leads (role t)) h t
  rcases hk with hk | ⟨m, hk⟩
  · rwa [hk] at valid
  · rw [hk] at valid
    obtain ⟨k', c, own, hi⟩ := valid
    apply owns_leads (role t) own
    rw [show prog k' = .wait c m k from hi]
    exact rfl

/-- A thread that was woken goes on with the test. -/
theorem consumerTest_of_woken (h : (system A role).Reachable s) {m : Unit} {k : Loc A}
    (hk : s.thr t = .woken m k) : k = .consumerTest true := by
  have valid := valid_of_reachable (R := fun _ _ => True) (fun _ => trivial)
    (fun _ _ _ _ _ => trivial) h t
  rw [hk] at valid
  obtain ⟨k', c, -, hi⟩ := valid
  exact consumerTest_of_wait hi

omit [DecidableEq A] in
/-- Who owes without being a consumer has still to signal. -/
theorem Loc.signalling_of_owes {k : Loc A} (owes : k.owes) (own : Owns .producer k) :
    k.signalling := by
  cases k with
  | producerUnlock | signal => rfl
  | consumerTest again | take again | advance again tmp => rcases own with e | e <;> cases e
  | _ => cases owes

/-- While there is something on the list and all consumers sleep, a producer has still to signal. -/
theorem exists_signalling (h : (system A role).Reachable s) {q : ι} (hq : role q = .consumer)
    (some : s.mem.head ≠ none) (asleep : ∀ t, role t = .consumer → (s.thr t).AsleepOn ()) :
    ∃ t k, role t = .producer ∧ s.thr t = .run k ∧ k.signalling := by
  obtain ⟨l, fifo, -⟩ := sound_of_reachable h
  have lists := fifo.lists
  have available : 0 < s.mem.available := by
    rw [lists.available, List.length_pos_iff]
    exact mt lists.head_eq_none_iff.2 some
  obtain ⟨t, k, stands, owes⟩ := (covered h).exists_owing ⟨q, asleep q hq⟩ available
  have awake : ¬ (s.thr t).AsleepOn () := by
    rcases stands with e | ⟨m, e⟩ <;> rw [e] <;> exact id
  have producer : role t = .producer := by
    cases ht : role t with
    | producer => rfl
    | consumer => exact absurd (asleep t ht) awake
  have signalling := Loc.signalling_of_owes owes (producer ▸ owns_of_reachable h stands)
  refine ⟨t, k, producer, ?_, signalling⟩
  rcases stands with run | ⟨m, woken⟩
  · exact run
  · obtain rfl := consumerTest_of_woken h woken
    cases signalling

/-- For any threads, at least one of them a consumer, and every interleaving. -/
theorem queue_of_reachable {q : ι} (hq : role q = .consumer) (h : (system A role).Reachable s) :
    WellFormed s ∧
      (s.mem.head ≠ none → (∀ t, role t = .consumer → (s.thr t).AsleepOn ()) →
        ∃ t k, role t = .producer ∧ s.thr t = .run k ∧ k.signalling) :=
  ⟨wellFormed_of_reachable h, exists_signalling h hq⟩

end

/-- Thread 0 produces and thread 1 consumes. -/
def oneOfEach : Fin 2 → Role
  | 0 => .producer
  | 1 => .consumer

/-- The consumer sleeps, the producer has put its node on the list, and its signal is still to
come. -/
theorem queue_oneOfEach : ∃ s, (system ℕ oneOfEach).Reachable s ∧ (s.thr 1).AsleepOn () ∧
    s.mem.head = some 7 ∧ s.mem.appended = [5] ∧ WellFormed s ∧
    ∃ t k, oneOfEach t = .producer ∧ s.thr t = .run k ∧ k.signalling := by
  have h := Machine.reachable_of_run (M := system ℕ oneOfEach)
    [.exec 1, .exec 1, .exec 1, .input 0 ⟨7, ⟨0, none⟩, 0⟩, .exec 0, .exec 0,
      .input 0 ⟨7, ⟨0, none⟩, 4⟩, .exec 0, .exec 0, .exec 0, .exec 0, .exec 0] rfl rfl
  obtain ⟨wellFormed, signalling⟩ := queue_of_reachable (q := 1) rfl h
  refine ⟨_, h, rfl, rfl, rfl, wellFormed, signalling (Option.some_ne_none _) fun t ht => ?_⟩
  match t with
  | 0 => cases ht
  | 1 => rfl

end LinuxNote.PthCondTest
