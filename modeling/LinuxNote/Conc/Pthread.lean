import LinuxNote.Conc.Machine
import LinuxNote.Conc.Threads
import Mathlib.Data.Fintype.Basic

/-!
# Threads over mutexes, condition variables and semaphores

The small-step meaning of multithreaded programs, one statement at a time.  A program gives the
instruction at each location of each thread; the machine `machine` interleaves the threads in every
order.

* A mutex is free or has an owner; `lock` needs it free and `unlock` needs to own it.
* `wait` gives the mutex back and falls asleep in one step.  A sleeping thread is woken by a signal
  or spuriously, and must then get the mutex again before it goes on.
* `signal` wakes one of the threads asleep on the condition variable, any of them, and is lost when
  there is none.
* A semaphore is a counter: `semWait` needs it positive.
* `stmt` is one statement on the shared data; `input` is a point where the environment decides what
  the thread does next.

`step_cases` says all that a step can do.  `Instr.within` makes a program a part of a larger one.
-/

namespace Conc

/-- The instruction at a location: `k` is the location after it. -/
inductive Instr (M C S X G L : Type*)
  | lock (m : M) (k : L)
  | unlock (m : M) (k : L)
  | wait (c : C) (m : M) (k : L)
  | signal (c : C) (k : L)
  | semWait (p : S) (k : L)
  | semPost (p : S) (k : L)
  | stmt (f : G → G × L)
  | input (f : X → L)

/-- A thread is at a location, asleep on a condition variable, or woken and without its mutex. -/
inductive Status (M C L : Type*)
  | run (l : L)
  | asleep (c : C) (m : M) (k : L)
  | woken (m : M) (k : L)

structure State (ι M C S G L : Type*) where
  thr : ι → Status M C L
  owner : M → Option ι
  sem : S → ℕ
  mem : G

/-- What happens next: a thread goes on, the signal of `t` wakes `u`, the environment answers an
`input`, or a sleeping thread wakes for no reason. -/
inductive Act (ι X : Type*)
  | exec (t : ι)
  | wake (t u : ι)
  | input (t : ι) (x : X)
  | spurious (t : ι)
  deriving DecidableEq

variable {ι M C S X G L : Type*}

/-- Where the thread stands, or goes on when its `wait` returns. -/
def Status.loc : Status M C L → L
  | .run l | .asleep _ _ l | .woken _ l => l

def State.pc (s : State ι M C S G L) (t : ι) : L := (s.thr t).loc

/-- The thread that takes the step. -/
def Act.actor : Act ι X → ι
  | .exec t | .wake t _ | .input t _ | .spurious t => t

/-- The thread sleeps on the condition variable `c`. -/
def Status.AsleepOn (c : C) : Status M C L → Prop
  | .asleep c' _ _ => c' = c
  | _ => False

instance [DecidableEq C] (c : C) : DecidablePred (Status.AsleepOn (M := M) (L := L) c) := fun x =>
  match x with
  | .asleep c' _ _ => inferInstanceAs (Decidable (c' = c))
  | .run _ => isFalse id
  | .woken _ _ => isFalse id

instance [DecidableEq L] (x : Status M C L) (l : L) : Decidable (x = .run l) :=
  match x with
  | .run l' => decidable_of_iff (l' = l) (by simp)
  | .asleep _ _ _ => isFalse (by simp)
  | .woken _ _ => isFalse (by simp)

/-- The weight of the location of a thread that is not in a `wait`. -/
def Status.weight (w : L → ℕ) : Status M C L → ℕ
  | .run l => w l
  | _ => 0

@[simp] theorem Status.weight_run (w : L → ℕ) (l : L) :
    (Status.run l : Status M C L).weight w = w l := rfl

/-- The sum of the weights of the locations where the threads stand. -/
def count [Fintype ι] (w : L → ℕ) (thr : ι → Status M C L) : ℕ := total (Status.weight w) thr

theorem count_goto [Fintype ι] [DecidableEq ι] (w : L → ℕ) {thr : ι → Status M C L} {t : ι} {l : L}
    (hl : thr t = .run l) (k : L) :
    count w (Function.update thr t (.run k)) + w l = count w thr + w k := by
  have := total_update (Status.weight w) thr t (.run k)
  rwa [hl] at this

theorem le_count [Fintype ι] (w : L → ℕ) {thr : ι → Status M C L} {t : ι} {l : L}
    (hl : thr t = .run l) : w l ≤ count w thr := by
  have := le_total (Status.weight w) thr t
  rwa [hl] at this

/-! ## Steps -/

section Step

variable [DecidableEq ι] [Fintype ι] [DecidableEq M] [DecidableEq C] [DecidableEq S]

/-- Thread `t` goes on at `k`. -/
@[simp] def State.goto (s : State ι M C S G L) (t : ι) (k : L) : State ι M C S G L :=
  { s with thr := Function.update s.thr t (.run k) }

/-- Thread `t` takes the mutex `m` and goes on at `k`. -/
@[simp] def State.acquire (s : State ι M C S G L) (t : ι) (m : M) (k : L) : State ι M C S G L :=
  { s with
    thr := Function.update s.thr t (.run k)
    owner := Function.update s.owner m (some t) }

/-- Thread `t` gives the mutex `m` back and becomes `x`. -/
@[simp] def State.release (s : State ι M C S G L) (t : ι) (m : M) (x : Status M C L) :
    State ι M C S G L :=
  { s with
    thr := Function.update s.thr t x
    owner := Function.update s.owner m none }

/-- The semaphore `p` becomes `n` and thread `t` goes on at `k`. -/
@[simp] def State.setSem (s : State ι M C S G L) (t : ι) (p : S) (n : ℕ) (k : L) :
    State ι M C S G L :=
  { s with
    thr := Function.update s.thr t (.run k)
    sem := Function.update s.sem p n }

/-- The shared data become `g` and thread `t` goes on at `k`. -/
@[simp] def State.setMem (s : State ι M C S G L) (t : ι) (g : G) (k : L) : State ι M C S G L :=
  { s with
    thr := Function.update s.thr t (.run k)
    mem := g }

/-- The signal of thread `t` wakes `u`. -/
@[simp] def State.wake (s : State ι M C S G L) (t u : ι) (m : M) (k' k : L) : State ι M C S G L :=
  { s with thr := Function.update (Function.update s.thr u (.woken m k')) t (.run k) }

/-- The step of thread `t`, which stands before an instruction that needs no further choice. -/
def execInstr (t : ι) (s : State ι M C S G L) :
    Instr M C S X G L → Option (State ι M C S G L)
  | .lock m k => if s.owner m = none then some (s.acquire t m k) else none
  | .unlock m k => if s.owner m = some t then some (s.release t m (.run k)) else none
  | .wait c m k => if s.owner m = some t then some (s.release t m (.asleep c m k)) else none
  | .signal c k => if ∃ u, (s.thr u).AsleepOn c then none else some (s.goto t k)
  | .semWait p k => if 0 < s.sem p then some (s.setSem t p (s.sem p - 1) k) else none
  | .semPost p k => some (s.setSem t p (s.sem p + 1) k)
  | .stmt f => some (s.setMem t (f s.mem).1 (f s.mem).2)
  | .input _ => none

/-- One step of the program `prog`. -/
def step (prog : ι → L → Instr M C S X G L) (a : Act ι X) (s : State ι M C S G L) :
    Option (State ι M C S G L) :=
  match a with
  | .exec t =>
      match s.thr t with
      | .run l => execInstr t s (prog t l)
      | .woken m k => if s.owner m = none then some (s.acquire t m k) else none
      | .asleep _ _ _ => none
  | .wake t u =>
      match s.thr t, s.thr u with
      | .run l, .asleep c m k' =>
          match prog t l with
          | .signal c' k => if c = c' then some (s.wake t u m k' k) else none
          | _ => none
      | _, _ => none
  | .input t x =>
      match s.thr t with
      | .run l =>
          match prog t l with
          | .input f => some (s.goto t (f x))
          | _ => none
      | _ => none
  | .spurious t =>
      match s.thr t with
      | .asleep _ m k => some { s with thr := Function.update s.thr t (.woken m k) }
      | _ => none

/-- The machine that runs `prog` from the state `s₀`. -/
def machine (prog : ι → L → Instr M C S X G L) (s₀ : State ι M C S G L) :
    Machine (State ι M C S G L) (Act ι X) where
  init s := s = s₀
  step := step prog

/-- All threads at given locations, all mutexes free. -/
def start (loc : ι → L) (sem : S → ℕ) (g : G) : State ι M C S G L where
  thr t := .run (loc t)
  owner _ := none
  sem := sem
  mem := g

/-! ## What a step can do -/

/-- What the instruction at the location of thread `t` can do to the state. -/
def Instr.Effect (t : ι) (s s' : State ι M C S G L) : Instr M C S X G L → Prop
  | .lock m k => s.owner m = none ∧ s' = s.acquire t m k
  | .unlock m k => s.owner m = some t ∧ s' = s.release t m (.run k)
  | .wait c m k => s.owner m = some t ∧ s' = s.release t m (.asleep c m k)
  | .signal c k =>
      ((∀ u, ¬ (s.thr u).AsleepOn c) ∧ s' = s.goto t k) ∨
      ∃ u m k', u ≠ t ∧ s.thr u = .asleep c m k' ∧ s' = s.wake t u m k' k
  | .semWait p k => 0 < s.sem p ∧ s' = s.setSem t p (s.sem p - 1) k
  | .semPost p k => s' = s.setSem t p (s.sem p + 1) k
  | .stmt f => s' = s.setMem t (f s.mem).1 (f s.mem).2
  | .input f => ∃ x, s' = s.goto t (f x)

/-- Everything a step of thread `t` can be: an instruction, the return of a `wait` once the mutex is
free, or a spurious wakeup. -/
inductive Step (prog : ι → L → Instr M C S X G L) (t : ι) (s s' : State ι M C S G L) : Prop
  | instr (l : L) (hl : s.thr t = .run l) (h : (prog t l).Effect t s s')
  | reacquire (m : M) (k : L) (hl : s.thr t = .woken m k) (ho : s.owner m = none)
      (h : s' = s.acquire t m k)
  | spurious (c : C) (m : M) (k : L) (hl : s.thr t = .asleep c m k)
      (h : s' = { s with thr := Function.update s.thr t (.woken m k) })

variable {prog : ι → L → Instr M C S X G L} {s₀ s s' : State ι M C S G L}

theorem effect_of_execInstr {t : ι} {i : Instr M C S X G L} (h : execInstr t s i = some s') :
    i.Effect t s s' := by
  cases i with
  | lock m k | unlock m k | wait c m k | semWait p k =>
      simpa [execInstr, Instr.Effect, eq_comm] using h
  | signal c k =>
      simp only [execInstr, Option.ite_none_left_eq_some, not_exists, Option.some.injEq] at h
      exact Or.inl ⟨h.1, h.2.symm⟩
  | semPost p k | stmt f => simpa [execInstr, Instr.Effect, eq_comm] using h
  | input f => simp [execInstr] at h

/-- The case analysis behind every invariant. -/
theorem step_cases {a : Act ι X} (h : step prog a s = some s') : Step prog a.actor s s' := by
  cases a with
  | exec t =>
      simp only [step] at h
      split at h
      · next l hl => exact .instr l hl (effect_of_execInstr h)
      · next m k hl =>
          obtain ⟨ho, rfl⟩ : s.owner m = none ∧ s.acquire t m k = s' := by simpa using h
          exact .reacquire m k hl ho rfl
      · cases h
  | wake t u =>
      simp only [step] at h
      split at h
      · next l c m k' hl hu =>
          split at h
          · next c' k hi =>
              obtain ⟨rfl, rfl⟩ : c = c' ∧ s.wake t u m k' k = s' := by simpa using h
              apply Step.instr l hl
              rw [hi]
              refine Or.inr ⟨u, m, k', ?_, hu, rfl⟩
              rintro rfl
              simp [hl] at hu
          · cases h
      · cases h
  | input t x =>
      simp only [step] at h
      split at h
      · next l hl =>
          split at h
          · next f hi =>
              apply Step.instr l hl
              rw [hi]
              exact ⟨x, (Option.some.inj h).symm⟩
          · cases h
      · cases h
  | spurious t =>
      simp only [step] at h
      split at h
      · next c m k hl => exact .spurious c m k hl (Option.some.inj h).symm
      · cases h

/-- From the data `g` the instruction can lead to the location `k` and the data `g'`. -/
def Instr.Moves (g : G) (k : L) (g' : G) : Instr M C S X G L → Prop
  | .lock _ k' | .unlock _ k' | .wait _ _ k' | .signal _ k' | .semWait _ k' | .semPost _ k' =>
      k = k' ∧ g' = g
  | .stmt f => f g = (g', k)
  | .input f => (∃ x, f x = k) ∧ g' = g

omit [Fintype ι] [DecidableEq C] in
theorem Instr.Effect.moves {t : ι} {l : L} {i : Instr M C S X G L} (hl : s.thr t = .run l)
    (h : i.Effect t s s') : ∃ k, i.Moves s.mem k s'.mem ∧ s'.pc = Function.update s.pc t k := by
  have moved : ∀ x : Status M C L,
      (fun u => (Function.update s.thr t x u).loc) = Function.update s.pc t x.loc := fun x =>
    Function.comp_update Status.loc s.thr t x
  cases i with
  | lock m k | unlock m k | semWait p k =>
      obtain ⟨-, rfl⟩ := h
      exact ⟨k, ⟨rfl, rfl⟩, moved _⟩
  | wait c m k =>
      obtain ⟨-, rfl⟩ := h
      exact ⟨k, ⟨rfl, rfl⟩, moved _⟩
  | signal c k =>
      rcases h with ⟨-, rfl⟩ | ⟨u, m, k', ne, hu, rfl⟩
      · exact ⟨k, ⟨rfl, rfl⟩, moved _⟩
      · refine ⟨k, ⟨rfl, rfl⟩, funext fun v => ?_⟩
        by_cases hv : v = t
        · subst hv; simp [State.pc, Status.loc]
        · by_cases e : v = u
          · subst e; simp [State.pc, hv, hu, Status.loc]
          · simp [State.pc, hv, e]
  | semPost p k =>
      obtain rfl := h
      exact ⟨k, ⟨rfl, rfl⟩, moved _⟩
  | stmt f =>
      obtain rfl := h
      exact ⟨(f s.mem).2, rfl, moved _⟩
  | input f =>
      obtain ⟨x, rfl⟩ := h
      exact ⟨f x, ⟨⟨x, rfl⟩, rfl⟩, moved _⟩

omit [Fintype ι] [DecidableEq C] in
/-- As far as the locations and the data go, a step does nothing or executes one instruction. -/
theorem Step.moves {t : ι} (h : Step prog t s s') :
    (s'.pc = s.pc ∧ s'.mem = s.mem ∧ ∀ l, s.thr t ≠ .run l) ∨
      ∃ l k, s.thr t = .run l ∧ (prog t l).Moves s.mem k s'.mem ∧
        s'.pc = Function.update s.pc t k := by
  have still : ∀ {x y : Status M C L}, s.thr t = x → x.loc = y.loc →
      (fun u => (Function.update s.thr t y u).loc) = s.pc := by
    rintro x y rfl e
    exact (Function.comp_update Status.loc s.thr t y).trans (e ▸ Function.update_eq_self t _)
  cases h with
  | instr l hl eff =>
      obtain ⟨k, moves, pc⟩ := eff.moves hl
      exact Or.inr ⟨l, k, hl, moves, pc⟩
  | reacquire m k hl free eff =>
      subst eff
      exact Or.inl ⟨still hl rfl, rfl, fun l e => by simp [hl] at e⟩
  | spurious c m k hl eff =>
      subst eff
      exact Or.inl ⟨still hl rfl, rfl, fun l e => by simp [hl] at e⟩

omit [Fintype ι] [DecidableEq C] [DecidableEq M] [DecidableEq S] in
theorem asleepOn_update {f : ι → Status M C L} {t u : ι} {x : Status M C L} {c : C}
    (hx : ¬ x.AsleepOn c) (hu : (Function.update f t x u).AsleepOn c) :
    t ≠ u ∧ (f u).AsleepOn c := by
  by_cases e : u = t
  · subst e
    rw [Function.update_self] at hu
    exact absurd hu hx
  · rw [Function.update_of_ne e] at hu
    exact ⟨Ne.symm e, hu⟩

omit [Fintype ι] [DecidableEq C] in
/-- A thread that is asleep after a step has called `wait`, or was asleep before and the step was no
signal that could only wake it. -/
theorem Step.asleep {t u : ι} {c : C} (h : Step prog t s s') (hu : (s'.thr u).AsleepOn c) :
    (t = u ∧ ∃ l m k, s.thr t = .run l ∧ prog t l = .wait c m k) ∨
      t ≠ u ∧ (s.thr u).AsleepOn c ∧
        ∀ l k, s.thr t = .run l → prog t l = .signal c k → ∃ v, v ≠ t ∧ v ≠ u := by
  cases h with
  | instr l hl eff =>
      have noSignal (ne : ∀ k, prog t l ≠ .signal c k) : ∀ l' k, s.thr t = .run l' →
          prog t l' = .signal c k → ∃ v, v ≠ t ∧ v ≠ u := by
        intro l' k hl' hi
        obtain rfl : l = l' := Status.run.inj (hl.symm.trans hl')
        exact absurd hi (ne k)
      cases hi : prog t l with
      | lock m k | unlock m k | semWait p k =>
          rw [hi] at eff
          obtain ⟨-, rfl⟩ := eff
          obtain ⟨ne, asleep⟩ := asleepOn_update id hu
          exact Or.inr ⟨ne, asleep, noSignal (by simp [hi])⟩
      | semPost p k =>
          rw [hi] at eff
          obtain rfl := eff
          obtain ⟨ne, asleep⟩ := asleepOn_update id hu
          exact Or.inr ⟨ne, asleep, noSignal (by simp [hi])⟩
      | stmt f =>
          rw [hi] at eff
          obtain rfl := eff
          obtain ⟨ne, asleep⟩ := asleepOn_update id hu
          exact Or.inr ⟨ne, asleep, noSignal (by simp [hi])⟩
      | input f =>
          rw [hi] at eff
          obtain ⟨x, rfl⟩ := eff
          obtain ⟨ne, asleep⟩ := asleepOn_update id hu
          exact Or.inr ⟨ne, asleep, noSignal (by simp [hi])⟩
      | wait c' m k =>
          rw [hi] at eff
          obtain ⟨-, rfl⟩ := eff
          by_cases e : c' = c
          · subst e
            by_cases e : t = u
            · exact Or.inl ⟨e, l, m, k, hl, hi⟩
            · refine Or.inr ⟨e, ?_, noSignal (by simp [hi])⟩
              simpa [Ne.symm e] using hu
          · obtain ⟨ne, asleep⟩ := asleepOn_update (x := .asleep c' m k) e hu
            exact Or.inr ⟨ne, asleep, noSignal (by simp [hi])⟩
      | signal c' k =>
          rw [hi] at eff
          rcases eff with ⟨nobody, rfl⟩ | ⟨v, m, k', ne, hv, rfl⟩
          · obtain ⟨ne, asleep⟩ := asleepOn_update id hu
            refine Or.inr ⟨ne, asleep, noSignal fun k' e => ?_⟩
            obtain ⟨rfl, -⟩ := Instr.signal.inj (hi.symm.trans e)
            exact nobody u asleep
          · obtain ⟨ne', asleep⟩ := asleepOn_update id hu
            obtain ⟨other, asleep⟩ := asleepOn_update id asleep
            exact Or.inr ⟨ne', asleep, fun _ _ _ _ => ⟨v, ne, other⟩⟩
  | reacquire m k hl free eff =>
      subst eff
      obtain ⟨ne, asleep⟩ := asleepOn_update id hu
      exact Or.inr ⟨ne, asleep, fun l k' hl' => by simp [hl] at hl'⟩
  | spurious c' m k hl eff =>
      subst eff
      obtain ⟨ne, asleep⟩ := asleepOn_update id hu
      exact Or.inr ⟨ne, asleep, fun l k' hl' => by simp [hl] at hl'⟩

/-- An invariant of a program holds initially and is kept by each of the things a step can be. -/
theorem machine_inductive {I : State ι M C S G L → Prop} (h₀ : I s₀)
    (h : ∀ t s s', (machine prog s₀).Reachable s → I s → Step prog t s s' → I s') :
    (machine prog s₀).Inductive I where
  init := by rintro s rfl; exact h₀
  step _ _ _ hr hI hs := h _ _ _ hr hI (step_cases hs)

/-! ## Threads that choose less -/

variable {Y : Type*}

/-- The instruction whose choices are those of `f`. -/
def Instr.comap (f : Y → X) : Instr M C S X G L → Instr M C S Y G L
  | .lock m k => .lock m k
  | .unlock m k => .unlock m k
  | .wait c m k => .wait c m k
  | .signal c k => .signal c k
  | .semWait p k => .semWait p k
  | .semPost p k => .semPost p k
  | .stmt g => .stmt g
  | .input g => .input fun y => g (f y)

def Act.map (f : ι → Y → X) : Act ι Y → Act ι X
  | .exec t => .exec t
  | .wake t u => .wake t u
  | .input t y => .input t (f t y)
  | .spurious t => .spurious t

theorem step_comap (f : ι → Y → X) (a : Act ι Y) (s : State ι M C S G L) :
    step (fun t l => (prog t l).comap (f t)) a s = step prog (a.map f) s := by
  cases a with
  | exec t =>
      cases hl : s.thr t with
      | run l =>
          simp only [step, Act.map, hl]
          cases prog t l <;> rfl
      | woken m k | asleep c m k => simp only [step, Act.map, hl]
  | wake t u =>
      cases hl : s.thr t with
      | run l =>
          cases hu : s.thr u with
          | asleep c m k =>
              simp only [step, Act.map, hl, hu]
              cases prog t l <;> rfl
          | run _ | woken _ _ => simp only [step, Act.map, hl, hu]
      | woken m k | asleep c m k => simp only [step, Act.map, hl]
  | input t y =>
      cases hl : s.thr t with
      | run l =>
          simp only [step, Act.map, hl]
          cases prog t l <;> rfl
      | woken m k | asleep c m k => simp only [step, Act.map, hl]
  | spurious t => rfl

theorem reachable_of_comap {f : ι → Y → X}
    (h : (machine (fun t l => (prog t l).comap (f t)) s₀).Reachable s) :
    (machine prog s₀).Reachable s := by
  induction h with
  | init h => exact .init h
  | step a _ hs ih => exact ih.step (a.map f) ((step_comap f a _).symm.trans hs)

end Step

/-! ## A program as a part of a larger one -/

variable {G' L' : Type*} {get : G' → G} {set : G' → G → G'} {at_ : L → L'}

/-- The instruction on a part of larger data, its locations renamed by `at_`. -/
def Instr.within (get : G' → G) (set : G' → G → G') (at_ : L → L') :
    Instr M C S X G L → Instr M C S X G' L'
  | .lock m k => .lock m (at_ k)
  | .unlock m k => .unlock m (at_ k)
  | .wait c m k => .wait c m (at_ k)
  | .signal c k => .signal c (at_ k)
  | .semWait p k => .semWait p (at_ k)
  | .semPost p k => .semPost p (at_ k)
  | .stmt f => .stmt fun g => (set g (f (get g)).1, at_ (f (get g)).2)
  | .input f => .input fun x => at_ (f x)

theorem Instr.Moves.of_within (same : ∀ g, set g (get g) = g) {i : Instr M C S X G L} {g g' : G'}
    {k' : L'} (h : (i.within get set at_).Moves g k' g') :
    ∃ k b, i.Moves (get g) k b ∧ k' = at_ k ∧ g' = set g b := by
  cases i with
  | stmt f =>
      obtain ⟨rfl, rfl⟩ := Prod.mk.inj h
      exact ⟨_, _, rfl, rfl, rfl⟩
  | input f =>
      obtain ⟨⟨x, rfl⟩, rfl⟩ := h
      exact ⟨_, _, ⟨⟨x, rfl⟩, rfl⟩, rfl, (same _).symm⟩
  | lock m k | unlock m k | wait c m k | signal c k | semWait p k | semPost p k =>
      obtain ⟨rfl, rfl⟩ := h
      exact ⟨k, _, ⟨rfl, rfl⟩, rfl, (same _).symm⟩

end Conc
