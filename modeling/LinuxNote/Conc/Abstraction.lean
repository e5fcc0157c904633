import LinuxNote.Conc.Monitor

/-!
# An abstract state beside a program

What a program is for is often said with a state that it does not have: the list that a heap stands
for, the stack that a log leaves.  `Abstracts Rel Known s` says that some abstract state is related
to the data and to the locations of the threads, and that each thread knows of it what `Known` says
at its location.

The rule `abstracts_of_reachable` asks for one move at a time (`Follows`): the abstract state that
goes with it, what the thread that moves knows afterwards, and that the others still know what they
knew.  A thread in a critical section needs the latter only while the move is made outside of it.
-/

namespace Conc

open Function

variable {ι M C S X G L α : Type*} [DecidableEq ι]

/-- Some abstract state is related to the data and the locations, and each thread knows what it
should. -/
def Abstracts (Rel : α → G → (ι → L) → Prop) (Known : L → α → G → Prop)
    (s : State ι M C S G L) : Prop := ∃ a, Rel a s.mem s.pc ∧ ∀ t, Known (s.pc t) a s.mem

/-- Thread `t` moves to `k` and makes `g'` of the data `g`. -/
def Follows (holds : L → M → Prop) (Rel : α → G → (ι → L) → Prop) (Known : L → α → G → Prop) (a : α)
    (g : G) (pc : ι → L) (t : ι) (k : L) (g' : G) : Prop :=
  ∃ a', Rel a' g' (update pc t k) ∧ Known k a' g' ∧
    ∀ u, u ≠ t → (∀ m, holds (pc t) m → ¬ holds (pc u) m) → Known (pc u) a g → Known (pc u) a' g'

variable [Fintype ι] [DecidableEq M] [DecidableEq C] [DecidableEq S]
variable {prog : ι → L → Instr M C S X G L} {holds : L → M → Prop} {Rel : α → G → (ι → L) → Prop}
  {Known : L → α → G → Prop} {s s' : State ι M C S G L}

omit [Fintype ι] [DecidableEq C] in
theorem Abstracts.step (waits : ∀ t l c m k a g, prog t l = .wait c m k → Known k a g)
    (follows : ∀ a g pc t k g', Rel a g pc → Known (pc t) a g → (prog t (pc t)).Moves g k g' →
      Follows holds Rel Known a g pc t k g')
    (own : Owned holds s.thr s.owner) (valid : ∀ t, (s.thr t).Valid prog (fun _ => True) t)
    (h : Abstracts Rel Known s) {t : ι} (hs : Step prog t s s') : Abstracts Rel Known s' := by
  obtain ⟨a, rel, known⟩ := h
  rcases hs.moves with ⟨pc, mem, -⟩ | ⟨l, k, hl, moves, pc⟩
  · refine ⟨a, ?_, ?_⟩ <;> rwa [pc, mem]
  obtain rfl : s.pc t = l := by rw [State.pc, hl]; rfl
  obtain ⟨a', rel', knows, others⟩ := follows a _ _ t k _ rel (known t) moves
  refine ⟨a', pc ▸ rel', fun u => ?_⟩
  by_cases e : u = t
  · rw [pc, e, update_self]
    exact knows
  rw [pc, update_of_ne e]
  have unseen : ∀ l c m k, prog u l = .wait c m k → Known k a' s'.mem := fun l c m k hi =>
    waits u l c m k a' _ hi
  have here := valid u
  cases hu : s.thr u with
  | run l =>
      have at_ : s.pc u = l := by rw [State.pc, hu]; rfl
      apply others u e _ (known u)
      intro m ht inside
      refine e (own.unique (m := m) ?_ ?_)
      · rw [hu]
        exact at_ ▸ inside
      · rw [hl]
        exact ht
  | asleep c m k =>
      rw [hu] at here
      obtain ⟨l, -, hi⟩ := here
      rw [State.pc, hu]
      exact unseen l c m k hi
  | woken m k =>
      rw [hu] at here
      obtain ⟨l, c, -, hi⟩ := here
      rw [State.pc, hu]
      exact unseen l c m k hi

/-- The rule for abstract states. -/
theorem abstracts_of_reachable {loc : ι → L} {sem : S → ℕ} {g₀ : G}
    (h₀ : ∀ t m, ¬ holds (loc t) m) (hp : ∀ t l, (prog t l).Respects holds l)
    (init : ∃ a, Rel a g₀ loc ∧ ∀ t, Known (loc t) a g₀)
    (waits : ∀ t l c m k a g, prog t l = .wait c m k → Known k a g)
    (follows : ∀ a g pc t k g', Rel a g pc → Known (pc t) a g → (prog t (pc t)).Moves g k g' →
      Follows holds Rel Known a g pc t k g')
    (h : (machine prog (start loc sem g₀)).Reachable s) : Abstracts Rel Known s := by
  have key : (machine prog (start loc sem g₀)).Inductive (Abstracts Rel Known) := by
    refine machine_inductive init fun t s s' hr h hs => ?_
    exact h.step waits follows (owned_of_reachable h₀ hp hr)
      (valid_of_reachable (fun _ => trivial) (fun _ _ _ _ _ => trivial) hr) hs
  exact key.reachable h

end Conc
