import LinuxNote.Conc.Rest

/-!
# The rate of endless programs

A ledger of the data counts what the threads bring about.  A run that is long enough has brought the
ledger forward, whatever the schedule; and where no state is stuck there are runs of every length
(`Machine.exists_run_of_live`).

Without mutexes the length of a run can be told exactly: let every instruction move a clock by one,
the hours of the locations where the threads stand and the ledger, into which a round of a thread is
written once (`Instr.Ticks`, `clock_of_run`).  With a mutex and condition variables it can be
bounded: an entry of the ledger is a debt of the potential that pays for a round
(`length_run_le_ledger`).
-/

namespace Conc

/-- Where some step of a kind can always be taken, there are runs of every length of such steps. -/
theorem Machine.exists_run_of_kind {σ α : Type*} {M : Machine σ α} {s : σ} {p : α → Prop}
    (live : ∀ s, M.Reachable s → ∃ a s', p a ∧ M.step a s = some s') (hs : M.Reachable s) (n : ℕ) :
    ∃ as s', as.length = n ∧ (∀ a ∈ as, p a) ∧ M.run as s = some s' := by
  induction n generalizing s with
  | zero => exact ⟨[], s, rfl, List.forall_mem_nil p, rfl⟩
  | succ n ih =>
      obtain ⟨a, s₁, ha, h₁⟩ := live s hs
      obtain ⟨as, s', length, all, run⟩ := ih (hs.step a h₁)
      refine ⟨a :: as, s', congrArg Nat.succ length, List.forall_mem_cons.2 ⟨ha, all⟩, ?_⟩
      rw [Machine.run, h₁]
      exact run

theorem Machine.exists_run_of_live {σ α : Type*} {M : Machine σ α} {s : σ}
    (live : ∀ s, M.Reachable s → ∃ a s', M.step a s = some s') (hs : M.Reachable s) (n : ℕ) :
    ∃ as s', as.length = n ∧ M.run as s = some s' := by
  have kind : ∀ s, M.Reachable s → ∃ a s', True ∧ M.step a s = some s' := by
    intro s hs
    obtain ⟨a, s', h⟩ := live s hs
    exact ⟨a, s', trivial, h⟩
  obtain ⟨as, s', length, -, run⟩ := exists_run_of_kind kind hs n
  exact ⟨as, s', length, run⟩

variable {ι M C S X G L : Type*}

/-! ## Programs without mutexes -/

section Ticks

/-- The clock goes on by one. -/
def Instr.Ticks (hour : L → ℕ) (r : G → ℕ) (l : L) : Instr M C S X G L → Prop
  | .lock _ k | .unlock _ k | .wait _ _ k | .signal _ k | .semWait _ k | .semPost _ k =>
      hour k = hour l + 1
  | .stmt f => ∀ g, r (f g).1 + hour (f g).2 = r g + hour l + 1
  | .input f => ∀ x, hour (f x) = hour l + 1

theorem Instr.Ticks.within {L' : Type*} {hour : L → ℕ} {hour' : L' → ℕ} {at_ : L → L'} {r : G → ℕ}
    {l : L} {i : Instr M C S X G L} (h : i.Ticks hour r l) (same : ∀ l, hour' (at_ l) = hour l) :
    (i.within id (fun _ g => g) at_).Ticks hour' r (at_ l) := by
  cases i <;> simpa only [Instr.Ticks, Instr.within, same, id] using h

variable [Fintype ι]

/-- What the ledger says and where the threads stand. -/
def State.clock (hour : L → ℕ) (r : G → ℕ) (s : State ι M C S G L) : ℕ :=
  r s.mem + count hour s.thr

variable {hour : L → ℕ} {r : G → ℕ} {s s' : State ι M C S G L}

theorem clock_le {bound : ℕ} (le : ∀ l, hour l ≤ bound) :
    s.clock hour r ≤ r s.mem + Fintype.card ι * bound :=
  Nat.add_le_add_left (count_le le s.thr) _

variable [DecidableEq ι] {prog : ι → L → Instr M C S X G L} {s₀ : State ι M C S G L} {t : ι}

theorem clock_of_goto {l k : L} (hl : s.thr t = .run l)
    (hk : s'.thr = Function.update s.thr t (.run k))
    (tick : r s'.mem + hour k = r s.mem + hour l + 1) :
    s'.clock hour r = s.clock hour r + 1 := by
  have moved := count_goto hour hl k
  rw [← hk] at moved
  unfold State.clock
  omega

variable [IsEmpty M] [DecidableEq M] [DecidableEq C] [DecidableEq S]

omit [DecidableEq C] in
theorem clock_of_step (hp : ∀ t l, (prog t l).Ticks hour r l) (hs : Step prog t s s') :
    s'.clock hour r = s.clock hour r + 1 := by
  cases hs with
  | instr l hl eff =>
      have tick := hp t l
      have on {k : L} (h : hour k = hour l + 1) : r s.mem + hour k = r s.mem + hour l + 1 := by
        rw [h, Nat.add_assoc]
      cases hi : prog t l with
      | lock m k | unlock m k | wait c m k => exact isEmptyElim m
      | signal c k =>
          rw [hi] at eff tick
          rcases eff with ⟨-, rfl⟩ | ⟨u, m, -⟩
          · exact clock_of_goto hl rfl (on tick)
          · exact isEmptyElim m
      | semWait p k =>
          rw [hi] at eff tick
          obtain ⟨-, rfl⟩ := eff
          exact clock_of_goto hl rfl (on tick)
      | semPost p k =>
          rw [hi] at eff tick
          obtain rfl := eff
          exact clock_of_goto hl rfl (on tick)
      | stmt f =>
          rw [hi] at eff tick
          obtain rfl := eff
          exact clock_of_goto hl rfl (tick _)
      | input f =>
          rw [hi] at eff tick
          obtain ⟨x, rfl⟩ := eff
          exact clock_of_goto hl rfl (on (tick x))
  | reacquire m => exact isEmptyElim m
  | spurious c m => exact isEmptyElim m

theorem clock_of_run (hp : ∀ t l, (prog t l).Ticks hour r l) {as : List (Act ι X)}
    (h : (machine prog s₀).run as s = some s') :
    s'.clock hour r = s.clock hour r + as.length := by
  induction as generalizing s with
  | nil =>
      obtain rfl : s = s' := by simpa [Machine.run] using h
      rfl
  | cons a as ih =>
      obtain ⟨s₁, h₁, h₂⟩ := Option.bind_eq_some_iff.1 h
      have first := clock_of_step hp (step_cases h₁)
      have rest := ih h₂
      rw [List.length_cons]
      omega

/-- Without mutexes only sleepers and those who wait for a semaphore are blocked. -/
theorem exists_step_of_free [Nonempty X] (free : ¬ Blocked prog s t) :
    ∃ a s', step prog a s = some s' := by
  have own : Owned (fun _ (m : M) => isEmptyElim m) s.thr s.owner := fun _ m => isEmptyElim m
  have respects : ∀ t l, (prog t l).Respects (fun _ (m : M) => isEmptyElim m) l := by
    intro t l
    cases prog t l with
    | lock m k | unlock m k | wait c m k => exact isEmptyElim m
    | signal c k | semWait p k | semPost p k => exact fun m => isEmptyElim m
    | stmt f => exact fun g m => isEmptyElim m
    | input f => exact fun x m => isEmptyElim m
  obtain ⟨a, s', step, -⟩ := exists_step_of_not_blocked respects own free
  exact ⟨a, s', step⟩

end Ticks

/-! ## Programs with a mutex and condition variables -/

section Ledger

variable [DecidableEq ι] [Fintype ι] [DecidableEq M] [DecidableEq C] [DecidableEq S]
variable {prog : ι → L → Instr M C S X G L} {loc : ι → L} {sem : S → ℕ} {g₀ : G}
variable {holds : L → M → Prop} {s s' : State ι M C S G L}

omit [DecidableEq ι] [Fintype ι] [DecidableEq M] [DecidableEq C] [DecidableEq S] in
theorem calm_of_not_idle (a : Act ι X) (s : State ι M C S G L) :
    Calm (fun _ => False) (fun _ => True) a s :=
  ⟨fun _ _ => id, fun _ _ _ => trivial⟩

/-- Where an entry of the ledger pays for `price` steps. -/
theorem length_run_le_ledger {w v : L → ℕ} {price wake bound : ℕ} {r : G → ℕ} {K : L → G → Prop}
    (hp : ∀ t l, (prog t l).Respects holds l)
    (settles : ∀ t l, (prog t l).Settles w v (fun g => -(price * r g : ℕ)) wake (fun _ => True)
      (K l) l)
    (known : ∀ s, (machine prog (start loc sem g₀)).Reachable s →
      ∀ t l, s.thr t = .run l → K l s.mem)
    (le : ∀ t, (s.thr t).burden w v ≤ bound)
    (hs : (machine prog (start loc sem g₀)).Reachable s) {as : List (Act ι X)}
    (h : (machine prog (start loc sem g₀)).run as s = some s') :
    as.length + price * r s.mem ≤
      price * r s'.mem + Fintype.card ι * bound + (wake + 1) * as.countP Act.isSpurious := by
  have calm := Machine.meets_of_forall (M := machine prog (start loc sem g₀)) calm_of_not_idle as s
  have length := length_run_le_unrest hp (fun t l _ => settles t l) (fun _ _ never => never.elim)
    known hs h calm
  have early := unrest_le (r := fun g => -(price * r g : ℕ)) le
  have late : -(price * r s'.mem : ℕ) ≤ s'.unrest w v fun g => -(price * r g : ℕ) :=
    le_add_of_nonneg_right (Int.natCast_nonneg _)
  omega

/-- A thread that is not blocked can go on without a spurious wakeup. -/
theorem exists_awake_of_not_blocked (hp : ∀ t l, (prog t l).Respects holds l)
    (gives : ∀ t l f, prog t l = .input f → Nonempty X) (own : Owned holds s.thr s.owner)
    (free : ∃ t, ¬ Blocked prog s t) : ∃ a s', a.isSpurious = false ∧ step prog a s = some s' := by
  obtain ⟨t, free⟩ := free
  have allowed : ∀ t l f, prog t l = .input f → ¬ False → ∃ _ : X, True := by
    intro t l f hi _
    obtain ⟨x⟩ := gives t l f hi
    exact ⟨x, trivial⟩
  obtain ⟨a, s', -, awake, step⟩ :=
    exists_calm_of_not_blocked hp allowed own free fun _ _ => not_false
  exact ⟨a, s', awake, step⟩

theorem exists_run_of_awake {s₀ : State ι M C S G L}
    (live : ∀ s, (machine prog s₀).Reachable s →
      ∃ a s', a.isSpurious = false ∧ step prog a s = some s')
    (hs : (machine prog s₀).Reachable s) (n : ℕ) :
    ∃ as s', as.length = n ∧ as.countP Act.isSpurious = 0 ∧
      (machine prog s₀).run as s = some s' := by
  obtain ⟨as, s', length, awake, run⟩ := Machine.exists_run_of_kind live hs n
  refine ⟨as, s', length, List.countP_eq_zero.2 fun a mem => ?_, run⟩
  rw [awake a mem]
  exact Bool.false_ne_true

end Ledger

end Conc
