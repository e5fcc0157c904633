import LinuxNote.Conc.Monitor

/-!
# Machines that come to an end

Runs are put together with `CanReach` and `CanLead`.  Where every step lowers a measure, a run is
at most as long as the measure at its beginning (`length_run_le`); and where in addition every state
that is not final has a step, every run can be continued to a final state (`exists_final`); for this
it is enough that some step lowers the measure (`exists_final_of_lower`), if need be while an
invariant holds (`exists_final_of_keeps`).

For programs without `wait` the measure is a sum of weights of locations (`count_lt_of_step`), and
with a single mutex some thread has a step unless all are at an `input` (`exists_step_of_ready`).
-/

namespace Conc

namespace Machine

variable {σ α : Type*} (M : Machine σ α)

/-- Some run leads from `s` to `s'`. -/
def CanReach (s s' : σ) : Prop := ∃ as, M.run as s = some s'

variable {M} {s s' s'' : σ} {a : α}

theorem run_append (as bs : List α) (s : σ) :
    M.run (as ++ bs) s = (M.run as s).bind (M.run bs) := by
  induction as generalizing s with
  | nil => rfl
  | cons a as ih =>
      rw [List.cons_append, run, run, Option.bind_assoc]
      exact congrArg _ (funext ih)

namespace CanReach

theorem refl (s : σ) : M.CanReach s s := ⟨[], rfl⟩

theorem step (h : M.step a s = some s') : M.CanReach s s' :=
  ⟨[a], by rw [run, h]; rfl⟩

theorem trans (h : M.CanReach s s') (h' : M.CanReach s' s'') : M.CanReach s s'' := by
  obtain ⟨as, run⟩ := h
  obtain ⟨bs, run'⟩ := h'
  exact ⟨as ++ bs, by rw [run_append, run, Option.bind_some, run']⟩

theorem reachable (h : M.CanReach s s') (hs : M.Reachable s) : M.Reachable s' := by
  obtain ⟨as, run⟩ := h
  exact hs.run run

/-- What every step keeps. -/
theorem invariant {I : σ → Prop}
    (keep : ∀ a s s', M.Reachable s → I s → M.step a s = some s' → I s') (h : M.CanReach s s')
    (hs : M.Reachable s) (hI : I s) : I s' := by
  obtain ⟨as, run⟩ := h
  induction as generalizing s with
  | nil =>
      obtain rfl : s = s' := by simpa [Machine.run] using run
      exact hI
  | cons a as ih =>
      obtain ⟨s₁, h₁, h₂⟩ := Option.bind_eq_some_iff.1 run
      exact ih (hs.step a h₁) (keep a s s₁ hs hI h₁) h₂

end CanReach

theorem meets_of_forall {ok : α → σ → Prop} (h : ∀ a s, ok a s) (as : List α) (s : σ) :
    M.Meets ok as s := by
  induction as generalizing s with
  | nil => trivial
  | cons a as ih => exact ⟨h a s, fun s₁ _ => ih s₁⟩

/-- From every state with `P` some run leads to one with `Q`. -/
def CanLead (M : Machine σ α) (P Q : σ → Prop) : Prop := ∀ s, P s → ∃ s', M.CanReach s s' ∧ Q s'

namespace CanLead

variable {P Q R : σ → Prop}

theorem refl : M.CanLead P P := fun s h => ⟨s, .refl s, h⟩

theorem trans (h : M.CanLead P Q) (h' : M.CanLead Q R) : M.CanLead P R := by
  intro s hs
  obtain ⟨s₁, reach₁, h₁⟩ := h s hs
  obtain ⟨s₂, reach₂, h₂⟩ := h' s₁ h₁
  exact ⟨s₂, reach₁.trans reach₂, h₂⟩

/-- One after the other. -/
theorem each {ι : Type*} [DecidableEq ι] {P : Finset ι → σ → Prop} (A : Finset ι)
    (h : ∀ t ∈ A, ∀ T ⊆ A, t ∉ T → M.CanLead (P T) (P (insert t T))) : M.CanLead (P ∅) (P A) := by
  have so_far : ∀ T ⊆ A, M.CanLead (P ∅) (P T) := by
    intro T
    induction T using Finset.induction with
    | empty => exact fun _ => refl
    | insert t T ht ih =>
        intro sub
        obtain ⟨mem, sub⟩ := Finset.insert_subset_iff.1 sub
        exact (ih sub).trans (h t mem T sub ht)
  exact so_far A subset_rfl

end CanLead

/-! ## A measure -/

variable {μ : σ → ℕ}

theorem length_run_le (lower : ∀ a s s', M.Reachable s → M.step a s = some s' → μ s' < μ s)
    {as : List α} (hs : M.Reachable s) (h : M.run as s = some s') :
    as.length + μ s' ≤ μ s := by
  induction as generalizing s with
  | nil =>
      obtain rfl : s = s' := by simpa [run] using h
      exact Nat.le_of_eq (Nat.zero_add _)
  | cons a as ih =>
      obtain ⟨s₁, h₁, h₂⟩ := Option.bind_eq_some_iff.1 h
      have first := lower a s s₁ hs h₁
      have rest := ih (hs.step a h₁) h₂
      rw [List.length_cons]
      omega

/-- As long as an invariant holds, some step keeps it and lowers the measure. -/
theorem exists_final_of_keeps {I Final : σ → Prop}
    (live : ∀ s, I s → ¬ Final s → ∃ a s', M.step a s = some s' ∧ I s' ∧ μ s' < μ s) (hs : I s) :
    ∃ s', M.CanReach s s' ∧ I s' ∧ Final s' := by
  induction hn : μ s using Nat.strongRecOn generalizing s with
  | ind n ih =>
      by_cases final : Final s
      · exact ⟨s, CanReach.refl s, hs, final⟩
      · obtain ⟨a, s₁, h₁, hs₁, lower⟩ := live s hs final
        obtain ⟨s', reach, final⟩ := ih (μ s₁) (hn ▸ lower) hs₁ rfl
        exact ⟨s', (CanReach.step h₁).trans reach, final⟩

theorem exists_final_of_lower {Final : σ → Prop}
    (live : ∀ s, M.Reachable s → ¬ Final s → ∃ a s', M.step a s = some s' ∧ μ s' < μ s)
    (hs : M.Reachable s) : ∃ s', M.CanReach s s' ∧ Final s' := by
  have keeps : ∀ s, M.Reachable s → ¬ Final s →
      ∃ a s', M.step a s = some s' ∧ M.Reachable s' ∧ μ s' < μ s := by
    intro s hs final
    obtain ⟨a, s', h, lower⟩ := live s hs final
    exact ⟨a, s', h, hs.step a h, lower⟩
  obtain ⟨s', reach, -, final⟩ := exists_final_of_keeps keeps hs
  exact ⟨s', reach, final⟩

theorem exists_final (lower : ∀ a s s', M.Reachable s → M.step a s = some s' → μ s' < μ s)
    {Final : σ → Prop}
    (live : ∀ s, M.Reachable s → ¬ Final s → ∃ a s', M.step a s = some s') (hs : M.Reachable s) :
    ∃ s', M.CanReach s s' ∧ Final s' := by
  have lowers : ∀ s, M.Reachable s → ¬ Final s → ∃ a s', M.step a s = some s' ∧ μ s' < μ s := by
    intro s hs final
    obtain ⟨a, s', h⟩ := live s hs final
    exact ⟨a, s', h, lower a s s' hs h⟩
  exact exists_final_of_lower lowers hs

end Machine

/-! ## Programs without `wait` -/

variable {ι M C S X G L : Type*}

theorem count_le [Fintype ι] {w : L → ℕ} {bound : ℕ} (le : ∀ l, w l ≤ bound)
    (thr : ι → Status M C L) : count w thr ≤ Fintype.card ι * bound := by
  refine total_le fun t => ?_
  cases thr t with
  | run l => exact le l
  | asleep c m k | woken m k => exact Nat.zero_le _

/-- The instruction does not fall asleep and leads to locations of lower weight. -/
def Instr.Lowers (w : L → ℕ) (l : L) : Instr M C S X G L → Prop
  | .wait _ _ _ => False
  | .lock _ k | .unlock _ k | .signal _ k | .semWait _ k | .semPost _ k => w k < w l
  | .stmt f => ∀ g, w (f g).2 < w l
  | .input f => ∀ x, w (f x) < w l

section Lowers

variable [DecidableEq ι] [Fintype ι] [DecidableEq M] [DecidableEq C] [DecidableEq S]
variable {prog : ι → L → Instr M C S X G L} {w : L → ℕ} {s s' : State ι M C S G L}

omit [DecidableEq ι] [Fintype ι] [DecidableEq M] [DecidableEq C] [DecidableEq S] in
theorem exists_run_of_valid (hp : ∀ t l, (prog t l).Lowers w l)
    (valid : ∀ t, (s.thr t).Valid prog (fun _ => True) t) (t : ι) : ∃ l, s.thr t = .run l := by
  have here := valid t
  cases ht : s.thr t with
  | run l => exact ⟨l, rfl⟩
  | asleep c m k =>
      rw [ht] at here
      obtain ⟨l, -, hi⟩ := here
      have lowers := hp t l
      rw [hi] at lowers
      exact lowers.elim
  | woken m k =>
      rw [ht] at here
      obtain ⟨l, c, -, hi⟩ := here
      have lowers := hp t l
      rw [hi] at lowers
      exact lowers.elim

omit [DecidableEq C] in
theorem count_lt_of_step (hp : ∀ t l, (prog t l).Lowers w l)
    (valid : ∀ t, (s.thr t).Valid prog (fun _ => True) t) {t : ι} (hs : Step prog t s s') :
    count w s'.thr < count w s.thr := by
  have awake := exists_run_of_valid hp valid
  have moved {l k : L} (hl : s.thr t = .run l) (lt : w k < w l) :
      count w (Function.update s.thr t (.run k)) < count w s.thr := by
    have := count_goto w hl k
    have := le_count w hl
    omega
  cases hs with
  | instr l hl eff =>
      have lowers := hp t l
      cases hi : prog t l with
      | lock m k | unlock m k | semWait p k =>
          rw [hi] at eff lowers
          obtain ⟨-, rfl⟩ := eff
          exact moved hl lowers
      | semPost p k =>
          rw [hi] at eff lowers
          obtain rfl := eff
          exact moved hl lowers
      | stmt f =>
          rw [hi] at eff lowers
          obtain rfl := eff
          exact moved hl (lowers _)
      | input f =>
          rw [hi] at eff lowers
          obtain ⟨x, rfl⟩ := eff
          exact moved hl (lowers x)
      | wait c m k =>
          rw [hi] at lowers
          exact lowers.elim
      | signal c k =>
          rw [hi] at eff lowers
          rcases eff with ⟨-, rfl⟩ | ⟨u, m, k', -, hu, -⟩
          · exact moved hl lowers
          · obtain ⟨l', hl'⟩ := awake u
            cases hu.symm.trans hl'
  | reacquire m k hl free eff =>
      obtain ⟨l, hl'⟩ := awake t
      cases hl.symm.trans hl'
  | spurious c m k hl eff =>
      obtain ⟨l, hl'⟩ := awake t
      cases hl.symm.trans hl'

variable {holds : L → M → Prop}

/-- The thread that is inside a critical section can go on, or else any thread that is not at an
`input`. -/
theorem exists_step_of_ready [Subsingleton M] [IsEmpty C] [IsEmpty S]
    (hr : ∀ t l, (prog t l).Respects holds l) (own : Owned holds s.thr s.owner)
    (outside : ∀ t l f, prog t l = .input f → ∀ m, ¬ holds l m)
    (awake : ∀ t, ∃ l, s.thr t = .run l) {t : ι} {l : L} (hl : s.thr t = .run l)
    (ready : ∀ f, prog t l ≠ .input f) : ∃ a s', step prog a s = some s' := by
  have go : ∀ t l, s.thr t = .run l → (∀ f, prog t l ≠ .input f) →
      (∀ m k, prog t l = .lock m k → s.owner m = none) → ∃ a s', step prog a s = some s' := by
    intro t l hl ready free
    have here : ∀ m, s.owner m = some t ↔ holds l m := fun m => by rw [own t m, hl]; rfl
    have resp := hr t l
    refine ⟨.exec t, ?_⟩
    simp only [step, hl]
    cases hi : prog t l with
    | lock m k => exact ⟨_, if_pos (free m k hi)⟩
    | unlock m k | wait c m k =>
        rw [hi] at resp
        exact ⟨_, if_pos ((here m).2 resp.1)⟩
    | stmt f => exact ⟨_, rfl⟩
    | signal c k => exact isEmptyElim c
    | semWait p k | semPost p k => exact isEmptyElim p
    | input f => exact absurd hi (ready f)
  by_cases taken : ∃ m u, s.owner m = some u
  · obtain ⟨m, u, hu⟩ := taken
    obtain ⟨k, hk⟩ := awake u
    have inside := (own u m).1 hu
    rw [hk] at inside
    refine go u k hk (fun f hi => outside u k f hi m inside) fun m' k' hi => ?_
    have resp := hr u k
    rw [hi] at resp
    exact absurd (Subsingleton.elim m m' ▸ inside) resp.1
  · simp only [not_exists] at taken
    exact go t l hl ready fun m k _ => Option.eq_none_iff_forall_ne_some.2 (taken m)

end Lowers

end Conc
