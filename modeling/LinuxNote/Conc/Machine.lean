import Mathlib.Data.List.Basic

/-!
# Machines and their runs

A `Machine` has initial states and a partial step function: an action is enabled in the states
where the function gives a successor.  This file has the rules every safety proof uses: an
inductive invariant holds in every reachable state (`Inductive.reachable`), the states reached by a
list of actions are reachable (`Reachable.run`), and an invariant of the steps that meet a condition
holds after every run of such steps (`invariant_of_meets`).  `along_iff_meets` is the rule for an
exact condition: where each step that meets the condition keeps an invariant and each step that does
not leads outside the property, the property holds along a run exactly when all its steps meet the
condition.
-/

namespace Conc

/-- Initial states, and the state an action leads to where it is enabled. -/
structure Machine (σ α : Type*) where
  init : σ → Prop
  step : α → σ → Option σ

namespace Machine

variable {σ α : Type*} (M : Machine σ α)

/-- Performs the actions of a list in order; `none` when one of them is not enabled. -/
def run : List α → σ → Option σ
  | [], s => some s
  | a :: as, s => (M.step a s).bind (run as)

/-- The states that the machine can be in after finitely many steps. -/
inductive Reachable : σ → Prop
  | init {s : σ} : M.init s → Reachable s
  | step {s s' : σ} (a : α) : Reachable s → M.step a s = some s' → Reachable s'

/-- `I` holds initially and is kept by every step. -/
structure Inductive (I : σ → Prop) : Prop where
  init : ∀ s, M.init s → I s
  step : ∀ a s s', M.Reachable s → I s → M.step a s = some s' → I s'

variable {M}

theorem Reachable.run {as : List α} {s s' : σ} (hs : M.Reachable s) (h : M.run as s = some s') :
    M.Reachable s' := by
  induction as generalizing s with
  | nil =>
      obtain rfl : s = s' := by simpa [Machine.run] using h
      exact hs
  | cons a as ih =>
      obtain ⟨s₁, h₁, h₂⟩ := Option.bind_eq_some_iff.1 h
      exact ih (hs.step a h₁) h₂

theorem reachable_of_run (as : List α) {s₀ s : σ} (h₀ : M.init s₀) (h : M.run as s₀ = some s) :
    M.Reachable s :=
  (Reachable.init h₀).run h

theorem Inductive.reachable {I : σ → Prop} (hI : M.Inductive I) {s : σ} (hs : M.Reachable s) :
    I s := by
  induction hs with
  | init h => exact hI.init _ h
  | step a hr h ih => exact hI.step a _ _ hr ih h

/-! ## Steps that meet a condition -/

variable (M)

/-- `P` holds in every state a run visits. -/
def Along (P : σ → Prop) : List α → σ → Prop
  | [], s => P s
  | a :: as, s => P s ∧ ∀ s', M.step a s = some s' → Along P as s'

/-- Every step of a run meets the condition `ok`. -/
def Meets (ok : α → σ → Prop) : List α → σ → Prop
  | [], _ => True
  | a :: as, s => ok a s ∧ ∀ s', M.step a s = some s' → Meets ok as s'

instance decidableMeets (ok : α → σ → Prop) [∀ a s, Decidable (ok a s)] :
    ∀ as s, Decidable (M.Meets ok as s)
  | [], _ => isTrue trivial
  | a :: as, s =>
      match h : M.step a s with
      | none => decidable_of_iff (ok a s) (by simp [Meets, h])
      | some s' =>
          haveI := decidableMeets ok as s'
          decidable_of_iff (ok a s ∧ M.Meets ok as s') (by simp [Meets, h])

variable {M}

/-- An invariant of the steps that meet `ok` holds after every run of such steps. -/
theorem invariant_of_meets {ok : α → σ → Prop} {I : σ → Prop}
    (keep : ∀ a s s', I s → ok a s → M.step a s = some s' → I s') {as : List α} {s s' : σ}
    (hs : I s) (h : M.run as s = some s') (meets : M.Meets ok as s) : I s' := by
  induction as generalizing s with
  | nil =>
      obtain rfl : s = s' := by simpa [Machine.run] using h
      exact hs
  | cons a as ih =>
      obtain ⟨s₁, h₁, h₂⟩ := Option.bind_eq_some_iff.1 h
      exact ih (keep a s s₁ hs meets.1 h₁) h₂ (meets.2 s₁ h₁)

/-- A property that the invariant gives holds all along such a run. -/
theorem along_of_meets {ok : α → σ → Prop} {I P : σ → Prop} (hP : ∀ s, I s → P s)
    (keep : ∀ a s s', I s → ok a s → M.step a s = some s' → I s') {as : List α} {s : σ}
    (hs : I s) (meets : M.Meets ok as s) : M.Along P as s := by
  induction as generalizing s with
  | nil => exact hP s hs
  | cons a as ih =>
      exact ⟨hP s hs, fun s₁ h₁ => ih (keep a s s₁ hs meets.1 h₁) (meets.2 s₁ h₁)⟩

theorem Along.first {P : σ → Prop} {as : List α} {s : σ} (along : M.Along P as s) : P s := by
  cases as with
  | nil => exact along
  | cons a as => exact along.1

theorem Along.last {P : σ → Prop} {as : List α} {s s' : σ} (along : M.Along P as s)
    (h : M.run as s = some s') : P s' := by
  induction as generalizing s with
  | nil =>
      obtain rfl : s = s' := by simpa [Machine.run] using h
      exact along
  | cons a as ih =>
      obtain ⟨s₁, h₁, h₂⟩ := Option.bind_eq_some_iff.1 h
      exact ih (along.2 s₁ h₁) h₂

/-- What a step outside the condition brings about and no step undoes holds at the end of every run
with such a step. -/
theorem Reachable.of_not_meets {ok : α → σ → Prop} {D : σ → Prop}
    (bad : ∀ a s s', M.Reachable s → ¬ ok a s → M.step a s = some s' → D s')
    (stay : ∀ a s s', M.Reachable s → D s → M.step a s = some s' → D s') {as : List α} {s s' : σ}
    (hs : M.Reachable s) (h : M.run as s = some s') (meets : ¬ M.Meets ok as s) : D s' := by
  have last : ∀ (as : List α) (s : σ), M.Reachable s → D s → M.run as s = some s' → D s' := by
    intro as
    induction as with
    | nil =>
        intro s _ hD h
        obtain rfl : s = s' := by simpa [Machine.run] using h
        exact hD
    | cons a as ih =>
        intro s hs hD h
        obtain ⟨s₁, h₁, h₂⟩ := Option.bind_eq_some_iff.1 h
        exact ih s₁ (hs.step a h₁) (stay a s s₁ hs hD h₁) h₂
  induction as generalizing s with
  | nil => exact absurd trivial meets
  | cons a as ih =>
      obtain ⟨s₁, h₁, h₂⟩ := Option.bind_eq_some_iff.1 h
      by_cases ha : ok a s
      · apply ih (hs.step a h₁) h₂
        intro later
        refine meets ⟨ha, fun s₂ hs₂ => ?_⟩
        obtain rfl := Option.some.inj (h₁.symm.trans hs₂)
        exact later
      · exact last as s₁ (hs.step a h₁) (bad a s s₁ hs ha h₁) h₂

/-- When the steps that meet `ok` keep `I`, which gives `P`, and every other step from `I` leaves
`P`, a run that can be performed stays in `P` exactly when all its steps meet `ok`. -/
theorem along_iff_meets {ok : α → σ → Prop} {I P : σ → Prop} (hP : ∀ s, I s → P s)
    (keep : ∀ a s s', I s → ok a s → M.step a s = some s' → I s')
    (break_ : ∀ a s s', I s → ¬ ok a s → M.step a s = some s' → ¬ P s')
    {as : List α} {s s' : σ} (hs : I s) (h : M.run as s = some s') :
    M.Along P as s ↔ M.Meets ok as s := by
  induction as generalizing s with
  | nil => exact iff_of_true (hP s hs) trivial
  | cons a as ih =>
      obtain ⟨s₁, h₁, h₂⟩ := Option.bind_eq_some_iff.1 h
      by_cases ha : ok a s
      · have next := ih (keep a s s₁ hs ha h₁) h₂
        simp only [Along, Meets, h₁, Option.some.injEq, forall_eq', hP s hs, ha, true_and, next]
      · refine iff_of_false (fun hA => ?_) (fun hM => ha hM.1)
        exact break_ a s s₁ hs ha h₁ (hA.2 s₁ h₁).first

end Machine

end Conc
