import Mathlib.Data.Nat.Notation

/-!
# Loops that are left on an input

`while (1) { input; if (stop) break; body }`: a round takes the next input, and ends the loop, goes
on with a new state, or gets stuck.  `Ends.exits_iff_exists` says on which inputs the loop ends:
where one of them stops it and the body gets through with all before.
-/

namespace Conc

/-- What becomes of a round. -/
inductive Round (σ : Type*)
  | again (s : σ)
  | left
  | stuck

variable {σ ρ : Type*} (round : ℕ → ρ → σ → Round σ) (input : ℕ → ρ)

/-- The loop has been left within so many rounds from round `k` on. -/
def exitsWithin : ℕ → ℕ → σ → Bool
  | 0, _, _ => false
  | fuel + 1, k, s =>
      match round k (input k) s with
      | .again s' => exitsWithin fuel (k + 1) s'
      | .left => true
      | .stuck => false

/-- After finitely many rounds the loop is left. -/
def Exits (s : σ) : Prop := ∃ fuel, exitsWithin round input fuel 0 s

/-- `stop` ends the loop, and any other input lets it go on when it is `ok`; `I` is an invariant of
the states. -/
structure Ends (I : σ → Prop) (stop : ρ → Prop) (ok : ℕ → ρ → Prop) : Prop where
  left : ∀ k s, I s → stop (input k) → round k (input k) s = .left
  again : ∀ k s, I s → ¬ stop (input k) → ok k (input k) →
    ∃ s', round k (input k) s = .again s' ∧ I s'
  stuck : ∀ k s, I s → ¬ stop (input k) → ¬ ok k (input k) → round k (input k) s = .stuck

variable {round input} {I : σ → Prop} {stop : ρ → Prop} {ok : ℕ → ρ → Prop}

theorem Ends.exists_stop (h : Ends round input I stop ok) {fuel k : ℕ} {s : σ} (hs : I s)
    (left : exitsWithin round input fuel k s) :
    ∃ m, k ≤ m ∧ stop (input m) ∧ ∀ j, k ≤ j → j < m → ¬ stop (input j) → ok j (input j) := by
  induction fuel generalizing k s with
  | zero => cases left
  | succ fuel ih =>
      by_cases last : stop (input k)
      · exact ⟨k, Nat.le_refl k, last, fun j le lt => absurd le (Nat.not_le.2 lt)⟩
      · rw [exitsWithin] at left
        by_cases good : ok k (input k)
        · obtain ⟨s', next, hs'⟩ := h.again k s hs last good
          rw [next] at left
          obtain ⟨m, le, hm, before⟩ := ih hs' left
          refine ⟨m, Nat.le_of_succ_le le, hm, fun j hj lt more => ?_⟩
          rcases Nat.eq_or_lt_of_le hj with rfl | later
          · exact good
          · exact before j later lt more
        · rw [h.stuck k s hs last good] at left
          cases left

theorem Ends.exists_fuel (h : Ends round input I stop ok) {d k : ℕ} {s : σ} (hs : I s)
    (last : stop (input (k + d)))
    (before : ∀ j, k ≤ j → j < k + d → ¬ stop (input j) → ok j (input j)) :
    ∃ fuel, exitsWithin round input fuel k s := by
  induction d generalizing k s with
  | zero => exact ⟨1, by rw [exitsWithin, h.left k s hs last]⟩
  | succ d ih =>
      by_cases now : stop (input k)
      · exact ⟨1, by rw [exitsWithin, h.left k s hs now]⟩
      · obtain ⟨s', next, hs'⟩ := h.again k s hs now (before k (Nat.le_refl k) (by omega) now)
        rw [← Nat.add_assoc, Nat.add_right_comm] at last
        obtain ⟨fuel, left⟩ := ih hs' last fun j le lt => before j (by omega) (by omega)
        exact ⟨fuel + 1, by rw [exitsWithin, next]; exact left⟩

theorem Ends.exits_iff_exists (h : Ends round input I stop ok) {s : σ} (hs : I s) :
    Exits round input s ↔
      ∃ m, stop (input m) ∧ ∀ j < m, ¬ stop (input j) → ok j (input j) := by
  constructor
  · rintro ⟨fuel, left⟩
    obtain ⟨m, -, last, before⟩ := h.exists_stop hs left
    exact ⟨m, last, fun j => before j (Nat.zero_le j)⟩
  · rintro ⟨m, last, before⟩
    exact h.exists_fuel hs (d := m) (k := 0) (by rwa [Nat.zero_add]) fun j _ lt =>
      before j (by rwa [Nat.zero_add] at lt)

end Conc
