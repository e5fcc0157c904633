import Mathlib.Algebra.Order.BigOperators.Group.Finset
import Mathlib.Data.Fintype.BigOperators

/-!
# Counting threads

Invariants of programs with any number of threads count the threads at some place.  `total w f` is
the sum of the weights `w (f t)` over all threads `t`, where `f t` is where `t` stands;
`total_update` says how it changes when one thread moves.
-/

namespace Conc

variable {ι L : Type*} [Fintype ι]

/-- The sum of the weights of the places where the threads stand. -/
def total (w : L → ℕ) (f : ι → L) : ℕ := ∑ t, w (f t)

theorem total_update [DecidableEq ι] (w : L → ℕ) (f : ι → L) (t : ι) (l : L) :
    total w (Function.update f t l) + w (f t) = total w f + w l := by
  have moved : total w (Function.update f t l) = w l + ∑ u ∈ Finset.univ \ {t}, w (f u) := by
    simpa only [total, ← Function.comp_apply (f := w), Function.comp_update] using
      Finset.sum_update_of_mem (Finset.mem_univ t) (w ∘ f) (w l)
  have before : total w f = w (f t) + ∑ u ∈ Finset.univ \ {t}, w (f u) :=
    Finset.sum_eq_add_sum_sdiff_singleton_of_mem (Finset.mem_univ t) _
  omega

/-- The weights may change too, if only for the thread that moves. -/
theorem total_update_of_eq [DecidableEq ι] {w w' : L → ℕ} {f : ι → L} {t : ι} (l : L)
    (same : ∀ u, u ≠ t → w' (f u) = w (f u)) :
    total w' (Function.update f t l) + w (f t) = total w f + w' l := by
  have moved := total_update w' f t l
  have others : ∑ u ∈ Finset.univ \ {t}, w' (f u) = ∑ u ∈ Finset.univ \ {t}, w (f u) := by
    apply Finset.sum_congr rfl
    intro u hu
    exact same u (by simpa using hu)
  have before : ∀ w : L → ℕ, total w f = w (f t) + ∑ u ∈ Finset.univ \ {t}, w (f u) := fun w =>
    Finset.sum_eq_add_sum_sdiff_singleton_of_mem (Finset.mem_univ t) _
  have old := before w
  have new := before w'
  omega

theorem le_total (w : L → ℕ) (f : ι → L) (t : ι) : w (f t) ≤ total w f :=
  Finset.single_le_sum (f := fun u => w (f u)) (fun _ _ => Nat.zero_le _) (Finset.mem_univ t)

theorem total_le {w : L → ℕ} {f : ι → L} {bound : ℕ} (le : ∀ t, w (f t) ≤ bound) :
    total w f ≤ Fintype.card ι * bound := by
  simpa [total] using Finset.sum_le_card_nsmul Finset.univ _ bound fun t _ => le t

theorem total_eq_zero_iff {w : L → ℕ} {f : ι → L} : total w f = 0 ↔ ∀ t, w (f t) = 0 := by
  simp [total]

theorem total_pos_iff {w : L → ℕ} {f : ι → L} : 0 < total w f ↔ ∃ t, 0 < w (f t) := by
  simp only [Nat.pos_iff_ne_zero, ne_eq, total_eq_zero_iff, not_forall]

theorem total_eq_of_unique {w : L → ℕ} {f : ι → L} {t : ι} (h : ∀ u, u ≠ t → w (f u) = 0) :
    total w f = w (f t) := Fintype.sum_eq_single t h

/-- A total of at most one leaves room for one thread. -/
theorem eq_of_total_le_one {w : L → ℕ} {f : ι → L} (h : total w f ≤ 1) {t u : ι}
    (ht : 0 < w (f t)) (hu : 0 < w (f u)) : t = u := by
  classical
  by_contra ne
  have pair : w (f t) + w (f u) ≤ total w f := by
    rw [← Finset.sum_pair (f := fun u => w (f u)) ne]
    exact Finset.sum_le_sum_of_subset (Finset.subset_univ _)
  omega

end Conc
