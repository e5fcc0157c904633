import Mathlib.Data.List.Basic

/-!
# Tables that fill up from the front

The first free entry behind the used ones, and the table after a store there.
-/

namespace Conc

variable {α : Type*} {p : α → Bool} {used : List α} {free : α}

theorem findIdx_append_replicate (taken : ∀ x ∈ used, p x = false) (empty : p free) (m : ℕ) :
    (used ++ List.replicate m free).findIdx p = used.length := by
  have none : used.findIdx p = used.length := List.findIdx_eq_length_of_false taken
  rw [List.findIdx_append, none, if_neg (Nat.lt_irrefl _)]
  cases m with
  | zero => exact Nat.zero_add _
  | succ m => rw [List.replicate_succ, List.findIdx_cons, empty, cond_true, Nat.zero_add]

theorem set_append_replicate (used : List α) (free x : α) (m : ℕ) :
    (used ++ List.replicate (m + 1) free).set used.length x =
      used ++ [x] ++ List.replicate m free := by
  rw [List.set_append_right _ _ (Nat.le_refl _), Nat.sub_self, List.replicate_succ,
    List.set_cons_zero, List.append_assoc]
  rfl

end Conc
