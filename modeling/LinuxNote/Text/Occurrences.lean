import Mathlib.Data.List.Infix

/-!
# Occurrences of words in a text

`occurrences w s` is the number of positions at which `w` occurs in `s`.  Words that are `Apart` do
not overlap: where one of them occurs, none begins before its end (`Apart.occurrences_eq`).
-/

namespace Text

variable {α : Type*} [DecidableEq α]

/-- The number of positions at which `w` occurs. -/
def occurrences (w s : List α) : ℕ := (List.range s.length).countP fun i => w <+: s.drop i

/-- No word begins inside a word, or is the beginning of another one. -/
def Apart (words : List (List α)) : Prop :=
  ∀ u ∈ words, ∀ v ∈ words, ∀ i < u.length, v <+: u.drop i ∨ u.drop i <+: v → i = 0 ∧ u = v

instance (words : List (List α)) : Decidable (Apart words) :=
  inferInstanceAs (Decidable (∀ u ∈ words, ∀ v ∈ words, ∀ i < u.length, _ → _))

variable {u v w s : List α} {words : List (List α)} {n : ℕ}

theorem occurrences_nil (w : List α) : occurrences w [] = 0 := rfl

theorem occurrences_cons (w : List α) (c : α) (s : List α) :
    occurrences w (c :: s) = (if w <+: c :: s then 1 else 0) + occurrences w s := by
  rw [occurrences, List.length_cons, List.range_succ_eq_map, List.countP_cons, List.countP_map,
    Nat.add_comm]
  simp only [List.drop_zero, decide_eq_true_eq]
  rfl

theorem occurrences_drop (le : n ≤ s.length) (none : ∀ i < n, ¬ w <+: s.drop i) :
    occurrences w s = occurrences w (s.drop n) := by
  induction n generalizing s with
  | zero => rfl
  | succ n ih =>
      cases s with
      | nil => exact absurd le (Nat.not_succ_le_zero n)
      | cons c s =>
          have rest : ∀ i < n, ¬ w <+: s.drop i := fun i lt => none (i + 1) (Nat.succ_lt_succ lt)
          have here : ¬ w <+: c :: s := none 0 (Nat.zero_lt_succ n)
          rw [occurrences_cons, if_neg here, Nat.zero_add, ih (Nat.le_of_succ_le_succ le) rest,
            List.drop_succ_cons]

omit [DecidableEq α] in
/-- Where `u` occurs, only `u` itself begins before its end. -/
theorem Apart.of_isPrefix (h : Apart words) (hu : u ∈ words) (hv : v ∈ words) (at_ : u <+: s)
    {i : ℕ} (lt : i < u.length) (begins : v <+: s.drop i) : i = 0 ∧ u = v :=
  h u hu v hv i lt (List.prefix_or_prefix_of_prefix begins (at_.drop i))

theorem Apart.occurrences_eq (h : Apart words) (hu : u ∈ words) (hv : v ∈ words)
    (nonempty : u ≠ []) (at_ : u <+: s) :
    occurrences v s = (if u = v then 1 else 0) + occurrences v (s.drop u.length) := by
  obtain ⟨c, t, rfl⟩ := List.exists_cons_of_ne_nil nonempty
  obtain ⟨rest, rfl⟩ := at_
  have here : v <+: c :: (t ++ rest) ↔ c :: t = v := by
    constructor
    · exact fun begins => (h.of_isPrefix hu hv ⟨rest, rfl⟩ (Nat.zero_lt_succ _) begins).2
    · rintro rfl
      exact ⟨rest, rfl⟩
  have none : ∀ i < t.length, ¬ v <+: (t ++ rest).drop i := by
    intro i lt begins
    exact Nat.succ_ne_zero i
      (h.of_isPrefix hu hv (s := c :: t ++ rest) ⟨rest, rfl⟩ (Nat.succ_lt_succ lt) begins).1
  have le : t.length ≤ (t ++ rest).length := by
    rw [List.length_append]
    exact Nat.le_add_right _ _
  rw [List.cons_append, occurrences_cons, occurrences_drop le none, List.length_cons,
    List.drop_succ_cons]
  simp only [here]

end Text
