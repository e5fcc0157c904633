import Mathlib.Data.List.Infix

/-!
# Lines of bounded length

The part of a list that one call of a line reader delivers: up to and with the first separator, at
most `n` elements.  `takeLine` computes it, `IsLongestLine` says what it is, and the two agree
(`isLongestLine_iff`).
-/

namespace Text

variable {α : Type*}

/-- A prefix of `l` with at most `n` elements and the separator only at its end. -/
structure IsLine (sep : α) (n : ℕ) (l p : List α) : Prop where
  isPrefix : p <+: l
  bounded : p.length ≤ n
  inner : sep ∉ p.dropLast

/-- The longest such prefix. -/
structure IsLongestLine (sep : α) (n : ℕ) (l p : List α) : Prop where
  isLine : IsLine sep n l p
  longest : ∀ q, IsLine sep n l q → q.length ≤ p.length

def takeLine [DecidableEq α] (sep : α) : ℕ → List α → List α
  | 0, _ => []
  | _ + 1, [] => []
  | n + 1, c :: l => if c = sep then [c] else c :: takeLine sep n l

variable {sep : α} {n : ℕ} {l p : List α}

theorem IsLine.nil (sep : α) (n : ℕ) (l : List α) : IsLine sep n l [] :=
  ⟨List.nil_prefix, Nat.zero_le _, List.not_mem_nil⟩

theorem IsLine.cons {c : α} (h : IsLine sep n l p) (hc : c ≠ sep) :
    IsLine sep (n + 1) (c :: l) (c :: p) where
  isPrefix := (List.cons_prefix_cons).2 ⟨rfl, h.isPrefix⟩
  bounded := Nat.succ_le_succ h.bounded
  inner := by
    cases p with
    | nil => exact List.not_mem_nil
    | cons d p => exact List.not_mem_cons_of_ne_of_not_mem hc.symm h.inner

/-- A line does not go on after the separator. -/
theorem IsLine.eq_singleton {c : α} (h : IsLine sep n l (c :: p)) (hc : c = sep) : p = [] := by
  cases p with
  | nil => rfl
  | cons d p => exact absurd (hc ▸ List.mem_cons_self) h.inner

theorem IsLine.tail {c d : α} (h : IsLine sep (n + 1) (c :: l) (d :: p)) : IsLine sep n l p where
  isPrefix := (List.cons_prefix_cons.1 h.isPrefix).2
  bounded := Nat.le_of_succ_le_succ h.bounded
  inner := by
    cases p with
    | nil => exact List.not_mem_nil
    | cons e p => exact fun hp => h.inner (List.mem_cons_of_mem _ hp)

variable [DecidableEq α]

theorem isLongestLine_takeLine (sep : α) (n : ℕ) (l : List α) :
    IsLongestLine sep n l (takeLine sep n l) := by
  induction n generalizing l with
  | zero => exact ⟨IsLine.nil sep 0 l, fun q hq => hq.bounded⟩
  | succ n ih =>
      cases l with
      | nil => exact ⟨IsLine.nil sep _ [], fun q hq => hq.isPrefix.length_le⟩
      | cons c l =>
          obtain ⟨isLine, longest⟩ := ih l
          by_cases hc : c = sep
          · rw [takeLine, if_pos hc]
            refine ⟨⟨⟨l, rfl⟩, by simp, by simp⟩, fun q hq => ?_⟩
            cases q with
            | nil => exact Nat.zero_le _
            | cons d q =>
                have hd : d = sep := (List.cons_prefix_cons.1 hq.isPrefix).1.trans hc
                rw [hq.eq_singleton hd]
                exact le_rfl
          · rw [takeLine, if_neg hc]
            refine ⟨isLine.cons hc, fun q hq => ?_⟩
            cases q with
            | nil => exact Nat.zero_le _
            | cons d q => exact Nat.succ_le_succ (longest q hq.tail)

/-- There is one longest line, and `takeLine` computes it. -/
theorem isLongestLine_iff : IsLongestLine sep n l p ↔ p = takeLine sep n l := by
  constructor
  · intro h
    have computed := isLongestLine_takeLine sep n l
    refine (List.prefix_of_prefix_length_le h.isLine.isPrefix computed.isLine.isPrefix
      (computed.longest p h.isLine)).eq_of_length_le (h.longest _ computed.isLine)
  · rintro rfl
    exact isLongestLine_takeLine sep n l

/-- A line ends with the separator, at the bound or at the end of the list. -/
theorem takeLine_complete (sep : α) (n : ℕ) (l : List α) :
    sep ∈ takeLine sep n l ∨ (takeLine sep n l).length = n ∨ takeLine sep n l = l := by
  induction n generalizing l with
  | zero => exact .inr (.inl rfl)
  | succ n ih =>
      cases l with
      | nil => exact .inr (.inr rfl)
      | cons c l =>
          by_cases hc : c = sep
          · rw [takeLine, if_pos hc, hc]
            exact .inl List.mem_cons_self
          · rw [takeLine, if_neg hc]
            rcases ih l with mem | len | eq
            · exact .inl (List.mem_cons_of_mem c mem)
            · exact .inr (.inl (congrArg (· + 1) len))
            · exact .inr (.inr (congrArg (c :: ·) eq))

/-- A line that is short enough is taken as a whole. -/
theorem takeLine_append {line : List α} (h : sep ∉ line) (len : line.length < n) (rest : List α) :
    takeLine sep n (line ++ sep :: rest) = line ++ [sep] := by
  induction line generalizing n with
  | nil =>
      obtain ⟨n, rfl⟩ := Nat.exists_eq_add_of_le' (Nat.one_le_of_lt len)
      rw [List.nil_append, takeLine, if_pos rfl]
      rfl
  | cons c line ih =>
      obtain ⟨n, rfl⟩ := Nat.exists_eq_add_of_le' (Nat.one_le_of_lt len)
      rw [List.mem_cons, not_or] at h
      rw [List.cons_append, takeLine, if_neg (Ne.symm h.1), ih h.2 (Nat.lt_of_succ_lt_succ len)]
      rfl

end Text
