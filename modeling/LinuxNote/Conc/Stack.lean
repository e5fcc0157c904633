import Mathlib.Data.List.Count

/-!
# A stack and its history

A log of pushes and pops says what a stack has done.  `Leaves log l` says that the log is one of a
stack and leaves `l` on it: every `pop` finds its value on top.  When no value is pushed twice, each
`pop` of such a log takes the value that was pushed last of those not yet removed (`Leaves.lifo`).
-/

namespace Conc

variable {α : Type*}

inductive StackOp (α : Type*)
  | push (x : α)
  | pop (x : α)
  deriving DecidableEq

/-- The operations leave `l` on the stack, its top first. -/
inductive Leaves : List (StackOp α) → List α → Prop
  | nil : Leaves [] []
  | push {log : List (StackOp α)} {l : List α} (x : α) (h : Leaves log l) :
      Leaves (log ++ [.push x]) (x :: l)
  | pop {log : List (StackOp α)} {l : List α} {x : α} (h : Leaves log (x :: l)) :
      Leaves (log ++ [.pop x]) l

def StackOp.pushed? : StackOp α → Option α
  | .push x => some x
  | .pop _ => none

/-- The values pushed, in order. -/
def pushed (log : List (StackOp α)) : List α := log.filterMap StackOp.pushed?

@[simp] theorem pushed_append (log log' : List (StackOp α)) :
    pushed (log ++ log') = pushed log ++ pushed log' := List.filterMap_append

@[simp] theorem pushed_push (log : List (StackOp α)) (x : α) :
    pushed (.push x :: log) = x :: pushed log := rfl

@[simp] theorem pushed_pop (log : List (StackOp α)) (x : α) :
    pushed (.pop x :: log) = pushed log := rfl

@[simp] theorem pushed_nil : pushed ([] : List (StackOp α)) = [] := rfl

theorem mem_pushed {log : List (StackOp α)} {x : α} : x ∈ pushed log ↔ .push x ∈ log := by
  rw [pushed, List.mem_filterMap]
  constructor
  · rintro ⟨_ | _, mem, hx⟩ <;> cases hx
    exact mem
  · exact fun mem => ⟨_, mem, rfl⟩

/-- `x` has been pushed and not been removed since, and all that was pushed after it has. -/
def Latest (log : List (StackOp α)) (x : α) : Prop :=
  ∃ before after, log = before ++ .push x :: after ∧ .pop x ∉ after ∧
    ∀ y, .push y ∈ after → .pop y ∈ after

/-- Every removal takes the value that was pushed last of those not yet removed. -/
def Lifo (log : List (StackOp α)) : Prop :=
  ∀ log₁ x log₂, log = log₁ ++ .pop x :: log₂ → Latest log₁ x

/-- An operation of a log is the last one, or one of the log without its last one. -/
theorem last_cases {log log₁ log₂ : List (StackOp α)} {o o' : StackOp α}
    (h : log₁ ++ o :: log₂ = log ++ [o']) :
    (log₁ = log ∧ o = o') ∨ ∃ log₂', log₁ ++ o :: log₂' = log := by
  rcases List.eq_nil_or_concat log₂ with rfl | ⟨log₂', last, rfl⟩
  · obtain ⟨rfl, same⟩ := List.append_inj' h rfl
    exact Or.inl ⟨rfl, List.singleton_inj.1 same⟩
  · rw [List.concat_eq_append, ← List.cons_append, ← List.append_assoc] at h
    exact Or.inr ⟨log₂', (List.append_inj' h rfl).1⟩

namespace Leaves

variable {log log₁ log₂ : List (StackOp α)} {l l₁ l₂ : List α} {x : α}

/-- Above a value lies what the operations since its push leave. -/
theorem split (h : Leaves log (l₁ ++ x :: l₂)) :
    ∃ before after, log = before ++ .push x :: after ∧ Leaves before l₂ ∧ Leaves after l₁ := by
  generalize whole : l₁ ++ x :: l₂ = l at h
  induction h generalizing l₁ with
  | nil => simp at whole
  | push y h ih =>
      cases l₁ with
      | nil =>
          obtain ⟨rfl, rfl⟩ := List.cons.inj whole
          exact ⟨_, [], rfl, h, .nil⟩
      | cons z l₁ =>
          obtain ⟨rfl, rest⟩ := List.cons.inj whole
          obtain ⟨before, after, rfl, low, high⟩ := ih rest
          exact ⟨before, _, by simp, low, high.push z⟩
  | @pop _ _ y h ih =>
      have above : (y :: l₁) ++ x :: l₂ = _ := congrArg (y :: ·) whole
      obtain ⟨before, after, rfl, low, high⟩ := ih above
      exact ⟨before, _, by simp, low, high.pop⟩

/-- What is removed lies on top before. -/
theorem top (h : Leaves (log₁ ++ .pop x :: log₂) l) : ∃ l₁, Leaves log₁ (x :: l₁) := by
  generalize whole : log₁ ++ .pop x :: log₂ = log at h
  induction h generalizing log₂ with
  | nil => simp at whole
  | push y h ih =>
      rcases last_cases whole with ⟨rfl, same⟩ | ⟨log₂', shorter⟩
      · cases same
      · exact ih shorter
  | @pop _ l y h ih =>
      rcases last_cases whole with ⟨rfl, same⟩ | ⟨log₂', shorter⟩
      · cases same
        exact ⟨l, h⟩
      · exact ih shorter

variable [DecidableEq α]

theorem count (h : Leaves log l) (x : α) :
    log.count (.push x) = log.count (.pop x) + l.count x := by
  induction h with
  | nil => rfl
  | push y h ih =>
      by_cases e : y = x
      · simp [e, ih, Nat.add_assoc]
      · simp [e, ih]
  | @pop _ _ y h ih =>
      by_cases e : y = x
      · simp [e] at ih ⊢
        omega
      · simpa [e] using ih

omit [DecidableEq α] in
/-- What was pushed onto a stack that is empty again has been removed, and nothing else. -/
theorem mem_pop_iff (h : Leaves log []) (x : α) : .pop x ∈ log ↔ .push x ∈ log := by
  classical
  have same := h.count x
  rw [← List.count_pos_iff, ← List.count_pos_iff, same, List.count_nil, Nat.add_zero]

omit [DecidableEq α] in
theorem lifo (h : Leaves log l) (nodup : (pushed log).Nodup) : Lifo log := by
  rintro log₁ x log₂ rfl
  obtain ⟨l₁, before⟩ := h.top
  have on_top : Leaves log₁ ([] ++ x :: l₁) := before
  obtain ⟨before, after, rfl, -, balanced⟩ := on_top.split
  refine ⟨_, after, rfl, fun again => ?_, fun y hy => (balanced.mem_pop_iff y).2 hy⟩
  -- a second push of `x`
  have twice := mem_pushed.2 ((balanced.mem_pop_iff x).1 again)
  simp only [pushed_append, pushed_push, List.append_assoc, List.cons_append] at nodup
  have once := (List.nodup_append.1 nodup).2.1
  exact (List.nodup_cons.1 once).1 (List.mem_append_left _ twice)

end Leaves

end Conc
