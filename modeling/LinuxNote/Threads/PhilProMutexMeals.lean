import LinuxNote.Conc.Progress
import LinuxNote.Threads.PhilProMutex

/-!
# The meals of `phil_pro_mutex.c`

The deadlock is all that can keep a philosopher from its meal.  While one of the five does not stand
between its first chopstick and its second one, those who have begun can finish if nobody else
begins; and when the table is clear, anybody can eat (`canEat_iff`).
-/

namespace LinuxNote.PhilProMutex

open Conc

variable {s s' : State} {p q : Fin 5} {line : Line}

/-- The philosopher has both of its chopsticks. -/
structure Eats (s : State) (p : Fin 5) : Prop where
  thr : s.thr p = .run (p, .printSecond)
  first : s.owner p = some p
  second : s.owner (next p) = some p

def Line.after : Line → Line
  | .lockFirst => .printFirst
  | .printFirst => .lockSecond
  | .lockSecond => .printSecond
  | .printSecond => .unlockSecond
  | .unlockSecond => .unlockFirst
  | .unlockFirst => .printRelease
  | .printRelease => .lockFirst

/-- How far it is to the end of the meal. -/
def Line.weight : Line → ℕ
  | .lockFirst => 0
  | .printRelease => 1
  | .unlockFirst => 2
  | .unlockSecond => 3
  | .printSecond => 4
  | .lockSecond => 5
  | .printFirst => 6

theorem Line.weight_after_lt (busy : line ≠ .lockFirst) : line.after.weight < line.weight := by
  cases line with
  | lockFirst => exact absurd rfl busy
  | _ => decide

theorem exists_step_of_line (hr : table.Reachable s) (hl : s.thr p = .run (p, line))
    (first : line = .lockFirst → s.owner p = none)
    (second : line = .lockSecond → s.owner (next p) = none) :
    ∃ s', table.step (.exec p) s = some s' ∧
      s'.thr = Function.update s.thr p (.run (p, line.after)) := by
  have mine : ∀ m, holds (p, line) m → s.owner m = some p := fun m hm => by
    apply (owned hr p m).2
    rw [hl]
    exact hm
  simp only [table, machine, Conc.step, hl]
  cases line with
  | lockFirst => exact ⟨s.acquire p p (p, .printFirst), if_pos (first rfl), rfl⟩
  | lockSecond => exact ⟨s.acquire p (next p) (p, .printSecond), if_pos (second rfl), rfl⟩
  | unlockSecond =>
      exact ⟨s.release p (next p) (.run (p, .unlockFirst)), if_pos (mine _ (Or.inl rfl)), rfl⟩
  | unlockFirst => exact ⟨s.release p p (.run (p, .printRelease)), if_pos (mine _ rfl), rfl⟩
  | printFirst | printSecond | printRelease => exact ⟨_, rfl, rfl⟩

/-! ## The end of the meals -/

theorem eq_next (p q : Fin 5) : q = p ∨ q = next p ∨ q = next (next p) ∨
    q = next (next (next p)) ∨ q = next (next (next (next p))) := by
  decide +revert

theorem forall_of_next {P : Fin 5 → Prop} (hp : P p) (h : ∀ q, P q → P (next q)) (q : Fin 5) :
    P q := by
  rcases eq_next p q with rfl | rfl | rfl | rfl | rfl
  · exact hp
  · exact h _ hp
  · exact h _ (h _ hp)
  · exact h _ (h _ (h _ hp))
  · exact h _ (h _ (h _ (h _ hp)))

/-- Those who have begun do not wait for each other in a circle. -/
theorem exists_free (hr : table.Reachable s) (h : ∃ q, ¬ HasFirst s q)
    (busy : ∃ p, s.thr p ≠ .run (p, .lockFirst)) :
    ∃ p line, s.thr p = .run (p, line) ∧ line ≠ .lockFirst ∧
      (line = .lockSecond → s.owner (next p) = none) := by
  by_contra stuck
  have waits : ∀ {p line}, s.thr p = .run (p, line) → line ≠ .lockFirst →
      line = .lockSecond ∧ s.owner (next p) ≠ none := by
    intro p line hl begun
    by_contra free
    refine stuck ⟨p, line, hl, begun, fun second => ?_⟩
    by_contra taken
    exact free ⟨second, taken⟩
  have circle : ∀ p, s.thr p = .run (p, .lockSecond) →
      s.thr (next p) = .run (next p, .lockSecond) := by
    intro p hp
    obtain ⟨q, ho⟩ := Option.ne_none_iff_exists'.1 (waits hp (by decide)).2
    have has := (owned hr q (next p)).1 ho
    obtain ⟨line, hq⟩ := running hr q
    rw [hq] at has
    by_cases begun : line = .lockFirst
    · subst begun
      exact has.elim
    · obtain ⟨rfl, -⟩ := waits hq begun
      obtain rfl : next p = q := has
      exact hq
  obtain ⟨p, hp⟩ := busy
  obtain ⟨line, hl⟩ := running hr p
  obtain ⟨rfl, -⟩ := waits hl (fun e => hp (e ▸ hl))
  obtain ⟨q, hq⟩ := h
  exact hq (Or.inr (forall_of_next hl circle q))

/-- All but `p` are between two meals. -/
def Alone (p : Fin 5) (line : Line) (s : State) : Prop :=
  s.thr p = .run (p, line) ∧ ∀ q, q ≠ p → s.thr q = .run (q, .lockFirst)

def weight (l : Loc) : ℕ := l.2.weight

/-- If nobody begins, those who have begun finish. -/
theorem exists_cleared (hr : table.Reachable s) (h : ∃ q, ¬ HasFirst s q) :
    ∃ s', table.CanReach s s' ∧ ∀ p, s'.thr p = .run (p, .lockFirst) := by
  have live : ∀ s, (table.Reachable s ∧ ∃ q, ¬ HasFirst s q) →
      (¬ ∀ p, s.thr p = .run (p, .lockFirst)) → ∃ a s', table.step a s = some s' ∧
        (table.Reachable s' ∧ ∃ q, ¬ HasFirst s' q) ∧ count weight s'.thr < count weight s.thr := by
    rintro s ⟨hr, h⟩ busy
    obtain ⟨p, line, hl, begun, second⟩ := exists_free hr h (not_forall.1 busy)
    obtain ⟨s', step, after⟩ :=
      exists_step_of_line hr hl (fun first => absurd first begun) second
    have leaves : LeavesOne (.exec p) s := by
      intro first
      obtain ⟨-, rfl⟩ := Prod.mk.inj (Status.run.inj (hl.symm.trans first))
      exact absurd rfl begun
    have lower := Line.weight_after_lt begun
    have moved := count_goto weight hl (p, line.after)
    rw [← after] at moved
    simp only [weight] at moved
    exact ⟨_, s', step, ⟨hr.step _ step, exists_not_hasFirst_of_step hr h leaves step⟩, by omega⟩
  obtain ⟨s', reach, -, cleared⟩ := Machine.exists_final_of_keeps live ⟨hr, h⟩
  exact ⟨s', reach, cleared⟩

/-! ## One more meal -/

/-- The chopsticks of the others are on the table. -/
theorem Alone.owner (hr : table.Reachable s) (alone : Alone p line s) {m : Fin 5}
    (ho : s.owner m = some q) : q = p ∧ holds (p, line) m := by
  have has := (owned hr q m).1 ho
  by_cases e : q = p
  · subst e
    rw [alone.1] at has
    exact ⟨rfl, has⟩
  · rw [alone.2 q e] at has
    exact has.elim

theorem Alone.exists_after (hr : table.Reachable s) (alone : Alone p line s) :
    ∃ s', table.CanReach s s' ∧ table.Reachable s' ∧ Alone p line.after s' := by
  obtain ⟨s', step, after⟩ := exists_step_of_line hr alone.1
    (fun first => Option.eq_none_iff_forall_ne_some.2 fun q ho => by
      obtain ⟨-, has⟩ := alone.owner hr ho
      rw [first] at has
      exact has)
    (fun second => Option.eq_none_iff_forall_ne_some.2 fun q ho => by
      obtain ⟨-, has⟩ := alone.owner hr ho
      rw [second] at has
      exact next_ne p has)
  refine ⟨s', .step step, hr.step _ step, ?_, fun q ne => ?_⟩
  · rw [after, Function.update_self]
  · rw [after, Function.update_of_ne ne]
    exact alone.2 q ne

theorem exists_eats_of_cleared (hr : table.Reachable s)
    (cleared : ∀ p, s.thr p = .run (p, .lockFirst)) (p : Fin 5) :
    ∃ s', table.CanReach s s' ∧ Eats s' p := by
  have alone : Alone p .lockFirst s := ⟨cleared p, fun q _ => cleared q⟩
  obtain ⟨s₁, reach₁, hr₁, alone₁⟩ := alone.exists_after hr
  obtain ⟨s₂, reach₂, hr₂, alone₂⟩ := alone₁.exists_after hr₁
  obtain ⟨s₃, reach₃, hr₃, alone₃⟩ := alone₂.exists_after hr₂
  have has : ∀ m, holds (p, .printSecond) m → s₃.owner m = some p := fun m hm => by
    apply (owned hr₃ p m).2
    rw [alone₃.1]
    exact hm
  exact ⟨s₃, (reach₁.trans reach₂).trans reach₃, alone₃.1, has p (Or.inr rfl),
    has (next p) (Or.inl rfl)⟩

/-- In a reachable state a philosopher can still come to eat exactly when not all five have their
first chopstick and none its second one. -/
theorem canEat_iff (h : table.Reachable s) (p : Fin 5) :
    (∃ s', table.CanReach s s' ∧ Eats s' p) ↔ ∃ q, ¬ HasFirst s q := by
  constructor
  · rintro ⟨s', reach, eats⟩
    by_contra none_
    simp only [not_exists, not_not] at none_
    have all := reach.invariant (I := fun s => ∀ q, HasFirst s q)
      (fun a s s' hr all step => hasFirst_of_step hr all step) h none_
    rcases all p with at_ | at_ <;> cases eats.thr.symm.trans at_
  · intro some_
    obtain ⟨s₁, reach, cleared⟩ := exists_cleared h some_
    obtain ⟨s', reach', eats⟩ := exists_eats_of_cleared (reach.reachable h) cleared p
    exact ⟨s', reach.trans reach', eats⟩

/-- Four have their first chopstick, and the fifth can eat. -/
theorem canEat_iff_four : ∃ s s', table.Reachable s ∧ (∀ q, q ≠ 4 → HasFirst s q) ∧
    table.CanReach s s' ∧ Eats s' 4 := by
  have h := Machine.reachable_of_run (M := table) (allFirst.take 4) rfl rfl
  obtain ⟨s', reach, eats⟩ := (canEat_iff h 4).2 ⟨4, by decide⟩
  exact ⟨_, s', h, by decide, reach, eats⟩

end LinuxNote.PhilProMutex
