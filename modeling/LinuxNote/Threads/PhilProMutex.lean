import LinuxNote.Conc.Monitor
import Mathlib.Data.Fintype.Card
import Mathlib.Data.Fintype.Fin

/-!
# The dining philosophers of `phil_pro_mutex.c`

Every chopstick is a mutex, and every philosopher takes the one with its own number first.  When all
five have taken their first one, each waits for the next one to give its own back, and nobody will.

That is the only way into the deadlock (`not_deadlock_of_leavesOne`): as long as nobody takes its
first chopstick while the four others have theirs, somebody can go on.  And a run in which somebody
does can only go on to the deadlock (`exists_deadlock`).
-/

namespace LinuxNote.PhilProMutex

open Conc

/-- What `printf` shows; chopsticks count from 1. -/
inductive Message
  | fetches (no : Fin 5) (chopstick : ℕ)
  | releases (no : Fin 5) (chopstick chopstick' : ℕ)

/-- Before the statement each line names. -/
inductive Line
  | lockFirst
  | printFirst
  | lockSecond
  | printSecond
  | unlockSecond
  | unlockFirst
  | printRelease
  deriving DecidableEq

/-- The local variable `no`, and the line. -/
abbrev Loc := Fin 5 × Line

/-- `(no + 1) % 5` -/
def next (no : Fin 5) : Fin 5 := ⟨(no + 1) % 5, Nat.mod_lt _ (by decide)⟩

def philosopher : Loc → Instr (Fin 5) Empty Empty Empty (List Message) Loc
  | (no, .lockFirst) => .lock no (no, .printFirst)
  | (no, .printFirst) => .stmt fun g => (g ++ [.fetches no (no + 1)], (no, .lockSecond))
  | (no, .lockSecond) => .lock (next no) (no, .printSecond)
  | (no, .printSecond) => .stmt fun g => (g ++ [.fetches no (next no + 1)], (no, .unlockSecond))
  | (no, .unlockSecond) => .unlock (next no) (no, .unlockFirst)
  | (no, .unlockFirst) => .unlock no (no, .printRelease)
  | (no, .printRelease) => .stmt fun g =>
      (g ++ [.releases no (no + 1) (next no + 1)], (no, .lockFirst))

abbrev State := Conc.State (Fin 5) (Fin 5) Empty Empty (List Message) Loc

def table₀ : State := start (fun no => (no, .lockFirst)) Empty.elim []

def table : Machine State (Act (Fin 5) Empty) := machine (fun _ => philosopher) table₀

/-- Philosopher `p` is in `pthread_mutex_lock` on a chopstick that `q` has. -/
def Awaits (s : State) (p q : Fin 5) : Prop :=
  ∃ l m k, s.thr p = .run l ∧ philosopher l = .lock m k ∧ s.owner m = some q

/-- Every philosopher is blocked on a chopstick that another one has. -/
def Deadlock (s : State) : Prop := ∀ p, ∃ q, q ≠ p ∧ Awaits s p q

/-- The philosopher has its first chopstick and has not got the second one. -/
def HasFirst (s : State) (p : Fin 5) : Prop :=
  s.thr p = .run (p, .printFirst) ∨ s.thr p = .run (p, .lockSecond)

/-- Nobody takes its first chopstick while the four others have theirs and wait for the second. -/
def LeavesOne (a : Act (Fin 5) Empty) (s : State) : Prop :=
  s.thr a.actor = .run (a.actor, .lockFirst) → ∃ q, q ≠ a.actor ∧ ¬ HasFirst s q

instance (s : State) (p : Fin 5) : Decidable (HasFirst s p) := inferInstanceAs (Decidable (_ ∨ _))

instance (a : Act (Fin 5) Empty) (s : State) : Decidable (LeavesOne a s) :=
  inferInstanceAs (Decidable (_ → _))

/-! ## Who has which chopstick -/

/-- The chopsticks between `pthread_mutex_lock` and `pthread_mutex_unlock`. -/
def holds (l : Loc) (m : Fin 5) : Prop :=
  match l.2 with
  | .printFirst | .lockSecond | .unlockFirst => m = l.1
  | .printSecond | .unlockSecond => m = next l.1 ∨ m = l.1
  | _ => False

theorem next_ne (no : Fin 5) : next no ≠ no := by decide +revert

theorem philosopher_respects (l : Loc) : (philosopher l).Respects holds l := by
  obtain ⟨no, line⟩ := l
  have ne := next_ne no
  cases line with
  | lockFirst => exact ⟨id, fun m => (or_iff_left id).symm⟩
  | lockSecond => exact ⟨ne, fun m => Iff.rfl⟩
  | printFirst | printSecond | printRelease => exact fun g m => Iff.rfl
  | unlockSecond =>
      refine ⟨Or.inl rfl, fun m => ?_⟩
      show m = no ↔ m ≠ next no ∧ (m = next no ∨ m = no)
      constructor
      · rintro rfl
        exact ⟨ne.symm, Or.inr rfl⟩
      · exact fun h => h.2.resolve_left h.1
  | unlockFirst =>
      refine ⟨rfl, fun m => ?_⟩
      show False ↔ m ≠ no ∧ m = no
      simp

variable {s s' : State} {t : Fin 5}

theorem owned (h : table.Reachable s) : Owned holds s.thr s.owner :=
  owned_of_reachable (fun _ _ => id) (fun _ => philosopher_respects) h

/-- A philosopher keeps its number. -/
theorem no_of_leads {l k : Loc} (hk : (philosopher l).Leads k) : k.1 = l.1 := by
  obtain ⟨no, line⟩ := l
  cases line with
  | printFirst | printSecond | printRelease =>
      obtain ⟨g, rfl⟩ := hk
      rfl
  | _ =>
      obtain rfl : _ = k := hk
      rfl

/-- There is no `wait` in the program. -/
theorem running (h : table.Reachable s) (p : Fin 5) : ∃ line, s.thr p = .run (p, line) := by
  have valid := valid_of_reachable (R := fun p l => l.1 = p) (fun _ => rfl)
    (fun p l k hl hk => (no_of_leads hk).trans hl) h p
  cases hp : s.thr p with
  | run l =>
      rw [hp] at valid
      obtain ⟨no, line⟩ := l
      obtain rfl : no = p := valid
      exact ⟨line, rfl⟩
  | asleep c => exact c.elim
  | woken m k =>
      rw [hp] at valid
      obtain ⟨-, c, -⟩ := valid
      exact c.elim

/-! ## The deadlock -/

theorem owner_first (own : Owned holds s.thr s.owner) {p : Fin 5} (h : HasFirst s p) :
    s.owner p = some p := by
  apply (own p p).2
  rcases h with h | h <;> rw [h] <;> rfl

theorem awaits_cases (h : table.Reachable s) {p q : Fin 5} (hp : Awaits s p q) :
    (s.thr p = .run (p, .lockFirst) ∧ s.owner p = some q) ∨
      (s.thr p = .run (p, .lockSecond) ∧ s.owner (next p) = some q) := by
  obtain ⟨l, m, k, hl, hi, ho⟩ := hp
  obtain ⟨line, here⟩ := running h p
  obtain rfl := Status.run.inj (hl.symm.trans here)
  cases line with
  | lockFirst =>
      obtain ⟨rfl, -⟩ := Instr.lock.inj hi
      exact Or.inl ⟨hl, ho⟩
  | lockSecond =>
      obtain ⟨rfl, -⟩ := Instr.lock.inj hi
      exact Or.inr ⟨hl, ho⟩
  | _ => cases hi

/-- A philosopher with the first chopstick of another one has both of its own. -/
theorem hasFirst_of_deadlock (h : table.Reachable s) (dead : Deadlock s) (p : Fin 5) :
    HasFirst s p := by
  obtain ⟨q, ne, hp⟩ := dead p
  rcases awaits_cases h hp with ⟨-, ho⟩ | ⟨hp, -⟩
  · -- `q` has the first chopstick of `p`, so it has both of its own
    obtain ⟨r, -, hq⟩ := dead q
    have has := (owned h q p).1 ho
    rcases awaits_cases h hq with ⟨hq, -⟩ | ⟨hq, -⟩
    · rw [hq] at has
      exact has.elim
    · rw [hq] at has
      exact absurd has ne.symm
  · exact Or.inr hp

/-- What a step does to the philosopher that takes it. -/
structure Goes (t : Fin 5) (s s' : State) (line k : Line) : Prop where
  before : s.thr t = .run (t, line)
  after : s'.thr = Function.update s.thr t (.run (t, k))
  first : k = .printFirst ↔ line = .lockFirst
  second : k = .lockSecond ↔ line = .printFirst
  free : line = .lockSecond → s.owner (next t) = none

theorem goes_of_step {a : Act (Fin 5) Empty} (hr : table.Reachable s)
    (hs : table.step a s = some s') : ∃ line k, Goes a.actor s s' line k := by
  obtain ⟨line, hl⟩ := running hr a.actor
  refine ⟨line, ?_⟩
  cases step_cases hs with
  | instr l hl' eff =>
      obtain rfl := Status.run.inj (hl.symm.trans hl')
      cases line with
      | lockFirst =>
          obtain ⟨-, rfl⟩ := eff
          exact ⟨.printFirst, hl, rfl, by simp, by simp, by simp⟩
      | printFirst =>
          obtain rfl := eff
          exact ⟨.lockSecond, hl, rfl, by simp, by simp, by simp⟩
      | lockSecond =>
          obtain ⟨free, rfl⟩ := eff
          exact ⟨.printSecond, hl, rfl, by simp, by simp, fun _ => free⟩
      | printSecond =>
          obtain rfl := eff
          exact ⟨.unlockSecond, hl, rfl, by simp, by simp, by simp⟩
      | unlockSecond =>
          obtain ⟨-, rfl⟩ := eff
          exact ⟨.unlockFirst, hl, rfl, by simp, by simp, by simp⟩
      | unlockFirst =>
          obtain ⟨-, rfl⟩ := eff
          exact ⟨.printRelease, hl, rfl, by simp, by simp, by simp⟩
      | printRelease =>
          obtain rfl := eff
          exact ⟨.lockFirst, hl, rfl, by simp, by simp, by simp⟩
  | reacquire m k hl' => cases hl.symm.trans hl'
  | spurious c => exact c.elim

theorem Goes.hasFirst_before {line k : Line} (h : Goes t s s' line k) :
    HasFirst s t ↔ line = .printFirst ∨ line = .lockSecond := by
  simp [HasFirst, h.before]

theorem Goes.hasFirst_after {line k : Line} (h : Goes t s s' line k) :
    HasFirst s' t ↔ line = .lockFirst ∨ line = .printFirst := by
  rw [← h.first, ← h.second]
  simp [HasFirst, h.after]

theorem Goes.hasFirst_other {line k : Line} (h : Goes t s s' line k) {q : Fin 5} (ne : q ≠ t) :
    HasFirst s' q ↔ HasFirst s q := by
  simp [HasFirst, h.after, ne]

theorem exists_not_hasFirst_of_step {a : Act (Fin 5) Empty} (hr : table.Reachable s)
    (h : ∃ p, ¬ HasFirst s p) (ok : LeavesOne a s) (hs : table.step a s = some s') :
    ∃ p, ¬ HasFirst s' p := by
  obtain ⟨line, k, goes⟩ := goes_of_step hr hs
  by_contra all
  simp only [not_exists, not_not] at all
  obtain ⟨p, hp⟩ := h
  rcases goes.hasFirst_after.1 (all _) with rfl | rfl
  · obtain ⟨q, ne, hq⟩ := ok goes.before
    exact hq ((goes.hasFirst_other ne).1 (all q))
  · by_cases e : p = a.actor
    · exact hp (e ▸ goes.hasFirst_before.2 (Or.inl rfl))
    · exact hp ((goes.hasFirst_other e).1 (all p))

/-- When everybody has the first chopstick, nobody gets the second. -/
theorem hasFirst_of_step {a : Act (Fin 5) Empty} (hr : table.Reachable s)
    (h : ∀ p, HasFirst s p) (hs : table.step a s = some s') (p : Fin 5) : HasFirst s' p := by
  obtain ⟨line, k, goes⟩ := goes_of_step hr hs
  by_cases e : p = a.actor
  · subst e
    rcases goes.hasFirst_before.1 (h _) with rfl | rfl
    · exact goes.hasFirst_after.2 (Or.inr rfl)
    · have taken := owner_first (owned hr) (h (next a.actor))
      rw [goes.free rfl] at taken
      cases taken
  · exact (goes.hasFirst_other e).2 (h p)

theorem hasFirst_of_not_leavesOne {a : Act (Fin 5) Empty} (hr : table.Reachable s)
    (ok : ¬ LeavesOne a s) (hs : table.step a s = some s') (p : Fin 5) : HasFirst s' p := by
  obtain ⟨line, k, goes⟩ := goes_of_step hr hs
  rw [LeavesOne, not_forall] at ok
  obtain ⟨hl, others⟩ := ok
  simp only [not_exists, not_and, not_not] at others
  by_cases e : p = a.actor
  · subst e
    obtain ⟨-, same⟩ := Prod.mk.inj (Status.run.inj (goes.before.symm.trans hl))
    exact goes.hasFirst_after.2 (Or.inl same)
  · exact (goes.hasFirst_other e).2 (others p e)

def Loc.printing (l : Loc) : ℕ := if l.2 = .printFirst then 1 else 0

/-- Those who have not yet printed do so, and then everybody waits. -/
theorem exists_deadlock (hr : table.Reachable s) (h : ∀ p, HasFirst s p) :
    ∃ as s', table.run as s = some s' ∧ Deadlock s' := by
  induction n : count Loc.printing s.thr generalizing s with
  | zero =>
      have waits : ∀ p, s.thr p = .run (p, .lockSecond) := by
        intro p
        have idle := total_eq_zero_iff.1 n p
        refine (h p).resolve_left fun hp => ?_
        rw [hp] at idle
        cases idle
      exact ⟨[], s, rfl, fun p => ⟨next p, next_ne p, _, _, _, waits p, rfl,
        owner_first (owned hr) (h (next p))⟩⟩
  | succ n ih =>
      obtain ⟨p, hp⟩ := total_pos_iff.1 (show 0 < count Loc.printing s.thr by omega)
      have prints : s.thr p = .run (p, .printFirst) := by
        refine (h p).resolve_right fun hp' => ?_
        rw [hp'] at hp
        cases hp
      have step : table.step (.exec p) s = some (s.setMem p (s.mem ++ [.fetches p (p + 1)])
          (p, .lockSecond)) := by
        simp only [table, machine, Conc.step, prints]
        rfl
      have fewer := count_goto Loc.printing prints (p, .lockSecond)
      have one : Loc.printing (p, .printFirst) = 1 := rfl
      have none : Loc.printing (p, .lockSecond) = 0 := rfl
      obtain ⟨as, s', run, dead⟩ := ih (hr.step _ step) (hasFirst_of_step hr h step) (by
        simp only [State.setMem]
        omega)
      exact ⟨.exec p :: as, s', by rw [Machine.run, step]; exact run, dead⟩

/-- A run in which nobody takes its first chopstick while the four others have theirs does not end
in the deadlock; every other run can go on to it. -/
theorem not_deadlock_of_leavesOne {as : List (Act (Fin 5) Empty)}
    (h : table.run as table₀ = some s) :
    (table.Meets LeavesOne as table₀ → ¬ Deadlock s) ∧
      (¬ table.Meets LeavesOne as table₀ →
        ∃ bs s', table.run bs s = some s' ∧ Deadlock s') := by
  have init : table.Reachable table₀ := .init rfl
  have hr := init.run h
  constructor
  · intro meets dead
    have keep : table.Reachable s ∧ ∃ p, ¬ HasFirst s p := by
      apply Machine.invariant_of_meets _ _ h meets
      · intro a s s' hs ok step
        exact ⟨hs.1.step a step, exists_not_hasFirst_of_step hs.1 hs.2 ok step⟩
      · exact ⟨init, 0, by simp [HasFirst, table₀, start]⟩
    obtain ⟨-, p, hp⟩ := keep
    exact hp (hasFirst_of_deadlock hr dead p)
  · intro meets
    have all : ∀ p, HasFirst s p := Machine.Reachable.of_not_meets
      (fun a s s' hr ok step => hasFirst_of_not_leavesOne hr ok step)
      (fun a s s' hr all step => hasFirst_of_step hr all step) init h meets
    exact exists_deadlock hr all

/-- Everybody takes the first chopstick. -/
def allFirst : List (Act (Fin 5) Empty) :=
  (List.finRange 5).map .exec ++ (List.finRange 5).map .exec

theorem deadlock_allFirst : ∃ s, table.run allFirst table₀ = some s ∧ Deadlock s := by
  refine ⟨_, rfl, fun p => ⟨next p, next_ne p, ?_⟩⟩
  match p with
  | 0 | 1 | 2 | 3 | 4 => exact ⟨_, _, _, rfl, rfl, rfl⟩

/-- Four have the first chopstick, and the fifth has not. -/
theorem not_deadlock_of_leavesOne_four : ∃ s, table.run (allFirst.take 4) table₀ = some s ∧
    table.Meets LeavesOne (allFirst.take 4) table₀ ∧ ¬ Deadlock s := by
  have meets : table.Meets LeavesOne (allFirst.take 4) table₀ := by decide +kernel
  exact ⟨_, rfl, meets, (not_deadlock_of_leavesOne rfl).1 meets⟩

end LinuxNote.PhilProMutex
