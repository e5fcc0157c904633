import LinuxNote.Conc.Rest
import LinuxNote.Threads.Philosophers

/-!
# The dining philosophers of `phil_pro.c` finish their meals

If no philosopher begins another meal, all meals come to an end after at most 75 steps and as many
more as there are spurious wakeups, and then all chopsticks are on the table
(`clears_of_reachable`).  So no philosopher is ever locked out: from each reachable state it can
still come to eat with both chopsticks for itself (`exists_eats`).
-/

namespace LinuxNote.Philosophers

open Conc

/-- Between two meals. -/
def Loc.idle (l : Loc) : Prop := l = .lock

/-- How far it is to the end of the meal. -/
def Loc.weight : Loc → ℕ
  | .lock => 0
  | .signalSecond => 1
  | .signalFirst => 2
  | .unlockAgain => 3
  | .releaseSecond => 4
  | .releaseFirst => 5
  | .relock => 6
  | .unlock => 7
  | .takeSecond => 8
  | .waitSecond => 10
  | .testSecond => 11
  | .takeFirst => 12
  | .waitFirst => 14
  | .testFirst => 15

/-- A philosopher that sleeps will eat: it does not look again when it is woken. -/
def Loc.asleepWeight (k : Loc) : ℕ := k.weight + 1

theorem prog_settles (p : Fin 5) (l : Loc) (busy : ¬ l.idle) :
    (prog p l).Settles Loc.weight Loc.asleepWeight (fun _ => 0) 0 (fun _ => True)
      (fun _ => True) l := by
  cases l with
  | lock => exact absurd rfl busy
  | testFirst | testSecond =>
      intro chops _
      dsimp only
      split <;> simp [Loc.weight]
  | waitFirst | waitSecond => exact ⟨Nat.lt_succ_self _, le_rfl⟩
  | takeFirst | takeSecond | releaseFirst | releaseSecond =>
      intro chops _
      simp [Loc.weight]
  | unlock | relock | unlockAgain | signalFirst | signalSecond => exact Nat.lt_succ_self _

theorem not_mutex_of_idle (l : Loc) (m : Unit) (h : l.idle) : ¬ l.mutex m := by
  rw [Loc.idle] at h
  subst h
  exact Bool.false_ne_true

/-- All philosophers are between two meals, and all chopsticks on the table. -/
structure Cleared (s : State) : Prop where
  thr : ∀ p, s.thr p = .run .lock
  chops : ∀ c, s.mem c ≠ 0

variable {s s' : State} {p : Fin 5}

theorem first_eq_second_iff {q : Fin 5} : first q = second p ↔ q = p + 1 := by decide +revert

theorem eq_add_one (q r : Fin 5) : r = q ∨ r = q + 1 ∨ r = q + 1 + 1 ∨ r = q + 1 + 1 + 1 ∨
    r = q + 1 + 1 + 1 + 1 := by
  decide +revert

section Rests

variable (h : table.Reachable s) (rests : ∀ p, (s.thr p).Rests Loc.idle)
include h rests

/-- Where all rest, a philosopher that sleeps waits for one that sleeps on its second chopstick. -/
theorem exists_asleepOn_second {c : Fin 5} (asleep : (s.thr p).AsleepOn c) :
    ∃ q, first q = c ∧ (s.thr q).AsleepOn (second q) := by
  obtain ⟨q, -, hq⟩ := (awaited_of_reachable h).watched p c asleep
  refine ⟨q, ?_⟩
  have idle := rests q
  cases hl : s.thr q with
  | run l =>
      rw [hl] at idle
      obtain rfl : l = .lock := idle
      rw [State.pc, hl] at hq
      exact hq.elim
  | woken m k =>
      rw [hl] at idle
      exact idle.elim
  | asleep c' m k =>
      rw [State.pc, hl] at hq
      rcases asleep_cases h hl with ⟨-, rfl⟩ | ⟨rfl, rfl⟩
      · exact hq.elim
      · have second_ : c = first q := hq
        exact ⟨second_.symm, rfl⟩

/-- Then the sleepers wait in a circle, and that cannot be all five. -/
theorem not_asleepOn (c : Fin 5) : ¬ (s.thr p).AsleepOn c := by
  intro asleep
  obtain ⟨q, -, hq⟩ := exists_asleepOn_second h rests asleep
  have next : ∀ q, (s.thr q).AsleepOn (second q) → (s.thr (q + 1)).AsleepOn (second (q + 1)) := by
    intro q hq
    obtain ⟨r, reach, hr⟩ := exists_asleepOn_second h rests hq
    exact first_eq_second_iff.1 reach ▸ hr
  obtain ⟨r, hr⟩ := (awaited_of_reachable h).someone
  obtain rfl | rfl | rfl | rfl | rfl := eq_add_one q r
  · exact hr hq
  · exact hr (next _ hq)
  · exact hr (next _ (next _ hq))
  · exact hr (next _ (next _ (next _ hq)))
  · exact hr (next _ (next _ (next _ (next _ hq))))

theorem cleared_of_rests : Cleared s := by
  have thr : ∀ p, s.thr p = .run .lock := by
    intro p
    have idle := rests p
    cases hl : s.thr p with
    | run l =>
        rw [hl] at idle
        exact congrArg _ idle
    | woken m k =>
        rw [hl] at idle
        exact idle.elim
    | asleep c m k =>
        have asleep : (s.thr p).AsleepOn c := by rw [hl]; rfl
        exact absurd asleep (not_asleepOn h rests c)
  refine ⟨thr, fun c taken => ?_⟩
  obtain ⟨p, hp⟩ := taken_of_reachable h c taken
  rw [Holds, State.pc, thr p] at hp
  exact hp

end Rests

theorem rests_of_stuck_table (h : table.Reachable s)
    (stuck : Stuck prog Loc.idle (fun _ => True) s) (p : Fin 5) : (s.thr p).Rests Loc.idle :=
  rests_of_stuck (fun _ _ => by simp [Loc.mutex, Loc.locked]) prog_respects not_mutex_of_idle
    (fun _ _ _ _ _ => ⟨(), trivial⟩) h stuck p

theorem clears_of_reachable (h : table.Reachable s) {as : List (Act (Fin 5) Unit)}
    (run : table.run as s = some s')
    (calm : table.Meets (Calm Loc.idle fun _ => True) as s) :
    as.length ≤ 75 + as.countP Act.isSpurious ∧
      (Stuck prog Loc.idle (fun _ => True) s' → Cleared s') := by
  have length := length_run_le_unrest prog_respects prog_settles not_mutex_of_idle
    (fun _ _ _ _ _ => trivial) h run calm
  have small : ∀ l : Loc, l.weight ≤ 15 := fun l => by cases l <;> decide
  have burden : ∀ t, (s.thr t).burden Loc.weight Loc.asleepWeight ≤ 15 := by
    intro t
    cases hl : s.thr t with
    | run l => exact small l
    | woken m k =>
        have here := valid h t
        rw [hl] at here
        obtain ⟨l, c, -, hi⟩ := here
        obtain ⟨-, rfl⟩ | ⟨-, rfl⟩ := wait_cases hi <;> simp [Status.burden, Loc.weight]
    | asleep c m k =>
        obtain ⟨-, rfl⟩ | ⟨-, rfl⟩ := asleep_cases h hl <;>
          simp [Status.burden, Loc.asleepWeight, Loc.weight]
  have bound := unrest_le (r := fun _ => 0) burden
  have rest : 0 ≤ s'.unrest Loc.weight Loc.asleepWeight fun _ => 0 := unrest_nonneg fun _ => le_rfl
  refine ⟨?_, fun stuck => ?_⟩
  · rw [Fintype.card_fin, zero_add] at bound
    omega
  · exact cleared_of_rests (h.run run) (rests_of_stuck_table (h.run run) stuck)

/-- The philosopher has both chopsticks, and nobody else has any. -/
structure Eats (p : Fin 5) (s : State) : Prop where
  thr : s.thr p = .run .unlock
  alone : ∀ q c, Holds s q c → q = p

theorem eats_of_cleared (h : table.Reachable s) (cleared : Cleared s) (p : Fin 5) :
    ∃ s', table.CanReach s s' ∧ Eats p s' := by
  have free : s.owner () = none := by
    refine Option.eq_none_iff_forall_ne_some.2 fun q hq => ?_
    have inside := (owned h q ()).1 hq
    rw [cleared.thr q] at inside
    exact Bool.false_ne_true inside
  have here : s.thr p = .run .lock := cleared.thr p
  have first_ := cleared.chops (first p)
  have second_ := cleared.chops (second p)
  have ne := first_ne_second p
  have run : table.run (List.replicate 5 (.exec p)) s = some
      { thr := Function.update s.thr p (.run .unlock)
        owner := Function.update s.owner () (some p)
        sem := s.sem
        mem := Function.update (Function.update s.mem (first p) 0) (second p) 0 } := by
    simp [List.replicate, Machine.run, table, machine, step, execInstr, prog, here, free, first_,
      second_, ne.symm]
  refine ⟨_, ⟨_, run⟩, Function.update_self .., fun q c hq => ?_⟩
  by_contra other
  rw [Holds, State.pc] at hq
  simp only [Function.update_of_ne other, cleared.thr q] at hq
  exact hq

theorem exists_eats (h : table.Reachable s) (p : Fin 5) :
    ∃ s', table.CanReach s s' ∧ Eats p s' := by
  obtain ⟨as, s₁, run, -, -, stuck⟩ := exists_stuck prog_respects prog_settles not_mutex_of_idle
    (fun _ _ _ _ _ => trivial) (fun _ => le_rfl) h
  have h₁ := h.run run
  obtain ⟨s', reach, eats⟩ :=
    eats_of_cleared h₁ (cleared_of_rests h₁ (rests_of_stuck_table h₁ stuck)) p
  exact ⟨s', Machine.CanReach.trans ⟨as, run⟩ reach, eats⟩

/-- Philosopher 0 is asleep and 1 about to release the chopstick; in some way to go on all end. -/
theorem clears_of_reachable_asleep : ∃ s s', table.Reachable s ∧ (s.thr 0).AsleepOn 0 ∧
    table.CanReach s s' ∧ Cleared s' := by
  have h := Machine.reachable_of_run (M := table) (fetchTwice.take 11) rfl rfl
  obtain ⟨as, s', run, calm, -, stuck⟩ := exists_stuck prog_respects prog_settles
    not_mutex_of_idle (fun _ _ _ _ _ => trivial) (fun _ => le_rfl) h
  exact ⟨_, s', h, rfl, ⟨as, run⟩, (clears_of_reachable h run calm).2 stuck⟩

theorem exists_eats_asleep : ∃ s s', table.Reachable s ∧ (s.thr 0).AsleepOn 0 ∧
    table.CanReach s s' ∧ Eats 0 s' := by
  have h := Machine.reachable_of_run (M := table) (fetchTwice.take 11) rfl rfl
  obtain ⟨s', reach, eats⟩ := exists_eats h 0
  exact ⟨_, s', h, rfl, reach, eats⟩

end LinuxNote.Philosophers
