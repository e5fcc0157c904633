import LinuxNote.Conc.Progress
import LinuxNote.Threads.Tout
import Mathlib.Algebra.Ring.Int.Defs

/-!
# The end of the ticket sale of `tout.c`

The prints and the decrements are in the critical section, so the numbers printed go down one by one
from the first ticket on, whatever the interleaving.  What the test outside costs is tickets that do
not exist: each thread but the last one can sell one of them after the last real one.  And so many
can be sold (`exists_sold_iff`).
-/

namespace LinuxNote.Tout

open Conc Function

variable {ι : Type*} [Fintype ι] {T : ℕ} {s s' : State ι} {t : ι}

/-! ## Bounds -/

theorem Loc.late_le (l : Loc) : l.late ≤ 1 := by
  cases l <;> decide

variable [DecidableEq ι]

/-- Of the threads that have seen a ticket, all but one can find none left. -/
theorem late_of_reachable (hT : 1 ≤ T) (h : (system ι T).Reachable s) :
    count Loc.late s.thr + 1 ≤ s.mem.tickets + Fintype.card ι := by
  have key : (system ι T).Inductive fun s =>
      count Loc.late s.thr + 1 ≤ s.mem.tickets + Fintype.card ι := by
    refine machine_inductive ?_ fun t s s' hr ih hs => ?_
    · have late : count Loc.late (start ι T).thr = 0 := total_eq_zero_iff.2 fun u => rfl
      rw [late]
      simp only [start, Conc.start]
      omega
    · have most := count_le Loc.late_le s'.thr
      cases sells_of_step hr hs with
      | goto l k hl hk mem same late =>
          have moved := count_goto Loc.late hl k
          rw [← hk] at moved
          rw [mem]
          omega
      | print hl idle h =>
          subst h
          have moved := count_goto Loc.late hl .decrement
          simp only [Loc.late] at moved
          simp only [State.setMem]
          omega
      | decrement hl h =>
          subst h
          have moved := count_goto Loc.late hl .unlock
          simp only [Loc.late] at moved
          simp only [State.setMem]
          omega
  exact key.reachable h

/-! ## Schedules -/

/-- The threads stand at `loc`, the mutex is free, and `n` tickets are left. -/
structure At (loc : ι → Loc) (n : ℤ) (s : State ι) : Prop where
  thr : ∀ t, s.thr t = .run (loc t)
  owner : s.owner () = none
  tickets : s.mem.tickets = n

variable {loc : ι → Loc} {n : ℤ}

omit [Fintype ι] in
theorem thr_update {k : Loc} (h : ∀ t, s.thr t = .run (loc t)) (u : ι) :
    update s.thr t (.run k) u = .run (update loc t k u) := by
  by_cases e : u = t
  · subst e
    simp
  · simp [e, h u]

theorem canLead_test (loc : ι → Loc) (n : ℤ) (hl : loc t = .test) :
    (system ι T).CanLead (At loc n) (At (update loc t (if 0 < n then .lock else .exit)) n) := by
  rintro s ⟨thr, owner, rfl⟩
  have step : (system ι T).step (.exec t) s =
      some (s.setMem t s.mem (if 0 < s.mem.tickets then .lock else .exit)) := by
    simp only [system, machine, Conc.step, thr, hl]
    rfl
  exact ⟨_, .step step, thr_update thr, owner, rfl⟩

theorem canLead_exit (loc : ι → Loc) (n : ℤ) (hl : loc t = .exit) :
    (system ι T).CanLead (At loc n) (At (update loc t .exited) n) := by
  rintro s ⟨thr, owner, rfl⟩
  have step : (system ι T).step (.exec t) s = some (s.setMem t s.mem .exited) := by
    simp only [system, machine, Conc.step, thr, hl]
    rfl
  exact ⟨_, .step step, thr_update thr, owner, rfl⟩

/-- The thread sells a ticket, or none. -/
theorem canLead_sell (loc : ι → Loc) (n : ℤ) (hl : loc t = .lock) :
    (system ι T).CanLead (At loc n) (At (update loc t .test) (n - 1)) := by
  rintro s ⟨thr, owner, rfl⟩
  let s' : State ι :=
    { thr := update s.thr t (.run .test)
      owner := update s.owner () none
      sem := s.sem
      mem := ⟨s.mem.tickets - 1, s.mem.printed ++ [s.mem.tickets]⟩ }
  have run : (system ι T).run [.exec t, .exec t, .exec t, .exec t] s = some s' := by
    simp [Machine.run, system, machine, Conc.step, thr t, hl, thrTout, execInstr, owner, s']
  exact ⟨s', ⟨_, run⟩, thr_update thr, update_self () none s.owner, rfl⟩

/-- One thread sells tickets alone. -/
theorem canLead_alone (t : ι) (hn : 0 < n) (k : ℕ) :
    (system ι T).CanLead (At (fun _ => .test) (n + k)) (At (fun _ => .test) n) := by
  induction k with
  | zero =>
      rw [Nat.cast_zero, add_zero]
      exact .refl
  | succ k ih =>
      rw [Nat.cast_succ, ← add_assoc]
      have test := canLead_test (T := T) (t := t) (fun _ => .test) (n + k + 1) rfl
      have sell := canLead_sell (T := T) (update (fun _ => .test) t .lock) (n + k + 1)
        (update_self t _ _)
      rw [if_pos (by omega)] at test
      rw [update_idem, update_eq_self, add_sub_cancel_right] at sell
      exact (test.trans sell).trans ih

/-- The threads of `A` have all seen the last ticket before the first of them sells it. -/
theorem canLead_together (A : Finset ι) :
    (system ι T).CanLead (At (fun _ => .test) 1) (At (fun _ => .test) (1 - A.card)) := by
  have see : (system ι T).CanLead (At (fun _ => .test) 1)
      (At (A.piecewise (fun _ => .lock) fun _ => .test) 1) := by
    have all := Machine.CanLead.each (M := system ι T)
      (P := fun U => At (U.piecewise (fun _ => .lock) fun _ => .test) 1) A fun t _ U _ ht => by
        rw [Finset.piecewise_insert]
        exact canLead_test _ 1 (Finset.piecewise_eq_of_notMem U _ _ ht)
    rwa [Finset.piecewise_empty] at all
  have sell : (system ι T).CanLead (At (A.piecewise (fun _ => .lock) fun _ => .test) 1)
      (At (fun _ => .test) (1 - A.card)) := by
    have all := Machine.CanLead.each (M := system ι T)
      (P := fun U => At ((A \ U).piecewise (fun _ => .lock) fun _ => .test) (1 - U.card)) A
      fun t hA U _ ht => by
        have here := canLead_sell (T := T) ((A \ U).piecewise (fun _ => .lock) fun _ => .test)
          (1 - U.card) (Finset.piecewise_eq_of_mem _ _ _ (Finset.mem_sdiff.2 ⟨hA, ht⟩))
        have one : (1 - U.card - 1 : ℤ) = 1 - (insert t U).card := by
          rw [Finset.card_insert_of_notMem ht]
          omega
        have next : update ((A \ U).piecewise (fun _ => .lock) fun _ => .test) t .test =
            (A \ insert t U).piecewise (fun _ => Loc.lock) fun _ => .test := by
          funext u
          by_cases e : u = t
          · subst e
            simp
          · simp [e, Finset.piecewise]
        rwa [one, next] at here
    rwa [Finset.sdiff_empty, Finset.sdiff_self, Finset.piecewise_empty, Finset.card_empty,
      Nat.cast_zero, sub_zero] at all
  exact see.trans sell

theorem canLead_end (hn : n ≤ 0) :
    (system ι T).CanLead (At (fun _ => .test) n) (At (fun _ => .exited) n) := by
  have all := Machine.CanLead.each (M := system ι T)
    (P := fun U => At (U.piecewise (fun _ => .exited) fun _ => .test) n) Finset.univ
    fun t _ U _ ht => by
      have test := canLead_test (T := T) (U.piecewise (fun _ => .exited) fun _ => .test) n
        (Finset.piecewise_eq_of_notMem U _ _ ht)
      rw [if_neg (by omega)] at test
      have exit := canLead_exit (T := T)
        (update (U.piecewise (fun _ => .exited) fun _ => .test) t .exit) n (update_self t _ _)
      rw [update_idem] at exit
      rw [Finset.piecewise_insert]
      exact test.trans exit
  rwa [Finset.piecewise_empty, Finset.piecewise_univ] at all

/-! ## What can be sold -/

/-- When all threads have exited, the numbers printed go down one by one from `T`; with at least one
thread and one ticket there are at least `T` of them and less than `T` and as many as there are
threads, and every such number of sales is possible. -/
theorem exists_sold_iff [Nonempty ι] (hT : 1 ≤ T) {printed : List ℤ} :
    (∃ s, (system ι T).Reachable s ∧ (∀ t, s.thr t = .run .exited) ∧ s.mem.printed = printed) ↔
      ∃ n, T ≤ n ∧ n < T + Fintype.card ι ∧ printed = sold T n := by
  have ended {s : State ι} (h : (system ι T).Reachable s) (exited : ∀ t, s.thr t = .run .exited) :
      s.mem.printed = sold T s.mem.printed.length ∧
        s.mem.printed.length + s.mem.tickets = T ∧ 1 ≤ s.mem.tickets + Fintype.card ι ∧
        s.mem.tickets ≤ 0 := by
    obtain ⟨printed, sum, leaving⟩ := descending_of_reachable h
    have late := late_of_reachable hT h
    have selling : count Loc.selling s.thr = 0 :=
      total_eq_zero_iff.2 fun u => by rw [exited u]; rfl
    have none_ := leaving (Classical.arbitrary ι) _ (exited _) rfl
    exact ⟨printed, by omega, by omega, none_⟩
  constructor
  · rintro ⟨s, h, exited, rfl⟩
    obtain ⟨printed, sum, late, none_⟩ := ended h exited
    exact ⟨_, by omega, by omega, printed⟩
  · rintro ⟨n, low, high, rfl⟩
    obtain ⟨A, -, card⟩ := Finset.exists_subset_card_eq
      (show n - T + 1 ≤ (Finset.univ : Finset ι).card by rw [Finset.card_univ]; omega)
    have alone := canLead_alone (T := T) (Classical.arbitrary ι) one_pos (T - 1)
    have all : (system ι T).CanLead (At (fun _ => .test) (1 + (T - 1 : ℕ)))
        (At (fun _ => .exited) (1 - A.card)) :=
      (alone.trans (canLead_together A)).trans (canLead_end (by omega))
    obtain ⟨s, reach, thr, -, tickets⟩ := all (start ι T) ⟨fun _ => rfl, rfl, by
      simp only [start, Conc.start]
      omega⟩
    have h := reach.reachable (.init rfl)
    obtain ⟨printed, sum, -, -⟩ := ended h thr
    have length : s.mem.printed.length = n := by omega
    exact ⟨s, h, thr, length ▸ printed⟩

/-- Two threads sell the only ticket twice, the second time as number 0. -/
theorem exists_sold_iff_two : ∃ s, (system Bool 1).Reachable s ∧
    (∀ t, s.thr t = .run .exited) ∧ s.mem.printed = [1, 0] :=
  (exists_sold_iff le_rfl).2 ⟨2, by decide, by decide, rfl⟩

end LinuxNote.Tout
