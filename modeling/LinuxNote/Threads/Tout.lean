import LinuxNote.Conc.Monitor

/-!
# The ticket sale of `tout.c`

A thread tests `tickets` before it takes the mutex and does not test again, so two threads that have
both seen the last ticket both sell it: the second one prints 0.  `soldOnce_iff_findsOne` says that
this is the only thing that goes wrong: every ticket is sold once as long as each sale finds one.
-/

namespace LinuxNote.Tout

open Conc

/-- `tickets`, and the numbers printed so far. -/
structure Sale where
  tickets : ℤ
  printed : List ℤ

/-- Each location is before the statement it names. -/
inductive Loc
  | test
  | lock
  | print
  | decrement
  | unlock
  | exit
  | exited

def thrTout : Loc → Instr Unit Empty Empty Empty Sale Loc
  | .test => .stmt fun g => (g, if 0 < g.tickets then .lock else .exit)
  | .lock => .lock () .print
  | .print => .stmt fun g => ({ g with printed := g.printed ++ [g.tickets] }, .decrement)
  | .decrement => .stmt fun g => ({ g with tickets := g.tickets - 1 }, .unlock)
  | .unlock => .unlock () .test
  | .exit => .stmt fun g => (g, .exited)
  -- there is nothing after `pthread_exit`
  | .exited => .input Empty.elim

abbrev State (ι : Type*) := Conc.State ι Unit Empty Empty Sale Loc

def start (ι : Type*) (T : ℕ) : State ι := Conc.start (fun _ => .test) Empty.elim ⟨T, []⟩

/-- The threads `ι` sell `T` tickets. -/
def system (ι : Type*) [Fintype ι] [DecidableEq ι] (T : ℕ) : Machine (State ι) (Act ι Empty) :=
  machine (fun _ => thrTout) (start ι T)

/-- The numbers printed are distinct tickets, `tickets` is not negative, and when all threads have
exited, at least one, every ticket has been sold. -/
structure SoldOnce {ι : Type*} (T : ℕ) (s : State ι) : Prop where
  distinct : s.mem.printed.Nodup
  exist : ∀ n ∈ s.mem.printed, 1 ≤ n ∧ n ≤ T
  left : 0 ≤ s.mem.tickets
  all : ∀ t, s.thr t = .run .exited → (∀ u, s.thr u = .run .exited) → s.mem.printed.length = T

/-- A thread that is about to print still finds a ticket. -/
def FindsOne {ι : Type*} (a : Act ι Empty) (s : State ι) : Prop :=
  s.thr a.actor = .run .print → 0 < s.mem.tickets

/-! ## Sales that find a ticket -/

/-- The statements between `pthread_mutex_lock` and `pthread_mutex_unlock`. -/
def Loc.holds (l : Loc) (_ : Unit) : Prop :=
  match l with
  | .print | .decrement | .unlock => True
  | _ => False

/-- A ticket printed and not yet taken off. -/
def Loc.selling : Loc → ℕ
  | .decrement => 1
  | _ => 0

/-- A thread that has seen a ticket and not yet taken one off. -/
def Loc.late : Loc → ℕ
  | .lock | .print | .decrement => 1
  | _ => 0

/-- A thread that has seen no tickets. -/
def Loc.leaving : Loc → Bool
  | .exit | .exited => true
  | _ => false

theorem thrTout_respects (l : Loc) : (thrTout l).Respects Loc.holds l := by
  cases l with
  | test =>
      intro g _
      dsimp only
      split <;> exact Iff.rfl
  | exited => exact fun x => x.elim
  | _ => simp [thrTout, Instr.Respects, Loc.holds]

/-- The numbers of `n` sales. -/
def sold (T n : ℕ) : List ℤ := (List.range n).map fun i : ℕ => (T : ℤ) - i

theorem sold_succ (T n : ℕ) : sold T (n + 1) = sold T n ++ [(T : ℤ) - n] := by
  simp [sold, List.range_succ]

theorem nodup_sold (T n : ℕ) : (sold T n).Nodup := by
  refine List.nodup_range.map fun i j same => ?_
  have cast : (i : ℤ) = j := sub_right_injective same
  exact Int.ofNat_inj.1 cast

section

variable {ι : Type*} [Fintype ι] {T : ℕ} {s s' : State ι} {t : ι}

/-- The numbers go down one by one, and a thread that leaves has seen no tickets. -/
structure Descending (T : ℕ) (s : State ι) : Prop where
  printed : s.mem.printed = sold T s.mem.printed.length
  sum : s.mem.printed.length + s.mem.tickets = T + count Loc.selling s.thr
  leaving : ∀ t l, s.thr t = .run l → l.leaving → s.mem.tickets ≤ 0

/-- The ticket being sold is one of those left. -/
structure Selling (T : ℕ) (s : State ι) : Prop extends Descending T s where
  left : count Loc.selling s.thr ≤ s.mem.tickets

theorem Selling.soldOnce (h : Selling T s) : SoldOnce T s := by
  have sum := h.sum
  have left := h.left
  refine ⟨?_, fun n hn => ?_, by omega, fun t ht exited => ?_⟩
  · rw [h.printed]
    exact nodup_sold T _
  · rw [h.printed, sold, List.mem_map] at hn
    obtain ⟨i, hi, rfl⟩ := hn
    have inside := List.mem_range.1 hi
    omega
  · have none := h.leaving t _ ht rfl
    have idle : count Loc.selling s.thr = 0 := total_eq_zero_iff.2 fun u => by rw [exited u]; rfl
    omega

/-- Nobody else is selling while a thread is about to print. -/
theorem count_selling_eq_zero (own : Owned Loc.holds s.thr s.owner) (hl : s.thr t = .run .print) :
    count Loc.selling s.thr = 0 := by
  refine total_eq_zero_iff.2 fun u => ?_
  cases hu : s.thr u with
  | run k =>
      cases k with
      | decrement =>
          have same := own.unique (t := t) (u := u) (m := ()) (hl ▸ trivial) (hu ▸ trivial)
          subst same
          cases hl.symm.trans hu
      | _ => rfl
  | asleep c => exact c.elim
  | woken m k => rfl

variable [DecidableEq ι]

theorem owned (h : (system ι T).Reachable s) : Owned Loc.holds s.thr s.owner :=
  owned_of_reachable (fun _ _ => id) (fun _ => thrTout_respects) h

/-- There is no `wait` in the program. -/
theorem not_woken (h : (system ι T).Reachable s) {m : Unit} {k : Loc} : s.thr t ≠ .woken m k := by
  intro woken
  have valid := valid_of_reachable (R := fun _ _ => True) (fun _ => trivial)
    (fun _ _ _ _ _ => trivial) h t
  rw [woken] at valid
  obtain ⟨-, c, -⟩ := valid
  exact c.elim

/-- What a step does to the sale: a thread moves outside a sale, or prints a number while nobody
else sells, or takes the ticket off. -/
inductive Sells (t : ι) (s s' : State ι) : Prop
  | goto (l k : Loc) (hl : s.thr t = .run l) (hk : s'.thr = Function.update s.thr t (.run k))
      (mem : s'.mem = s.mem) (same : k.selling = l.selling)
      (late : k.late ≤ l.late ∨ 0 < s.mem.tickets)
      (leaves : k.leaving → l.leaving ∨ s.mem.tickets ≤ 0)
  | print (hl : s.thr t = .run .print) (idle : count Loc.selling s.thr = 0)
      (h : s' = s.setMem t { s.mem with printed := s.mem.printed ++ [s.mem.tickets] } .decrement)
  | decrement (hl : s.thr t = .run .decrement)
      (h : s' = s.setMem t { s.mem with tickets := s.mem.tickets - 1 } .unlock)

theorem sells_of_step (hr : (system ι T).Reachable s) (hs : Step (fun _ => thrTout) t s s') :
    Sells t s s' := by
  cases hs with
  | instr l hl eff =>
      cases l with
      | test =>
          obtain rfl := eff
          dsimp only
          by_cases some : 0 < s.mem.tickets
          · rw [if_pos some]
            exact .goto _ _ hl rfl rfl rfl (.inr some) fun leaves => by cases leaves
          · rw [if_neg some]
            exact .goto _ _ hl rfl rfl rfl (.inl le_rfl) fun _ => .inr (not_lt.1 some)
      | lock | unlock =>
          obtain ⟨-, rfl⟩ := eff
          exact .goto _ _ hl rfl rfl rfl (.inl le_rfl) fun leaves => by cases leaves
      | print =>
          obtain rfl := eff
          exact .print hl (count_selling_eq_zero (owned hr) hl) rfl
      | decrement =>
          obtain rfl := eff
          exact .decrement hl rfl
      | exit =>
          obtain rfl := eff
          exact .goto _ _ hl rfl rfl rfl (.inl le_rfl) fun _ => .inl rfl
      | exited =>
          obtain ⟨x, -⟩ := eff
          exact x.elim
  | reacquire m k hl => exact absurd hl (not_woken hr)
  | spurious c => exact c.elim

omit [Fintype ι] in
/-- A thread that goes on without leaving, where no more tickets are left than before. -/
theorem leaving_of_goto {k : Loc} (h : ∀ u l, s.thr u = .run l → l.leaving → s.mem.tickets ≤ 0)
    (hk : s'.thr = Function.update s.thr t (.run k)) (fewer : s'.mem.tickets ≤ s.mem.tickets)
    (leaves : k.leaving → s.mem.tickets ≤ 0) (u : ι) (l : Loc) (hu : s'.thr u = .run l)
    (hl : l.leaving) : s'.mem.tickets ≤ 0 := by
  refine fewer.trans ?_
  by_cases e : u = t
  · subst e
    rw [hk, Function.update_self] at hu
    exact leaves (Status.run.inj hu ▸ hl)
  · rw [hk, Function.update_of_ne e] at hu
    exact h u l hu hl

theorem Descending.step (h : Descending T s) (sells : Sells t s s') : Descending T s' := by
  obtain ⟨printed, sum, leaving⟩ := h
  cases sells with
  | goto l k hl hk mem same _ leaves =>
      have selling := count_goto Loc.selling hl k
      rw [← hk] at selling
      refine ⟨mem ▸ printed, by rw [mem]; omega, ?_⟩
      exact leaving_of_goto leaving hk (mem ▸ le_rfl) fun hk => (leaves hk).elim (leaving t l hl) id
  | print hl idle h =>
      subst h
      have selling := count_goto Loc.selling hl .decrement
      simp only [Loc.selling] at selling
      refine ⟨?_, ?_, leaving_of_goto leaving rfl le_rfl fun leaves => by cases leaves⟩
      · have number : s.mem.tickets = (T : ℤ) - s.mem.printed.length := by omega
        simp only [State.setMem, List.length_append, List.length_singleton]
        rw [sold_succ, ← printed, number]
      · simp only [State.setMem, List.length_append, List.length_singleton]
        omega
  | decrement hl h =>
      subst h
      have selling := count_goto Loc.selling hl .unlock
      simp only [Loc.selling] at selling
      refine ⟨printed, ?_, leaving_of_goto leaving rfl ?_ fun leaves => by cases leaves⟩
      · simp only [State.setMem]
        omega
      · exact Int.sub_le_self _ Int.one_nonneg

theorem descending_of_reachable (h : (system ι T).Reachable s) : Descending T s := by
  have key : (system ι T).Inductive (Descending T) := by
    refine machine_inductive ?_ fun t s s' hr ih hs => ih.step (sells_of_step hr hs)
    have selling : count Loc.selling (start ι T).thr = 0 := total_eq_zero_iff.2 fun u => rfl
    refine ⟨rfl, ?_, fun t l hl leaving => ?_⟩
    · rw [selling]
      exact zero_add _
    · obtain rfl : Loc.test = l := Status.run.inj hl
      cases leaving
  exact key.reachable h

theorem Selling.step {a : Act ι Empty} (hr : (system ι T).Reachable s) (h : Selling T s)
    (ok : FindsOne a s) (hs : (system ι T).step a s = some s') : Selling T s' := by
  have sells := sells_of_step hr (step_cases hs)
  refine ⟨h.toDescending.step sells, ?_⟩
  have left := h.left
  cases sells with
  | goto l k hl hk mem same =>
      have selling := count_goto Loc.selling hl k
      rw [← hk] at selling
      rw [mem]
      omega
  | print hl idle h =>
      subst h
      have some := ok hl
      have selling := count_goto Loc.selling hl .decrement
      simp only [Loc.selling] at selling
      simp only [State.setMem]
      omega
  | decrement hl h =>
      subst h
      have selling := count_goto Loc.selling hl .unlock
      simp only [Loc.selling] at selling
      simp only [State.setMem]
      omega

/-- A thread that finds no ticket prints a number below 1. -/
theorem not_soldOnce_of_not_findsOne {a : Act ι Empty} (ok : ¬ FindsOne a s)
    (hs : (system ι T).step a s = some s') : ¬ SoldOnce T s' := by
  rw [FindsOne, not_forall] at ok
  obtain ⟨hl, none⟩ := ok
  intro sold
  cases step_cases hs with
  | instr l hl' eff =>
      obtain rfl : .print = l := Status.run.inj (hl.symm.trans hl')
      obtain rfl := eff
      have bad := (sold.exist s.mem.tickets (by simp)).1
      omega
  | reacquire m k hl' => cases hl.symm.trans hl'
  | spurious c => exact c.elim

/-- In a run, every ticket is sold once and no other exactly when every thread that prints finds a
ticket. -/
theorem soldOnce_iff_findsOne {as : List (Act ι Empty)}
    (h : (system ι T).run as (start ι T) = some s) :
    (system ι T).Along (SoldOnce T) as (start ι T) ↔
      (system ι T).Meets FindsOne as (start ι T) := by
  refine Machine.along_iff_meets (I := fun s => (system ι T).Reachable s ∧ Selling T s)
    (fun _ h => h.2.soldOnce) (fun a s s' h ok hs => ⟨h.1.step a hs, h.2.step h.1 ok hs⟩)
    (fun a s s' _ ok hs => not_soldOnce_of_not_findsOne ok hs) ⟨.init rfl, ?_⟩ h
  have idle : count Loc.selling (start ι T).thr = 0 := total_eq_zero_iff.2 fun u => rfl
  refine ⟨descending_of_reachable (.init rfl), ?_⟩
  rw [idle]
  exact Int.natCast_nonneg T

end

/-- Both threads have seen the last ticket before the first one sells it. -/
def sellTwice : List (Act Bool Empty) :=
  [.exec false, .exec true, .exec false, .exec false, .exec false, .exec false,
    .exec true, .exec true, .exec true]

theorem not_soldOnce_sellTwice : ∃ s, (system Bool 1).run sellTwice (start Bool 1) = some s ∧
    s.mem.printed = [1, 0] ∧ s.mem.tickets = -1 ∧ ¬ SoldOnce 1 s := by
  refine ⟨_, rfl, rfl, rfl, fun h => ?_⟩
  exact absurd h.left (by decide)

theorem soldOnce_iff_findsOne_sellTwice :
    ((system Bool 1).run sellTwice (start Bool 1)).isSome ∧
      ((system Bool 1).Along (SoldOnce 1) sellTwice (start Bool 1) ↔
        (system Bool 1).Meets FindsOne sellTwice (start Bool 1)) :=
  ⟨rfl, soldOnce_iff_findsOne rfl⟩

end LinuxNote.Tout
