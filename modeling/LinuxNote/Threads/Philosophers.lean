import LinuxNote.Conc.Monitor
import Mathlib.Data.Fintype.Fin

/-!
# The dining philosophers of `phil_pro.c`

Five threads share one mutex, an `int` for each chopstick and a condition variable for each.  A
philosopher fetches both chopsticks in one critical section, where a taken one makes it wait, once:
the code does not look again when `pthread_cond_wait` returns.

So a chopstick can be fetched twice, when it is taken again before the woken thread gets the mutex.
`exclusive_iff_fetchesFree` says that this is the only way.  The philosophers are deadlock free all
the same: whoever waits for a chopstick waits for a neighbour that holds it or will signal it
(`Awaited`), and not all five can be waiting for the second one, since the last to start would find
its neighbour awake.
-/

namespace LinuxNote.Philosophers

open Conc

/-- `num[5]` -/
def no (p : Fin 5) : ℕ := p + 1

/-- `(no + 3) % 5` -/
def first (p : Fin 5) : Fin 5 := ⟨(no p + 3) % 5, Nat.mod_lt _ (by decide)⟩

/-- `no - 1` -/
def second (p : Fin 5) : Fin 5 := ⟨no p - 1, p.isLt⟩

/-- Each location is before the statement it names; `relock` begins the second critical section. -/
inductive Loc
  | lock
  | testFirst
  | waitFirst
  | takeFirst
  | testSecond
  | waitSecond
  | takeSecond
  | unlock
  | relock
  | releaseFirst
  | releaseSecond
  | unlockAgain
  | signalFirst
  | signalSecond
  deriving DecidableEq

/-- `int chops[5]` -/
abbrev Chops := Fin 5 → ℤ

def prog (p : Fin 5) : Loc → Instr Unit (Fin 5) Empty Unit Chops Loc
  | .lock => .lock () .testFirst
  | .testFirst => .stmt fun chops => (chops, if chops (first p) = 0 then .waitFirst else .takeFirst)
  | .waitFirst => .wait (first p) () .takeFirst
  | .takeFirst => .stmt fun chops => (Function.update chops (first p) 0, .testSecond)
  | .testSecond => .stmt fun chops =>
      (chops, if chops (second p) = 0 then .waitSecond else .takeSecond)
  | .waitSecond => .wait (second p) () .takeSecond
  | .takeSecond => .stmt fun chops => (Function.update chops (second p) 0, .unlock)
  | .unlock => .unlock () .relock
  | .relock => .lock () .releaseFirst
  | .releaseFirst => .stmt fun chops => (Function.update chops (first p) 1, .releaseSecond)
  | .releaseSecond => .stmt fun chops => (Function.update chops (second p) 1, .unlockAgain)
  | .unlockAgain => .unlock () .signalFirst
  | .signalFirst => .signal (first p) .signalSecond
  | .signalSecond => .signal (second p) .lock

abbrev State := Conc.State (Fin 5) Unit (Fin 5) Empty Chops Loc

def table₀ : State := start (fun _ => .lock) Empty.elim fun _ => 1

def table : Machine State (Act (Fin 5) Unit) := machine prog table₀

/-! ## Chopsticks -/

/-- Philosopher `p` at `l` has assigned 0 to `chops[c]` and not yet 1. -/
def held (p : Fin 5) (l : Loc) (c : Fin 5) : Prop :=
  match l with
  | .testSecond | .waitSecond | .takeSecond => c = first p
  | .unlock | .relock | .releaseFirst => c = first p ∨ c = second p
  | .releaseSecond => c = second p
  | _ => False

instance (p : Fin 5) (l : Loc) (c : Fin 5) : Decidable (held p l c) := by
  unfold held; cases l <;> infer_instance

/-- The chopstick to which the statement at `l` assigns 0. -/
def Loc.takes (p : Fin 5) : Loc → Option (Fin 5)
  | .takeFirst => some (first p)
  | .takeSecond => some (second p)
  | _ => none

def Holds (s : State) (p c : Fin 5) : Prop := held p (s.pc p) c

/-- No chopstick is held by two philosophers at once. -/
def Exclusive (s : State) : Prop := ∀ c p q, Holds s p c → Holds s q c → p = q

/-- What a step of `t` does to the chopsticks. -/
inductive Change (t : Fin 5) (s s' : State) : Prop
  | same (takes : ∀ l, s.thr t = .run l → l.takes t = none) (mem : s'.mem = s.mem)
      (after : ∀ p c, Holds s' p c ↔ Holds s p c)
  | take (c : Fin 5) (takes : ∃ l, s.thr t = .run l ∧ l.takes t = some c)
      (mem : s'.mem = Function.update s.mem c 0) (before : ¬ Holds s t c)
      (after : ∀ p c', Holds s' p c' ↔ (p = t ∧ c' = c) ∨ Holds s p c')
  | release (c : Fin 5) (takes : ∀ l, s.thr t = .run l → l.takes t = none)
      (mem : s'.mem = Function.update s.mem c 1) (before : Holds s t c)
      (after : ∀ p c', Holds s' p c' ↔ ¬ (p = t ∧ c' = c) ∧ Holds s p c')

theorem first_ne_second (p : Fin 5) : first p ≠ second p := by decide +revert

variable {s s' : State} {t : Fin 5}

/-- Only the chopsticks of the thread that moves can change hands. -/
theorem holds_update {l k : Loc} (hl : s.thr t = .run l) (pc : s'.pc = Function.update s.pc t k)
    {Q : Fin 5 → Fin 5 → Prop} (self : ∀ c, held t k c ↔ Q t c)
    (other : ∀ p c, p ≠ t → (Holds s p c ↔ Q p c)) (p c : Fin 5) : Holds s' p c ↔ Q p c := by
  by_cases e : p = t
  · subst e
    rw [Holds, pc, Function.update_self]
    exact self c
  · rw [Holds, pc, Function.update_of_ne e]
    exact other p c e

theorem change_of_step (hs : Step prog t s s') : Change t s s' := by
  rcases hs.moves with ⟨pc, mem, still⟩ | ⟨l, k, hl, moves, pc⟩
  · exact .same (fun l hl => absurd hl (still l)) mem fun p c => by rw [Holds, pc, Holds]
  have ne := first_ne_second t
  have here : ∀ c, Holds s t c ↔ held t l c := fun c => by rw [Holds, State.pc, hl]; rfl
  have nowhere : l.takes t = none → ∀ l, s.thr t = .run l → l.takes t = none := by
    rintro none l' hl'
    obtain rfl := Status.run.inj (hl.symm.trans hl')
    exact none
  have same : l.takes t = none → s'.mem = s.mem → (∀ c, held t k c ↔ held t l c) →
      Change t s s' := fun none mem after =>
    .same (nowhere none) mem (holds_update hl pc (fun c => (after c).trans (here c).symm)
      fun p c _ => Iff.rfl)
  have take : ∀ c, l.takes t = some c → s'.mem = Function.update s.mem c 0 → ¬ held t l c →
      (∀ c', held t k c' ↔ c' = c ∨ held t l c') → Change t s s' := fun c takes mem before after =>
    .take c ⟨l, hl, takes⟩ mem (mt (here c).1 before) (holds_update hl pc
      (fun c' => by rw [after, here]; simp) fun p c' ne => by simp [ne])
  have release : ∀ c, l.takes t = none → s'.mem = Function.update s.mem c 1 → held t l c →
      (∀ c', held t k c' ↔ c' ≠ c ∧ held t l c') → Change t s s' := fun c none mem before after =>
    .release c (nowhere none) mem ((here c).2 before) (holds_update hl pc
      (fun c' => by rw [after, here]; simp) fun p c' ne => by simp [ne])
  cases l with
  | lock | waitFirst | waitSecond | unlock | relock | unlockAgain | signalFirst | signalSecond =>
      obtain ⟨rfl, mem⟩ := moves
      exact same rfl mem fun c => Iff.rfl
  | testFirst | testSecond =>
      obtain ⟨mem, rfl⟩ := Prod.mk.inj moves
      refine same rfl mem.symm fun c => ?_
      split <;> rfl
  | takeFirst =>
      obtain ⟨mem, rfl⟩ := Prod.mk.inj moves
      exact take (first t) rfl mem.symm id fun c => (or_iff_left id).symm
  | takeSecond =>
      obtain ⟨mem, rfl⟩ := Prod.mk.inj moves
      exact take (second t) rfl mem.symm ne.symm fun c => Or.comm
  | releaseFirst =>
      obtain ⟨mem, rfl⟩ := Prod.mk.inj moves
      refine release (first t) rfl mem.symm (Or.inl rfl) fun c => ?_
      show c = second t ↔ c ≠ first t ∧ (c = first t ∨ c = second t)
      constructor
      · rintro rfl
        exact ⟨ne.symm, Or.inr rfl⟩
      · exact fun h => h.2.resolve_left h.1
  | releaseSecond =>
      obtain ⟨mem, rfl⟩ := Prod.mk.inj moves
      refine release (second t) rfl mem.symm rfl fun c => ?_
      show False ↔ c ≠ second t ∧ c = second t
      simp

/-- A chopstick that is marked as taken is held by somebody. -/
def Taken (s : State) : Prop := ∀ c, s.mem c = 0 → ∃ p, Holds s p c

theorem Taken.step (h : Taken s) (hs : Step prog t s s') : Taken s' := by
  intro c hc
  cases change_of_step hs with
  | same _ mem after =>
      obtain ⟨p, hp⟩ := h c (mem ▸ hc)
      exact ⟨p, (after p c).2 hp⟩
  | take c' _ mem _ after =>
      by_cases e : c = c'
      · exact ⟨t, (after t c).2 (Or.inl ⟨rfl, e⟩)⟩
      · rw [mem, Function.update_of_ne e] at hc
        obtain ⟨p, hp⟩ := h c hc
        exact ⟨p, (after p c).2 (Or.inr hp)⟩
  | release c' _ mem _ after =>
      by_cases e : c = c'
      · subst e
        simp [mem] at hc
      · rw [mem, Function.update_of_ne e] at hc
        obtain ⟨p, hp⟩ := h c hc
        exact ⟨p, (after p c).2 ⟨fun h => e h.2, hp⟩⟩

theorem taken_of_reachable (h : table.Reachable s) : Taken s := by
  have key : table.Inductive Taken := by
    refine machine_inductive (fun c hc => ?_) fun t s s' _ h hs => h.step hs
    exact absurd hc one_ne_zero
  exact key.reachable h

/-! ## No chopstick is fetched twice -/

/-- The step does not assign 0 to a chopstick that is marked as taken. -/
def FetchesFree (a : Act (Fin 5) Unit) (s : State) : Prop :=
  ∀ l c, s.thr a.actor = .run l → l.takes a.actor = some c → s.mem c ≠ 0

/-- Each chopstick has at most one holder, and is marked while it has one. -/
structure Single (s : State) : Prop where
  exclusive : Exclusive s
  marked : ∀ c p, Holds s p c → s.mem c = 0

theorem Single.step {a : Act (Fin 5) Unit} (h : Single s) (ok : FetchesFree a s)
    (hs : table.step a s = some s') : Single s' := by
  cases change_of_step (step_cases hs) with
  | same _ mem after =>
      refine ⟨fun c p q hp hq => h.exclusive c p q ((after p c).1 hp) ((after q c).1 hq), ?_⟩
      intro c p hp
      rw [mem]
      exact h.marked c p ((after p c).1 hp)
  | take c' takes mem _ after =>
      -- the chopstick was free, so nobody held it
      obtain ⟨l, hl, takes⟩ := takes
      have nobody : ∀ p, ¬ Holds s p c' := fun p hp => ok l c' hl takes (h.marked c' p hp)
      refine ⟨fun c p q hp hq => ?_, fun c p hp => ?_⟩
      · rcases (after p c).1 hp with ⟨hp, hc⟩ | hp <;> rcases (after q c).1 hq with ⟨hq, hc'⟩ | hq
        · exact hp.trans hq.symm
        · exact absurd (hc ▸ hq) (nobody q)
        · exact absurd (hc' ▸ hp) (nobody p)
        · exact h.exclusive c p q hp hq
      · rw [mem]
        rcases (after p c).1 hp with ⟨-, rfl⟩ | hp
        · exact Function.update_self ..
        · rw [Function.update_of_ne (by rintro rfl; exact nobody p hp)]
          exact h.marked c p hp
  | release c' _ mem before after =>
      refine ⟨fun c p q hp hq =>
        h.exclusive c p q ((after p c).1 hp).2 ((after q c).1 hq).2, fun c p hp => ?_⟩
      obtain ⟨other, hp⟩ := (after p c).1 hp
      have ne : c ≠ c' := by
        rintro rfl
        exact other ⟨h.exclusive c p _ hp before, rfl⟩
      rw [mem, Function.update_of_ne ne]
      exact h.marked c p hp

/-- Fetching a marked chopstick gives it to a second philosopher. -/
theorem not_exclusive_of_not_fetchesFree {a : Act (Fin 5) Unit} (h : Taken s)
    (ok : ¬ FetchesFree a s) (hs : table.step a s = some s') : ¬ Exclusive s' := by
  simp only [FetchesFree, not_forall, not_not] at ok
  obtain ⟨l, c, hl, takes, marked⟩ := ok
  cases change_of_step (step_cases hs) with
  | same none | release _ none => simp [none l hl] at takes
  | take c' takes' _ before after =>
      obtain ⟨l', hl', takes'⟩ := takes'
      obtain rfl := Status.run.inj (hl.symm.trans hl')
      obtain rfl := Option.some.inj (takes.symm.trans takes')
      obtain ⟨p, hp⟩ := h c marked
      intro exclusive
      have same := exclusive c p _ ((after p c).2 (Or.inr hp)) ((after _ c).2 (Or.inl ⟨rfl, rfl⟩))
      subst same
      exact before hp

/-- In a run, no chopstick is ever held by two philosophers exactly when no step fetches a chopstick
that is marked as taken. -/
theorem exclusive_iff_fetchesFree {as : List (Act (Fin 5) Unit)}
    (h : table.run as table₀ = some s) :
    table.Along Exclusive as table₀ ↔ table.Meets FetchesFree as table₀ := by
  refine Machine.along_iff_meets (I := fun s => table.Reachable s ∧ Single s) (fun _ h => h.2.1)
    (fun a s s' h ok hs => ⟨h.1.step a hs, h.2.step ok hs⟩)
    (fun a s s' h ok hs => not_exclusive_of_not_fetchesFree (taken_of_reachable h.1) ok hs) ?_ h
  refine ⟨.init rfl, fun c p q hp => hp.elim, fun c p hp => hp.elim⟩

/-! ## The mutex -/

/-- The statements between `pthread_mutex_lock` and `pthread_mutex_unlock`. -/
def Loc.locked : Loc → Bool
  | .lock | .relock | .signalFirst | .signalSecond => false
  | _ => true

def Loc.mutex (l : Loc) (_ : Unit) : Prop := l.locked

/-- A philosopher about to wait has just seen the chopstick marked. -/
def Loc.Known (p : Fin 5) (l : Loc) (chops : Chops) : Prop :=
  match l with
  | .waitFirst => chops (first p) = 0
  | .waitSecond => chops (second p) = 0
  | _ => True

theorem prog_respects (p : Fin 5) (l : Loc) : (prog p l).Respects Loc.mutex l := by
  cases l with
  | testFirst | testSecond =>
      intro chops _
      dsimp only
      split <;> exact Iff.rfl
  | takeFirst | takeSecond | releaseFirst | releaseSecond => exact fun _ _ => Iff.rfl
  | _ => simp [prog, Instr.Respects, Loc.mutex, Loc.locked]

theorem prog_keeps (p : Fin 5) (l : Loc) :
    (prog p l).Keeps Loc.mutex (fun _ => True) Loc.Known p l := by
  cases l with
  | testFirst | testSecond =>
      refine fun chops => ⟨fun _ _ => ?_, fun h => absurd rfl h⟩
      dsimp only
      split
      · assumption
      · trivial
  | takeFirst | takeSecond | releaseFirst | releaseSecond =>
      exact fun chops => ⟨fun _ _ => trivial, fun h => absurd rfl h⟩
  | lock | relock => exact fun chops _ => trivial
  | unlock | unlockAgain => exact fun chops _ => trivial
  | waitFirst | waitSecond => exact fun chops => ⟨fun _ => trivial, fun _ => trivial⟩
  | signalFirst | signalSecond => exact fun chops _ _ => trivial

theorem owned (h : table.Reachable s) : Owned Loc.mutex s.thr s.owner :=
  owned_of_reachable (fun _ _ => by simp [Loc.mutex, Loc.locked]) prog_respects h

theorem monitored (h : table.Reachable s) : Monitored Loc.mutex (fun _ => True) Loc.Known s :=
  monitored_of_reachable (fun _ _ => by simp [Loc.mutex, Loc.locked]) trivial prog_respects
    prog_keeps h

theorem valid (h : table.Reachable s) (p : Fin 5) :
    (s.thr p).Valid prog (fun _ => True) p :=
  valid_of_reachable (R := fun _ _ => True) (fun _ => trivial) (fun _ _ _ _ _ => trivial) h p

theorem wait_cases {p c : Fin 5} {m : Unit} {l k : Loc} (h : prog p l = .wait c m k) :
    (c = first p ∧ k = .takeFirst) ∨ (c = second p ∧ k = .takeSecond) := by
  cases l <;> simp only [prog, reduceCtorEq, Instr.wait.injEq] at h
  · exact Or.inl ⟨h.1.symm, h.2.2.symm⟩
  · exact Or.inr ⟨h.1.symm, h.2.2.symm⟩

/-- A philosopher sleeps on one of its own chopsticks. -/
theorem asleep_cases (h : table.Reachable s) {p c : Fin 5} {m : Unit} {k : Loc}
    (hp : s.thr p = .asleep c m k) :
    (c = first p ∧ k = .takeFirst) ∨ (c = second p ∧ k = .takeSecond) := by
  have hv := valid h p
  rw [hp] at hv
  obtain ⟨l, -, hl⟩ := hv
  exact wait_cases hl

/-! ## Waiting -/

/-- The chopstick `c` is one of the two of `p`. -/
def Reaches (p c : Fin 5) : Prop := c = first p ∨ c = second p

/-- Philosopher `p` at `l` holds `c`, or has released it and not yet signalled. -/
def uses (p : Fin 5) (l : Loc) (c : Fin 5) : Prop :=
  match l with
  | .testSecond | .waitSecond | .takeSecond => c = first p
  | .unlock | .relock | .releaseFirst | .releaseSecond | .unlockAgain | .signalFirst => Reaches p c
  | .signalSecond => c = second p
  | _ => False

/-- The philosopher for whose second chopstick `p` reaches first. -/
def neighbour (p : Fin 5) : Fin 5 := p - 1

theorem second_neighbour (p : Fin 5) : second (neighbour p) = first p := by decide +revert

theorem neighbour_ne (p : Fin 5) : neighbour p ≠ p := by decide +revert

/-- Two philosophers reach a chopstick. -/
theorem eq_of_reaches {p q r c : Fin 5} (hp : Reaches p c) (hq : Reaches q c) (hr : Reaches r c)
    (ne : p ≠ q) : r = p ∨ r = q := by
  unfold Reaches at hp hq hr
  decide +revert

theorem reaches_of_uses {p c : Fin 5} {l : Loc} (h : uses p l c) : Reaches p c := by
  cases l <;> first | exact h.elim | exact h | exact Or.inl h | exact Or.inr h

theorem uses_of_held {p c : Fin 5} {l : Loc} (h : held p l c) : uses p l c := by
  cases l <;> first | exact h.elim | exact h | exact Or.inr h

/-- The philosopher has its first chopstick and has not yet decided whether to wait for the
second. -/
def Deciding (x : Status Unit (Fin 5) Loc) : Prop := x = .run .testSecond ∨ x = .run .waitSecond

theorem not_deciding {x : Status Unit (Fin 5) Loc} (test : x ≠ .run .testSecond)
    (wait : x ≠ .run .waitSecond) : ¬ Deciding x := not_or.2 ⟨test, wait⟩

/-- Whoever sleeps is waited for by a neighbour that still has to signal; a philosopher that is
deciding has an awake neighbour; and somebody does not wait for the second chopstick. -/
structure Awaited (s : State) : Prop where
  watched : ∀ p c, (s.thr p).AsleepOn c → ∃ q, q ≠ p ∧ uses q (s.pc q) c
  deciding : ∀ p, Deciding (s.thr p) → ¬ (s.thr (neighbour p)).AsleepOn (first p)
  someone : ∃ p, ¬ (s.thr p).AsleepOn (second p)

variable {x y : Status Unit (Fin 5) Loc}

/-- A thread moves and does not fall asleep. -/
theorem Awaited.move (h : Awaited s) (hx : s.thr t = x) (hy : s'.thr = Function.update s.thr t y)
    (awake : ∀ c, y.AsleepOn c → x.AsleepOn c)
    (use : ∀ c, uses t x.loc c → uses t y.loc c ∨ ∀ u, u ≠ t → ¬ (s.thr u).AsleepOn c)
    (decide : Deciding y → Deciding x ∨ ¬ (s.thr (neighbour t)).AsleepOn (first t)) :
    Awaited s' := by
  have self : s'.thr t = y := by rw [hy, Function.update_self]
  have other : ∀ p, p ≠ t → s'.thr p = s.thr p := fun p ne => by rw [hy, Function.update_of_ne ne]
  have asleep : ∀ p c, (s'.thr p).AsleepOn c → (s.thr p).AsleepOn c := by
    intro p c hp
    by_cases e : p = t
    · subst e; exact hx ▸ awake c (self ▸ hp)
    · exact other p e ▸ hp
  refine ⟨fun p c hp => ?_, fun p hp => ?_, ?_⟩
  · obtain ⟨q, ne, hq⟩ := h.watched p c (asleep p c hp)
    refine ⟨q, ne, ?_⟩
    by_cases e : q = t
    · subst e
      rw [State.pc, hx] at hq
      rw [State.pc, self]
      exact (use c hq).resolve_right fun none => none p ne.symm (asleep p c hp)
    · rwa [State.pc, other q e]
  · apply mt (asleep _ _)
    by_cases e : p = t
    · subst e
      rw [self] at hp
      exact (decide hp).elim (fun hx' => h.deciding p (hx ▸ hx')) id
    · exact h.deciding p (other p e ▸ hp)
  · obtain ⟨p, hp⟩ := h.someone
    exact ⟨p, mt (asleep p _) hp⟩

/-- A thread falls asleep while another one still has to signal, none is deciding, and its neighbour
does not wait for its second chopstick. -/
theorem Awaited.sleep (h : Awaited s) {l k : Loc} {c : Fin 5} (hl : s.thr t = .run l)
    (hk : s'.thr = Function.update s.thr t (.asleep c () k))
    (watch : ∃ q, q ≠ t ∧ uses q (s.pc q) c) (use : ∀ c, uses t l c → uses t k c)
    (alone : ∀ p, p ≠ t → ¬ Deciding (s.thr p))
    (someone : c = second t → ¬ (s.thr (neighbour t)).AsleepOn (second (neighbour t))) :
    Awaited s' := by
  have self : s'.thr t = .asleep c () k := by rw [hk, Function.update_self]
  have other : ∀ p, p ≠ t → s'.thr p = s.thr p := fun p ne => by rw [hk, Function.update_of_ne ne]
  refine ⟨fun p c' hp => ?_, fun p hp => ?_, ?_⟩
  · by_cases e : p = t
    · subst e
      rw [self] at hp
      obtain rfl : c = c' := hp
      obtain ⟨q, ne, hq⟩ := watch
      exact ⟨q, ne, by rwa [State.pc, other q ne]⟩
    · obtain ⟨q, ne, hq⟩ := h.watched p c' (other p e ▸ hp)
      refine ⟨q, ne, ?_⟩
      by_cases e' : q = t
      · subst e'
        rw [State.pc, hl] at hq
        rw [State.pc, self]
        exact use c' hq
      · rwa [State.pc, other q e']
  · by_cases e : p = t
    · subst e
      rw [self] at hp
      rcases hp with hp | hp <;> cases hp
    · exact absurd (other p e ▸ hp) (alone p e)
  · by_cases e : c = second t
    · refine ⟨neighbour t, ?_⟩
      rw [other _ (neighbour_ne t)]
      exact someone e
    · refine ⟨t, ?_⟩
      rw [self]
      exact e

theorem reaches_of_asleepOn (h : table.Reachable s) {p c : Fin 5} (hp : (s.thr p).AsleepOn c) :
    Reaches p c := by
  cases hx : s.thr p with
  | asleep c' m k =>
      obtain rfl : c' = c := by simpa [hx, Status.AsleepOn] using hp
      rcases asleep_cases h hx with ⟨hc, -⟩ | ⟨hc, -⟩
      · exact Or.inl hc
      · exact Or.inr hc
  | run l | woken m k => simp [hx, Status.AsleepOn] at hp

/-- The signal on `c` ends a use of `c`: the one who waited for it is woken. -/
theorem Awaited.signal (hr : table.Reachable s) (h : Awaited s) {l k : Loc} {c : Fin 5}
    (hl : s.thr t = .run l) (ht : Reaches t c)
    (eff : (Instr.signal c k : Instr Unit (Fin 5) Empty Unit Chops Loc).Effect t s s')
    (use : ∀ c', uses t l c' → uses t k c' ∨ c' = c) (undecided : ¬ Deciding (.run k)) :
    Awaited s' := by
  rcases eff with ⟨nobody, rfl⟩ | ⟨u, m, k', ne, hu, rfl⟩
  · refine h.move hl rfl (fun _ e => e.elim) (fun c' e => ?_) fun e => absurd e undecided
    rcases use c' e with e | rfl
    · exact Or.inl e
    · exact Or.inr fun u _ => nobody u
  · have asleep : (s.thr u).AsleepOn c := by rw [hu]; rfl
    have woken : Awaited { s with thr := Function.update s.thr u (.woken m k') } :=
      h.move hu rfl (fun _ e => e.elim) (fun _ e => Or.inl e)
        fun e => absurd e (not_deciding (by simp) (by simp))
    refine woken.move ((Function.update_of_ne ne.symm _ _).trans hl) rfl (fun _ e => e.elim)
      (fun c' e => ?_) fun e => absurd e undecided
    rcases use c' e with e | rfl
    · exact Or.inl e
    · refine Or.inr fun v hv hv' => ?_
      by_cases e : v = u
      · subst e
        simp [Status.AsleepOn] at hv'
      · have hv' : (s.thr v).AsleepOn c' := by simpa [e] using hv'
        rcases eq_of_reaches (reaches_of_asleepOn hr asleep) ht (reaches_of_asleepOn hr hv') ne
          with e' | e'
        · exact e e'
        · exact hv e'

theorem Awaited.step (hr : table.Reachable s) (h : Awaited s) (hs : Step prog t s s') :
    Awaited s' := by
  have taken := taken_of_reachable hr
  have inside := (monitored hr).inside
  have own := owned hr
  cases hs with
  | instr l hl eff =>
      -- while `t` has the mutex, no other philosopher is deciding
      have alone : l.locked → ∀ p, p ≠ t → ¬ Deciding (s.thr p) := by
        intro locked p ne hp
        refine ne (own.unique (m := ()) ?_ (by rw [hl]; exact locked))
        rcases hp with hp | hp <;> rw [hp] <;> rfl
      have holder : ∀ c, s.mem c = 0 → ¬ held t l c → ∃ q, q ≠ t ∧ uses q (s.pc q) c := by
        intro c hc free
        obtain ⟨q, hq⟩ := taken c hc
        refine ⟨q, ?_, uses_of_held hq⟩
        rintro rfl
        rw [Holds, State.pc, hl] at hq
        exact free hq
      cases l with
      | lock | unlock | relock | unlockAgain =>
          obtain ⟨-, rfl⟩ := eff
          exact h.move hl rfl (fun _ e => e.elim) (fun _ e => Or.inl e)
            fun e => absurd e (not_deciding (by simp) (by simp))
      | testFirst =>
          obtain rfl := eff
          refine h.move hl rfl (fun _ e => e.elim) (fun _ e => e.elim) fun e => ?_
          dsimp only at e
          split at e <;> rcases e with e | e <;> cases e
      | waitFirst =>
          obtain ⟨-, rfl⟩ := eff
          exact h.sleep hl rfl (holder _ (inside t _ hl rfl) id) (fun _ e => e.elim) (alone rfl)
            fun e => absurd e (first_ne_second t)
      | takeFirst =>
          obtain rfl := eff
          refine h.move hl rfl (fun _ e => e.elim) (fun _ e => e.elim) fun _ =>
            Or.inr fun asleep => ?_
          obtain ⟨q, ne, hq⟩ := h.watched _ _ asleep
          rcases eq_of_reaches (Or.inr (second_neighbour t).symm) (Or.inl rfl)
            (reaches_of_uses hq) (neighbour_ne t) with e | rfl
          · exact ne e
          · rw [State.pc, hl] at hq
            exact hq
      | testSecond =>
          obtain rfl := eff
          refine h.move hl rfl (fun _ e => e.elim) (fun _ e => Or.inl ?_) fun _ =>
            Or.inl (Or.inl rfl)
          dsimp only
          split <;> exact e
      | waitSecond =>
          obtain ⟨-, rfl⟩ := eff
          refine h.sleep hl rfl (holder _ (inside t _ hl rfl) (first_ne_second t).symm)
            (fun _ e => e) (alone rfl) fun _ => ?_
          rw [second_neighbour]
          exact h.deciding t (Or.inr hl)
      | takeSecond =>
          obtain rfl := eff
          exact h.move hl rfl (fun _ e => e.elim) (fun _ e => Or.inl (Or.inl e))
            fun e => absurd e (not_deciding (by simp) (by simp))
      | releaseFirst | releaseSecond =>
          obtain rfl := eff
          exact h.move hl rfl (fun _ e => e.elim) (fun _ e => Or.inl e)
            fun e => absurd e (not_deciding (by simp) (by simp))
      | signalFirst =>
          exact h.signal hr hl (Or.inl rfl) eff (fun _ e => e.symm)
            (not_deciding (by simp) (by simp))
      | signalSecond =>
          exact h.signal hr hl (Or.inr rfl) eff (fun _ e => Or.inr e)
            (not_deciding (by simp) (by simp))
  | reacquire m k hl free eff =>
      subst eff
      have hv := valid hr t
      rw [hl] at hv
      obtain ⟨l, c, -, hi⟩ := hv
      refine h.move hl rfl (fun _ e => e.elim) (fun _ e => Or.inl e) fun e => ?_
      rcases wait_cases hi with ⟨-, rfl⟩ | ⟨-, rfl⟩ <;> rcases e with e | e <;> cases e
  | spurious c m k hl eff =>
      subst eff
      exact h.move hl rfl (fun _ e => e.elim) (fun _ e => Or.inl e)
        fun e => absurd e (not_deciding (by simp) (by simp))

theorem awaited_of_reachable (h : table.Reachable s) : Awaited s := by
  have key : table.Inductive Awaited := by
    refine machine_inductive ⟨fun p c hp => hp.elim, fun p hp hq => hq, 0, id⟩
      fun t s s' hr h hs => h.step hr hs
  exact key.reachable h

theorem first_injective : Function.Injective first := by decide

theorem exists_not_blocked (h : table.Reachable s) : ∃ p, ¬ Blocked prog s p := by
  by_contra stuck
  simp only [not_exists, not_not] at stuck
  have asleep := asleep_of_blocked prog_respects (owned h) stuck
  have awaited := awaited_of_reachable h
  obtain ⟨p, hp⟩ := awaited.someone
  obtain ⟨c, m, k, hx⟩ := asleep p
  have on : (s.thr p).AsleepOn c := by rw [hx]; rfl
  rcases asleep_cases h hx with ⟨rfl, -⟩ | ⟨rfl, -⟩
  · -- the chopstick is the second one of the neighbour, and an asleep philosopher has no second one
    obtain ⟨q, ne, hq⟩ := awaited.watched p _ on
    obtain ⟨c', m', k', hy⟩ := asleep q
    rw [State.pc, hy] at hq
    rcases asleep_cases h hy with ⟨-, rfl⟩ | ⟨-, rfl⟩
    · exact hq
    · exact ne (first_injective hq).symm
  · exact hp on

/-- In no reachable state are all philosophers asleep or blocked on the mutex, so one of them can go
on without a spurious wakeup. -/
theorem deadlock_free (h : table.Reachable s) :
    (∃ p, ¬ Blocked prog s p) ∧ ∃ a s', table.step a s = some s' ∧ ∀ u, a ≠ .spurious u := by
  obtain ⟨p, hp⟩ := exists_not_blocked h
  exact ⟨⟨p, hp⟩, exists_step_of_not_blocked prog_respects (owned h) hp⟩

/-! ## A chopstick fetched twice -/

/-- Philosopher 1 eats while 0 waits for the chopstick between them; it signals, and has taken the
chopstick again when 0 gets the mutex and goes on. -/
def fetchTwice : List (Act (Fin 5) Unit) :=
  List.replicate 6 (.exec 1) ++ List.replicate 5 (.exec 0) ++ List.replicate 4 (.exec 1) ++
    [.wake 1 0] ++ List.replicate 7 (.exec 1) ++ List.replicate 2 (.exec 0)

theorem not_exclusive_fetchTwice : ∃ s, table.run fetchTwice table₀ = some s ∧
    (∀ a ∈ fetchTwice, ∀ t, a ≠ .spurious t) ∧ ¬ Exclusive s := by
  refine ⟨_, rfl, by decide, fun h => ?_⟩
  have both : (0 : Fin 5) = 1 := h 0 0 1 (Or.inr rfl) (Or.inl rfl)
  exact absurd both (by decide)

theorem exclusive_iff_fetchesFree_fetchTwice : (table.run fetchTwice table₀).isSome ∧
    (table.Along Exclusive fetchTwice table₀ ↔ table.Meets FetchesFree fetchTwice table₀) :=
  ⟨rfl, exclusive_iff_fetchesFree rfl⟩

/-- Philosopher 0 is asleep, and 1 is about to release the chopstick. -/
theorem deadlock_free_fetchTwice : ∃ s, table.Reachable s ∧ (s.thr 0).AsleepOn 0 ∧
    (∃ p, ¬ Blocked prog s p) ∧ ∃ a s', table.step a s = some s' ∧ ∀ u, a ≠ .spurious u := by
  have h := Machine.reachable_of_run (M := table) (fetchTwice.take 11) rfl rfl
  exact ⟨_, h, rfl, deadlock_free h⟩

end LinuxNote.Philosophers
