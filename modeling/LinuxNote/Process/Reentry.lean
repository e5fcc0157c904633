import LinuxNote.Conc.Progress
import Mathlib.Algebra.Ring.Int.Defs

/-!
# The function of `signal/main.c` that is entered again

`main` calls `test`, and so does the handler for SIGINT, which can run between any two accesses of
`main` to `a` and `b` and runs to its end before `main` goes on.  An `a++` that is interrupted
forgets what the handler has added.  But the calls that the first `++` forgets come before those
that the second one forgets, so each call of the handler loses at most one of its two (`Between`).

From this follow the lines that the handler can print (`exists_told_iff`) and the sum that `main`
can (`exists_sum_iff`): all numbers between the bounds, and no others.
-/

namespace LinuxNote.Reentry

open Conc

/-- `a` and `b`. -/
structure Globals where
  a : ℤ
  b : ℤ

/-- Each location of `test` is before the access it names; `sumFirst` and `sumSecond` read the
operands of `a + b`. -/
inductive Loc
  | loadA
  | storeA (a : ℤ)
  | sleep
  | loadB
  | storeB (b : ℤ)
  | sumFirst
  | sumSecond (first : ℤ)
  | print (sum : ℤ)
  | returned
  deriving DecidableEq

/-- The compiler chooses whether `a` is the first operand to be read. -/
def test (aFirst : Bool) : Loc → Globals → Globals × Loc
  | .loadA, g => (g, .storeA g.a)
  | .storeA a, g => ({ g with a := a + 1 }, .sleep)
  | .sleep, g => (g, .loadB)
  | .loadB, g => (g, .storeB g.b)
  | .storeB b, g => ({ g with b := b + 1 }, .sumFirst)
  | .sumFirst, g => (g, .sumSecond (if aFirst then g.a else g.b))
  | .sumSecond first, g => (g, .print (first + if aFirst then g.b else g.a))
  | .print _, g => (g, .returned)
  | .returned, g => (g, .returned)

/-- What `printf` shows. -/
def Loc.line : Loc → Option ℤ
  | .print sum => some sum
  | _ => none

/-- `main` has called `signal` and is in `test`; a handler that runs is in `test` too.  `told` has
the lines of the handler and `sum` that of `main`. -/
structure Proc where
  globals : Globals
  pending : Bool
  main : Loc
  handler : Option Loc
  told : List ℤ
  sum : Option ℤ

/-- SIGINT comes, the handler for it begins, or the process takes a step. -/
inductive Act
  | post
  | deliver
  | step

/-- The next step of the process: of the handler where it runs, and of `main` otherwise. -/
def Proc.next (aFirst : Bool) (s : Proc) : Proc :=
  match s.handler with
  | some .returned => { s with handler := none }
  | some l =>
      { s with
        globals := (test aFirst l s.globals).1
        handler := some (test aFirst l s.globals).2
        told := match l.line with
          | some line => s.told ++ [line]
          | none => s.told }
  | none =>
      { s with
        globals := (test aFirst s.main s.globals).1
        main := (test aFirst s.main s.globals).2
        sum := s.main.line.or s.sum }

/-- SIGINT is blocked while the handler runs.  When `test` returns to `main`, the process exits. -/
def step (aFirst : Bool) (act : Act) (s : Proc) : Option Proc :=
  if s.main = .returned then none
  else
    match act with
    | .post => some { s with pending := true }
    | .deliver =>
        if s.pending ∧ s.handler = none then
          some { s with pending := false, handler := some .loadA }
        else none
    | .step => some (s.next aFirst)

def started : Proc := ⟨⟨0, 0⟩, false, .loadA, none, [], none⟩

def process (aFirst : Bool) : Machine Proc Act where
  init s := s = started
  step := step aFirst

/-! ## Bounds -/

/-- What `a` and `b` can be when `k` calls of the handler have run and `main` stands at the
location. -/
def Between (aFirst : Bool) (k : ℕ) : Loc → Globals → Prop
  | .loadA, g => g.a = k ∧ g.b = k
  | .storeA a, g => g.a = k ∧ g.b = k ∧ 0 ≤ a ∧ a ≤ k
  | .sleep, g | .loadB, g => g.b = k ∧ 1 ≤ g.a ∧ g.a ≤ k + 1
  | .storeB b, g => g.b = k ∧ g.a ≤ k + 1 ∧ 0 ≤ b ∧ b ≤ k ∧ k + 1 ≤ g.a + b
  | .sumFirst, g => g.a ≤ k + 1 ∧ g.b ≤ k + 1 ∧ k + 2 ≤ g.a + g.b
  | .sumSecond first, g => g.a ≤ k + 1 ∧ g.b ≤ k + 1 ∧ k + 2 ≤ g.a + g.b ∧ first ≤ k + 1 ∧
      k + 2 ≤ first + if aFirst then g.b else g.a
  | .print sum, g => g.a ≤ k + 1 ∧ g.b ≤ k + 1 ∧ k + 2 ≤ g.a + g.b ∧ 2 ≤ sum ∧ sum ≤ 2 * k + 2
  | .returned, g => g.a ≤ k + 1 ∧ g.b ≤ k + 1 ∧ k + 2 ≤ g.a + g.b

/-- What the `j`-th call of the handler can print. -/
def Tells (j : ℕ) (line : ℤ) : Prop := min (2 * j) (j + 2) ≤ line ∧ line ≤ 2 * j + 2

variable {aFirst : Bool} {k : ℕ} {l : Loc} {g : Globals} {s s' : Proc}

theorem Between.main (h : Between aFirst k l g) :
    Between aFirst k (test aFirst l g).2 (test aFirst l g).1 := by
  cases l with
  | sumFirst | sumSecond first =>
      cases aFirst <;> simp [Between, test] at h ⊢ <;> omega
  | _ =>
      simp only [Between, test] at h ⊢
      omega

/-- A whole call of the handler. -/
theorem Between.call (h : Between aFirst k l g) :
    Between aFirst (k + 1) l ⟨g.a + 1, g.b + 1⟩ := by
  cases l with
  | sumSecond first =>
      cases aFirst <;> simp [Between] at h ⊢ <;> omega
  | _ =>
      simp only [Between] at h ⊢
      push_cast
      omega

theorem Between.tells (h : Between aFirst k l g) : Tells (k + 1) (g.a + 1 + (g.b + 1)) := by
  unfold Tells
  cases l <;> simp only [Between] at h <;> push_cast <;> omega

/-- The handler has begun with `g₀` and stands at the location. -/
def Runs (aFirst : Bool) (g₀ : Globals) : Loc → Globals → Prop
  | .loadA, g => g = g₀
  | .storeA a, g => g = g₀ ∧ a = g₀.a
  | .sleep, g | .loadB, g => g = ⟨g₀.a + 1, g₀.b⟩
  | .storeB b, g => g = ⟨g₀.a + 1, g₀.b⟩ ∧ b = g₀.b
  | .sumFirst, g | .returned, g => g = ⟨g₀.a + 1, g₀.b + 1⟩
  | .sumSecond first, g =>
      g = ⟨g₀.a + 1, g₀.b + 1⟩ ∧ first = if aFirst then g₀.a + 1 else g₀.b + 1
  | .print sum, g => g = ⟨g₀.a + 1, g₀.b + 1⟩ ∧ sum = g₀.a + 1 + (g₀.b + 1)

theorem Runs.handler {g₀ : Globals} (h : Runs aFirst g₀ l g) :
    Runs aFirst g₀ (test aFirst l g).2 (test aFirst l g).1 := by
  cases l with
  | loadA | sumFirst =>
      obtain rfl := h
      exact ⟨rfl, rfl⟩
  | loadB =>
      obtain rfl := h
      exact ⟨rfl, rfl⟩
  | sleep | returned => exact h
  | print sum => exact h.1
  | storeA a | storeB b =>
      obtain ⟨rfl, rfl⟩ := h
      rfl
  | sumSecond first =>
      obtain ⟨rfl, rfl⟩ := h
      refine ⟨rfl, ?_⟩
      cases aFirst with
      | false => exact add_comm _ _
      | true => rfl

/-- Whether the call of the handler has printed its line. -/
def Loc.printed : Loc → ℕ
  | .returned => 1
  | _ => 0

structure Sound (aFirst : Bool) (s : Proc) : Prop where
  told : ∀ j line, s.told[j]? = some line → Tells (j + 1) line
  sum : ∀ v, s.sum = some v → 2 ≤ v ∧ v ≤ 2 * s.told.length + 2
  main : s.handler = none → Between aFirst s.told.length s.main s.globals
  handler : ∀ l, s.handler = some l → ∃ k g₀, s.told.length = k + l.printed ∧
    Between aFirst k s.main g₀ ∧ Runs aFirst g₀ l s.globals

/-- A call that prints its line. -/
theorem Sound.print {sum : ℤ} (h : Sound aFirst s) (hl : s.handler = some (.print sum)) :
    ∀ j line, (s.told ++ [sum])[j]? = some line → Tells (j + 1) line := by
  obtain ⟨k, g₀, length, between, -, rfl⟩ := h.handler _ hl
  have length : s.told.length = k := length
  intro j line at_
  by_cases old : j < s.told.length
  · rw [List.getElem?_append_left old] at at_
    exact h.told j line at_
  · obtain rfl : j = k := by
      have inside := (List.getElem?_eq_some_iff.1 at_).1
      rw [List.length_append, List.length_singleton] at inside
      omega
    rw [← length, List.getElem?_concat_length, Option.some.injEq] at at_
    rw [← at_]
    exact between.tells

theorem Sound.next (h : Sound aFirst s) : Sound aFirst (s.next aFirst) := by
  cases here : s.handler with
  | none =>
      have between := h.main here
      simp only [Proc.next, here]
      refine ⟨h.told, fun v hv => ?_, fun _ => between.main, nofun⟩
      rcases Option.or_eq_some_iff.1 hv with printed | ⟨-, old⟩
      · cases hm : s.main with
        | print sum =>
            rw [hm] at between printed
            obtain rfl := Option.some.inj printed
            exact between.2.2.2
        | _ => simp [hm, Loc.line] at printed
      · exact h.sum v old
  | some l =>
      obtain ⟨k, g₀, length, between, runs⟩ := h.handler l here
      cases l with
      | returned =>
          have runs : s.globals = ⟨g₀.a + 1, g₀.b + 1⟩ := runs
          have length : s.told.length = k + 1 := length
          simp only [Proc.next, here]
          refine ⟨h.told, h.sum, fun _ => ?_, nofun⟩
          simp only [runs, length]
          exact between.call
      | print sum =>
          have length : s.told.length = k := length
          simp only [Proc.next, here]
          refine ⟨h.print here, fun v hv => ?_, nofun, fun l hl => ?_⟩
          · have old := h.sum v hv
            simp only [Loc.line, List.length_append, List.length_singleton]
            omega
          · obtain rfl := Option.some.inj hl
            refine ⟨k, g₀, ?_, between, runs.handler⟩
            simp [length, Loc.line, Loc.printed, test]
      | _ =>
          simp only [Proc.next, here, Loc.line]
          refine ⟨h.told, h.sum, nofun, fun l hl => ?_⟩
          obtain rfl := Option.some.inj hl
          exact ⟨k, g₀, length, between, runs.handler⟩

theorem sound_of_reachable (h : (process aFirst).Reachable s) : Sound aFirst s := by
  have key : (process aFirst).Inductive (Sound aFirst) := by
    constructor
    · rintro s rfl
      exact ⟨nofun, nofun, fun _ => ⟨rfl, rfl⟩, nofun⟩
    · intro act s s' _ ih hs
      obtain ⟨-, hs⟩ := Option.ite_none_left_eq_some.1 hs
      cases act with
      | post =>
          obtain rfl := Option.some.inj hs
          exact ⟨ih.told, ih.sum, ih.main, ih.handler⟩
      | deliver =>
          obtain ⟨⟨-, none_⟩, hs⟩ := Option.ite_none_right_eq_some.1 hs
          obtain rfl := Option.some.inj hs
          refine ⟨ih.told, ih.sum, nofun, fun l hl => ?_⟩
          obtain rfl := Option.some.inj hl
          exact ⟨_, _, rfl, ih.main none_, rfl⟩
      | step =>
          obtain rfl := Option.some.inj hs
          exact ih.next
  exact key.reachable h

/-! ## Schedules -/

/-- No handler runs, `k` calls of it have printed, and `main` stands at the location. -/
structure At (l : Loc) (g : Globals) (k : ℕ) (s : Proc) : Prop where
  main : s.main = l
  handler : s.handler = none
  globals : s.globals = g
  told : s.told.length = k

theorem canLead_main (going : l ≠ .returned) : (process aFirst).CanLead (At l g k)
    (At (test aFirst l g).2 (test aFirst l g).1 k) := by
  rintro s ⟨rfl, handler, rfl, rfl⟩
  have step : (process aFirst).step .step s = some (s.next aFirst) := if_neg going
  refine ⟨_, .step step, ?_, ?_, ?_, ?_⟩ <;> simp [Proc.next, handler]

/-- A whole call of the handler. -/
theorem canLead_call (aFirst : Bool) (going : l ≠ .returned) : (process aFirst).CanLead (At l g k)
    (fun s => At l ⟨g.a + 1, g.b + 1⟩ (k + 1) s ∧ s.told[k]? = some (g.a + 1 + (g.b + 1))) := by
  rintro ⟨globals, pending, main, handler, told, sum⟩ ⟨rfl, rfl, rfl, rfl⟩
  let line := if aFirst then globals.a + 1 + (globals.b + 1) else globals.b + 1 + (globals.a + 1)
  let s' : Proc := ⟨⟨globals.a + 1, globals.b + 1⟩, false, main, none, told ++ [line], sum⟩
  have run : (process aFirst).run ([.post, .deliver] ++ List.replicate 9 .step)
      ⟨globals, pending, main, none, told, sum⟩ = some s' := by
    cases main with
    | returned => exact absurd rfl going
    | _ => cases aFirst <;> rfl
  have reads : line = globals.a + 1 + (globals.b + 1) := by
    cases aFirst with
    | false => exact add_comm _ _
    | true => rfl
  exact ⟨s', ⟨_, run⟩, ⟨rfl, rfl, rfl, by simp [s']⟩, by simp [s', reads]⟩

theorem canLead_calls (aFirst : Bool) (going : l ≠ .returned) (n : ℕ) :
    (process aFirst).CanLead (At l g k) (At l ⟨g.a + n, g.b + n⟩ (k + n)) := by
  induction n with
  | zero =>
      simp only [Nat.cast_zero, add_zero]
      exact .refl
  | succ n ih =>
      refine ih.trans fun s hs => ?_
      obtain ⟨s', reach, at_, -⟩ := canLead_call aFirst going s hs
      rw [Nat.cast_succ, ← add_assoc, ← add_assoc]
      exact ⟨s', reach, at_⟩

/-- After `n` calls more the handler is called once more. -/
theorem canLead_told (going : l ≠ .returned) (n : ℕ) {j : ℕ} {line : ℤ} (hj : k + n = j)
    (hline : g.a + g.b + 2 * n + 2 = line) :
    (process aFirst).CanLead (At l g k) (fun s => s.told[j]? = some line) := by
  refine (canLead_calls aFirst going n).trans fun s hs => ?_
  obtain ⟨s', reach, -, told⟩ := canLead_call aFirst going s hs
  refine ⟨s', reach, hj ▸ told.trans (congrArg some ?_)⟩
  simp only
  omega

/-- `main` prints. -/
theorem canLead_sum {sum : ℤ} : (process aFirst).CanLead (At (.print sum) g k)
    (fun s => s.told.length = k ∧ s.sum = some sum) := by
  rintro s ⟨main, handler, rfl, rfl⟩
  have step : (process aFirst).step .step s = some (s.next aFirst) := by
    refine if_neg ?_
    rw [main]
    exact nofun
  refine ⟨_, .step step, ?_⟩
  simp [Proc.next, handler, main, Loc.line]

/-- `main` comes to its second `++`, and its first one has forgotten `n` calls of the handler. -/
theorem canLead_loadB (n : ℕ) :
    (process aFirst).CanLead (At .loadA ⟨0, 0⟩ 0) (At .loadB ⟨1, n⟩ n) := by
  have load : (process aFirst).CanLead (At .loadA ⟨0, 0⟩ 0) (At (.storeA 0) ⟨0, 0⟩ 0) :=
    canLead_main (by simp)
  have calls := canLead_calls (l := .storeA 0) (g := ⟨0, 0⟩) (k := 0) aFirst (by simp) n
  simp only [zero_add] at calls
  have store : (process aFirst).CanLead (At (.storeA 0) ⟨n, n⟩ n) (At .sleep ⟨1, n⟩ n) :=
    canLead_main (by simp)
  have wake : (process aFirst).CanLead (At .sleep ⟨1, n⟩ n) (At .loadB ⟨1, n⟩ n) :=
    canLead_main (by simp)
  exact ((load.trans calls).trans store).trans wake

/-- `main` comes behind its second `++`, which has forgotten `n` calls of the handler; `m` calls
came before it. -/
theorem canLead_print (m n : ℕ) : (process aFirst).CanLead (At .loadB ⟨1, 0⟩ 0)
    (At (.print (2 + 2 * m + n)) ⟨1 + m + n, m + 1⟩ (m + n)) := by
  have early := canLead_calls (l := .loadB) (g := ⟨1, 0⟩) (k := 0) aFirst (by simp) m
  simp only [zero_add] at early
  have load : (process aFirst).CanLead (At .loadB ⟨1 + m, m⟩ m) (At (.storeB m) ⟨1 + m, m⟩ m) :=
    canLead_main (by simp)
  have late := canLead_calls (l := .storeB m) (g := ⟨1 + m, m⟩) (k := m) aFirst (by simp) n
  have store : (process aFirst).CanLead (At (.storeB m) ⟨1 + m + n, m + n⟩ (m + n))
      (At .sumFirst ⟨1 + m + n, m + 1⟩ (m + n)) :=
    canLead_main (by simp)
  have first : (process aFirst).CanLead (At .sumFirst ⟨1 + m + n, m + 1⟩ (m + n))
      (At (.sumSecond (if aFirst then 1 + m + n else m + 1)) ⟨1 + m + n, m + 1⟩ (m + n)) :=
    canLead_main (by simp)
  have second : (process aFirst).CanLead
      (At (.sumSecond (if aFirst then 1 + m + n else m + 1)) ⟨1 + m + n, m + 1⟩ (m + n))
      (At (.print (2 + 2 * m + n)) ⟨1 + m + n, m + 1⟩ (m + n)) := by
    have sum : (2 + 2 * m + n : ℤ) = (if aFirst then 1 + m + n else m + 1 : ℤ) +
        if aFirst then (m + 1 : ℤ) else 1 + m + n := by
      cases aFirst <;> simp <;> omega
    rw [sum]
    exact canLead_main (by simp)
  exact ((((early.trans load).trans late).trans store).trans first).trans second

/-! ## What is printed -/

/-- The `j`-th line of the handler, the first one for `j = 0`. -/
theorem exists_told_iff {j : ℕ} {line : ℤ} :
    (∃ s, (process aFirst).Reachable s ∧ s.told[j]? = some line) ↔ Tells (j + 1) line := by
  constructor
  · rintro ⟨s, h, told⟩
    exact (sound_of_reachable h).told j line told
  · rintro ⟨low, high⟩
    push_cast at low high
    have schedule : (process aFirst).CanLead (At .loadA ⟨0, 0⟩ 0)
        (fun s => s.told[j]? = some line) := by
      by_cases before : line = 2 * (j + 1)
      · -- all calls come before `main` reads `a`
        exact canLead_told (by simp) j (Nat.zero_add j) (by simp only; omega)
      by_cases behind : line = 2 * (j + 1) + 2
      · -- all calls come behind the second `++`
        exact ((canLead_loadB 0).trans (canLead_print 0 0)).trans
          (canLead_told (by simp) j (Nat.zero_add j) (by simp only; omega))
      · -- the first `++` forgets some calls, and the others come before the second one
        obtain ⟨n, hn⟩ := Int.eq_ofNat_of_zero_le (show 0 ≤ 2 * (j + 1) + 1 - line by omega)
        exact (canLead_loadB n).trans
          (canLead_told (by simp) (j - n) (by omega) (by simp only; omega))
    obtain ⟨s, reach, told⟩ := schedule started ⟨rfl, rfl, rfl, rfl⟩
    exact ⟨s, reach.reachable (.init rfl), told⟩

/-- The sum that `main` prints, where the handler has printed `k` lines. -/
theorem exists_sum_iff {k : ℕ} {v : ℤ} :
    (∃ s, (process aFirst).Reachable s ∧ s.told.length = k ∧ s.sum = some v) ↔
      2 ≤ v ∧ v ≤ 2 * k + 2 := by
  constructor
  · rintro ⟨s, h, rfl, sum⟩
    exact (sound_of_reachable h).sum v sum
  · rintro ⟨low, high⟩
    obtain ⟨m, hm⟩ := Int.eq_ofNat_of_zero_le (show 0 ≤ v - 2 by omega)
    have calls := canLead_calls (l := .print (2 + 2 * (m / 2 : ℕ) + (m % 2 : ℕ)))
      (g := ⟨1 + (m / 2 : ℕ) + (m % 2 : ℕ), (m / 2 : ℕ) + 1⟩) (k := m / 2 + m % 2) aFirst (by simp)
      (k - (m / 2 + m % 2))
    obtain ⟨s, reach, length, sum⟩ :=
      (((canLead_loadB 0).trans (canLead_print (m / 2) (m % 2))).trans
        (calls.trans canLead_sum)) started ⟨rfl, rfl, rfl, rfl⟩
    exact ⟨s, reach.reachable (.init rfl), by omega, sum.trans (congrArg some (by omega))⟩

end LinuxNote.Reentry
