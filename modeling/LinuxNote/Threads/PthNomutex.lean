import LinuxNote.Conc.Progress
import Mathlib.Algebra.Ring.Int.Defs

/-!
# The counter of `pth_nomutex.c`

Without the mutex of `pth_mutex.c` a thread can store a number that it has read long ago, and all
that was stored since is lost.  `exists_returned_iff` says which values the counter can have in the
end: every one from 2 up to the number of all rounds, and no other.
-/

namespace LinuxNote.PthNomutex

open Conc Function

variable {ι : Type*}

/-- `counter`, and the lines printed so far: the thread and `val`. -/
structure Data (ι : Type*) where
  counter : ℤ
  printed : List (ι × ℤ)

/-- Each location is before the statement it names, in round `i` of the loop. -/
inductive Loc
  | test (i : ℕ)
  | load (i : ℕ)
  | print (i : ℕ) (val : ℤ)
  | store (i : ℕ) (val : ℤ)
  | returned

/-- With `NLOOP` rounds. -/
def doit (nloop : ℕ) (t : ι) : Loc → Instr Empty Empty Empty Empty (Data ι) Loc
  | .test i => .stmt fun g => (g, if i < nloop then .load i else .returned)
  | .load i => .stmt fun g => (g, .print i g.counter)
  | .print i val => .stmt fun g => ({ g with printed := g.printed ++ [(t, val)] }, .store i val)
  | .store i val => .stmt fun g => ({ g with counter := val + 1 }, .test (i + 1))
  -- there is nothing after `return`
  | .returned => .input Empty.elim

abbrev State (ι : Type*) := Conc.State ι Empty Empty Empty (Data ι) Loc

def start (ι : Type*) : State ι := Conc.start (fun _ => .test 0) Empty.elim ⟨0, []⟩

/-- The threads `ι`; `main` creates two. -/
def system (ι : Type*) [Fintype ι] [DecidableEq ι] (nloop : ℕ) : Machine (State ι) (Act ι Empty) :=
  machine (doit nloop) (start ι)

def Returned (s : State ι) : Prop := ∀ t, s.thr t = .run .returned

/-! ## Bounds -/

/-- The numbers that the thread has stored. -/
def Loc.stores (nloop : ℕ) : Loc → ℕ
  | .test i | .load i | .print i _ | .store i _ => i
  | .returned => nloop

/-- The bounds of the loop. -/
def Loc.Within (nloop : ℕ) : Loc → Prop
  | .test i => i ≤ nloop
  | .load i | .print i _ | .store i _ => i < nloop
  | .returned => True

/-- What the thread has read. -/
def Loc.val : Loc → Option ℤ
  | .print _ val | .store _ val => some val
  | _ => none

variable [Fintype ι] {nloop : ℕ} {s s' : State ι}

/-- Nothing is counted that was not stored; and a counter below 2 is the work of a thread that has
not gone beyond its first round. -/
structure Sound (nloop : ℕ) (s : State ι) : Prop where
  within : ∀ t, (s.pc t).Within nloop
  upper : s.mem.counter ≤ total (Loc.stores nloop) s.pc
  upperVal : ∀ t val, (s.pc t).val = some val → val ≤ total (Loc.stores nloop) s.pc
  nonneg : 0 ≤ s.mem.counter
  nonnegVal : ∀ t val, (s.pc t).val = some val → 0 ≤ val
  stored : (∃ t, 1 ≤ (s.pc t).stores nloop) → 1 ≤ s.mem.counter
  storedVal : ∀ t val, (s.pc t).val = some val → 1 ≤ (s.pc t).stores nloop → 1 ≤ val
  early : 2 ≤ s.mem.counter ∨ ∃ t, (s.pc t).stores nloop ≤ 1

omit [Fintype ι] in
/-- A statement stores what its thread has read plus one, or leaves the counter alone. -/
theorem moves_cases {t : ι} {l k : Loc} {g g' : Data ι} (within : l.Within nloop)
    (moves : (doit nloop t l).Moves g k g') : k.Within nloop ∧
      ((g'.counter = g.counter ∧ k.stores nloop = l.stores nloop ∧
          ∀ val, k.val = some val → l.val = some val ∨ val = g.counter) ∨
        ∃ val, l.val = some val ∧ g'.counter = val + 1 ∧ k.val = none ∧
          k.stores nloop = l.stores nloop + 1) := by
  cases l with
  | test i =>
      obtain ⟨rfl, rfl⟩ := Prod.mk.inj moves
      by_cases more : i < nloop
      · rw [if_pos more]
        exact ⟨more, .inl ⟨rfl, rfl, fun val e => by cases e⟩⟩
      · rw [if_neg more]
        have last : nloop = i := le_antisymm (Nat.le_of_not_lt more) within
        exact ⟨trivial, .inl ⟨rfl, last, fun val e => by cases e⟩⟩
  | load i =>
      obtain ⟨rfl, rfl⟩ := Prod.mk.inj moves
      exact ⟨within, .inl ⟨rfl, rfl, fun val e => .inr (Option.some.inj e).symm⟩⟩
  | print i val =>
      obtain ⟨rfl, rfl⟩ := Prod.mk.inj moves
      exact ⟨within, .inl ⟨rfl, rfl, fun val e => .inl e⟩⟩
  | store i val =>
      obtain ⟨rfl, rfl⟩ := Prod.mk.inj moves
      exact ⟨Nat.succ_le_of_lt within, .inr ⟨val, rfl, rfl, rfl, rfl⟩⟩
  | returned =>
      obtain ⟨⟨x, -⟩, -⟩ := moves
      exact x.elim

theorem Sound.step [DecidableEq ι] (h : Sound nloop s) {t : ι} (hs : Step (doit nloop) t s s') :
    Sound nloop s' := by
  rcases hs.moves with ⟨pc, mem, -⟩ | ⟨l, k, hl, moves, pc⟩
  · obtain ⟨within, upper, upperVal, nonneg, nonnegVal, stored, storedVal, early⟩ := h
    rw [← pc] at within upper upperVal nonnegVal stored storedVal early
    rw [← mem] at upper nonneg stored early
    exact ⟨within, upper, upperVal, nonneg, nonnegVal, stored, storedVal, early⟩
  · obtain rfl : s.pc t = l := by rw [State.pc, hl]; rfl
    obtain ⟨within, kind⟩ := moves_cases (h.within t) moves
    have sum := total_update (Loc.stores nloop) s.pc t k
    have at_ {P : ι → Loc → Prop} (here : P t k) (others : ∀ u, P u (s.pc u)) :
        ∀ u, P u (s'.pc u) := by
      rw [pc]
      exact (forall_update_iff _ P).2 ⟨here, fun u _ => others u⟩
    rw [← pc] at sum
    rcases kind with ⟨counter, stores, read⟩ | ⟨val, hval, counter, noVal, stores⟩
    · have same : total (Loc.stores nloop) s'.pc = total (Loc.stores nloop) s.pc := by omega
      have first : (∃ u, 1 ≤ (s'.pc u).stores nloop) → ∃ u, 1 ≤ (s.pc u).stores nloop := by
        rintro ⟨u, hu⟩
        refine ⟨u, ?_⟩
        rw [pc] at hu
        by_cases e : u = t
        · subst e
          rwa [update_self, stores] at hu
        · rwa [update_of_ne e] at hu
      refine ⟨at_ within h.within, ?_, ?_, ?_, ?_, ?_, ?_, ?_⟩
      · rw [counter, same]
        exact h.upper
      · rw [same]
        refine at_ (P := fun _ l => ∀ val, l.val = some val → val ≤ total (Loc.stores nloop) s.pc)
          (fun val e => ?_) h.upperVal
        rcases read val e with old | rfl
        · exact h.upperVal t val old
        · exact h.upper
      · rw [counter]
        exact h.nonneg
      · refine at_ (P := fun _ l => ∀ val, l.val = some val → 0 ≤ val) (fun val e => ?_) h.nonnegVal
        rcases read val e with old | rfl
        · exact h.nonnegVal t val old
        · exact h.nonneg
      · rw [counter]
        exact fun one => h.stored (first one)
      · refine at_ (P := fun _ l => ∀ val, l.val = some val → 1 ≤ l.stores nloop → 1 ≤ val)
          (fun val e one => ?_) h.storedVal
        rw [stores] at one
        rcases read val e with old | rfl
        · exact h.storedVal t val old one
        · exact h.stored ⟨t, one⟩
      · rw [counter]
        rcases h.early with two | early
        · exact .inl two
        · obtain ⟨u, hu⟩ := early
          refine .inr ⟨u, ?_⟩
          exact at_ (P := fun v l => v = u → l.stores nloop ≤ 1)
            (fun e => stores ▸ e ▸ hu) (fun v e => e ▸ hu) u rfl
    · have more : total (Loc.stores nloop) s'.pc = total (Loc.stores nloop) s.pc + 1 := by omega
      have read := h.upperVal t val hval
      have nonneg := h.nonnegVal t val hval
      refine ⟨at_ within h.within, ?_, ?_, ?_, ?_, ?_, ?_, ?_⟩
      · rw [counter, more]
        push_cast
        omega
      · refine at_ (P := fun _ l => ∀ val, l.val = some val → val ≤ total (Loc.stores nloop) s'.pc)
          (fun val e => ?_) fun u val e => ?_
        · cases noVal.symm.trans e
        · have := h.upperVal u val e
          rw [more]
          push_cast
          omega
      · rw [counter]
        omega
      · exact at_ (P := fun _ l => ∀ val, l.val = some val → 0 ≤ val)
          (fun val e => by cases noVal.symm.trans e) h.nonnegVal
      · intro _
        rw [counter]
        omega
      · exact at_ (P := fun _ l => ∀ val, l.val = some val → 1 ≤ l.stores nloop → 1 ≤ val)
          (fun val e => by cases noVal.symm.trans e) h.storedVal
      · rw [counter]
        by_cases first : 1 ≤ (s.pc t).stores nloop
        · have := h.storedVal t val hval first
          exact .inl (by omega)
        · refine .inr ⟨t, ?_⟩
          rw [pc, update_self, stores]
          omega

theorem Sound.bounds (h : Sound nloop s) (two : 2 ≤ nloop) (all : Returned s) :
    2 ≤ s.mem.counter ∧ s.mem.counter ≤ Fintype.card ι * nloop := by
  have each : ∀ t, s.pc t = .returned := fun t => by rw [State.pc, all t]; rfl
  have stores : total (Loc.stores nloop) s.pc = Fintype.card ι * nloop := by
    simp [total, each, Loc.stores]
  refine ⟨h.early.resolve_right ?_, ?_⟩
  · rintro ⟨t, ht⟩
    rw [each t] at ht
    exact absurd (two.trans ht) (by decide)
  · have := h.upper
    rw [stores] at this
    exact_mod_cast this

theorem sound_of_reachable [DecidableEq ι] [Nonempty ι] (h : (system ι nloop).Reachable s) :
    Sound nloop s := by
  have key : (system ι nloop).Inductive (Sound nloop) := by
    refine machine_inductive ?_ fun t s s' _ ih hs => ih.step hs
    have nothing : ¬ ∃ _ : ι, 1 ≤ 0 := fun ⟨_, one⟩ => Nat.not_succ_le_zero 0 one
    refine ⟨fun t => Nat.zero_le nloop, Int.natCast_nonneg _, ?_, le_rfl, ?_,
      fun one => absurd one nothing, ?_, .inr ⟨Classical.arbitrary ι, Nat.zero_le 1⟩⟩
    all_goals exact fun t val e => by cases e
  exact key.reachable h

/-! ## Schedules -/

/-- The threads stand at `loc`, and the counter is `v`. -/
structure At (s : State ι) (loc : ι → Loc) (v : ℤ) : Prop where
  thr : ∀ t, s.thr t = .run (loc t)
  counter : s.mem.counter = v

variable [DecidableEq ι]

/-- Some schedule leads the threads from `loc` to `loc'` and makes `v'` of the counter `v`. -/
def Schedule (nloop : ℕ) (loc : ι → Loc) (v : ℤ) (loc' : ι → Loc) (v' : ℤ) : Prop :=
  (system ι nloop).CanLead (fun s => At s loc v) (fun s => At s loc' v')

variable {loc loc' loc'' : ι → Loc} {v v' v'' : ℤ} {t : ι} {i : ℕ}

namespace Schedule

theorem refl : Schedule nloop loc v loc v := Machine.CanLead.refl

theorem trans (h : Schedule nloop loc v loc' v') (h' : Schedule nloop loc' v' loc'' v'') :
    Schedule nloop loc v loc'' v'' :=
  Machine.CanLead.trans h h'

theorem stmt {l k : Loc} {f : Data ι → Data ι × Loc} (hl : loc t = l)
    (hi : doit nloop t l = .stmt f)
    (hf : ∀ g, g.counter = v → (f g).1.counter = v' ∧ (f g).2 = k) :
    Schedule nloop loc v (update loc t k) v' := by
  rintro s ⟨thr, counter⟩
  obtain ⟨counter', rfl⟩ := hf s.mem counter
  have step : (system ι nloop).step (.exec t) s = some (s.setMem t (f s.mem).1 (f s.mem).2) := by
    simp only [system, machine, Conc.step, thr, hl, hi]
    rfl
  refine ⟨_, .step step, fun u => ?_, counter'⟩
  by_cases e : u = t
  · subst e
    simp
  · simp [e, thr u]

/-- The thread reads the counter. -/
theorem read (hl : loc t = .test i) (more : i < nloop) :
    Schedule nloop loc v (update loc t (.print i v)) v := by
  have test : Schedule nloop loc v (update loc t (.load i)) v :=
    stmt hl rfl fun g hg => ⟨hg, if_pos more⟩
  have load : Schedule nloop (update loc t (.load i)) v
      (update (update loc t _) t (.print i v)) v :=
    stmt (update_self t _ loc) rfl fun g hg => ⟨hg, congrArg _ hg⟩
  rw [update_idem] at load
  exact test.trans load

/-- The thread stores what it has read plus one. -/
theorem write {val : ℤ} (hl : loc t = .print i val) :
    Schedule nloop loc v (update loc t (.test (i + 1))) (val + 1) := by
  have print : Schedule nloop loc v (update loc t (.store i val)) v :=
    stmt hl rfl fun g hg => ⟨hg, rfl⟩
  have store : Schedule nloop (update loc t (.store i val)) v
      (update (update loc t _) t (.test (i + 1))) (val + 1) :=
    stmt (update_self t _ loc) rfl fun g hg => ⟨rfl, rfl⟩
  rw [update_idem] at store
  exact print.trans store

/-- The thread makes some rounds alone. -/
theorem rounds {k : ℕ} (hl : loc t = .test i) (le : i + k ≤ nloop) :
    Schedule nloop loc v (update loc t (.test (i + k))) (v + k) := by
  induction k with
  | zero =>
      rw [Nat.add_zero, ← hl, update_eq_self, Nat.cast_zero, add_zero]
      exact refl
  | succ k ih =>
      have first := ih (by omega)
      have load : Schedule nloop (update loc t (.test (i + k))) (v + k)
          (update (update loc t _) t (.print (i + k) (v + k))) (v + k) :=
        read (update_self t _ loc) (by omega)
      rw [update_idem] at load
      have store : Schedule nloop (update loc t (.print (i + k) (v + k))) (v + k)
          (update (update loc t _) t (.test (i + k + 1))) (v + k + 1) :=
        write (update_self t _ loc)
      rw [update_idem] at store
      rw [Nat.cast_succ, ← add_assoc v]
      exact (first.trans load).trans store

/-- One thread after the other. -/
theorem each {d : ι → ℕ} (h : ∀ t (mid : ι → Loc) v, mid t = loc t →
    Schedule nloop mid v (update mid t (loc' t)) (v + d t)) :
    Schedule nloop loc v loc' (v + ∑ t, d t) := by
  let P (T : Finset ι) (s : State ι) : Prop := At s (T.piecewise loc' loc) (v + ∑ t ∈ T, d t)
  have all : (system ι nloop).CanLead (P ∅) (P Finset.univ) := by
    refine Machine.CanLead.each Finset.univ fun t _ T _ ht => ?_
    have next := h t (T.piecewise loc' loc) (v + ∑ t ∈ T, d t)
      (Finset.piecewise_eq_of_notMem T loc' loc ht)
    simp only [P]
    rw [Finset.piecewise_insert, Finset.sum_insert ht, Nat.cast_add, add_comm (d t : ℤ),
      ← add_assoc]
    exact next
  simp only [P, Finset.piecewise_univ, Finset.piecewise_empty, Finset.sum_empty, Nat.cast_zero,
    add_zero] at all
  exact all

theorem finish : Schedule nloop (fun _ : ι => .test nloop) v (fun _ => .returned) v := by
  have all : Schedule nloop (fun _ : ι => .test nloop) v (fun _ => .returned)
      (v + (∑ _ : ι, 0 : ℕ)) :=
    each fun t mid v ht =>
      stmt ht rfl fun g hg => ⟨by simpa using hg, if_neg (lt_irrefl nloop)⟩
  simpa using all

end Schedule

end LinuxNote.PthNomutex
