import LinuxNote.Conc.Monitor

/-!
# No lost wakeup

A rule for condition variables whose signal may be sent long after the data changed.  Threads that
sleep on `c` could each take one of the `available` things.  Some locations owe one: the signal is
still to be sent, or a woken thread is on its way to take it.  While a thread sleeps, all that is
available is owed (`Covered`), provided every instruction pays for what it makes available and for
what it no longer owes (`Instr.Pays`).
-/

namespace Conc

variable {ι M C S X G L : Type*}

/-- The thread is at `l`, or woken and goes on at `l` once it has its mutex. -/
def Status.Stands (x : Status M C L) (l : L) : Prop := x = .run l ∨ ∃ m, x = .woken m l

/-- Whether the thread owes: it stands at a location that does. -/
def Status.debt (owes : L → Bool) : Status M C L → ℕ
  | .run l | .woken _ l => (owes l).toNat
  | .asleep _ _ _ => 0

def Status.sleeper [DecidableEq C] (c : C) : Status M C L → ℕ
  | .asleep c' _ _ => if c' = c then 1 else 0
  | _ => 0

theorem Status.exists_of_debt_pos {owes : L → Bool} {x : Status M C L} (h : 0 < x.debt owes) :
    ∃ l, x.Stands l ∧ owes l := by
  cases x with
  | run l => exact ⟨l, Or.inl rfl, by simpa [debt, Nat.pos_iff_ne_zero] using h⟩
  | woken m l => exact ⟨l, Or.inr ⟨m, rfl⟩, by simpa [debt, Nat.pos_iff_ne_zero] using h⟩
  | asleep c m l => simp [debt] at h

theorem Status.sleeper_eq_zero_iff [DecidableEq C] {c : C} {x : Status M C L} :
    x.sleeper c = 0 ↔ ¬ x.AsleepOn c := by
  cases x <;> simp [sleeper, AsleepOn]

variable [DecidableEq C]

/-- Nobody sleeps on `c`, or all that is available is owed. -/
def Covered [Fintype ι] (c : C) (owes : L → Bool) (available : G → ℕ) (s : State ι M C S G L) :
    Prop :=
  total (Status.sleeper c) s.thr = 0 ∨ available s.mem ≤ total (Status.debt owes) s.thr

/-- The proof obligation at `l`, where `K` is known: nobody falls asleep while something is
available, and a debt is only left by taking the thing or by signalling. -/
def Instr.Pays (c : C) (owes : L → Bool) (available : G → ℕ) (K : L → G → Prop) (l : L) :
    Instr M C S X G L → Prop
  | .lock _ k | .unlock _ k | .semWait _ k | .semPost _ k => owes l → owes k
  | .wait c' _ k => if c' = c then owes k ∧ ∀ g, K l g → available g = 0 else ¬ owes l
  | .signal c' k => c' = c ∨ (owes l → owes k)
  | .stmt f => ∀ g, K l g → available (f g).1 = 0 ∨
      available (f g).1 + (owes l).toNat ≤ available g + (owes (f g).2).toNat
  | .input f => ∀ x, owes l → owes (f x)

section Covered

variable [DecidableEq ι] [Fintype ι] {c : C} {owes : L → Bool} {available : G → ℕ}
variable {s s' : State ι M C S G L} {t u : ι} {x y : Status M C L}

omit [DecidableEq ι] in
theorem Covered.exists_owing (h : Covered c owes available s) (asleep : ∃ t, (s.thr t).AsleepOn c)
    (some : 0 < available s.mem) : ∃ t l, (s.thr t).Stands l ∧ owes l := by
  obtain ⟨u, hu⟩ := asleep
  have sleepers : total (Status.sleeper c) s.thr ≠ 0 := fun none =>
    Status.sleeper_eq_zero_iff.1 (total_eq_zero_iff.1 none u) hu
  obtain ⟨t, ht⟩ := total_pos_iff.1 (some.trans_le (h.resolve_left sleepers))
  exact ⟨t, Status.exists_of_debt_pos ht⟩

/-- A thread moves and leaves no debt behind. -/
theorem Covered.move (h : Covered c owes available s) (hx : s.thr t = x)
    (hy : s'.thr = Function.update s.thr t y) (asleep : y.sleeper c ≤ x.sleeper c)
    (paid : available s'.mem + x.debt owes ≤ available s.mem + y.debt owes) :
    Covered c owes available s' := by
  have sleep := total_update (Status.sleeper c) s.thr t y
  have debt := total_update (Status.debt owes) s.thr t y
  rw [← hy, hx] at sleep debt
  rcases h with h | h
  · left; omega
  · right; omega

theorem Covered.goto (h : Covered c owes available s) {l k : L} (hl : s.thr t = .run l)
    (hk : s'.thr = Function.update s.thr t (.run k)) (hm : s'.mem = s.mem)
    (paid : owes l → owes k) : Covered c owes available s' := by
  apply h.move hl hk le_rfl
  have : (owes l).toNat ≤ (owes k).toNat := Bool.toNat_le_toNat paid
  rw [hm]
  simp only [Status.debt]
  omega

/-- A signal that finds nobody asleep. -/
theorem covered_of_nobody {k : L} (h : ∀ u, ¬ (s.thr u).AsleepOn c) :
    Covered c owes available (s.goto t k) := by
  left
  rw [total_eq_zero_iff]
  exact (Function.forall_update_iff _ fun _ x => Status.sleeper c x = 0).2
    ⟨rfl, fun u _ => Status.sleeper_eq_zero_iff.2 (h u)⟩

/-- A signal hands the debt of `t` to the thread it wakes. -/
theorem Covered.wake (h : Covered c owes available s) {l k k' : L} {c' : C} {m : M} (ne : u ≠ t)
    (hl : s.thr t = .run l) (hu : s.thr u = .asleep c' m k')
    (paid : owes l → owes k' ∨ owes k) : Covered c owes available (s.wake t u m k' k) := by
  have sleep₁ := total_update (Status.sleeper c) s.thr u (.woken m k')
  have debt₁ := total_update (Status.debt owes) s.thr u (.woken m k')
  have sleep₂ := total_update (Status.sleeper c) (Function.update s.thr u (.woken m k')) t (.run k)
  have debt₂ := total_update (Status.debt owes) (Function.update s.thr u (.woken m k')) t (.run k)
  rw [Function.update_of_ne ne.symm] at sleep₂ debt₂
  rw [hu] at sleep₁ debt₁
  rw [hl] at sleep₂ debt₂
  have : (owes l).toNat ≤ (owes k').toNat + (owes k).toNat := by
    cases hl : owes l with
    | false => exact Nat.zero_le _
    | true => rcases paid hl with e | e <;> simp [e]
  simp only [Status.debt, Status.sleeper] at sleep₁ debt₁ sleep₂ debt₂
  rcases h with h | h
  · left
    simp only [State.wake]
    omega
  · right
    simp only [State.wake]
    omega

variable [DecidableEq M] [DecidableEq S] {prog : ι → L → Instr M C S X G L} {K : L → G → Prop}

theorem Covered.step (hp : ∀ t l, (prog t l).Pays c owes available K l)
    (valid : ∀ t, (s.thr t).Valid prog (fun _ => True) t)
    (known : ∀ t l, s.thr t = .run l → K l s.mem) (h : Covered c owes available s)
    (hs : Step prog t s s') : Covered c owes available s' := by
  cases hs with
  | instr l hl eff =>
      have pays := hp t l
      cases hi : prog t l with
      | lock m k | unlock m k | semWait p k =>
          rw [hi] at eff pays
          obtain ⟨-, rfl⟩ := eff
          exact h.goto hl rfl rfl pays
      | semPost p k =>
          rw [hi] at eff pays
          obtain rfl := eff
          exact h.goto hl rfl rfl pays
      | wait c' m k =>
          rw [hi] at eff pays
          obtain ⟨-, rfl⟩ := eff
          by_cases e : c' = c
          · rw [Instr.Pays, if_pos e] at pays
            exact Or.inr ((pays.2 _ (known t l hl)).symm ▸ Nat.zero_le _)
          · rw [Instr.Pays, if_neg e] at pays
            exact h.move hl rfl (by simp [Status.sleeper, e]) (by simp [Status.debt, pays])
      | signal c' k =>
          rw [hi] at eff pays
          rcases eff with ⟨nobody, rfl⟩ | ⟨u, m, k', ne, hu, rfl⟩
          · rcases pays with rfl | pays
            · exact covered_of_nobody nobody
            · exact h.goto hl rfl rfl pays
          · apply h.wake ne hl hu
            intro hl
            rcases pays with rfl | pays
            · have hv := valid u
              rw [hu] at hv
              obtain ⟨lu, -, hlu⟩ := hv
              have := hp u lu
              rw [hlu, Instr.Pays, if_pos rfl] at this
              exact Or.inl this.1
            · exact Or.inr (pays hl)
      | stmt f =>
          rw [hi] at eff pays
          obtain rfl := eff
          rcases pays _ (known t l hl) with none | paid
          · exact Or.inr (none.symm ▸ Nat.zero_le _)
          · exact h.move hl rfl le_rfl paid
      | input f =>
          rw [hi] at eff pays
          obtain ⟨x, rfl⟩ := eff
          exact h.goto hl rfl rfl (pays x)
  | reacquire m k hl free eff =>
      subst eff
      exact h.move hl rfl le_rfl le_rfl
  | spurious c' m k hl eff =>
      subst eff
      exact h.move hl rfl (Nat.zero_le _) (Nat.le_add_right _ _)

/-- The rule for wakeups. -/
theorem covered_of_reachable {loc : ι → L} {sem : S → ℕ} {g₀ : G}
    (hp : ∀ t l, (prog t l).Pays c owes available K l)
    (known : ∀ s, (machine prog (start loc sem g₀)).Reachable s →
      ∀ t l, s.thr t = .run l → K l s.mem)
    (h : (machine prog (start loc sem g₀)).Reachable s) : Covered c owes available s := by
  have key : (machine prog (start loc sem g₀)).Inductive (Covered c owes available) := by
    refine machine_inductive (Or.inl (total_eq_zero_iff.2 fun _ => rfl)) fun t s s' hr h hs =>
      h.step hp (valid_of_reachable (fun _ => trivial) (fun _ _ _ _ _ => trivial) hr) (known s hr)
        hs
  exact key.reachable h

omit [DecidableEq ι] [DecidableEq M] [DecidableEq S] in
/-- Where every thread sleeps on a condition variable of its own kind and there is something to take
for one of the kinds, some thread can go on. -/
theorem exists_not_blocked_of_covered [Subsingleton M] [IsEmpty S] {holds : L → M → Prop}
    {cond : ι → C} {owes : C → L → Bool} {available : C → G → ℕ}
    (hp : ∀ t l, (prog t l).Respects holds l) (own : Owned holds s.thr s.owner)
    (sleeps : ∀ t c m k, s.thr t = .asleep c m k → c = cond t)
    (covered : ∀ c, Covered c (owes c) (available c) s) (some : 0 < available (cond t) s.mem) :
    ∃ t, ¬ Blocked prog s t := by
  by_contra stuck
  simp only [not_exists, not_not] at stuck
  have asleep := asleep_of_blocked hp own stuck
  obtain ⟨c, m, k, ht⟩ := asleep t
  obtain rfl := sleeps t c m k ht
  obtain ⟨u, l, hl, -⟩ := (covered (cond t)).exists_owing ⟨t, by rw [ht]; rfl⟩ some
  obtain ⟨c', m', k', hu⟩ := asleep u
  rcases hl with hl | ⟨_, hl⟩ <;> rw [hl] at hu <;> cases hu

end Covered

end Conc
