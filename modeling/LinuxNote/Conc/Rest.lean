import LinuxNote.Conc.Progress

/-!
# Programs that come to rest

The threads of an endless program rest where each is asleep or at an idle location, such as the
beginning of its loop.  A run is calm when no thread leaves an idle location in it.  Let every
instruction of a program with a single mutex lower a weight of the locations and a potential of the
data, together the unrest (`Instr.Settles`).  Then a calm run is at most as long as the unrest at
its beginning, but for the spurious wakeups (`length_run_le_unrest`), and where it cannot be
continued all threads rest (`rests_of_stuck`): what was begun is finished.
-/

namespace Conc

variable {ι M C S X G L : Type*}

def Status.Rests (idle : L → Prop) : Status M C L → Prop
  | .run l => idle l
  | .asleep _ _ _ => True
  | .woken _ _ => False

/-- The weight of the location where the thread is or goes on when its `wait` returns; `v` is that
of a thread that sleeps. -/
def Status.burden (w v : L → ℕ) : Status M C L → ℕ
  | .run l => w l
  | .woken _ k => w k + 1
  | .asleep _ _ k => v k

theorem Status.burden_le {w v : L → ℕ} {n : ℕ} (hw : ∀ l, w l ≤ n) (hv : ∀ l, v l ≤ n + 1)
    (x : Status M C L) : x.burden w v ≤ n + 1 := by
  cases x with
  | run l => exact (hw l).trans (Nat.le_succ n)
  | asleep c m k => exact hv k
  | woken m k => exact Nat.succ_le_succ (hw k)

/-- The proof obligation at `l`, where `K` is known: the environment gives an allowed input, and to
wake a thread costs at most `wake`. -/
def Instr.Settles (w v : L → ℕ) (r : G → ℤ) (wake : ℕ) (allowed : X → Prop) (K : G → Prop)
    (l : L) : Instr M C S X G L → Prop
  | .lock _ k | .unlock _ k | .semWait _ k | .semPost _ k => w k < w l
  | .wait _ _ k => v k < w l ∧ w k + 1 ≤ v k + wake
  | .signal _ k => w k + wake < w l
  | .stmt f => ∀ g, K g → r (f g).1 + w (f g).2 < r g + w l
  | .input f => ∀ x, allowed x → w (f x) < w l

def Act.isSpurious : Act ι X → Bool
  | .spurious _ => true
  | _ => false

/-- No thread leaves an idle location. -/
def Calm (idle : L → Prop) (allowed : X → Prop) (a : Act ι X) (s : State ι M C S G L) : Prop :=
  (∀ l, s.thr a.actor = .run l → ¬ idle l) ∧ ∀ t x, a = .input t x → allowed x

/-! ## The unrest -/

section Unrest

variable [DecidableEq ι] [Fintype ι]

/-- The potential of the data and the weights of the threads. -/
def State.unrest (w v : L → ℕ) (r : G → ℤ) (s : State ι M C S G L) : ℤ :=
  r s.mem + total (Status.burden w v) s.thr

variable {s s' : State ι M C S G L} {w v : L → ℕ} {r : G → ℤ} {x y : Status M C L} {t u : ι}

omit [DecidableEq ι] in
theorem unrest_le {bound : ℕ} (le : ∀ t, (s.thr t).burden w v ≤ bound) :
    s.unrest w v r ≤ r s.mem + (Fintype.card ι * bound : ℕ) :=
  add_le_add_right (Int.ofNat_le.2 (total_le le)) _

omit [DecidableEq ι] in
theorem unrest_nonneg (nonneg : ∀ g, 0 ≤ r g) : 0 ≤ s.unrest w v r :=
  add_nonneg (nonneg _) (Int.natCast_nonneg _)

theorem unrest_move (hx : s.thr t = x) (hy : s'.thr = Function.update s.thr t y) :
    s'.unrest w v r + r s.mem + x.burden w v = s.unrest w v r + r s'.mem + y.burden w v := by
  have moved := total_update (Status.burden w v) s.thr t y
  rw [← hy, hx] at moved
  unfold State.unrest
  omega

theorem unrest_lt_of_move (hx : s.thr t = x) (hy : s'.thr = Function.update s.thr t y)
    (lower : r s'.mem + y.burden w v < r s.mem + x.burden w v) :
    s'.unrest w v r < s.unrest w v r := by
  have moved := unrest_move (w := w) (v := v) (r := r) hx hy
  omega

/-- A signal: the thread that it wakes becomes heavier. -/
theorem unrest_wake {m : M} {c : C} {l k k' : L} {wake : ℕ} (ne : u ≠ t) (hl : s.thr t = .run l)
    (hu : s.thr u = .asleep c m k') (hk' : w k' + 1 ≤ v k' + wake) (lower : w k + wake < w l) :
    (s.wake t u m k' k).unrest w v r < s.unrest w v r := by
  have woken := total_update (Status.burden w v) s.thr u (.woken m k')
  have moved := total_update (Status.burden w v) (Function.update s.thr u (.woken m k')) t (.run k)
  rw [Function.update_of_ne ne.symm, hl] at moved
  rw [hu] at woken
  simp only [Status.burden] at woken moved
  simp only [State.unrest, State.wake]
  omega

end Unrest

/-! ## Calm runs -/

section Rest

variable [DecidableEq ι] [Fintype ι] [DecidableEq M] [DecidableEq C] [DecidableEq S]
variable {prog : ι → L → Instr M C S X G L} {loc : ι → L} {sem : S → ℕ} {g₀ : G}
variable {holds : L → M → Prop} {idle : L → Prop} {allowed : X → Prop} {w v : L → ℕ} {r : G → ℤ}
variable {wake : ℕ} {K : L → G → Prop} {s s' : State ι M C S G L} {t : ι} {a : Act ι X}

section Step

variable (settles : ∀ t l, ¬ idle l → (prog t l).Settles w v r wake allowed (K l) l)
variable (waits : ∀ t l c m k, prog t l = .wait c m k → ¬ idle l)
variable (known : ∀ t l, s.thr t = .run l → K l s.mem)
variable (valid : ∀ t, (s.thr t).Valid prog (fun _ => True) t)
include settles waits valid

omit [DecidableEq ι] [Fintype ι] [DecidableEq M] [DecidableEq C] [DecidableEq S] in
theorem le_wake {c : C} {m : M} {k : L} (ht : s.thr t = .asleep c m k) : w k + 1 ≤ v k + wake := by
  have here := valid t
  rw [ht] at here
  obtain ⟨l, -, hi⟩ := here
  have obligation := settles t l (waits t l c m k hi)
  rw [hi] at obligation
  exact obligation.2

include known

theorem unrest_lt_of_step (calm : Calm idle allowed a s) (awake : a.isSpurious = false)
    (h : step prog a s = some s') : s'.unrest w v r < s.unrest w v r := by
  have lower {x y : Status M C L} (hx : s.thr a.actor = x)
      (hy : s'.thr = Function.update s.thr a.actor y) (same : s'.mem = s.mem)
      (less : y.burden w v < x.burden w v) : s'.unrest w v r < s.unrest w v r := by
    refine unrest_lt_of_move hx hy ?_
    rw [same]
    omega
  cases step_cases h with
  | instr l hl eff =>
      have obligation := settles a.actor l (calm.1 l hl)
      cases hi : prog a.actor l with
      | lock m k | unlock m k | semWait p k =>
          rw [hi] at eff obligation
          obtain ⟨-, rfl⟩ := eff
          exact lower hl rfl rfl obligation
      | semPost p k =>
          rw [hi] at eff obligation
          obtain rfl := eff
          exact lower hl rfl rfl obligation
      | wait c m k =>
          rw [hi] at eff obligation
          obtain ⟨-, rfl⟩ := eff
          exact lower hl rfl rfl obligation.1
      | stmt f =>
          rw [hi] at eff obligation
          obtain rfl := eff
          exact unrest_lt_of_move hl rfl (obligation _ (known _ l hl))
      | signal c k =>
          rw [hi] at eff obligation
          have less : w k + wake < w l := obligation
          rcases eff with ⟨-, rfl⟩ | ⟨u, m, k', ne, hu, rfl⟩
          · exact lower hl rfl rfl (Nat.lt_of_le_of_lt (Nat.le_add_right _ _) less)
          · exact unrest_wake ne hl hu (le_wake settles waits valid hu) less
      | input f =>
          rw [hi] at obligation
          cases a with
          | input t x =>
              have hl : s.thr t = .run l := hl
              have hi : prog t l = .input f := hi
              have next : s.goto t (f x) = s' := by simpa [step, hl, hi] using h
              subst next
              exact lower hl rfl rfl (obligation x (calm.2 t x rfl))
          | exec t =>
              have hl : s.thr t = .run l := hl
              have hi : prog t l = .input f := hi
              simp [step, hl, hi, execInstr] at h
          | wake t u =>
              have hl : s.thr t = .run l := hl
              have hi : prog t l = .input f := hi
              cases hu : s.thr u <;> simp [step, hl, hi, hu] at h
          | spurious t => cases awake
  | reacquire m k hl free eff =>
      subst eff
      exact lower hl rfl rfl (Nat.lt_succ_self _)
  | spurious c m k hl eff =>
      cases a with
      | spurious t => cases awake
      | exec t | wake t u | input t x =>
          have hl : s.thr t = .asleep c m k := hl
          simp [step, hl] at h

omit known in
theorem unrest_le_of_spurious (h : step prog (.spurious t) s = some s') :
    s'.unrest w v r ≤ s.unrest w v r + wake := by
  cases ht : s.thr t with
  | asleep c m k =>
      have next : { s with thr := Function.update s.thr t (.woken m k) } = s' := by
        simpa [step, ht] using h
      have thr : s'.thr = Function.update s.thr t (.woken m k) := by rw [← next]
      have mem : s'.mem = s.mem := by rw [← next]
      have small := le_wake settles waits valid ht
      have moved : s'.unrest w v r + r s.mem + v k = s.unrest w v r + r s'.mem + (w k + 1) :=
        unrest_move ht thr
      rw [mem] at moved
      omega
  | run l | woken m k => simp [step, ht] at h

end Step

section Run

variable (h₀ : ∀ t m, ¬ holds (loc t) m) (hp : ∀ t l, (prog t l).Respects holds l)
variable (settles : ∀ t l, ¬ idle l → (prog t l).Settles w v r wake allowed (K l) l)
variable (outside : ∀ l m, idle l → ¬ holds l m)
variable (known : ∀ s, (machine prog (start loc sem g₀)).Reachable s →
  ∀ t l, s.thr t = .run l → K l s.mem)
include hp settles outside known

omit [DecidableEq ι] [Fintype ι] [DecidableEq M] [DecidableEq C] [DecidableEq S] settles known in
theorem not_idle_of_wait {l : L} {c : C} {m : M} {k : L} (hi : prog t l = .wait c m k) :
    ¬ idle l := by
  intro rests
  have resp := hp t l
  rw [hi] at resp
  exact outside l m rests resp.1

theorem length_run_le_unrest {as : List (Act ι X)}
    (hs : (machine prog (start loc sem g₀)).Reachable s)
    (h : (machine prog (start loc sem g₀)).run as s = some s')
    (calm : (machine prog (start loc sem g₀)).Meets (Calm idle allowed) as s) :
    as.length + s'.unrest w v r ≤
      s.unrest w v r + ((wake + 1) * as.countP Act.isSpurious : ℕ) := by
  induction as generalizing s with
  | nil =>
      obtain rfl : s = s' := by simpa [Machine.run] using h
      simp
  | cons a as ih =>
      obtain ⟨s₁, h₁, h₂⟩ := Option.bind_eq_some_iff.1 h
      have rest := ih (hs.step a h₁) h₂ (calm.2 s₁ h₁)
      have waits : ∀ t l c m k, prog t l = .wait c m k → ¬ idle l :=
        fun t l c m k hi => not_idle_of_wait hp outside hi
      have valid : ∀ t, (s.thr t).Valid prog (fun _ => True) t :=
        valid_of_reachable (fun _ => trivial) (fun _ _ _ _ _ => trivial) hs
      rw [List.length_cons]
      cases spurious : a.isSpurious with
      | false =>
          have less := unrest_lt_of_step settles waits (known s hs) valid calm.1 spurious h₁
          rw [List.countP_cons_of_neg (by simp [spurious])]
          omega
      | true =>
          obtain ⟨t, rfl⟩ : ∃ t, a = .spurious t := by
            cases a with
            | spurious t => exact ⟨t, rfl⟩
            | exec t | wake t u | input t x => cases spurious
          have more := unrest_le_of_spurious (r := r) settles waits valid h₁
          rw [List.countP_cons_of_pos (by rfl), Nat.mul_add]
          omega

end Run

/-! ## Where a calm run ends -/

omit [DecidableEq C] [DecidableEq S] [Fintype ι] [DecidableEq ι] [DecidableEq M] in
/-- With one mutex, which nobody holds at an idle location, and no semaphore: unless all threads
rest, one that does not is not blocked. -/
theorem exists_not_blocked_of_not_rests [Subsingleton M] [IsEmpty S]
    (hp : ∀ t l, (prog t l).Respects holds l) (own : Owned holds s.thr s.owner)
    (outside : ∀ l m, idle l → ¬ holds l m) (h : ¬ ∀ t, (s.thr t).Rests idle) :
    ∃ t, ¬ Blocked prog s t ∧ ∀ l, s.thr t = .run l → ¬ idle l := by
  obtain ⟨t, ht⟩ := not_forall.1 h
  by_cases taken : ∃ m u, s.owner m = some u
  · -- the owner of the mutex can go on
    obtain ⟨m, u, hu⟩ := taken
    have inside := (own u m).1 hu
    refine ⟨u, fun blocked => ?_, fun l hl rests => ?_⟩
    · unfold Blocked at blocked
      cases hl : s.thr u with
      | asleep c m' k | woken m' k =>
          rw [hl] at inside
          exact inside.1 (Subsingleton.elim _ _)
      | run l =>
          rw [hl] at inside blocked
          have resp := hp u l
          cases hi : prog u l with
          | lock m' k =>
              rw [hi] at resp
              exact resp.1 (Subsingleton.elim m m' ▸ inside)
          | semWait p k => exact isEmptyElim p
          | _ => simp [hi] at blocked
    · rw [hl] at inside
      exact outside l m rests inside
  · simp only [not_exists] at taken
    have free : ∀ m, s.owner m = none := fun m => Option.eq_none_iff_forall_ne_some.2 (taken m)
    refine ⟨t, fun blocked => ?_, fun l hl rests => ht (by rw [hl]; exact rests)⟩
    unfold Blocked at blocked
    cases hl : s.thr t with
    | asleep c m k =>
        rw [hl] at ht
        exact ht trivial
    | woken m k =>
        rw [hl] at blocked
        exact blocked (free m)
    | run l =>
        rw [hl] at blocked
        cases hi : prog t l with
        | lock m k => simp [hi, free m] at blocked
        | semWait p k => exact isEmptyElim p
        | _ => simp [hi] at blocked

/-- No thread can go on without a spurious wakeup or leaving an idle location. -/
def Stuck (prog : ι → L → Instr M C S X G L) (idle : L → Prop) (allowed : X → Prop)
    (s : State ι M C S G L) : Prop :=
  ∀ a, Calm idle allowed a s → a.isSpurious = false → step prog a s = none

theorem exists_calm_of_not_blocked (hp : ∀ t l, (prog t l).Respects holds l)
    (gives : ∀ t l f, prog t l = .input f → ¬ idle l → ∃ x, allowed x)
    (own : Owned holds s.thr s.owner) (free : ¬ Blocked prog s t)
    (works : ∀ l, s.thr t = .run l → ¬ idle l) :
    ∃ a s', Calm idle allowed a s ∧ a.isSpurious = false ∧ step prog a s = some s' := by
  have go : ∀ s', step prog (.exec t) s = some s' →
      ∃ a s', Calm idle allowed a s ∧ a.isSpurious = false ∧ step prog a s = some s' :=
    fun s' h => ⟨.exec t, s', ⟨works, fun u y e => by cases e⟩, rfl, h⟩
  cases hl : s.thr t with
  | asleep c m k => simp [Blocked, hl] at free
  | woken m k =>
      have free : s.owner m = none := by simpa [Blocked, hl] using free
      exact go (s.acquire t m k) (by simp [step, hl, free])
  | run l =>
      have here : ∀ m, s.owner m = some t ↔ holds l m := fun m => by rw [own t m, hl]; rfl
      have resp := hp t l
      cases hi : prog t l with
      | lock m k =>
          have free : s.owner m = none := by simpa [Blocked, hl, hi] using free
          exact go (s.acquire t m k) (by simp [step, hl, hi, execInstr, free])
      | unlock m k =>
          rw [hi] at resp
          have mine := (here m).2 resp.1
          exact go (s.release t m (.run k)) (by simp [step, hl, hi, execInstr, mine])
      | wait c m k =>
          rw [hi] at resp
          have mine := (here m).2 resp.1
          exact go (s.release t m (.asleep c m k)) (by simp [step, hl, hi, execInstr, mine])
      | semWait p k =>
          have pos : 0 < s.sem p := by simpa [Blocked, hl, hi, Nat.pos_iff_ne_zero] using free
          exact go (s.setSem t p (s.sem p - 1) k) (by simp [step, hl, hi, execInstr, pos])
      | semPost p k =>
          exact go (s.setSem t p (s.sem p + 1) k) (by simp [step, hl, hi, execInstr])
      | stmt f =>
          exact go (s.setMem t (f s.mem).1 (f s.mem).2) (by simp [step, hl, hi, execInstr])
      | input f =>
          obtain ⟨x, hx⟩ := gives t l f hi (works l hl)
          refine ⟨.input t x, s.goto t (f x), ⟨works, fun u y e => ?_⟩, rfl, ?_⟩
          · cases e
            exact hx
          · simp [step, hl, hi]
      | signal c k =>
          by_cases hu : ∃ u, (s.thr u).AsleepOn c
          · obtain ⟨u, hu⟩ := hu
            cases hk : s.thr u with
            | asleep c' m k' =>
                obtain rfl : c' = c := by simpa [hk, Status.AsleepOn] using hu
                refine ⟨.wake t u, s.wake t u m k' k, ⟨works, fun u y e => by cases e⟩, rfl, ?_⟩
                simp [step, hl, hk, hi]
            | run _ | woken _ _ => simp [hk, Status.AsleepOn] at hu
          · exact go (s.goto t k) (by simp only [step, hl, hi, execInstr, if_neg hu])

theorem rests_of_stuck [Subsingleton M] [IsEmpty S] (h₀ : ∀ t m, ¬ holds (loc t) m)
    (hp : ∀ t l, (prog t l).Respects holds l) (outside : ∀ l m, idle l → ¬ holds l m)
    (gives : ∀ t l f, prog t l = .input f → ¬ idle l → ∃ x, allowed x)
    (hs : (machine prog (start loc sem g₀)).Reachable s) (stuck : Stuck prog idle allowed s) :
    ∀ t, (s.thr t).Rests idle := by
  by_contra busy
  have own := owned_of_reachable h₀ hp hs
  obtain ⟨t, free, works⟩ := exists_not_blocked_of_not_rests hp own outside busy
  obtain ⟨a, s', calm, awake, h⟩ := exists_calm_of_not_blocked hp gives own free works
  cases (stuck a calm awake).symm.trans h

/-- A calm run that cannot be continued. -/
theorem exists_stuck (hp : ∀ t l, (prog t l).Respects holds l)
    (settles : ∀ t l, ¬ idle l → (prog t l).Settles w v r wake allowed (K l) l)
    (outside : ∀ l m, idle l → ¬ holds l m)
    (known : ∀ s, (machine prog (start loc sem g₀)).Reachable s →
      ∀ t l, s.thr t = .run l → K l s.mem)
    (nonneg : ∀ g, 0 ≤ r g) (hs : (machine prog (start loc sem g₀)).Reachable s) :
    ∃ as s', (machine prog (start loc sem g₀)).run as s = some s' ∧
      (machine prog (start loc sem g₀)).Meets (Calm idle allowed) as s ∧
      as.countP Act.isSpurious = 0 ∧ Stuck prog idle allowed s' := by
  induction hn : (s.unrest w v r).toNat using Nat.strongRecOn generalizing s with
  | ind n ih =>
      by_cases stuck : Stuck prog idle allowed s
      · exact ⟨[], s, rfl, trivial, rfl, stuck⟩
      · simp only [Stuck, not_forall] at stuck
        obtain ⟨a, calm, awake, free⟩ := stuck
        obtain ⟨s₁, h₁⟩ := Option.ne_none_iff_exists'.1 free
        have waits : ∀ t l c m k, prog t l = .wait c m k → ¬ idle l :=
          fun t l c m k hi => not_idle_of_wait hp outside hi
        have valid : ∀ t, (s.thr t).Valid prog (fun _ => True) t :=
          valid_of_reachable (fun _ => trivial) (fun _ _ _ _ _ => trivial) hs
        have less := unrest_lt_of_step settles waits (known s hs) valid calm awake h₁
        have more := unrest_nonneg (s := s₁) (w := w) (v := v) nonneg
        obtain ⟨as, s', run, meets, none_, stuck⟩ := ih _ (by omega) (hs.step a h₁) rfl
        refine ⟨a :: as, s', (congrArg (Option.bind · _) h₁).trans run, ⟨calm, fun s₂ h₂ => ?_⟩, ?_,
          stuck⟩
        · obtain rfl := Option.some.inj (h₁.symm.trans h₂)
          exact meets
        · rw [List.countP_cons_of_neg (by simp [awake]), none_]

end Rest

end Conc
