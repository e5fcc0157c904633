import LinuxNote.Conc.Pthread

/-!
# Mutex discipline

Which mutexes a thread holds can be read off the program text.  When the text respects this reading
(`Instr.Respects`), a mutex is owned exactly by the thread that stands where it is held
(`owned_of_reachable`).  On this rest the two rules for programs whose threads share one mutex: an
assertion at every location inside the critical sections together with an invariant of the data
outside (`monitored_of_reachable`), and that a state in which no thread can go on has every thread
asleep (`asleep_of_blocked`).
-/

namespace Conc

variable {ι M C S X G L : Type*}

/-! ## Locations -/

/-- The instruction can be followed by location `k'`. -/
def Instr.Leads (k' : L) : Instr M C S X G L → Prop
  | .lock _ k | .unlock _ k | .wait _ _ k | .signal _ k | .semWait _ k | .semPost _ k => k = k'
  | .stmt f => ∃ g, (f g).2 = k'
  | .input f => ∃ x, f x = k'

/-- The thread is at a location where `R` holds, or in a `wait` that such a location called. -/
def Status.Valid (prog : ι → L → Instr M C S X G L) (R : L → Prop) (t : ι) :
    Status M C L → Prop
  | .run l => R l
  | .asleep c m k => ∃ l, R l ∧ prog t l = .wait c m k
  | .woken m k => ∃ l c, R l ∧ prog t l = .wait c m k

/-- The thread stands inside a critical section of `m`; in a `wait` it does not. -/
def Status.Holds (holds : L → M → Prop) (m : M) : Status M C L → Prop
  | .run l => holds l m
  | .asleep _ m' k => m ≠ m' ∧ holds k m
  | .woken m' k => m ≠ m' ∧ holds k m

/-- The instruction at `l` may be executed with the mutexes held there, and leads to locations where
those are held that the instruction leaves. -/
def Instr.Respects (holds : L → M → Prop) (l : L) : Instr M C S X G L → Prop
  | .lock m k => ¬ holds l m ∧ ∀ m', holds k m' ↔ m' = m ∨ holds l m'
  | .unlock m k => holds l m ∧ ∀ m', holds k m' ↔ m' ≠ m ∧ holds l m'
  | .wait _ m k => holds l m ∧ ∀ m', holds k m' ↔ holds l m'
  | .signal _ k | .semWait _ k | .semPost _ k => ∀ m', holds k m' ↔ holds l m'
  | .stmt f => ∀ g m', holds (f g).2 m' ↔ holds l m'
  | .input f => ∀ x m', holds (f x) m' ↔ holds l m'

/-- Where a flag of the location says whether the mutex is held, a statement that keeps the flag. -/
theorem Instr.respects_of_flag (locked : L → Bool) {l : L} {f : G → G × L}
    (same : ∀ g, locked (f g).2 = locked l) :
    (Instr.stmt f : Instr M C S X G L).Respects (fun k _ => locked k) l := by
  intro g m
  dsimp only
  rw [same]

section Reachable

variable [DecidableEq ι] [Fintype ι] [DecidableEq M] [DecidableEq C] [DecidableEq S]
variable {prog : ι → L → Instr M C S X G L} {loc : ι → L} {sem : S → ℕ} {g₀ : G}
variable {s s' : State ι M C S G L}

/-- A set of locations that a thread starts in and that its program does not leave. -/
theorem valid_of_reachable {R : ι → L → Prop} (h₀ : ∀ t, R t (loc t))
    (hR : ∀ t l k, R t l → (prog t l).Leads k → R t k)
    (h : (machine prog (start loc sem g₀)).Reachable s) (t : ι) :
    (s.thr t).Valid prog (R t) t := by
  have key : (machine prog (start loc sem g₀)).Inductive
      (fun s => ∀ t, (s.thr t).Valid prog (R t) t) := by
    refine machine_inductive h₀ ?_
    intro t s s' _ ih hs
    have stay : ∀ {f : ι → Status M C L} {t x}, (∀ u, (f u).Valid prog (R u) u) →
        x.Valid prog (R t) t → ∀ u, (Function.update f t x u).Valid prog (R u) u :=
      fun hf hx => (Function.forall_update_iff _ fun u y => Status.Valid prog (R u) u y).2
        ⟨hx, fun u _ => hf u⟩
    cases hs with
    | instr l hl eff =>
        have hl' : R t l := by simpa [hl, Status.Valid] using ih t
        have next := fun k => hR t l k hl'
        cases hi : prog t l with
        | lock m k | unlock m k | semWait p k =>
            rw [hi] at eff next
            obtain ⟨-, rfl⟩ := eff
            exact stay ih (next k rfl)
        | wait c m k =>
            rw [hi] at eff
            obtain ⟨-, rfl⟩ := eff
            exact stay ih ⟨l, hl', hi⟩
        | semPost p k =>
            rw [hi] at eff next
            obtain rfl := eff
            exact stay ih (next k rfl)
        | stmt f =>
            rw [hi] at eff next
            obtain rfl := eff
            exact stay ih (next _ ⟨s.mem, rfl⟩)
        | input f =>
            rw [hi] at eff next
            obtain ⟨x, rfl⟩ := eff
            exact stay ih (next _ ⟨x, rfl⟩)
        | signal c k =>
            rw [hi] at eff next
            rcases eff with ⟨-, rfl⟩ | ⟨v, m, k', -, hv, rfl⟩
            · exact stay ih (next k rfl)
            · obtain ⟨lv, hlv, hiv⟩ : ∃ l, R v l ∧ prog v l = .wait c m k' := by
                simpa [hv, Status.Valid] using ih v
              have woken : (Status.woken m k' : Status M C L).Valid prog (R v) v :=
                ⟨lv, c, hlv, hiv⟩
              exact stay (stay ih woken) (next k rfl)
    | reacquire m k hl _ eff =>
        have hk : (Status.woken m k : Status M C L).Valid prog (R t) t := hl ▸ ih t
        obtain ⟨l, c, hl', hi⟩ := hk
        subst eff
        exact stay ih (hR t l k hl' (by rw [hi]; rfl))
    | spurious c m k hl eff =>
        have hk : (Status.asleep c m k : Status M C L).Valid prog (R t) t := hl ▸ ih t
        obtain ⟨l, hl', hi⟩ := hk
        subst eff
        exact stay ih ⟨l, c, hl', hi⟩
  exact key.reachable h t

end Reachable

/-! ## Ownership -/

/-- A mutex is owned exactly by the thread that stands inside its critical section. -/
def Owned (holds : L → M → Prop) (thr : ι → Status M C L) (owner : M → Option ι) : Prop :=
  ∀ t m, owner m = some t ↔ (thr t).Holds holds m

section Owned

variable {holds : L → M → Prop} {thr : ι → Status M C L} {owner : M → Option ι}

/-- Mutual exclusion. -/
theorem Owned.unique (h : Owned holds thr owner) {t u : ι} {m : M} (ht : (thr t).Holds holds m)
    (hu : (thr u).Holds holds m) : t = u :=
  Option.some.inj (((h t m).2 ht).symm.trans ((h u m).2 hu))

variable [DecidableEq ι]

theorem Owned.move (h : Owned holds thr owner) {t : ι} {x : Status M C L}
    (hx : ∀ m, x.Holds holds m ↔ (thr t).Holds holds m) :
    Owned holds (Function.update thr t x) owner := by
  intro u m
  by_cases hu : u = t
  · subst hu; simpa [hx] using h u m
  · simpa [hu] using h u m

variable [DecidableEq M]

theorem Owned.acquire (h : Owned holds thr owner) {t : ι} {x : Status M C L} {m : M}
    (free : owner m = none) (hx : ∀ m', x.Holds holds m' ↔ m' = m ∨ (thr t).Holds holds m') :
    Owned holds (Function.update thr t x) (Function.update owner m (some t)) := by
  intro u m'
  by_cases hm : m' = m
  · subst hm
    by_cases hu : u = t
    · subst hu; simp [hx]
    · have := h u m'
      simp only [free, reduceCtorEq, false_iff] at this
      simpa [hu, Ne.symm hu] using this
  · by_cases hu : u = t
    · subst hu; simpa [hm, hx] using h u m'
    · simpa [hm, hu] using h u m'

theorem Owned.release (h : Owned holds thr owner) {t : ι} {x : Status M C L} {m : M}
    (own : owner m = some t) (hx : ∀ m', x.Holds holds m' ↔ m' ≠ m ∧ (thr t).Holds holds m') :
    Owned holds (Function.update thr t x) (Function.update owner m none) := by
  intro u m'
  by_cases hm : m' = m
  · subst hm
    by_cases hu : u = t
    · subst hu; simp [hx]
    · have := h u m'
      simp only [own, Option.some.injEq, Ne.symm hu, false_iff] at this
      simpa [hu] using this
  · by_cases hu : u = t
    · subst hu; simpa [hm, hx] using h u m'
    · simpa [hm, hu] using h u m'

variable [DecidableEq S] {prog : ι → L → Instr M C S X G L} {s s' : State ι M C S G L}

theorem Owned.step (hp : ∀ t l, (prog t l).Respects holds l)
    (valid : ∀ t, (s.thr t).Valid prog (fun _ => True) t) (ih : Owned holds s.thr s.owner)
    (hs : Step prog t s s') : Owned holds s'.thr s'.owner := by
  cases hs with
  | instr l hl eff =>
      have here : ∀ m, (s.thr t).Holds holds m ↔ holds l m := fun m => by rw [hl]; rfl
      have resp := hp t l
      cases hi : prog t l with
      | lock m k =>
          rw [hi] at eff resp
          obtain ⟨free, rfl⟩ := eff
          exact ih.acquire free fun m' => by rw [here]; exact resp.2 m'
      | unlock m k =>
          rw [hi] at eff resp
          obtain ⟨own, rfl⟩ := eff
          exact ih.release own fun m' => by rw [here]; exact resp.2 m'
      | wait c m k =>
          rw [hi] at eff resp
          obtain ⟨own, rfl⟩ := eff
          apply ih.release own
          intro m'
          rw [here, ← resp.2 m']
          rfl
      | semWait p k =>
          rw [hi] at eff resp
          obtain ⟨-, rfl⟩ := eff
          exact ih.move fun m' => by rw [here]; exact resp m'
      | semPost p k =>
          rw [hi] at eff resp
          obtain rfl := eff
          exact ih.move fun m' => by rw [here]; exact resp m'
      | stmt f =>
          rw [hi] at eff resp
          obtain rfl := eff
          exact ih.move fun m' => by rw [here]; exact resp s.mem m'
      | input f =>
          rw [hi] at eff resp
          obtain ⟨x, rfl⟩ := eff
          exact ih.move fun m' => by rw [here]; exact resp x m'
      | signal c k =>
          rw [hi] at eff resp
          rcases eff with ⟨-, rfl⟩ | ⟨u, m, k', hu, hk, rfl⟩
          · exact ih.move fun m' => by rw [here]; exact resp m'
          · have woken : Owned holds (Function.update s.thr u (.woken m k')) s.owner :=
              ih.move fun m' => by rw [hk]; rfl
            apply woken.move
            intro m'
            rw [Function.update_of_ne hu.symm, here]
            exact resp m'
  | reacquire m k hl free eff =>
      have hk : (Status.woken m k : Status M C L).Valid prog (fun _ => True) t := hl ▸ valid t
      obtain ⟨l, c, -, hi⟩ := hk
      have resp := hp t l
      rw [hi] at resp
      subst eff
      apply ih.acquire free
      intro m'
      rw [hl]
      by_cases hm : m' = m
      · subst hm; exact iff_of_true ((resp.2 m').2 resp.1) (Or.inl rfl)
      · exact ⟨fun h => Or.inr ⟨hm, h⟩, fun h => (h.resolve_left hm).2⟩
  | spurious c m k hl eff =>
      subst eff
      exact ih.move fun m' => by rw [hl]; rfl

variable [Fintype ι] [DecidableEq C] {loc : ι → L} {sem : S → ℕ} {g₀ : G}

theorem owned_of_reachable (h₀ : ∀ t m, ¬ holds (loc t) m)
    (hp : ∀ t l, (prog t l).Respects holds l)
    (h : (machine prog (start loc sem g₀)).Reachable s) : Owned holds s.thr s.owner := by
  have key : (machine prog (start loc sem g₀)).Inductive fun s => Owned holds s.thr s.owner := by
    refine machine_inductive (fun t m => ?_) fun t s s' hr ih hs =>
      Owned.step hp (valid_of_reachable (fun _ => trivial) (fun _ _ _ _ _ => trivial) hr) ih hs
    simpa [start, Status.Holds] using h₀ t m
  exact key.reachable h

end Owned

/-! ## Assertions under one mutex -/

/-- The proof obligation at location `l` of thread `t`, for the assertions `A` inside the critical
sections of the only mutex and an invariant `I` of the data outside. -/
def Instr.Keeps (holds : L → Unit → Prop) (I : G → Prop) (A : ι → L → G → Prop) (t : ι) (l : L) :
    Instr Unit C S X G L → Prop
  | .lock _ k => ∀ g, I g → A t k g
  | .unlock _ _ => ∀ g, A t l g → I g
  | .wait _ _ k => ∀ g, (A t l g → I g) ∧ (I g → A t k g)
  | .signal _ k | .semWait _ k | .semPost _ k => ∀ g, holds l () → A t l g → A t k g
  | .stmt f => ∀ g, (holds l () → A t l g → A t (f g).2 (f g).1) ∧
      (¬ holds l () → (I g → I (f g).1) ∧ ∀ u k, holds k () → A u k g → A u k (f g).1)
  | .input f => ∀ x g, holds l () → A t l g → A t (f x) g

/-- Every thread inside a critical section has its assertion. -/
def Inside (holds : L → Unit → Prop) (A : ι → L → G → Prop) (thr : ι → Status Unit C L) (g : G) :
    Prop :=
  ∀ t l, thr t = .run l → holds l () → A t l g

/-- The assertions inside the critical sections, and the invariant while there is nobody inside. -/
structure Monitored (holds : L → Unit → Prop) (I : G → Prop) (A : ι → L → G → Prop)
    (s : State ι Unit C S G L) : Prop where
  inside : Inside holds A s.thr s.mem
  outside : s.owner () = none → I s.mem

section Monitored

variable [DecidableEq ι] {holds : L → Unit → Prop} {I : G → Prop} {A : ι → L → G → Prop}

omit [DecidableEq ι] in
/-- What the invariant and every assertion imply holds at all times. -/
theorem Monitored.always {s : State ι Unit C S G L} (h : Monitored holds I A s)
    (own : Owned holds s.thr s.owner) {P : G → Prop} (hI : ∀ g, I g → P g)
    (hA : ∀ t l g, A t l g → P g) : P s.mem := by
  cases ho : s.owner () with
  | none => exact hI _ (h.outside ho)
  | some t =>
      have inside := (own t ()).1 ho
      cases hl : s.thr t with
      | run l =>
          rw [hl] at inside
          exact hA t l _ (h.inside t l hl inside)
      | asleep _ m _ | woken m _ =>
          rw [hl] at inside
          exact absurd rfl inside.1

omit [DecidableEq ι] in
/-- Where every assertion contains the invariant, the invariant holds at all times. -/
theorem Monitored.invariant {s : State ι Unit C S G L} (h : Monitored holds I A s)
    (own : Owned holds s.thr s.owner) (hA : ∀ t l g, A t l g → I g) : I s.mem :=
  h.always own (fun _ hg => hg) hA

theorem Inside.update {thr : ι → Status Unit C L} {g : G} (h : Inside holds A thr g) {t : ι}
    {x : Status Unit C L} (hx : ∀ l, x = .run l → holds l () → A t l g) :
    Inside holds A (Function.update thr t x) g := by
  intro u l hu
  by_cases e : u = t
  · subst e; exact hx l (by simpa using hu)
  · exact h u l (by simpa [e] using hu)

theorem Inside.goto {thr : ι → Status Unit C L} {g : G} (h : Inside holds A thr g) {t : ι} {k : L}
    (hk : holds k () → A t k g) : Inside holds A (Function.update thr t (.run k)) g := by
  apply h.update
  intro l e
  obtain rfl := Status.run.inj e
  exact hk

variable {prog : ι → L → Instr Unit C S X G L} {s s' : State ι Unit C S G L}

/-- A statement inside keeps its own assertion, and no other thread has one; a statement outside
keeps the assertions of the others. -/
theorem Monitored.stmt {t : ι} {l : L} {f : G → G × L} (own : Owned holds s.thr s.owner)
    (hl : s.thr t = .run l) (resp : (Instr.stmt f : Instr Unit C S X G L).Respects holds l)
    (keeps : (Instr.stmt f : Instr Unit C S X G L).Keeps holds I A t l)
    (ih : Monitored holds I A s) : Monitored holds I A (s.setMem t (f s.mem).1 (f s.mem).2) := by
  by_cases inL : holds l ()
  · have ht : (s.thr t).Holds holds () := by rw [hl]; exact inL
    refine ⟨fun u l' hu hl' => ?_, fun free => ?_⟩
    · by_cases e : u = t
      · subst e
        obtain rfl : (f s.mem).2 = l' := by simpa using hu
        exact (keeps s.mem).1 inL (ih.inside _ l hl inL)
      · have hu : s.thr u = .run l' := by simpa [e] using hu
        exact absurd (own.unique (by rw [hu]; exact hl') ht) e
    · have : s.owner () = some t := (own t ()).2 ht
      simp_all
  · refine ⟨fun u l' hu hl' => ?_, fun free => ?_⟩
    · by_cases e : u = t
      · subst e
        obtain rfl : (f s.mem).2 = l' := by simpa using hu
        exact absurd ((resp s.mem ()).1 hl') inL
      · have hu : s.thr u = .run l' := by simpa [e] using hu
        exact ((keeps s.mem).2 inL).2 u l' hl' (ih.inside u l' hu hl')
    · exact ((keeps s.mem).2 inL).1 (ih.outside free)

variable [DecidableEq S]

theorem Monitored.step (hp : ∀ t l, (prog t l).Respects holds l)
    (hA : ∀ t l, (prog t l).Keeps holds I A t l)
    (valid : ∀ t, (s.thr t).Valid prog (fun _ => True) t) (own : Owned holds s.thr s.owner)
    (ih : Monitored holds I A s) (hs : Step prog t s s') : Monitored holds I A s' := by
  cases hs with
  | instr l hl eff =>
      have resp := hp t l
      have keeps := hA t l
      have here : holds l () → A t l s.mem := ih.inside t l hl
      cases hi : prog t l with
      | lock m k =>
          rw [hi] at eff keeps
          obtain ⟨free, rfl⟩ := eff
          exact ⟨ih.inside.goto fun _ => keeps _ (ih.outside free), fun e => by simp at e⟩
      | unlock m k =>
          rw [hi] at eff resp keeps
          obtain ⟨-, rfl⟩ := eff
          refine ⟨ih.inside.goto fun hk => ?_, fun _ => keeps _ (here resp.1)⟩
          exact absurd rfl ((resp.2 ()).1 hk).1
      | wait c m k =>
          rw [hi] at eff resp keeps
          obtain ⟨-, rfl⟩ := eff
          exact ⟨ih.inside.update fun l e => (by cases e), fun _ => (keeps _).1 (here resp.1)⟩
      | semWait p k =>
          rw [hi] at eff resp keeps
          obtain ⟨-, rfl⟩ := eff
          refine ⟨ih.inside.goto fun hk => ?_, ih.outside⟩
          have hl' := (resp ()).1 hk
          exact keeps _ hl' (here hl')
      | semPost p k =>
          rw [hi] at eff resp keeps
          obtain rfl := eff
          refine ⟨ih.inside.goto fun hk => ?_, ih.outside⟩
          have hl' := (resp ()).1 hk
          exact keeps _ hl' (here hl')
      | stmt f =>
          rw [hi] at eff resp keeps
          obtain rfl := eff
          exact ih.stmt own hl resp keeps
      | input f =>
          rw [hi] at eff resp keeps
          obtain ⟨x, rfl⟩ := eff
          refine ⟨ih.inside.goto fun hk => ?_, ih.outside⟩
          have hl' := (resp x ()).1 hk
          exact keeps x _ hl' (here hl')
      | signal c k =>
          rw [hi] at eff resp keeps
          have after : holds k () → A t k s.mem := fun hk =>
            keeps _ ((resp ()).1 hk) (here ((resp ()).1 hk))
          rcases eff with ⟨-, rfl⟩ | ⟨u, m, k', -, hk, rfl⟩
          · exact ⟨ih.inside.goto after, ih.outside⟩
          · exact ⟨(ih.inside.update fun l e => (by cases e)).goto after, ih.outside⟩
  | reacquire m k hl free eff =>
      have hk : (Status.woken m k : Status Unit C L).Valid prog (fun _ => True) t := hl ▸ valid t
      obtain ⟨l, c, -, hi⟩ := hk
      have keeps := hA t l
      rw [hi] at keeps
      subst eff
      exact ⟨ih.inside.goto fun _ => (keeps _).2 (ih.outside free), fun e => by simp at e⟩
  | spurious c m k hl eff =>
      subst eff
      exact ⟨ih.inside.update fun l e => (by cases e), ih.outside⟩

/-- The rule for a monitor. -/
theorem monitored_of_reachable [Fintype ι] [DecidableEq C] {loc : ι → L} {sem : S → ℕ} {g₀ : G}
    (h₀ : ∀ t m, ¬ holds (loc t) m) (hI : I g₀) (hp : ∀ t l, (prog t l).Respects holds l)
    (hA : ∀ t l, (prog t l).Keeps holds I A t l)
    (h : (machine prog (start loc sem g₀)).Reachable s) : Monitored holds I A s := by
  have key : (machine prog (start loc sem g₀)).Inductive (Monitored holds I A) := by
    refine machine_inductive ⟨fun t l hl hh => ?_, fun _ => hI⟩ fun t s s' hr ih hs =>
      Monitored.step hp hA (valid_of_reachable (fun _ => trivial) (fun _ _ _ _ _ => trivial) hr)
        (owned_of_reachable h₀ hp hr) ih hs
    obtain rfl : loc t = l := by simpa [start] using hl
    exact absurd hh (h₀ t ())
  exact key.reachable h

end Monitored

/-! ## Threads that cannot go on -/

/-- The thread sleeps or waits for a mutex that is taken or for a semaphore at zero. -/
def Blocked (prog : ι → L → Instr M C S X G L) (s : State ι M C S G L) (t : ι) : Prop :=
  match s.thr t with
  | .asleep _ _ _ => True
  | .woken m _ => s.owner m ≠ none
  | .run l =>
      match prog t l with
      | .lock m _ => s.owner m ≠ none
      | .semWait p _ => s.sem p = 0
      | _ => False

section Blocked

variable {holds : L → M → Prop} {prog : ι → L → Instr M C S X G L} {s : State ι M C S G L}

theorem blocked_of_asleepOn {t : ι} {c : C} (h : (s.thr t).AsleepOn c) : Blocked prog s t := by
  unfold Blocked
  cases ht : s.thr t with
  | asleep c m k => trivial
  | run l | woken m l =>
      rw [ht] at h
      exact h.elim

/-- A thread that is not blocked can take a step of its own. -/
theorem exists_step_of_not_blocked [DecidableEq ι] [Fintype ι] [DecidableEq M] [DecidableEq C]
    [DecidableEq S] [Nonempty X] (hp : ∀ t l, (prog t l).Respects holds l)
    (own : Owned holds s.thr s.owner) {t : ι} (h : ¬ Blocked prog s t) :
    ∃ a s', step prog a s = some s' ∧ ∀ u, a ≠ .spurious u := by
  have go : ∀ s', step prog (.exec t) s = some s' →
      ∃ a s', step prog a s = some s' ∧ ∀ u, a ≠ Act.spurious (X := X) u :=
    fun _ h => ⟨_, _, h, fun _ e => by cases e⟩
  cases hl : s.thr t with
  | asleep c m k => simp [Blocked, hl] at h
  | woken m k =>
      have free : s.owner m = none := by simpa [Blocked, hl] using h
      exact go (s.acquire t m k) (by simp [step, hl, free])
  | run l =>
      have here : ∀ m, s.owner m = some t ↔ holds l m := fun m => by rw [own t m, hl]; rfl
      have resp := hp t l
      cases hi : prog t l with
      | lock m k =>
          have free : s.owner m = none := by simpa [Blocked, hl, hi] using h
          exact go (s.acquire t m k) (by simp [step, hl, hi, execInstr, free])
      | unlock m k =>
          rw [hi] at resp
          have mine := (here m).2 resp.1
          exact go (s.release t m (.run k)) (by simp [step, hl, hi, execInstr, mine])
      | wait c m k =>
          rw [hi] at resp
          have mine := (here m).2 resp.1
          exact go (s.release t m (.asleep c m k)) (by simp [step, hl, hi, execInstr, mine])
      | signal c k =>
          by_cases hu : ∃ u, (s.thr u).AsleepOn c
          · obtain ⟨u, hu⟩ := hu
            cases hk : s.thr u with
            | asleep c' m k' =>
                obtain rfl : c' = c := by simpa [hk, Status.AsleepOn] using hu
                exact ⟨.wake t u, s.wake t u m k' k, by simp [step, hl, hk, hi],
                  fun _ e => by cases e⟩
            | run _ | woken _ _ => simp [hk, Status.AsleepOn] at hu
          · exact go (s.goto t k) (by simp only [step, hl, hi, execInstr, if_neg hu])
      | semWait p k =>
          have pos : 0 < s.sem p := by simpa [Blocked, hl, hi, Nat.pos_iff_ne_zero] using h
          exact go (s.setSem t p (s.sem p - 1) k) (by simp [step, hl, hi, execInstr, pos])
      | semPost p k =>
          exact go (s.setSem t p (s.sem p + 1) k) (by simp [step, hl, hi, execInstr])
      | stmt f =>
          exact go (s.setMem t (f s.mem).1 (f s.mem).2) (by simp [step, hl, hi, execInstr])
      | input f =>
          obtain ⟨x⟩ := ‹Nonempty X›
          exact ⟨.input t x, s.goto t (f x), by simp [step, hl, hi], fun _ e => by cases e⟩

/-- With one mutex and no semaphore, threads that are all blocked are all asleep. -/
theorem asleep_of_blocked [Subsingleton M] [IsEmpty S] (hp : ∀ t l, (prog t l).Respects holds l)
    (own : Owned holds s.thr s.owner) (h : ∀ t, Blocked prog s t) (t : ι) :
    ∃ c m k, s.thr t = .asleep c m k := by
  have free : ∀ m, s.owner m = none := by
    intro m
    by_contra taken
    obtain ⟨u, hu⟩ := Option.ne_none_iff_exists'.1 taken
    have inside := (own u m).1 hu
    have blocked := h u
    unfold Blocked at blocked
    split at blocked
    · next c m' k hk => rw [hk] at inside; exact inside.1 (Subsingleton.elim _ _)
    · next m' k hk => rw [hk] at inside; exact inside.1 (Subsingleton.elim _ _)
    · next l hl =>
        rw [hl] at inside
        have resp := hp u l
        split at blocked
        · next m' k hi =>
            rw [hi] at resp
            exact resp.1 (Subsingleton.elim m m' ▸ inside)
        · next p _ _ => exact IsEmpty.false p
        · exact blocked
  have blocked := h t
  unfold Blocked at blocked
  split at blocked
  · next c m k hk => exact ⟨c, m, k, hk⟩
  · next m k _ => exact absurd (free m) blocked
  · split at blocked
    · next m _ _ => exact absurd (free m) blocked
    · next p _ _ => exact (IsEmpty.false p).elim
    · exact blocked.elim

end Blocked

end Conc
