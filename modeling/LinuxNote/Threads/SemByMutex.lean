import LinuxNote.Conc.Pthread

/-!
# The semaphores of `sem_by_mutex.c`

`sem_wait_my` and `sem_post_my` count in the `int` array `limit_book`; every read and every write of
a counter is a step of its own.  Only `sem_post_my` counts inside the mutex, and `sem_wait_my` does
not look at the counter again before it decrements it.

So two waits can pass the test together and bring the counter below zero, or a decrement and an
increment can overlap.  `counts_of_meets` says that there is no other way: the counter is exact as
long as nobody starts to count on it while another count is half done, nor decrements it at zero or
increments it at `INT_MAX`.
-/

namespace LinuxNote.SemByMutex

open Conc

/-- `INT_MAX` -/
def intMax : ℤ := 2 ^ 31 - 1

/-- The `int` with the low 32 bits of `x`. -/
def wrap (x : ℤ) : ℤ := Int.bmod x (2 ^ 32)

/-- The place of the counter: `2 * (*sem)` -/
def slot (sem : ℕ) : ℕ := 2 * sem

/-- `limit_book`, and for each semaphore the increments and decrements done and the calls of
`sem_wait_my` that have returned. -/
structure Book where
  book : ℕ → ℤ
  incs : ℕ → ℕ
  decs : ℕ → ℕ
  returned : ℕ → ℕ

inductive Call
  | wait (sem : ℕ)
  | post (sem : ℕ)

/-- `ready` is outside the two functions; every other location is before the step it names, and
carries the `int` that has been read. -/
inductive Loc
  | ready
  | waitTest (sem : ℕ)
  | waitLock (sem : ℕ)
  | waitSleep (sem : ℕ)
  | waitUnlock (sem : ℕ)
  | waitRead (sem : ℕ)
  | waitWrite (sem : ℕ) (x : ℤ)
  | waitReturn (sem : ℕ)
  | postLock (sem : ℕ)
  | postRead (sem : ℕ)
  | postWrite (sem : ℕ) (x : ℤ)
  | postUnlock
  | postSignal

/-- The write of `limit_book[2 * (*sem)]--`, where `x` was read. -/
def Book.dec (b : Book) (sem : ℕ) (x : ℤ) : Book :=
  { b with
    book := Function.update b.book (slot sem) (wrap (x - 1))
    decs := Function.update b.decs sem (b.decs sem + 1) }

/-- The write of `limit_book[2 * (*sem)]++`, where `x` was read. -/
def Book.inc (b : Book) (sem : ℕ) (x : ℤ) : Book :=
  { b with
    book := Function.update b.book (slot sem) (wrap (x + 1))
    incs := Function.update b.incs sem (b.incs sem + 1) }

def Book.return (b : Book) (sem : ℕ) : Book :=
  { b with returned := Function.update b.returned sem (b.returned sem + 1) }

def prog : Loc → Instr Unit Unit Empty Call Book Loc
  | .ready => .input fun
      | .wait sem => .waitTest sem
      | .post sem => .postLock sem
  | .waitTest sem => .stmt fun b =>
      (b, if b.book (slot sem) = 0 then .waitLock sem else .waitRead sem)
  | .waitLock sem => .lock () (.waitSleep sem)
  | .waitSleep sem => .wait () () (.waitUnlock sem)
  | .waitUnlock sem => .unlock () (.waitRead sem)
  | .waitRead sem => .stmt fun b => (b, .waitWrite sem (b.book (slot sem)))
  | .waitWrite sem x => .stmt fun b => (b.dec sem x, .waitReturn sem)
  | .waitReturn sem => .stmt fun b => (b.return sem, .ready)
  | .postLock sem => .lock () (.postRead sem)
  | .postRead sem => .stmt fun b => (b, .postWrite sem (b.book (slot sem)))
  | .postWrite sem x => .stmt fun b => (b.inc sem x, .postUnlock)
  | .postUnlock => .unlock () .postSignal
  | .postSignal => .signal () .ready

/-- The two stores of `sem_init_my`: the counter and the limit, both from an `unsigned int`. -/
def store (book : ℕ → ℤ) (sem value : ℕ) : ℕ → ℤ :=
  Function.update (Function.update book (slot sem) (wrap value)) (slot sem + 1) (wrap value)

/-- The array after the semaphores of a list have been created, each with its initial value. -/
def create (book : ℕ → ℤ) : List (ℕ × ℕ) → ℕ → ℤ
  | [] => book
  | (sem, value) :: more => create (store book sem value) more

abbrev State (ι : Type*) := Conc.State ι Unit Unit Empty Book Loc

/-- All threads outside the functions, the semaphores of the list created. -/
def created (ι : Type*) (book : ℕ → ℤ) (sems : List (ℕ × ℕ)) : State ι :=
  start (fun _ => .ready) Empty.elim ⟨create book sems, fun _ => 0, fun _ => 0, fun _ => 0⟩

def system (ι : Type*) [Fintype ι] [DecidableEq ι] (book : ℕ → ℤ) (sems : List (ℕ × ℕ)) :
    Machine (State ι) (Act ι Call) :=
  machine (fun _ => prog) (created ι book sems)

/-! ## Creation -/

theorem store_slot (book : ℕ → ℤ) (sem value : ℕ) :
    store book sem value (slot sem) = wrap value := by
  simp [store]

theorem store_slot_of_ne (book : ℕ → ℤ) {sem other : ℕ} (h : sem ≠ other) (value : ℕ) :
    store book other value (slot sem) = book (slot sem) := by
  rw [store, Function.update_of_ne, Function.update_of_ne] <;> unfold slot <;> omega

theorem create_slot_of_not_mem {book : ℕ → ℤ} {sems : List (ℕ × ℕ)} {sem : ℕ}
    (h : sem ∉ sems.map Prod.fst) : create book sems (slot sem) = book (slot sem) := by
  induction sems generalizing book with
  | nil => rfl
  | cons p more ih =>
      obtain ⟨ne, rest⟩ : sem ≠ p.1 ∧ sem ∉ more.map Prod.fst := by simpa using h
      exact (ih rest).trans (store_slot_of_ne book ne p.2)

/-- Where the handles are distinct, every counter starts at its initial value. -/
theorem create_slot {book : ℕ → ℤ} {sems : List (ℕ × ℕ)} (distinct : (sems.map Prod.fst).Nodup)
    {sem value : ℕ} (h : (sem, value) ∈ sems) : create book sems (slot sem) = wrap value := by
  induction sems generalizing book with
  | nil => simp at h
  | cons p more ih =>
      rw [List.map_cons, List.nodup_cons] at distinct
      rcases List.mem_cons.1 h with rfl | h
      · exact (create_slot_of_not_mem distinct.1).trans (store_slot book sem value)
      · exact ih distinct.2 h

/-! ## Counting -/

/-- Between the read and the write of a `++` or `--` of the counter. -/
def HalfDone (sem : ℕ) : Loc → Prop
  | .waitWrite sem' _ | .postWrite sem' _ => sem' = sem
  | _ => False

instance (sem : ℕ) (l : Loc) : Decidable (HalfDone sem l) := by
  unfold HalfDone; cases l <;> infer_instance

/-- A call that has decremented the counter and not yet returned. -/
def returning (sem : ℕ) : Loc → ℕ
  | .waitReturn sem' => if sem' = sem then 1 else 0
  | _ => 0

/-- What a thread in the middle of a count knows of the counter `b`. -/
def Loc.Known (sem : ℕ) (b : ℤ) : Loc → Prop
  | .waitWrite sem' x => sem' = sem → x = b ∧ x ≠ 0
  | .postWrite sem' x => sem' = sem → x = b ∧ x < intMax
  | _ => True

theorem Loc.known_of_not_halfDone {sem : ℕ} {b : ℤ} {l : Loc} (h : ¬ HalfDone sem l) :
    l.Known sem b := by
  cases l <;> first | trivial | exact fun e => absurd e h

/-- The counter `b` is exact, with `i` increments, `d` decrements and `r` returns done. -/
structure Exact {ι : Type*} [Fintype ι] (sem v : ℕ) (b : ℤ) (i d r : ℕ) (pc : ι → Loc) : Prop where
  value : b = v + i - d
  bounds : 0 ≤ b ∧ b ≤ intMax
  known : ∀ t, (pc t).Known sem b
  alone : ∀ t u, HalfDone sem (pc t) → HalfDone sem (pc u) → t = u
  returned : r + total (returning sem) pc = d

section Book

variable {sem sem' : ℕ} (b : Book) (x : ℤ)

theorem slot_ne (h : sem ≠ sem') : slot sem ≠ slot sem' := by
  unfold slot
  omega

theorem dec_book : (b.dec sem x).book (slot sem) = wrap (x - 1) := Function.update_self ..

theorem dec_decs : (b.dec sem x).decs sem = b.decs sem + 1 := Function.update_self ..

theorem dec_book_of_ne (h : sem' ≠ sem) : (b.dec sem' x).book (slot sem) = b.book (slot sem) :=
  Function.update_of_ne (slot_ne h.symm) ..

theorem dec_decs_of_ne (h : sem' ≠ sem) : (b.dec sem' x).decs sem = b.decs sem :=
  Function.update_of_ne h.symm ..

theorem inc_book : (b.inc sem x).book (slot sem) = wrap (x + 1) := Function.update_self ..

theorem inc_incs : (b.inc sem x).incs sem = b.incs sem + 1 := Function.update_self ..

theorem inc_book_of_ne (h : sem' ≠ sem) : (b.inc sem' x).book (slot sem) = b.book (slot sem) :=
  Function.update_of_ne (slot_ne h.symm) ..

theorem inc_incs_of_ne (h : sem' ≠ sem) : (b.inc sem' x).incs sem = b.incs sem :=
  Function.update_of_ne h.symm ..

end Book

section

variable {ι : Type*} [Fintype ι] [DecidableEq ι]

omit [DecidableEq ι] in
theorem Exact.others {sem v i d r : ℕ} {b : ℤ} {pc : ι → Loc} {t : ι} (h : Exact sem v b i d r pc)
    (ht : HalfDone sem (pc t)) : ∀ u, u ≠ t → ¬ HalfDone sem (pc u) :=
  fun u ne hu => ne (h.alone u t hu ht)

/-- Thread `t` goes on at `k`: where it starts or ends a count, no other thread is in one. -/
theorem Exact.goto {sem v i d r i' d' r' : ℕ} {b b' : ℤ} {pc : ι → Loc} {t : ι} {k : Loc}
    (h : Exact sem v b i d r pc) (value : b' + i + d' = b + i' + d)
    (bounds : 0 ≤ b' ∧ b' ≤ intMax) (known : k.Known sem b')
    (others : (b' = b ∧ ¬ HalfDone sem k) ∨ ∀ u, u ≠ t → ¬ HalfDone sem (pc u))
    (returned : r' + returning sem k + d = r + returning sem (pc t) + d') :
    Exact sem v b' i' d' r' (Function.update pc t k) := by
  refine ⟨?_, bounds, fun u => ?_, fun u w hu hw => ?_, ?_⟩
  · have := h.value
    omega
  · by_cases e : u = t
    · subst e; rwa [Function.update_self]
    · rw [Function.update_of_ne e]
      rcases others with ⟨rfl, -⟩ | alone
      · exact h.known u
      · exact Loc.known_of_not_halfDone (alone u e)
  · rcases others with ⟨-, rest⟩ | alone
    · have ne : ∀ u, HalfDone sem (Function.update pc t k u) → u ≠ t := by
        rintro u hu rfl
        rw [Function.update_self] at hu
        exact rest hu
      rw [Function.update_of_ne (ne u hu)] at hu
      rw [Function.update_of_ne (ne w hw)] at hw
      exact h.alone u w hu hw
    · have eq : ∀ u, HalfDone sem (Function.update pc t k u) → u = t := by
        intro u hu
        by_contra ne
        rw [Function.update_of_ne ne] at hu
        exact alone u ne hu
      exact (eq u hu).trans (eq w hw).symm
  · have := total_update (returning sem) pc t k
    have := h.returned
    omega

/-- Thread `t` goes on at `k` and counts nothing. -/
theorem Exact.idle {sem v i d r r' : ℕ} {b : ℤ} {pc : ι → Loc} {t : ι} {l k : Loc}
    (h : Exact sem v b i d r pc) (here : pc t = l) (known : k.Known sem b)
    (idle : ¬ HalfDone sem k) (returned : r' + returning sem k = r + returning sem l) :
    Exact sem v b i d r' (Function.update pc t k) :=
  h.goto rfl h.bounds known (Or.inl ⟨rfl, idle⟩) (by rw [here, returned])

/-- Nobody starts a `++` or `--` of the counter while another is half done, nor a `--` at zero or a
`++` at `INT_MAX`. -/
def Guarded (sem : ℕ) (a : Act ι Call) (s : State ι) : Prop :=
  match s.pc a.actor with
  | .waitRead sem' => sem' = sem → s.mem.book (slot sem) ≠ 0 ∧ ∀ u, ¬ HalfDone sem (s.pc u)
  | .postRead sem' => sem' = sem → s.mem.book (slot sem) < intMax ∧ ∀ u, ¬ HalfDone sem (s.pc u)
  | _ => True

instance (sem : ℕ) (a : Act ι Call) (s : State ι) : Decidable (Guarded sem a s) := by
  unfold Guarded
  cases s.pc a.actor <;> infer_instance

def ExactAt (sem v : ℕ) (s : State ι) : Prop :=
  Exact sem v (s.mem.book (slot sem)) (s.mem.incs sem) (s.mem.decs sem) (s.mem.returned sem) s.pc

theorem wrap_of_mem {x : ℤ} (h : 0 ≤ x ∧ x ≤ intMax) : wrap x = x := by
  unfold wrap intMax at *
  exact Int.bmod_eq_of_le (by omega) (by omega)

theorem ExactAt.step {sem v : ℕ} {a : Act ι Call} {s s' : State ι} (h : ExactAt sem v s)
    (ok : Guarded sem a s) (hs : step (fun _ => prog) a s = some s') : ExactAt sem v s' := by
  rcases (step_cases hs).moves with ⟨pc, mem, -⟩ | ⟨l, k, hl, moves, pc⟩
  · unfold ExactAt at h ⊢
    rwa [pc, mem]
  have here : s.pc a.actor = l := by rw [State.pc, hl]; rfl
  unfold Guarded at ok
  rw [here] at ok
  unfold ExactAt
  rw [pc]
  cases l with
  | ready =>
      obtain ⟨⟨x, rfl⟩, mem⟩ := moves
      rw [mem]
      cases x <;> exact h.idle here trivial id rfl
  | waitLock sem' | waitSleep sem' | waitUnlock sem' | postLock sem' | postUnlock | postSignal =>
      obtain ⟨rfl, mem⟩ := moves
      rw [mem]
      exact h.idle here trivial id rfl
  | waitTest sem' =>
      obtain ⟨mem, rfl⟩ := Prod.mk.inj moves
      rw [← mem]
      split <;> exact h.idle here trivial id rfl
  | waitRead sem' =>
      obtain ⟨mem, rfl⟩ := Prod.mk.inj moves
      rw [← mem]
      by_cases e : sem' = sem
      · obtain ⟨pos, nobody⟩ := ok e
        refine h.goto rfl h.bounds (fun _ => ⟨by rw [e], by rwa [e]⟩)
          (Or.inr fun u _ => nobody u) ?_
        rw [here]; rfl
      · exact h.idle here (fun e' => absurd e' e) e rfl
  | postRead sem' =>
      obtain ⟨mem, rfl⟩ := Prod.mk.inj moves
      rw [← mem]
      by_cases e : sem' = sem
      · obtain ⟨small, nobody⟩ := ok e
        refine h.goto rfl h.bounds (fun _ => ⟨by rw [e], by rwa [e]⟩)
          (Or.inr fun u _ => nobody u) ?_
        rw [here]; rfl
      · exact h.idle here (fun e' => absurd e' e) e rfl
  | waitWrite sem' x =>
      obtain ⟨mem, rfl⟩ := Prod.mk.inj moves
      rw [← mem]
      by_cases e : sem' = sem
      · subst e
        obtain ⟨rfl, pos⟩ : x = s.mem.book (slot sem') ∧ x ≠ 0 := (here ▸ h.known a.actor) rfl
        have := h.bounds
        have bounds : 0 ≤ s.mem.book (slot sem') - 1 ∧ s.mem.book (slot sem') - 1 ≤ intMax := by
          omega
        rw [dec_book, dec_decs, wrap_of_mem bounds]
        refine h.goto ?_ bounds trivial (Or.inr (h.others (by rw [here]; rfl))) ?_
        · show _ - 1 + _ + _ = _ + (s.mem.incs sem' : ℤ) + _
          omega
        · rw [here]
          simp [returning, Book.dec]
          omega
      · rw [dec_book_of_ne _ _ e, dec_decs_of_ne _ _ e]
        refine h.idle here trivial id ?_
        simp [returning, e]
        rfl
  | postWrite sem' x =>
      obtain ⟨mem, rfl⟩ := Prod.mk.inj moves
      rw [← mem]
      by_cases e : sem' = sem
      · subst e
        obtain ⟨rfl, small⟩ : x = s.mem.book (slot sem') ∧ x < intMax :=
          (here ▸ h.known a.actor) rfl
        have := h.bounds
        have bounds : 0 ≤ s.mem.book (slot sem') + 1 ∧ s.mem.book (slot sem') + 1 ≤ intMax := by
          omega
        rw [inc_book, inc_incs, wrap_of_mem bounds]
        refine h.goto ?_ bounds trivial (Or.inr (h.others (by rw [here]; rfl))) (by rw [here]; rfl)
        show _ + 1 + _ + (s.mem.decs sem' : ℤ) = _
        omega
      · rw [inc_book_of_ne _ _ e, inc_incs_of_ne _ _ e]
        exact h.idle here trivial id rfl
  | waitReturn sem' =>
      obtain ⟨mem, rfl⟩ := Prod.mk.inj moves
      rw [← mem]
      refine h.idle here trivial id ?_
      by_cases e : sem' = sem
      · subst e
        simp [returning, Book.return]
      · simp [returning, Book.return, e, Ne.symm e]

/-- The counter is exact while no count is half done, and no more calls of `sem_wait_my` have
returned than it allows. -/
structure Counts (sem v : ℕ) (s : State ι) : Prop where
  exact : (∀ t, ¬ HalfDone sem (s.pc t)) →
    s.mem.book (slot sem) = v + s.mem.incs sem - s.mem.decs sem ∧ 0 ≤ s.mem.book (slot sem)
  returned : s.mem.returned sem ≤ v + s.mem.incs sem

omit [DecidableEq ι] in
theorem ExactAt.counts {sem v : ℕ} {s : State ι} (h : ExactAt sem v s) : Counts sem v s where
  exact _ := ⟨h.value, h.bounds.1⟩
  returned := by
    have := h.value
    have := h.bounds
    have := h.returned
    omega

/-- After every run whose steps are all guarded for the semaphore `sem`. -/
theorem counts_of_meets {book : ℕ → ℤ} {sems : List (ℕ × ℕ)}
    (distinct : (sems.map Prod.fst).Nodup) {sem v : ℕ} (mem : (sem, v) ∈ sems) (small : v ≤ intMax)
    {as : List (Act ι Call)} {s : State ι}
    (h : (system ι book sems).run as (created ι book sems) = some s)
    (guarded : (system ι book sems).Meets (Guarded sem) as (created ι book sems)) :
    Counts sem v s := by
  have start : ExactAt sem v (created ι book sems) := by
    have bounds : 0 ≤ (v : ℤ) ∧ (v : ℤ) ≤ intMax := ⟨Int.natCast_nonneg v, small⟩
    unfold ExactAt
    rw [show (created ι book sems).mem.book (slot sem) = v from
      (create_slot distinct mem).trans (wrap_of_mem bounds)]
    refine ⟨?_, bounds, fun t => trivial, fun t u ht => ht.elim, ?_⟩
    · simp [created, Conc.start]
    · refine (Nat.zero_add _).trans (total_eq_zero_iff.2 fun t => rfl)
  exact (Machine.invariant_of_meets (fun a s s' h ok hs => h.step ok hs) start h guarded).counts

end

/-- A wait on semaphore 1 sleeps until the other thread posts it; and while it decrements the
counter, that thread decrements the one of semaphore 2. -/
def postThenWait : List (Act (Fin 2) Call) :=
  .input 1 (.wait 1) :: List.replicate 3 (.exec 1) ++
    .input 0 (.post 1) :: List.replicate 4 (.exec 0) ++
    [.wake 0 1, .input 0 (.wait 2), .exec 0, .exec 1, .exec 1, .exec 0, .exec 1, .exec 0, .exec 1,
      .exec 1, .exec 0]

theorem counts_postThenWait : ∃ s,
    (system (Fin 2) (fun _ => 0) [(1, 0), (2, 3)]).Reachable s ∧ s.mem.returned 1 = 1 ∧
      s.mem.returned 2 = 1 ∧ s.mem.book (slot 2) = 2 ∧ Counts 1 0 s := by
  have guarded : (system (Fin 2) (fun _ => 0) [(1, 0), (2, 3)]).Meets (Guarded 1) postThenWait
      (created (Fin 2) (fun _ => 0) [(1, 0), (2, 3)]) := by decide
  exact ⟨_, Machine.reachable_of_run postThenWait rfl rfl, rfl, rfl, rfl,
    counts_of_meets (by decide) (by decide) (by decide) rfl guarded⟩

/-- Two waits on a semaphore with value 1 that both pass the test before either decrements. -/
def passTogether : List (Act (Fin 2) Call) :=
  [.input 0 (.wait 1), .exec 0, .input 1 (.wait 1), .exec 1, .exec 0, .exec 0, .exec 0, .exec 1,
    .exec 1, .exec 1]

/-- Nothing is half done, the counter is −1, and two waits have returned without any post. -/
theorem not_counts_passTogether : ∃ s,
    (system (Fin 2) (fun _ => 0) [(1, 1)]).Reachable s ∧ (∀ t, ¬ HalfDone 1 (s.pc t)) ∧
    s.mem.book (slot 1) = -1 ∧ s.mem.returned 1 = 2 ∧ s.mem.incs 1 = 0 ∧ ¬ Counts 1 1 s := by
  have h := Machine.reachable_of_run (M := system (Fin 2) (fun _ => 0) [(1, 1)]) passTogether rfl
    rfl
  exact ⟨_, h, by decide, rfl, rfl, rfl, fun c => absurd c.returned (by decide)⟩

end LinuxNote.SemByMutex
