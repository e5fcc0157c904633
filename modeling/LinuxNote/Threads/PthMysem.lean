import LinuxNote.Conc.Monitor
import LinuxNote.Threads.SemInit

/-!
# The producer and the consumer of `pth_mysem.c`

Two threads pass values through the array `queue` and count blanks and products with the semaphores
of `sem_by_mutex.c`, whose program is a part of theirs (`calling`).  The counter of one thread is
changed by its own waits and by the posts of the other, and a unit taken from one counter is given
to the other (`Tally`), so both counters can be 0 only while a unit is on its way
(`exists_carries`).

`sem_wait_my` tests its counter before it has the mutex and sleeps without a second test, so a post
can fall in between and its signal is lost; when the other thread then empties its own counter, both
sleep (`asleep_lostSignals`).  `not_asleep_of_meets` says that this cannot happen when every
`pthread_cond_wait` is executed while the counter is 0 and no two counts overlap.
-/

namespace LinuxNote.PthMysem

open Conc

/-- `NUM` -/
def NUM : ℕ := 5

inductive Worker
  | producer
  | consumer
  deriving DecidableEq

namespace Worker

instance : Fintype Worker := ⟨{producer, consumer}, fun t => by cases t <;> decide⟩

def other : Worker → Worker
  | producer => consumer
  | consumer => producer

end Worker

/-- `blank_number` and `product_number` after the two calls of `sem_init_my`. -/
def blank_number : ℕ := 0

def product_number : ℕ := 1

namespace Worker

/-- The semaphore that the thread waits for. -/
def takes : Worker → ℕ
  | producer => blank_number
  | consumer => product_number

/-- The semaphore that the thread posts. -/
def gives (t : Worker) : ℕ := t.other.takes

/-- The initial value of the semaphore that the thread waits for. -/
def stock : Worker → ℕ
  | producer => NUM
  | consumer => 0

end Worker

inductive Line
  | produce (x : ℤ)
  | consume (x : ℤ)

/-- `limit_book`, `queue`, the local variables `p` and `c`, and what has been printed. -/
structure Shop where
  book : SemByMutex.Book
  queue : List ℤ
  p : ℕ
  c : ℕ
  printed : List Line

/-- Inside a call of `sem_wait_my` or `sem_post_my`, and around the calls.  The location `ready` of
a call is before it. -/
inductive Loc
  | wait (l : SemByMutex.Loc)
  | rand
  | store (x : ℤ)
  | printProduce
  | printConsume
  | clear
  | post (l : SemByMutex.Loc)
  | advance

/-- The call `call` of a semaphore function: its locations are `at_`, and it returns to `back`. -/
def calling (call : SemByMutex.Call) (at_ : SemByMutex.Loc → Loc) (back : Loc)
    (l : SemByMutex.Loc) : Instr Unit Unit Empty ℕ Shop Loc :=
  ((SemByMutex.prog l).comap fun _ => call).within Shop.book (fun g b => { g with book := b })
    fun
      | .ready => back
      | k => at_ k

/-- Where the thread goes on after `sem_wait_my`. -/
def work : Worker → Loc
  | .producer => .rand
  | .consumer => .printConsume

/-- The index of the thread becomes `(i + 1) % NUM`. -/
def Shop.advance (g : Shop) : Worker → Shop
  | .producer => { g with p := (g.p + 1) % NUM }
  | .consumer => { g with c := (g.c + 1) % NUM }

def prog (t : Worker) : Loc → Instr Unit Unit Empty ℕ Shop Loc
  | .wait l => calling (.wait t.takes) .wait (work t) l
  | .rand => .input fun r => .store (r % 1000 + 1)
  | .store x => .stmt fun g => ({ g with queue := g.queue.set g.p x }, .printProduce)
  | .printProduce => .stmt fun g =>
      ({ g with printed := g.printed ++ [.produce (g.queue.getD g.p 0)] }, .post .ready)
  | .printConsume => .stmt fun g =>
      ({ g with printed := g.printed ++ [.consume (g.queue.getD g.c 0)] }, .clear)
  | .clear => .stmt fun g => ({ g with queue := g.queue.set g.c 0 }, .post .ready)
  | .post l => calling (.post t.gives) .post .advance l
  | .advance => .stmt fun g => (g.advance t, .wait .ready)

theorem book_advance (g : Shop) (t : Worker) : (g.advance t).book = g.book := by cases t <;> rfl

abbrev State := Conc.State Worker Unit Unit Empty Shop Loc

/-- The table after the two calls of `sem_init_my` of `main`; the new memory holds `book`. -/
def table (book : ℕ → ℤ) : SemInit.Table := ((SemInit.empty book).sem_init_my NUM).sem_init_my 0

/-- Both threads before their loops. -/
def created (book : ℕ → ℤ) : State :=
  start (fun _ => .wait .ready) Empty.elim
    ⟨⟨(table book).book, fun _ => 0, fun _ => 0, fun _ => 0⟩, List.replicate NUM 0, 0, 0, []⟩

def system (book : ℕ → ℤ) : Machine State (Act Worker ℕ) := machine prog (created book)

/-! ## Places -/

/-- In a call of `sem_wait_my` on `sem`, whose counter is `b`. -/
def Waits (sem : ℕ) (b : ℤ) : SemByMutex.Loc → Prop
  | .ready => True
  | .waitTest s | .waitLock s | .waitSleep s | .waitUnlock s | .waitRead s | .waitReturn s =>
      s = sem
  | .waitWrite s x => s = sem ∧ x = b
  | _ => False

/-- In a call of `sem_post_my` on `sem`, whose counter is `b`. -/
def Posts (sem : ℕ) (b : ℤ) : SemByMutex.Loc → Prop
  | .ready | .postUnlock | .postSignal => True
  | .postLock s | .postRead s => s = sem
  | .postWrite s x => s = sem ∧ x = b
  | _ => False

/-- The calls of thread `t` are on its semaphores, and what it has read is still there. -/
def Loc.Fits (t : Worker) (book : ℕ → ℤ) : Loc → Prop
  | .wait l => Waits t.takes (book (SemByMutex.slot t.takes)) l
  | .post l => Posts t.gives (book (SemByMutex.slot t.gives)) l
  | _ => True

/-- Between the read and the write of a `++` or `--` of the counter. -/
def HalfDone (sem : ℕ) : Loc → Prop
  | .wait l | .post l => SemByMutex.HalfDone sem l
  | _ => False

instance (sem : ℕ) (l : Loc) : Decidable (HalfDone sem l) := by
  unfold HalfDone; cases l <;> infer_instance

/-- One unit taken and not yet given on. -/
def carries : Loc → ℕ
  | .wait (.waitReturn _) => 1
  | .wait _ => 0
  | .post .postUnlock | .post .postSignal => 0
  | .advance => 0
  | _ => 1

/-- A signal is still to be sent. -/
def Signals : Loc → Prop
  | .post .postUnlock | .post .postSignal => True
  | _ => False

theorem signals_iff {l : Loc} : Signals l ↔ l = .post .postUnlock ∨ l = .post .postSignal := by
  cases l with
  | post l => cases l <;> simp [Signals]
  | _ => simp [Signals]

/-! ## The invariant -/

/-- What the counters say, and where the threads stand. -/
structure Tally (b : SemByMutex.Book) (pc : Worker → Loc) : Prop where
  value : ∀ t : Worker, b.book (SemByMutex.slot t.takes) =
    SemByMutex.wrap (t.stock + b.incs t.takes - b.decs t.takes)
  fits : ∀ t, (pc t).Fits t b.book
  alone : ∀ sem t u, HalfDone sem (pc t) → HalfDone sem (pc u) → t = u
  order : ∀ t : Worker, b.decs t.takes = b.incs t.gives + carries (pc t)

/-- A `pthread_cond_wait` is executed while the tested counter is still 0, and no `++` or `--` of a
counter starts while another of the same counter is half done. -/
def Careful (a : Act Worker ℕ) (s : State) : Prop :=
  match s.pc a.actor with
  | .wait (.waitSleep sem) => s.mem.book.book (SemByMutex.slot sem) = 0
  | .wait (.waitRead sem) | .post (.postRead sem) => ∀ u, ¬ HalfDone sem (s.pc u)
  | _ => True

instance (a : Act Worker ℕ) (s : State) : Decidable (Careful a s) := by
  unfold Careful
  split <;> infer_instance

theorem takes_inj {t u : Worker} : t.takes = u.takes ↔ t = u := by
  cases t <;> cases u <;> decide

theorem Waits.of_not_halfDone {sem : ℕ} {b b' : ℤ} {l : SemByMutex.Loc} (h : Waits sem b l)
    (idle : ¬ SemByMutex.HalfDone sem l) : Waits sem b' l := by
  cases l <;> first | exact h | exact absurd h.1 idle

theorem Posts.of_not_halfDone {sem : ℕ} {b b' : ℤ} {l : SemByMutex.Loc} (h : Posts sem b l)
    (idle : ¬ SemByMutex.HalfDone sem l) : Posts sem b' l := by
  cases l <;> first | exact h | exact absurd h.1 idle

/-- A thread that is not half done on a counter does not mind when the counter changes. -/
theorem Loc.Fits.update {u w : Worker} {book : ℕ → ℤ} {l : Loc} (h : l.Fits u book)
    (idle : ¬ HalfDone w.takes l) (y : ℤ) :
    l.Fits u (Function.update book (SemByMutex.slot w.takes) y) := by
  have other : ∀ v : Worker, v ≠ w →
      Function.update book (SemByMutex.slot w.takes) y (SemByMutex.slot v.takes) =
        book (SemByMutex.slot v.takes) := fun v ne =>
    Function.update_of_ne (SemByMutex.slot_ne fun e => ne (takes_inj.1 e)) ..
  cases l with
  | wait l =>
      by_cases e : u = w
      · subst e
        exact Waits.of_not_halfDone h idle
      · simpa only [Fits, other u e] using h
  | post l =>
      by_cases e : u.other = w
      · subst e
        exact Posts.of_not_halfDone h idle
      · simpa only [Fits, Worker.gives, other _ e] using h
  | _ => trivial

theorem wrap_add (x y : ℤ) : SemByMutex.wrap (SemByMutex.wrap x + y) = SemByMutex.wrap (x + y) :=
  Int.bmod_add_bmod

section Tally

variable {b b' : SemByMutex.Book} {pc : Worker → Loc} {t : Worker} {k : Loc}

/-- Thread `t` goes on at `k` and counts nothing. -/
theorem Tally.goto (h : Tally b pc) (book : b'.book = b.book) (incs : b'.incs = b.incs)
    (decs : b'.decs = b.decs) (fits : k.Fits t b.book)
    (alone : ∀ sem, HalfDone sem k → ∀ u, ¬ HalfDone sem (pc u))
    (same : carries k = carries (pc t)) : Tally b' (Function.update pc t k) where
  value u := by rw [book, incs, decs]; exact h.value u
  fits := by
    rw [book]
    exact (Function.forall_update_iff pc fun u l => l.Fits u b.book).2 ⟨fits, fun u _ => h.fits u⟩
  alone sem u v hu hv := by
    by_cases hk : HalfDone sem k
    · have here : ∀ w, HalfDone sem (Function.update pc t k w) → w = t := by
        intro w hw
        by_contra ne
        rw [Function.update_of_ne ne] at hw
        exact alone sem hk w hw
      exact (here u hu).trans (here v hv).symm
    · have before : ∀ w, HalfDone sem (Function.update pc t k w) → HalfDone sem (pc w) := by
        intro w hw
        by_cases e : w = t
        · rw [e, Function.update_self] at hw
          exact absurd hw hk
        · rwa [Function.update_of_ne e] at hw
      exact h.alone sem u v (before u hu) (before v hv)
  order u := by
    rw [incs, decs, h.order u]
    by_cases e : u = t
    · rw [e, Function.update_self, same]
    · rw [Function.update_of_ne e]

/-- Thread `t` goes on at `k` and is not half done there. -/
theorem Tally.idle (h : Tally b pc) {l : Loc} (here : pc t = l) (book : b'.book = b.book)
    (incs : b'.incs = b.incs) (decs : b'.decs = b.decs) (fits : k.Fits t b.book)
    (idle : ∀ sem, ¬ HalfDone sem k) (same : carries k = carries l) :
    Tally b' (Function.update pc t k) :=
  h.goto book incs decs fits (fun sem hk => absurd hk (idle sem)) (same.trans (by rw [here]))

/-- Thread `t` adds `d` to the counter that `w` waits for. -/
theorem Tally.count (h : Tally b pc) {w : Worker} {d : ℤ}
    (book : b'.book = Function.update b.book (SemByMutex.slot w.takes)
      (SemByMutex.wrap (b.book (SemByMutex.slot w.takes) + d)))
    (done : (b'.incs w.takes : ℤ) - b'.decs w.takes = b.incs w.takes - b.decs w.takes + d)
    (rest : ∀ u : Worker, u ≠ w →
      b'.incs u.takes = b.incs u.takes ∧ b'.decs u.takes = b.decs u.takes)
    (half : HalfDone w.takes (pc t)) (idle : ∀ sem, ¬ HalfDone sem k) (fits : k.Fits t b'.book)
    (order : ∀ u : Worker,
      b'.decs u.takes = b'.incs u.gives + carries (Function.update pc t k u)) :
    Tally b' (Function.update pc t k) where
  value u := by
    by_cases e : u = w
    · subst e
      rw [book, Function.update_self, h.value u, wrap_add]
      congr 1
      omega
    · rw [book, Function.update_of_ne (SemByMutex.slot_ne fun e' => e (takes_inj.1 e')),
        (rest u e).1, (rest u e).2]
      exact h.value u
  fits := by
    refine (Function.forall_update_iff pc fun u l => l.Fits u b'.book).2 ⟨fits, fun u ne => ?_⟩
    rw [book]
    exact (h.fits u).update (fun hu => ne (h.alone _ u t hu half)) _
  alone sem u v hu hv := by
    have before : ∀ w, HalfDone sem (Function.update pc t k w) → HalfDone sem (pc w) := by
      intro w hw
      by_cases e : w = t
      · rw [e, Function.update_self] at hw
        exact absurd hw (idle sem)
      · rwa [Function.update_of_ne e] at hw
    exact h.alone sem u v (before u hu) (before v hv)
  order := order

theorem Tally.dec (h : Tally b pc) {x : ℤ} (here : pc t = .wait (.waitWrite t.takes x)) :
    Tally (b.dec t.takes x) (Function.update pc t (.wait (.waitReturn t.takes))) := by
  have fits := h.fits t
  rw [here] at fits
  obtain ⟨-, rfl⟩ := fits
  have other : ∀ u : Worker, u ≠ t →
      (b.dec t.takes (b.book (SemByMutex.slot t.takes))).decs u.takes = b.decs u.takes :=
    fun u ne => SemByMutex.dec_decs_of_ne _ _ fun e => ne (takes_inj.1 e).symm
  refine h.count (w := t) (d := -1) rfl ?_ (fun u ne => ⟨rfl, other u ne⟩) ?_ (fun _ => id) rfl ?_
  · rw [SemByMutex.dec_decs]
    simp only [SemByMutex.Book.dec]
    omega
  · rw [here]
    rfl
  · intro u
    have order := h.order u
    by_cases e : u = t
    · subst e
      rw [here] at order
      rw [Function.update_self, SemByMutex.dec_decs, order]
      rfl
    · rw [Function.update_of_ne e, other u e, order]
      rfl

theorem Tally.inc (h : Tally b pc) {x : ℤ} (here : pc t = .post (.postWrite t.gives x)) :
    Tally (b.inc t.gives x) (Function.update pc t (.post .postUnlock)) := by
  have fits := h.fits t
  rw [here] at fits
  obtain ⟨-, rfl⟩ := fits
  have other : ∀ u : Worker, u ≠ t.other →
      (b.inc t.gives (b.book (SemByMutex.slot t.gives))).incs u.takes = b.incs u.takes :=
    fun u ne => SemByMutex.inc_incs_of_ne _ _ fun e => ne (takes_inj.1 e).symm
  refine h.count (w := t.other) (d := 1) rfl ?_ (fun u ne => ⟨other u ne, rfl⟩) ?_ (fun _ => id)
    trivial ?_
  · show ((b.inc t.gives _).incs t.gives : ℤ) - _ = _
    rw [SemByMutex.inc_incs]
    simp only [SemByMutex.Book.inc, Worker.gives]
    omega
  · rw [here]
    rfl
  · intro u
    have order := h.order u
    by_cases e : u = t
    · subst e
      rw [here] at order
      rw [Function.update_self, SemByMutex.inc_incs]
      exact order
    · have ne : u.other ≠ t.other := by cases u <;> cases t <;> simp_all [Worker.other]
      rw [Function.update_of_ne e]
      exact order.trans (congrArg (· + carries (pc u)) (other _ ne).symm)

end Tally

theorem fits_work (t u : Worker) (book : ℕ → ℤ) : (work t).Fits u book := by cases t <;> trivial

theorem not_halfDone_work (t : Worker) (sem : ℕ) : ¬ HalfDone sem (work t) := by
  cases t <;> exact id

theorem carries_work (t : Worker) : carries (work t) = 1 := by cases t <;> rfl

theorem moves_of_calling {call : SemByMutex.Call} {at_ : SemByMutex.Loc → Loc} {back k : Loc}
    {l : SemByMutex.Loc} {g g' : Shop} (h : (calling call at_ back l).Moves g k g') :
    ∃ k', ((SemByMutex.prog l).comap fun _ : ℕ => call).Moves g.book k' g'.book ∧
      k = (match k' with | .ready => back | k' => at_ k') := by
  obtain ⟨k', b, moves, rfl, rfl⟩ := h.of_within (fun _ => rfl)
  exact ⟨k', moves, rfl⟩

section Calls

variable {pc : Worker → Loc} {t : Worker} {k : Loc} {l : SemByMutex.Loc} {g g' : Shop}

/-- A step in `sem_wait_my`. -/
theorem Tally.wait (h : Tally g.book pc) (here : pc t = .wait l)
    (ok : ∀ sem, l = .waitRead sem → ∀ u, ¬ HalfDone sem (pc u))
    (moves : (prog t (.wait l)).Moves g k g') : Tally g'.book (Function.update pc t k) := by
  have fits := h.fits t
  rw [here] at fits
  obtain ⟨k', inner, rfl⟩ := moves_of_calling moves
  cases l with
  | ready =>
      obtain ⟨⟨x, rfl⟩, mem⟩ := inner
      rw [mem]
      exact h.idle here rfl rfl rfl rfl (fun _ => id) rfl
  | waitTest sem =>
      obtain rfl : sem = t.takes := fits
      obtain ⟨mem, rfl⟩ := Prod.mk.inj inner
      rw [← mem]
      by_cases zero : g.book.book (SemByMutex.slot t.takes) = 0
      · rw [if_pos zero]
        exact h.idle here rfl rfl rfl rfl (fun _ => id) rfl
      · rw [if_neg zero]
        exact h.idle here rfl rfl rfl rfl (fun _ => id) rfl
  | waitLock sem | waitSleep sem | waitUnlock sem =>
      obtain rfl : sem = t.takes := fits
      obtain ⟨rfl, mem⟩ := inner
      rw [mem]
      exact h.idle here rfl rfl rfl rfl (fun _ => id) rfl
  | waitRead sem =>
      obtain rfl : sem = t.takes := fits
      obtain ⟨mem, rfl⟩ := Prod.mk.inj inner
      rw [← mem]
      refine h.goto rfl rfl rfl ⟨rfl, rfl⟩ ?_ (by rw [here]; rfl)
      rintro sem rfl
      exact ok _ rfl
  | waitWrite sem x =>
      obtain rfl : sem = t.takes := fits.1
      obtain ⟨mem, rfl⟩ := Prod.mk.inj inner
      rw [← mem]
      exact h.dec here
  | waitReturn sem =>
      obtain rfl : sem = t.takes := fits
      obtain ⟨mem, rfl⟩ := Prod.mk.inj inner
      rw [← mem]
      exact h.idle here rfl rfl rfl (fits_work _ _ _) (not_halfDone_work _) (carries_work _)
  | postLock sem | postRead sem | postWrite sem x | postUnlock | postSignal => exact fits.elim

/-- A step in `sem_post_my`. -/
theorem Tally.post (h : Tally g.book pc) (here : pc t = .post l)
    (ok : ∀ sem, l = .postRead sem → ∀ u, ¬ HalfDone sem (pc u))
    (moves : (prog t (.post l)).Moves g k g') : Tally g'.book (Function.update pc t k) := by
  have fits := h.fits t
  rw [here] at fits
  obtain ⟨k', inner, rfl⟩ := moves_of_calling moves
  cases l with
  | ready =>
      obtain ⟨⟨x, rfl⟩, mem⟩ := inner
      rw [mem]
      exact h.idle here rfl rfl rfl rfl (fun _ => id) rfl
  | postLock sem =>
      obtain rfl : sem = t.gives := fits
      obtain ⟨rfl, mem⟩ := inner
      rw [mem]
      exact h.idle here rfl rfl rfl rfl (fun _ => id) rfl
  | postRead sem =>
      obtain rfl : sem = t.gives := fits
      obtain ⟨mem, rfl⟩ := Prod.mk.inj inner
      rw [← mem]
      refine h.goto rfl rfl rfl ⟨rfl, rfl⟩ ?_ (by rw [here]; rfl)
      rintro sem rfl
      exact ok _ rfl
  | postWrite sem x =>
      obtain rfl : sem = t.gives := fits.1
      obtain ⟨mem, rfl⟩ := Prod.mk.inj inner
      rw [← mem]
      exact h.inc here
  | postUnlock | postSignal =>
      obtain ⟨rfl, mem⟩ := inner
      rw [mem]
      exact h.idle here rfl rfl rfl trivial (fun _ => id) rfl
  | waitTest sem | waitLock sem | waitSleep sem | waitUnlock sem | waitRead sem
  | waitWrite sem x | waitReturn sem => exact fits.elim

end Calls

theorem Tally.step {a : Act Worker ℕ} {s s' : State} (h : Tally s.mem.book s.pc)
    (ok : Careful a s) (hs : step prog a s = some s') : Tally s'.mem.book s'.pc := by
  rcases (step_cases hs).moves with ⟨pc, mem, -⟩ | ⟨l, k, hl, moves, pc⟩
  · rwa [pc, mem]
  have here : s.pc a.actor = l := by rw [State.pc, hl]; rfl
  unfold Careful at ok
  rw [here] at ok
  rw [pc]
  cases l with
  | wait l =>
      refine h.wait here ?_ moves
      rintro sem rfl
      exact ok
  | post l =>
      refine h.post here ?_ moves
      rintro sem rfl
      exact ok
  | rand =>
      obtain ⟨⟨x, rfl⟩, mem⟩ := moves
      rw [mem]
      exact h.idle here rfl rfl rfl trivial (fun _ => id) rfl
  | store x | printProduce | printConsume | clear =>
      obtain ⟨mem, rfl⟩ := Prod.mk.inj moves
      rw [← mem]
      exact h.idle here rfl rfl rfl trivial (fun _ => id) rfl
  | advance =>
      obtain ⟨mem, rfl⟩ := Prod.mk.inj moves
      rw [← mem, book_advance]
      exact h.idle here rfl rfl rfl trivial (fun _ => id) rfl

/-! ## Sleeping threads -/

/-- A sleeping thread waits for a counter that is 0, or the other thread is about to signal. -/
def Owed (s : State) (t : Worker) : Prop :=
  (s.thr t).AsleepOn () →
    s.mem.book.book (SemByMutex.slot t.takes) = 0 ∨ Signals (s.pc t.other)

/-- The step of a thread changes the counter of the other one only when it posts. -/
theorem slot_of_moves {t u : Worker} {l k : Loc} {g g' : Shop} (fits : l.Fits t g.book.book)
    (h : (prog t l).Moves g k g') (ne : u ≠ t) :
    g'.book.book (SemByMutex.slot u.takes) = g.book.book (SemByMutex.slot u.takes) ∨
      k = .post .postUnlock := by
  cases l with
  | wait l =>
      left
      obtain ⟨k', inner, rfl⟩ := moves_of_calling h
      cases l with
      | waitWrite sem x =>
          obtain rfl : sem = t.takes := fits.1
          rw [← (Prod.mk.inj inner).1]
          exact SemByMutex.dec_book_of_ne _ _ fun e => ne (takes_inj.1 e).symm
      | waitTest sem | waitRead sem => rw [← (Prod.mk.inj inner).1]
      | waitReturn sem =>
          rw [← (Prod.mk.inj inner).1]
          rfl
      | ready | waitLock sem | waitSleep sem | waitUnlock sem => rw [inner.2]
      | postLock sem | postRead sem | postWrite sem x | postUnlock | postSignal => exact fits.elim
  | post l =>
      obtain ⟨k', inner, rfl⟩ := moves_of_calling h
      cases l with
      | postWrite sem x => exact Or.inr (by rw [← (Prod.mk.inj inner).2])
      | postRead sem => exact Or.inl (by rw [← (Prod.mk.inj inner).1])
      | ready | postLock sem | postUnlock | postSignal => exact Or.inl (by rw [inner.2])
      | waitTest sem | waitLock sem | waitSleep sem | waitUnlock sem | waitRead sem
      | waitWrite sem x | waitReturn sem => exact fits.elim
  | rand => exact Or.inl (by rw [h.2])
  | store x | printProduce | printConsume | clear =>
      exact Or.inl (by rw [← (Prod.mk.inj h).1])
  | advance => exact Or.inl (by rw [← (Prod.mk.inj h).1, book_advance])

/-- Where a thread falls asleep and where it goes on. -/
theorem wait_cases {t : Worker} {l k : Loc} {c m : Unit} (h : prog t l = .wait c m k) :
    ∃ sem, (l = .wait (.waitSleep sem) ∧ k = .wait (.waitUnlock sem)) ∨
      l = .post (.waitSleep sem) ∧ k = .post (.waitUnlock sem) := by
  cases l with
  | wait l =>
      cases l with
      | waitSleep sem => exact ⟨sem, Or.inl ⟨rfl, (Instr.wait.inj h).2.2.symm⟩⟩
      | _ => cases h
  | post l =>
      cases l with
      | waitSleep sem => exact ⟨sem, Or.inr ⟨rfl, (Instr.wait.inj h).2.2.symm⟩⟩
      | _ => cases h
  | _ => cases h

/-- A sleeping thread is in `sem_wait_my`. -/
theorem waitUnlock_of_asleep {s : State} {t : Worker} {book : ℕ → ℤ}
    (fits : (s.pc t).Fits t book) (valid : (s.thr t).Valid prog (fun _ => True) t)
    (asleep : (s.thr t).AsleepOn ()) : s.pc t = .wait (.waitUnlock t.takes) := by
  unfold State.pc at *
  cases ht : s.thr t with
  | run l | woken m k => simp [ht, Status.AsleepOn] at asleep
  | asleep c m k =>
      rw [ht] at valid fits
      obtain ⟨l, -, hl⟩ := valid
      obtain ⟨sem, ⟨-, rfl⟩ | ⟨-, rfl⟩⟩ := wait_cases hl
      · rw [show sem = t.takes from fits]
        rfl
      · exact fits.elim

theorem Owed.step {a : Act Worker ℕ} {s s' : State} (tally : Tally s.mem.book s.pc)
    (h : ∀ t, Owed s t) (ok : Careful a s) (hs : step prog a s = some s') (t : Worker) :
    Owed s' t := by
  intro asleep
  rcases (step_cases hs).asleep asleep with ⟨rfl, l, m, k, hl, hi⟩ | ⟨ne, before, signal⟩
  · have here : s.pc a.actor = l := by rw [State.pc, hl]; rfl
    have fits := here ▸ tally.fits a.actor
    obtain rfl : l = .wait (.waitSleep a.actor.takes) := by
      obtain ⟨sem, ⟨rfl, -⟩ | ⟨rfl, -⟩⟩ := wait_cases hi
      · rw [show sem = a.actor.takes from fits]
      · exact fits.elim
    unfold Careful at ok
    rw [here] at ok
    left
    rcases (step_cases hs).moves with ⟨-, mem, -⟩ | ⟨l, k, hl', moves, -⟩
    · rwa [mem]
    · obtain rfl : Loc.wait (.waitSleep a.actor.takes) = l := Status.run.inj (hl.symm.trans hl')
      obtain ⟨k', inner, -⟩ := moves_of_calling moves
      rwa [inner.2]
  · have other : a.actor = t.other := by
      revert ne
      cases a.actor <;> cases t <;> simp [Worker.other]
    rcases (step_cases hs).moves with ⟨pc, mem, -⟩ | ⟨l, k, hl, moves, pc⟩
    · rw [pc, mem]
      exact h t before
    have here : s.pc a.actor = l := by rw [State.pc, hl]; rfl
    have fits := here ▸ tally.fits a.actor
    rw [pc, ← other, Function.update_self]
    rcases h t before with zero | soon
    · rcases slot_of_moves fits moves (Ne.symm ne) with same | rfl
      · exact Or.inl (same.trans zero)
      · exact Or.inr trivial
    · rw [← other, here] at soon
      rcases signals_iff.1 soon with rfl | rfl
      · obtain ⟨k', inner, rfl⟩ := moves_of_calling moves
        obtain rfl : k' = .postSignal := inner.1
        exact Or.inr trivial
      · -- the signal would have woken `t`, the only other thread
        obtain ⟨v, ne₁, ne₂⟩ := signal _ _ hl rfl
        rw [other] at ne₁
        revert ne₁ ne₂
        cases v <;> cases t <;> simp [Worker.other]

/-! ## No deadlock -/

theorem slot_table (book : ℕ → ℤ) (t : Worker) :
    (table book).book (SemByMutex.slot t.takes) = SemByMutex.wrap t.stock := by
  have stores : (table book).book =
      SemByMutex.store (SemByMutex.store book blank_number NUM) product_number 0 := by
    simp [table, SemInit.Table.sem_init_my, SemInit.Table.scan, SemInit.empty, blank_number,
      product_number]
  rw [stores]
  cases t with
  | producer =>
      exact (SemByMutex.store_slot_of_ne _ (by decide) _).trans (SemByMutex.store_slot ..)
  | consumer => exact SemByMutex.store_slot ..

theorem tally_created (book : ℕ → ℤ) : Tally (created book).mem.book (created book).pc where
  value t := by
    rw [show (created book).mem.book.book = (table book).book from rfl, slot_table]
    simp [created, start]
  fits t := trivial
  alone sem t u h := h.elim
  order t := rfl

theorem dvd_of_wrap_eq_zero {x : ℤ} (h : SemByMutex.wrap x = 0) : 4294967296 ∣ x := by
  simpa using Int.dvd_of_bmod_eq_zero h

/-- Both counters are 0 only while a unit is on its way from one to the other. -/
theorem exists_carries {b : SemByMutex.Book} {pc : Worker → Loc} (h : Tally b pc)
    (zero : ∀ t : Worker, b.book (SemByMutex.slot t.takes) = 0) : ∃ t, carries (pc t) ≠ 0 := by
  by_contra none
  simp only [not_exists, not_not] at none
  have order : ∀ t : Worker, b.decs t.takes = b.incs t.other.takes := fun t => by
    rw [h.order t, none t]
    rfl
  have dvd : ∀ t : Worker, 4294967296 ∣ (t.stock + b.incs t.takes - b.decs t.takes : ℤ) :=
    fun t => dvd_of_wrap_eq_zero ((h.value t).symm.trans (zero t))
  have blanks := dvd .producer
  have products := dvd .consumer
  rw [order] at blanks products
  simp only [Worker.other, Worker.stock, NUM] at blanks products
  omega

/-- In every run whose steps are all careful, the two threads never sleep at the same time. -/
theorem not_asleep_of_meets {book : ℕ → ℤ} {as : List (Act Worker ℕ)} {s : State}
    (h : (system book).run as (created book) = some s)
    (careful : (system book).Meets Careful as (created book)) :
    ¬ ∀ t, (s.thr t).AsleepOn () := by
  intro asleep
  have start : Tally (created book).mem.book (created book).pc ∧ ∀ t, Owed (created book) t :=
    ⟨tally_created book, fun t asleep => asleep.elim⟩
  have keep : ∀ a s s', (Tally s.mem.book s.pc ∧ ∀ t, Owed s t) → Careful a s →
      (system book).step a s = some s' → Tally s'.mem.book s'.pc ∧ ∀ t, Owed s' t :=
    fun a s s' h ok hs => ⟨h.1.step ok hs, Owed.step h.1 h.2 ok hs⟩
  obtain ⟨tally, owed⟩ := Machine.invariant_of_meets keep start h careful
  have place : ∀ t : Worker, s.pc t = .wait (.waitUnlock t.takes) := fun t =>
    waitUnlock_of_asleep (tally.fits t)
      (valid_of_reachable (fun _ => trivial) (fun _ _ _ _ _ => trivial)
        (Machine.reachable_of_run as rfl h) t) (asleep t)
  have zero : ∀ t : Worker, s.mem.book.book (SemByMutex.slot t.takes) = 0 := by
    intro t
    have soon := owed t (asleep t)
    rw [place] at soon
    exact soon.resolve_right id
  obtain ⟨t, carried⟩ := exists_carries tally zero
  rw [place] at carried
  exact carried rfl

/-- A round of the producer up to its signal, when there is a blank. -/
def produce : List (Act Worker ℕ) :=
  .input .producer 0 :: List.replicate 4 (.exec .producer) ++
    [.input .producer 41, .exec .producer, .exec .producer, .input .producer 0] ++
      List.replicate 4 (.exec .producer)

/-- The consumer sleeps, is woken by the first product and consumes it. -/
def sleepAndWake : List (Act Worker ℕ) :=
  .input .consumer 0 :: List.replicate 3 (.exec .consumer) ++ produce ++
    .wake .producer .consumer :: List.replicate 6 (.exec .consumer)

theorem not_asleep_sleepAndWake : ∃ s,
    (system fun _ => 0).run sleepAndWake (created fun _ => 0) = some s ∧
    s.mem.printed = [.produce 42, .consume 42] ∧ ¬ ∀ t, (s.thr t).AsleepOn () := by
  have careful : (system fun _ => 0).Meets Careful sleepAndWake (created fun _ => 0) := by decide
  exact ⟨_, rfl, rfl, not_asleep_of_meets rfl careful⟩

/-- The consumer finds no product; before it sleeps, the producer signals five times, finds no blank
and sleeps; then the consumer sleeps. -/
def lostSignals : List (Act Worker ℕ) :=
  [.input .consumer 0, .exec .consumer] ++
    (List.replicate NUM (produce ++ [.exec .producer, .exec .producer])).flatten ++
      .input .producer 0 :: List.replicate 3 (.exec .producer) ++ List.replicate 2 (.exec .consumer)

set_option maxRecDepth 2000 in
/-- Both threads sleep, and there are five products. -/
theorem asleep_lostSignals : ∃ s, (system fun _ => 0).Reachable s ∧ (∀ t, (s.thr t).AsleepOn ()) ∧
    s.mem.book.book (SemByMutex.slot product_number) = 5 := by
  have h := Machine.reachable_of_run (M := system fun _ => 0) lostSignals rfl rfl
  exact ⟨_, h, by decide, rfl⟩

end LinuxNote.PthMysem
