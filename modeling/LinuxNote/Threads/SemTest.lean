import LinuxNote.Threads.SemRing

/-!
# The ring of `sem_test.c`

The array, the semaphores and the consumer are those of `pth_sem.c` (`MAXSIZE` is `NUM`, `full` is
`product_number`), and so are the places of the producer, in another order: it posts `full` before
it evaluates the argument of its `printf`.  By then the consumer may have taken the value and
cleared the slot.

So a line of the producer shows the value that it has stored exactly when the consumer has not yet
cleared it (`reports_of_inTime`).
-/

namespace LinuxNote.SemTest

open Conc SemRing

/-- Before the statement each location names, with the index `top`. -/
def producer : ProducerLoc → Instr Empty Empty Sem ℕ Ring ProducerLoc
  | .wait top => .semWait .blank (.rand top)
  | .rand top => .input fun rand => .store top (rand % 10 + 1)
  | .store top num => .stmt fun q => (q.store top num, .post top)
  | .post top => .semPost .product (.read top)
  | .read top => .stmt fun q => (q, .print top (q.queue.getD top 0))
  | .print top num => .stmt fun q => (q.printProduce num, .advance top)
  | .advance top => .stmt fun q => (q, .wait ((top + 1) % NUM))

def system : Machine State (Act Thread ℕ) := SemRing.system producer

/-- Every line shows the value that was stored in its iteration. -/
def Reports (s : State) : Prop := s.mem.produced <+: s.mem.stored

def uncleared : Loc → ℕ
  | .consumer l => l.clearing
  | _ => 0

/-- The producer is about to evaluate the argument of its `printf`. -/
def reading : Loc → Bool
  | .producer (.read _) => true
  | _ => false

/-- The value that the producer has read and is about to print. -/
def pending : Loc → List ℤ
  | .producer (.print _ num) => [num]
  | _ => []

/-- When the producer reads a slot again, the consumer has not yet cleared it. -/
def InTime (a : Act Thread ℕ) (s : State) : Prop :=
  a.actor = .producer → reading (s.pc .producer) →
    s.mem.consumed.length < s.mem.stored.length + uncleared (s.pc .consumer)

instance (a : Act Thread ℕ) (s : State) : Decidable (InTime a s) :=
  inferInstanceAs (Decidable (_ → _ → _))

/-! ## What the producer knows -/

/-- A value for which `full` has not yet been posted. -/
def unposted : ProducerLoc → ℕ
  | .post _ => 1
  | _ => 0

/-- Where the index of the producer points, and how many lines it has printed. -/
def Place (q : Ring) : ProducerLoc → Prop
  | .wait top | .rand top => top = q.stored.length % NUM ∧ q.produced.length = q.stored.length
  | .store top num =>
      (top = q.stored.length % NUM ∧ q.produced.length = q.stored.length) ∧ num ≠ 0
  | .post top | .read top | .print top _ =>
      top = q.produced.length % NUM ∧ q.produced.length + 1 = q.stored.length
  | .advance top =>
      q.produced.length = q.stored.length ∧ ∃ i, top = i % NUM ∧ i + 1 = q.stored.length

def view : View where
  unposted := unposted
  Known q l := Place q l ∧ ∀ num ∈ q.stored, num ≠ 0
  of_eq {q q' l} h stored produced := by
    refine ⟨?_, stored ▸ h.2⟩
    cases l <;> simpa only [Place, stored, produced] using h.1

section

variable {lp : ProducerLoc} {lc : ConsumerLoc} {sem : Sem → ℕ} {q : Ring} {top : ℕ} {num : ℤ}

theorem store (h : Inv view (.store top num) lc sem q) :
    Inv view (.post top) lc sem (q.store top num) := by
  obtain ⟨⟨⟨index, printed⟩, some⟩, nonzero⟩ := h.producer
  refine h.store index rfl rfl ⟨⟨?_, by simp [Ring.store, printed]⟩, fun v mem => ?_⟩
  · rw [index, ← printed]
    rfl
  · rcases List.mem_append.1 mem with old | new
    · exact nonzero v old
    · exact List.mem_singleton.1 new ▸ some

theorem printProduce (h : Inv view (.print top num) lc sem q) :
    Inv view (.advance top) lc sem (q.printProduce num) := by
  obtain ⟨⟨index, last⟩, nonzero⟩ := h.producer
  exact h.proceed _ rfl rfl ⟨⟨by simp [last], _, index, last⟩, nonzero⟩

/-- What the producer reads: its value, or the zero that the consumer has left. -/
theorem read (h : Inv view (.read top) lc sem q) :
    ∃ num, q.stored[q.produced.length]? = some num ∧ num ≠ 0 ∧
      q.queue.getD top 0 =
        if q.consumed.length < q.stored.length + lc.clearing then num else 0 := by
  obtain ⟨⟨rfl, last⟩, nonzero⟩ := h.producer
  have inside : q.produced.length < q.stored.length := by omega
  refine ⟨q.stored[q.produced.length], List.getElem?_eq_getElem inside,
    nonzero _ (List.getElem_mem inside), ?_⟩
  rw [List.getD_eq_getElem?_getD]
  split
  · rw [h.unread _ (by omega) inside, List.getElem?_eq_getElem inside]
    rfl
  · rw [h.cleared _ last (by omega)]
    rfl

end

section

variable {lp : ProducerLoc} {lc : ConsumerLoc} {s s' : State}

theorem producer_step (at_ : s.thr = places lp lc) (inv : Inv view lp lc s.sem s.mem)
    (eff : (prog producer (.producer lp)).Effect .producer s s') : Sound view s' := by
  have known := inv.producer
  cases lp with
  | wait top =>
      obtain ⟨pos, rfl⟩ := eff
      exact .producer at_ rfl (inv.semWait pos rfl rfl known)
  | rand top =>
      obtain ⟨rand, rfl⟩ := eff
      have pos : ((rand : ℤ) % 10 + 1) ≠ 0 := by omega
      exact .producer at_ rfl (inv.proceed _ rfl rfl ⟨⟨known.1, pos⟩, known.2⟩)
  | store top num =>
      obtain rfl := eff
      exact .producer at_ rfl (store inv)
  | post top =>
      obtain rfl := eff
      exact .producer at_ rfl (inv.semPost rfl rfl known)
  | read top =>
      obtain rfl := eff
      exact .producer at_ rfl (inv.proceed _ rfl rfl known)
  | print top num =>
      obtain rfl := eff
      exact .producer at_ rfl (printProduce inv)
  | advance top =>
      obtain rfl := eff
      obtain ⟨⟨printed, i, rfl, last⟩, nonzero⟩ := known
      have next := (Nat.mod_add_mod i NUM 1).trans (congrArg (· % NUM) last)
      exact .producer at_ rfl (inv.proceed _ rfl rfl ⟨⟨next, printed⟩, nonzero⟩)

theorem keeps : Keeps producer view where
  start := ⟨⟨rfl, rfl⟩, fun num mem => absurd mem List.not_mem_nil⟩
  posted := rfl
  waits l p k hi := by
    cases l <;> cases hi
    exact ⟨rfl, rfl, rfl⟩
  step := producer_step

/-! ## The lines of the producer -/

/-- The lines printed, and the one whose argument has been evaluated. -/
def lines (s : State) : List ℤ := s.mem.produced ++ pending (s.pc .producer)

theorem moves_consumer {q q' : Ring} {k : Loc} (h : (prog producer (.consumer lc)).Moves q k q') :
    q'.stored = q.stored ∧ q'.produced = q.produced := by
  cases lc with
  | wait c | post c =>
      obtain ⟨-, rfl⟩ := h
      exact ⟨rfl, rfl⟩
  | read c | print c num | clear c | advance c =>
      cases h
      exact ⟨rfl, rfl⟩

/-- Only the second access to the slot begins a line. -/
theorem moves_producer {q q' : Ring} {k : Loc} (h : (prog producer (.producer lp)).Moves q k q') :
    q.stored <+: q'.stored ∧
      (¬ reading (.producer lp) ∧
          q'.produced ++ pending k = q.produced ++ pending (.producer lp) ∨
        ∃ top, lp = .read top ∧ q' = q ∧ k = .producer (.print top (q.queue.getD top 0))) := by
  cases lp with
  | wait top | post top =>
      obtain ⟨rfl, rfl⟩ := h
      exact ⟨List.prefix_refl _, Or.inl ⟨Bool.false_ne_true, rfl⟩⟩
  | rand top =>
      obtain ⟨⟨rand, rfl⟩, rfl⟩ := h
      exact ⟨List.prefix_refl _, Or.inl ⟨Bool.false_ne_true, rfl⟩⟩
  | store top num =>
      cases h
      exact ⟨List.prefix_append _ _, Or.inl ⟨Bool.false_ne_true, rfl⟩⟩
  | read top =>
      cases h
      exact ⟨List.prefix_refl _, Or.inr ⟨top, rfl, rfl, rfl⟩⟩
  | print top num =>
      cases h
      exact ⟨List.prefix_refl _, Or.inl ⟨Bool.false_ne_true, List.append_nil _⟩⟩
  | advance top =>
      cases h
      exact ⟨List.prefix_refl _, Or.inl ⟨Bool.false_ne_true, rfl⟩⟩

/-- The value of the line that the step begins. -/
def line (s : State) (num : ℤ) : ℤ :=
  if s.mem.consumed.length < s.mem.stored.length + uncleared (s.pc .consumer) then num else 0

theorem lines_of_step {t : Thread} (h : Sound view s) (hs : Step (fun _ => prog producer) t s s') :
    s.mem.stored <+: s'.mem.stored ∧
      (¬ (t = .producer ∧ reading (s.pc .producer)) ∧ lines s' = lines s ∨
        (t = .producer ∧ reading (s.pc .producer)) ∧ ∃ num,
          s.mem.stored[(lines s).length]? = some num ∧ num ≠ 0 ∧
            lines s' = lines s ++ [line s num]) := by
  obtain ⟨lp, lc, at_, inv⟩ := h
  obtain ⟨here, there⟩ := pc_places at_
  rcases hs.moves with ⟨-, -, none⟩ | ⟨l, k, hl, moves, pc⟩
  · cases t with
    | producer => exact absurd (congrFun at_ .producer) (none _)
    | consumer => exact absurd (congrFun at_ .consumer) (none _)
  · rw [at_] at hl
    cases t with
    | producer =>
        obtain rfl : Loc.producer lp = l := Status.run.inj hl
        obtain ⟨stored, ⟨other, same⟩ | ⟨top, rfl, mem, rfl⟩⟩ := moves_producer moves
        · refine ⟨stored, Or.inl ⟨fun both => other (here ▸ both.2), ?_⟩⟩
          rw [lines, lines, pc, here, Function.update_self]
          exact same
        · obtain ⟨num, value, some, read⟩ := read inv
          have now : lines s = s.mem.produced := by
            rw [lines, here]
            exact List.append_nil _
          refine ⟨stored, Or.inr ⟨⟨rfl, here ▸ rfl⟩, num, now ▸ value, some, ?_⟩⟩
          rw [now, lines, pc, Function.update_self, mem, read, line, there]
          rfl
    | consumer =>
        obtain rfl : Loc.consumer lc = l := Status.run.inj hl
        obtain ⟨stored, produced⟩ := moves_consumer moves
        refine ⟨stored ▸ List.prefix_refl _, Or.inl ⟨fun both => (by cases both.1), ?_⟩⟩
        rw [lines, lines, pc, produced, Function.update_of_ne (by decide)]

/-- A line that has been begun is wrong. -/
def Wrong (s : State) : Prop :=
  ∃ (i : ℕ) (v w : ℤ), (lines s)[i]? = some v ∧ s.mem.stored[i]? = some w ∧ v ≠ w

theorem getElem?_of_isPrefix {xs ys : List ℤ} (h : xs <+: ys) {i : ℕ} {v : ℤ}
    (hi : xs[i]? = some v) : ys[i]? = some v := by
  obtain ⟨rest, rfl⟩ := h
  rw [List.getElem?_append_left (List.getElem?_eq_some_iff.1 hi).1, hi]

theorem lines_of_inTime {a : Act Thread ℕ} (h : Sound view s) (good : lines s <+: s.mem.stored)
    (ok : InTime a s) (hs : system.step a s = some s') : lines s' <+: s'.mem.stored := by
  obtain ⟨stored, ⟨-, same⟩ | ⟨⟨actor, reads⟩, num, value, -, new⟩⟩ :=
    lines_of_step h (step_cases hs)
  · exact same ▸ good.trans stored
  · rw [new, line, if_pos (ok actor reads)]
    exact (isPrefix_concat good value).trans stored

theorem wrong_of_not_inTime {a : Act Thread ℕ} (h : Sound view s) (late : ¬ InTime a s)
    (hs : system.step a s = some s') : Wrong s' := by
  unfold InTime at late
  simp only [Classical.not_imp] at late
  obtain ⟨actor, reads, cleared⟩ := late
  obtain ⟨stored, ⟨other, -⟩ | ⟨-, num, value, some, new⟩⟩ := lines_of_step h (step_cases hs)
  · exact absurd ⟨actor, reads⟩ other
  · refine ⟨(lines s).length, 0, num, ?_, getElem?_of_isPrefix stored value, some.symm⟩
    rw [new, line, if_neg cleared, List.getElem?_concat_length]

theorem Wrong.step {a : Act Thread ℕ} (h : Sound view s) (wrong : Wrong s)
    (hs : system.step a s = some s') : Wrong s' := by
  obtain ⟨i, v, w, line, value, ne⟩ := wrong
  obtain ⟨stored, begun⟩ := lines_of_step h (step_cases hs)
  refine ⟨i, v, w, getElem?_of_isPrefix ?_ line, getElem?_of_isPrefix stored value, ne⟩
  rcases begun with ⟨-, same⟩ | ⟨-, num, -, -, new⟩
  · exact same ▸ List.prefix_refl _
  · exact new ▸ List.prefix_append _ _

theorem Wrong.not_reports (wrong : Wrong s) (printed : pending (s.pc .producer) = []) :
    ¬ Reports s := by
  obtain ⟨i, v, w, line, value, ne⟩ := wrong
  intro reports
  rw [lines, printed, List.append_nil] at line
  exact ne (Option.some.inj ((getElem?_of_isPrefix reports line).symm.trans value))

end

/-- In a run in which the consumer never clears a slot before the producer has read it again, every
line shows the value stored in its iteration.  In every other run a line does not, once it is
printed. -/
theorem reports_of_inTime {as : List (Act Thread ℕ)} {s : State}
    (h : system.run as created = some s) :
    (system.Meets InTime as created → system.Along Reports as created) ∧
      (¬ system.Meets InTime as created → pending (s.pc .producer) = [] → ¬ Reports s) := by
  constructor
  · refine Machine.along_of_meets (I := fun s => Sound view s ∧ lines s <+: s.mem.stored) ?_ ?_
      ⟨sound_created keeps, List.prefix_refl []⟩
    · intro s good
      exact (List.prefix_append _ _).trans good.2
    · intro a s s' good ok hs
      exact ⟨good.1.step keeps (step_cases hs), lines_of_inTime good.1 good.2 ok hs⟩
  · intro late printed
    have wrong : Wrong s := Machine.Reachable.of_not_meets
      (fun a s s' hr late hs => wrong_of_not_inTime (sound_of_reachable keeps hr) late hs)
      (fun a s s' hr wrong hs => wrong.step (sound_of_reachable keeps hr) hs) (.init rfl) h late
    exact wrong.not_reports printed

/-- The producer reads the slot between the `printf` of the consumer and its `queue[top] = 0`. -/
def between : List (Act Thread ℕ) :=
  [.exec .producer, .input .producer 7, .exec .producer, .exec .producer, .exec .consumer,
    .exec .consumer, .exec .consumer, .exec .producer, .exec .consumer, .exec .producer]

theorem reports_of_inTime_between : ∃ s, system.run between created = some s ∧
    s.mem.produced = [8] ∧ s.mem.queue = List.replicate NUM 0 ∧
      system.Along Reports between created :=
  ⟨_, rfl, rfl, rfl, (reports_of_inTime rfl).1 (by decide)⟩

/-- The consumer has cleared the slot of the value 8, and the line of the producer shows 0. -/
theorem not_reports_cleared : ∃ s, system.Reachable s ∧ s.mem.stored = [8] ∧
    s.mem.produced = [0] ∧ ¬ Reports s := by
  have h := Machine.reachable_of_run (M := system) [.exec .producer, .input .producer 7,
    .exec .producer, .exec .producer, .exec .consumer, .exec .consumer, .exec .consumer,
    .exec .consumer, .exec .producer, .exec .producer] rfl rfl
  refine ⟨_, h, rfl, rfl, ?_⟩
  unfold Reports
  decide

end LinuxNote.SemTest
