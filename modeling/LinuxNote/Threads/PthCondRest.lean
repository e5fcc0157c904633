import LinuxNote.Conc.Rest
import LinuxNote.Conc.Wakeup
import LinuxNote.Threads.PthCond

/-!
# The linked-list stack of `pth_cond.c` at rest

When no producer begins a further message, the threads come to rest after a number of steps that the
messages on the list and the threads bound.  As no signal is lost (`covered`), the list is then
empty, and each message pushed has been freed once (`empties_of_reachable`).
-/

namespace LinuxNote.PthCond

open Conc ListThreads

section

variable {A : Type*}

/-- The messages on the list: of the operations in the log, the pushes that no removal makes up
for. -/
def Shared.available (g : Shared A) : ℕ := 2 * g.pushes - g.log.length

/-- The nodes `l` of the list are those that the history leaves. -/
structure Shared.Lists (g : Shared A) (l : List (A × ℤ)) : Prop where
  chain : Chain g.heap g.head l
  leaves : Leaves g.log (g.onList l)

theorem length_of_leaves {log : List (StackOp ℕ)} {l : List ℕ} (h : Leaves log l) :
    log.length + l.length = 2 * (pushed log).length := by
  induction h with
  | nil => rfl
  | push x h ih | pop h ih =>
      simp at ih ⊢
      omega

theorem Shared.Lists.available {g : Shared A} {l : List (A × ℤ)} (h : g.Lists l) :
    g.available = l.length := by
  have length := length_of_leaves h.leaves
  simp only [Shared.onList, cells, List.length_map] at length
  simp only [Shared.available, Shared.pushes]
  omega

theorem Shared.Lists.head_eq_none_iff {g : Shared A} {l : List (A × ℤ)} (h : g.Lists l) :
    g.head = none ↔ l = [] := h.chain.eq_none_iff

/-- What is known about the data alone. -/
def Loc.Asserts (k : Loc A) (g : Shared A) : Prop := ∃ l, g.Lists l ∧ k.Known g l

/-- Between the push and the end of the signal, or on the way to the list. -/
def Loc.owes : Loc A → Bool
  | .producerUnlock | .signal | .consumerTest | .take | .advance _ => true
  | _ => false

/-- A thread that begins no message is idle. -/
def Loc.idle (k : Loc A) : Prop := k = .malloc

/-- How far it is to the next `malloc`, or to the next round of a consumer. -/
def Loc.weight : Loc A → ℕ
  | .malloc | .undefined _ => 0
  | .advance _ | .wait => 1
  | .take => 2
  | .consumerTest => 3
  | .consumerLock => 4
  | .free _ | .signal => 5
  | .printConsumer _ | .producerUnlock => 6
  | .consumerUnlock _ => 7
  | .setHead _ => 14
  | .setNext _ => 15
  | .producerLock _ => 16
  | .printProducer _ => 17
  | .setNum _ _ => 18
  | .rand _ => 19
  | .allocate _ _ => 20

/-- A message on the list will cost one round of a consumer. -/
def Shared.work (g : Shared A) : ℤ := 7 * g.available

theorem work_nonneg (g : Shared A) : 0 ≤ g.work := by
  unfold Shared.work
  omega

theorem Shared.available_setHead (g : Shared A) (mp : A) [DecidableEq A] {l : List (A × ℤ)}
    (h : g.Lists l) : (g.setHead mp).available = g.available + 1 := by
  have length := length_of_leaves h.leaves
  simp [Shared.available, Shared.setHead, Shared.pushes] at length ⊢
  omega

theorem Shared.Lists.available_advance {g : Shared A} {x : A × ℤ} {l : List (A × ℤ)}
    (h : g.Lists (x :: l)) (mp : A) (n : Node A ℤ) :
    (g.advance mp n).available + 1 = g.available := by
  have length := length_of_leaves h.leaves
  simp [Shared.available, Shared.advance, Shared.pushes, Shared.onList, cells] at length ⊢
  omega

/-! ## One instruction -/

variable [DecidableEq A]

/-- What a statement does to the messages on the list, and where it leads. -/
inductive Uses (g : Shared A) : Loc A → Shared A → Loc A → Prop
  | keep {k k' : Loc A} {g' : Shared A} (same : g'.available = g.available)
      (lower : k'.weight < k.weight) (debt : k'.owes = k.owes) : Uses g k g' k'
  | sleep (none : g.available = 0) : Uses g .consumerTest g .wait
  | push {mp : A} {g' : Shared A} (more : g'.available = g.available + 1) :
      Uses g (.setHead mp) g' .producerUnlock
  | pop {mp : A} {g' : Shared A} (fewer : g'.available + 1 = g.available) :
      Uses g (.advance mp) g' (.consumerUnlock mp)

theorem uses_of_asserts {k : Loc A} {f : Shared A → Shared A × Loc A} (hf : prog k = .stmt f)
    {g : Shared A} (known : k.Asserts g) : Uses g k (f g).1 (f g).2 := by
  obtain ⟨l, lists, known⟩ := known
  cases k with
  | allocate cell garbage =>
      cases hf
      dsimp only
      split
      · exact .keep rfl (Nat.lt_succ_self _) rfl
      · exact .keep rfl (Nat.succ_pos _) rfl
  | setNum mp num | printProducer mp | printConsumer mp | free mp =>
      cases hf
      dsimp only
      obtain ⟨n, hn⟩ := Memory.exists_deref known _ _
      rw [hn]
      exact .keep rfl (Nat.lt_succ_self _) rfl
  | setNext mp =>
      cases hf
      dsimp only
      obtain ⟨n, hn⟩ := Memory.exists_deref known _ _
      rw [hn]
      exact .keep rfl (Nat.lt_succ_self _) rfl
  | setHead mp =>
      cases hf
      exact .push (g.available_setHead mp lists)
  | consumerTest =>
      cases hf
      dsimp only
      by_cases none : g.head = none
      · rw [if_pos none]
        refine .sleep ?_
        rw [lists.available, lists.head_eq_none_iff.1 none]
        rfl
      · rw [if_neg none]
        exact .keep rfl (Nat.lt_succ_self _) rfl
  | take =>
      cases hf
      dsimp only
      obtain ⟨x, l', rfl⟩ := List.exists_cons_of_ne_nil known
      rw [lists.chain.1]
      exact .keep rfl (Nat.lt_succ_self _) rfl
  | advance mp =>
      cases hf
      dsimp only
      obtain ⟨v, l', rfl⟩ := known
      obtain ⟨first, next, cell, rest⟩ := lists.chain
      rw [Memory.deref_some cell]
      exact .pop (lists.available_advance mp _)
  | undefined inside => exact known.elim
  | _ => cases hf

theorem prog_pays (k : Loc A) :
    (prog k).Pays () Loc.owes (Shared.available (A := A)) Loc.Asserts k := by
  cases hi : prog k with
  | stmt f =>
      intro g known
      have uses := uses_of_asserts hi known
      generalize (f g).1 = g', (f g).2 = k' at uses ⊢
      cases uses with
      | keep same lower debt =>
          right
          rw [same, debt]
      | sleep none => exact Or.inl none
      | push more => exact Or.inr more.le
      | pop fewer => exact Or.inr fewer.le
  | wait c m k' =>
      cases k <;> cases hi
      refine ⟨rfl, ?_⟩
      rintro g ⟨l, lists, rfl⟩
      exact lists.available
  | _ => cases k <;> cases hi <;> simp [Instr.Pays, Loc.owes]

theorem prog_settles (k : Loc A) (busy : ¬ k.idle) :
    (prog k).Settles Loc.weight (fun _ => 0) Shared.work 4 (fun _ => True)
      (fun g : Shared A => k.Asserts g) k := by
  cases hi : prog k with
  | stmt f =>
      intro g known
      have uses := uses_of_asserts hi known
      generalize (f g).1 = g', (f g).2 = k' at uses ⊢
      unfold Shared.work
      cases uses with
      | keep same lower debt =>
          rw [same]
          omega
      | sleep none => simp [Loc.weight]
      | push more | pop fewer =>
          simp only [Loc.weight]
          omega
  | input f =>
      cases k <;> cases hi
      · exact absurd rfl busy
      · exact fun x _ => Nat.lt_succ_self _
  | _ => cases k <;> cases hi <;> simp [Instr.Settles, Loc.weight]

omit [DecidableEq A] in
theorem not_holds_of_idle (k : Loc A) (m : Unit) (h : k.idle) : ¬ k.holds m := by
  rw [Loc.idle] at h
  subst h
  exact Bool.false_ne_true

/-- In the function of a consumer, or lost. -/
def Loc.consumer : Loc A → Bool
  | .consumerLock | .consumerTest | .wait | .take | .advance _ | .consumerUnlock _
  | .printConsumer _ | .free _ | .undefined _ => true
  | _ => false

theorem consumer_leads {k k' : Loc A} (h : k.consumer) (hk : (prog k).Leads k') :
    k'.consumer := by
  cases k with
  | consumerTest | take =>
      obtain ⟨g, rfl⟩ := hk
      dsimp only
      split <;> rfl
  | advance mp | printConsumer mp | free mp =>
      obtain ⟨g, rfl⟩ := hk
      exact Memory.test_deref rfl fun n => rfl
  | undefined inside =>
      obtain ⟨g, rfl⟩ := hk
      rfl
  | consumerLock | wait | consumerUnlock mp =>
      obtain rfl : _ = k' := hk
      rfl
  | _ => cases h

end

/-! ## The end of a run -/

section

variable {ι A : Type*} [Fintype ι] [DecidableEq ι] [DecidableEq A] {role : ι → Role}
  {s s' : State ι A} {t q : ι}

theorem asserts_of_reachable (h : (system A role).Reachable s) (t : ι) (k : Loc A)
    (hk : s.thr t = .run k) : k.Asserts s.mem := by
  obtain ⟨l, stack, known⟩ := stack_of_reachable h
  have here := known t
  rw [State.pc, hk] at here
  exact ⟨l, ⟨stack.separate.chain, stack.leaves⟩, here⟩

/-- While a consumer sleeps, each message on the list is owed to it. -/
theorem covered (h : (system A role).Reachable s) : Covered () Loc.owes Shared.available s :=
  covered_of_reachable (fun _ => prog_pays) (fun _ hs => asserts_of_reachable hs) h

omit [Fintype ι] [DecidableEq ι] [DecidableEq A] in
theorem burden_le (s : State ι A) (t : ι) : (s.thr t).burden Loc.weight (fun _ => 0) ≤ 21 := by
  have small : ∀ l : Loc A, l.weight ≤ 20 := fun l => by cases l <;> simp [Loc.weight]
  exact Status.burden_le small (fun _ => Nat.zero_le _) (s.thr t)

/-- The list is empty; and every message pushed has been freed, once, after it was taken off as the
last of those on the list. -/
structure Consumed (role : ι → Role) (s : State ι A) : Prop where
  head : s.mem.head = none
  freed : s.mem.freed.Perm (pushed s.mem.log)
  distinct : (pushed s.mem.log).Nodup
  lifo : Lifo s.mem.log
  asleep : ∀ t, role t = .consumer → (s.thr t).AsleepOn ()

theorem consumer_of_runs (h : (system A role).Reachable s) (ht : role t = .consumer) {k : Loc A}
    (hk : s.thr t = .run k) : k.consumer := by
  have start : ∀ u, role u = .consumer → (Loc.start (role u) : Loc A).consumer := by
    intro u hu
    rw [hu]
    rfl
  have valid := valid_of_reachable (R := fun u k => role u = .consumer → k.consumer) start
    (fun u k k' hc hk hu => consumer_leads (hc hu) hk) h t
  rw [hk] at valid
  exact valid ht

/-- At rest a thread has no node. -/
theorem consuming_of_rests (h : (system A role).Reachable s) (rests : (s.thr t).Rests Loc.idle) :
    (s.pc t).consuming = none := by
  have valid := valid_of_reachable (R := fun _ _ => True) (fun _ => trivial)
    (fun _ _ _ _ _ => trivial) h t
  unfold State.pc
  cases hk : s.thr t with
  | run k =>
      rw [hk] at rests
      obtain rfl : k = .malloc := rests
      rfl
  | asleep c m k =>
      rw [hk] at valid
      obtain ⟨l, -, hi⟩ := valid
      cases l <;> cases hi
      rfl
  | woken m k =>
      rw [hk] at rests
      exact rests.elim

theorem consumed_of_rests (hq : role q = .consumer) (h : (system A role).Reachable s)
    (rests : ∀ t, (s.thr t).Rests Loc.idle) : Consumed role s := by
  have asleep : ∀ t, role t = .consumer → (s.thr t).AsleepOn () := by
    intro t ht
    have idle := rests t
    cases hk : s.thr t with
    | run k =>
        have consumer := consumer_of_runs h ht hk
        rw [hk] at idle
        obtain rfl : k = .malloc := idle
        cases consumer
    | asleep c m k => rfl
    | woken m k =>
        rw [hk] at idle
        exact idle.elim
  obtain ⟨l, stack, -⟩ := stack_of_reachable h
  have lists : s.mem.Lists l := ⟨stack.separate.chain, stack.leaves⟩
  have empty : l = [] := by
    by_contra some_
    have available : 0 < s.mem.available := by
      rw [lists.available]
      exact List.length_pos_iff.2 some_
    obtain ⟨t, k, hk, owes⟩ := (covered h).exists_owing ⟨q, asleep q hq⟩ available
    have idle := rests t
    rcases hk with hk | ⟨m, hk⟩ <;> rw [hk] at idle
    · obtain rfl : k = .malloc := idle
      cases owes
    · exact idle.elim
  subst empty
  have hands : ∀ i, total (Loc.hand s.mem i) s.pc = 0 := by
    refine fun i => total_eq_zero_iff.2 fun t => ?_
    rw [Loc.hand, consuming_of_rests h (rests t)]
    rfl
  refine ⟨lists.head_eq_none_iff.2 rfl, List.perm_iff_count.2 fun i => ?_, ?_, ?_, asleep⟩
  · have once := stack.once i
    rw [hands i] at once
    simpa [Shared.onList, cells] using once
  · exact (losesNone_of_reachable h).distinct
  · exact (losesNone_of_reachable h).lifo

/-- Every way to go on without a new message comes to an end, and then all messages have been
consumed. -/
theorem empties_of_reachable (hq : role q = .consumer) (h : (system A role).Reachable s) :
    (∀ as s', (system A role).run as s = some s' →
      (system A role).Meets (Calm Loc.idle fun _ => True) as s →
      as.length ≤ 7 * s.mem.available + 21 * Fintype.card ι + 5 * as.countP Act.isSpurious ∧
        (Stuck (fun _ => prog) Loc.idle (fun _ => True) s' → Consumed role s')) ∧
    ∃ as s', (system A role).run as s = some s' ∧
      (system A role).Meets (Calm Loc.idle fun _ => True) as s ∧ Consumed role s' := by
  have gives : ∀ (_ : ι) (k : Loc A) f, prog k = .input f → ¬ k.idle → ∃ _ : Choice A, True := by
    intro _ k f hi busy
    cases k <;> cases hi
    · exact absurd rfl busy
    · next mp => exact ⟨⟨mp, ⟨0, none⟩, 0⟩, trivial⟩
  have ends : ∀ s', (system A role).Reachable s' →
      Stuck (fun _ => prog) Loc.idle (fun _ => True) s' → Consumed role s' := by
    intro s' hs' stuck
    apply consumed_of_rests hq hs'
    exact rests_of_stuck not_holds_start (fun _ => prog_respects) not_holds_of_idle gives hs' stuck
  refine ⟨fun as s' run calm => ⟨?_, ends s' (h.run run)⟩, ?_⟩
  · have length := length_run_le_unrest (fun _ => prog_respects) (fun _ => prog_settles)
      not_holds_of_idle (fun _ hs => asserts_of_reachable hs) h run calm
    have bound := unrest_le (r := Shared.work) (burden_le s)
    have rest : 0 ≤ s'.unrest Loc.weight (fun _ => 0) Shared.work := unrest_nonneg work_nonneg
    have work : s.mem.work = 7 * s.mem.available := rfl
    omega
  · obtain ⟨as, s', run, calm, -, stuck⟩ := exists_stuck (fun _ => prog_respects)
      (fun _ => prog_settles) not_holds_of_idle (fun _ hs => asserts_of_reachable hs) work_nonneg h
    exact ⟨as, s', run, calm, ends s' (h.run run) stuck⟩

end

/-- The producer has pushed two messages, the consumer has one of them in its hands, and in some way
to go on it frees both. -/
theorem empties_of_reachable_oneOfEach : ∃ s as s', (system ℕ oneOfEach).Reachable s ∧
    pushed s.mem.log = [0, 1] ∧ s.mem.freed = [] ∧ (system ℕ oneOfEach).run as s = some s' ∧
      Consumed oneOfEach s' := by
  have h := Machine.reachable_of_run (M := system ℕ oneOfEach)
    (produce 7 4 ++ produce 8 5 ++ List.replicate 4 (.exec true)) rfl rfl
  obtain ⟨-, as, s', run, -, consumed⟩ := empties_of_reachable (q := true) rfl h
  exact ⟨_, as, s', h, rfl, rfl, run, consumed⟩

end LinuxNote.PthCond
