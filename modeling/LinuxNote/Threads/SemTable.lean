import LinuxNote.Threads.SemInit

/-!
# The allocation of `sem_by_mutex.c`

The table of semaphores once more, with the block that `realloc` has delivered and every access to
an entry of `limit_book` written down.  `realloc` is asked for two bytes for each semaphore, and the
two entries of a semaphore take eight: the stores of the first `sem_init_my` are already outside
(`inside_iff_nil`).  The loop of `sem_init_my` looks only at entries that have been written.
-/

namespace LinuxNote.SemTable

open Conc SemByMutex

/-- How an entry is touched; the loop of `sem_init_my` examines. -/
inductive Touch
  | examine
  | read
  | write
  deriving DecidableEq

/-- An access, with the number of the call and the bytes allocated at that time. -/
structure Access where
  call : ℕ
  touch : Touch
  entry : ℕ
  bytes : ℕ

/-- An `int` takes four bytes. -/
def Access.Inside (a : Access) : Prop := 4 * a.entry + 4 ≤ a.bytes

/-- `limit_book` with the size of its block, `limit_cnt`, and the handles in the semaphores that are
live. -/
structure Heap where
  book : ℕ → ℤ
  bytes : ℕ
  cnt : ℕ
  live : List ℕ
  calls : ℕ
  log : List Access

namespace Heap

def touch (t : Touch) (k : ℕ) (h : Heap) : Heap :=
  { h with log := h.log ++ [⟨h.calls, t, k, h.bytes⟩] }

def write (k : ℕ) (v : ℤ) (h : Heap) : Heap :=
  { h.touch .write k with book := Function.update h.book k v }

/-- The bytes of the old block are kept; what else is in the new one nobody knows. -/
def realloc (bytes : ℕ) (fresh : ℕ → ℤ) (h : Heap) : Heap :=
  { h with
    book := fun k => if 4 * k + 4 ≤ h.bytes ∧ 4 * k + 4 ≤ bytes then h.book k else fresh k
    bytes := bytes }

/-- `for (i = 1; i < limit_cnt; i += 2)`, with `left` rounds to go. -/
def examine : ℕ → ℕ → Heap → Option ℕ × Heap
  | 0, _, h => (none, h)
  | left + 1, i, h =>
      if h.book i = 0 then (some i, h.touch .examine i)
      else examine left (i + 2) (h.touch .examine i)

/-- Both entries of a semaphore. -/
def put (sem : ℕ) (v : ℤ) (h : Heap) : Heap := (h.write (2 * sem) v).write (2 * sem + 1) v

def enlist (sem : ℕ) (h : Heap) : Heap := { h with live := h.live ++ [sem] }

def grow (fresh : ℕ → ℤ) (h : Heap) : Heap :=
  { h with cnt := h.cnt + 1 }.realloc ((h.cnt + 1) * 2) fresh

def sem_init_my (value : ℕ) (fresh : ℕ → ℤ) (h : Heap) : Heap :=
  match h.examine (h.cnt / 2) 1 with
  | (some i, h) => (h.put i (wrap value)).enlist i
  | (none, h) => ((h.grow fresh).put h.cnt (wrap value)).enlist h.cnt

/-- One semaphore less with this handle; others may have it too. -/
def sem_destroy_my (sem : ℕ) (h : Heap) : Heap := { h.put sem 0 with live := h.live.erase sem }

/-- At zero the only thread sleeps, and goes on after a spurious wakeup. -/
def sem_wait_my (sem : ℕ) (h : Heap) : Heap :=
  let h := (h.touch .read (2 * sem)).touch .read (2 * sem)
  h.write (2 * sem) (wrap (h.book (2 * sem) - 1))

def sem_post_my (sem : ℕ) (h : Heap) : Heap :=
  let h := h.touch .read (2 * sem)
  h.write (2 * sem) (wrap (h.book (2 * sem) + 1))

/-- The call returns. -/
def done (h : Heap) : Heap := { h with calls := h.calls + 1 }

/-- Every access has been inside the block. -/
def Inside (h : Heap) : Prop := ∀ a ∈ h.log, a.Inside

/-- What the loop examines, an earlier call has written. -/
def Examined (h : Heap) : Prop :=
  ∀ a ∈ h.log, a.touch = .examine →
    ∃ w ∈ h.log, w.touch = .write ∧ w.entry = a.entry ∧ w.call < a.call

/-- The table without its block. -/
def table (h : Heap) : SemInit.Table := ⟨h.book, h.cnt, []⟩

end Heap

/-- With what `realloc` delivers. -/
inductive Call
  | init (value : ℕ) (fresh : ℕ → ℤ)
  | wait (sem : ℕ)
  | post (sem : ℕ)
  | destroy (sem : ℕ)

/-- `limit_book` is null. -/
def empty : Heap := ⟨fun _ => 0, 0, 0, [], 0, []⟩

/-- One thread that calls the functions on live semaphores. -/
def allocator : Machine Heap Call where
  init h := h = empty
  step
    | .init value fresh, h => some (h.sem_init_my value fresh).done
    | .wait sem, h => if sem ∈ h.live then some (h.sem_wait_my sem).done else none
    | .post sem, h => if sem ∈ h.live then some (h.sem_post_my sem).done else none
    | .destroy sem, h => if sem ∈ h.live then some (h.sem_destroy_my sem).done else none

/-- All accesses of the call are inside: of `sem_init_my` when its loop finds a zero far enough
before the end, of the others when the entries of their semaphore lie before the end. -/
def Fits (a : Call) (h : Heap) : Prop :=
  match a with
  | .init _ _ => ∃ i, SemInit.FirstZero h.table i ∧ 4 * i + 4 ≤ h.cnt
  | .wait sem | .post sem => 4 * sem + 2 ≤ h.cnt
  | .destroy sem => 4 * sem + 4 ≤ h.cnt

/-! ## The accesses of a call -/

/-- What a call from `h` does, and the accesses it makes. -/
structure Effect (a : Call) (h h' : Heap) (as : List Access) : Prop where
  log : h'.log = h.log ++ as
  calls : h'.calls = h.calls + 1
  now : ∀ x ∈ as, x.call = h.calls
  bytes : h'.bytes = 2 * h'.cnt
  examined : ∀ x ∈ as, x.touch = .examine → x.entry < h.cnt
  written : ∀ k, 2 * h.cnt ≤ k → k < 2 * h'.cnt → ∃ w ∈ as, w.touch = .write ∧ w.entry = k
  inside : (∀ x ∈ as, x.Inside) ↔ Fits a h

variable {h h' : Heap} {a : Call}

/-- After the entries `ks` have been examined. -/
def Heap.past (ks : List ℕ) (h : Heap) : Heap :=
  { h with log := h.log ++ ks.map fun k => ⟨h.calls, .examine, k, h.bytes⟩ }

/-- The loop looks at indices below its end, and at none behind the one that it finds. -/
theorem examine_eq (left i : ℕ) (h : Heap) : ∃ ks : List ℕ, (h.examine left i).2 = h.past ks ∧
    (∀ k ∈ ks, k + 1 < i + 2 * left) ∧
    ∀ j, (h.examine left i).1 = some j → i ≤ j ∧ ∀ k ∈ ks, k ≤ j := by
  induction left generalizing i h with
  | zero => exact ⟨[], by simp [Heap.examine, Heap.past], by simp, fun j hj => by cases hj⟩
  | succ left ih =>
      rw [Heap.examine]
      split
      · refine ⟨[i], rfl, fun k hk => ?_, fun j hj => ?_⟩
        · obtain rfl := List.mem_singleton.1 hk
          omega
        · obtain rfl := Option.some.inj hj
          exact ⟨le_rfl, fun k hk => (List.mem_singleton.1 hk).le⟩
      · obtain ⟨ks, eq, below, found⟩ := ih (i + 2) (h.touch .examine i)
        refine ⟨i :: ks, ?_, fun k hk => ?_, fun j hj => ?_⟩
        · rw [eq]
          simp [Heap.touch, Heap.past]
        · rcases List.mem_cons.1 hk with rfl | hk
          · omega
          · have := below k hk
            omega
        · obtain ⟨le, before⟩ := found j hj
          refine ⟨by omega, fun k hk => ?_⟩
          rcases List.mem_cons.1 hk with rfl | hk
          · omega
          · exact before k hk

theorem examine_fst (left i : ℕ) (h : Heap) : (h.examine left i).1 =
    ((List.range left).map (i + 2 * ·)).find? (h.book · = 0) := by
  induction left generalizing i h with
  | zero => rfl
  | succ left ih =>
      have later : (fun d => i + 2 * d) ∘ Nat.succ = fun d => i + 2 + 2 * d :=
        funext fun d => by simp only [Function.comp_apply]; omega
      rw [Heap.examine, List.range_succ_eq_map, List.map_cons, List.map_map, List.find?_cons, later]
      split
      · next zero => simp [zero]
      · next other =>
          rw [ih, decide_eq_false (show ¬ h.book (i + 2 * 0) = 0 from other)]
          rfl

/-- The loop of `sem_init_my` finds what the scan of the table without its block finds. -/
theorem examine_eq_scan (h : Heap) : ∃ ks : List ℕ,
    h.examine (h.cnt / 2) 1 = (h.table.scan, h.past ks) ∧ (∀ k ∈ ks, k < h.cnt) ∧
      ∀ i, h.table.scan = some i → ∀ k ∈ ks, k ≤ i := by
  have scan : (h.examine (h.cnt / 2) 1).1 = h.table.scan := by
    rw [examine_fst, SemInit.Table.scan]
    simp only [Nat.add_comm 1]
    rfl
  obtain ⟨ks, eq, below, found⟩ := examine_eq (h.cnt / 2) 1 h
  refine ⟨ks, Prod.ext scan eq, fun k hk => ?_, fun i hi => (found i (scan.trans hi)).2⟩
  have := below k hk
  omega

/-- Where `realloc` delivers the old entries, they change as in the table without its block. -/
theorem table_sem_init_my (h : Heap) (value : ℕ) :
    (h.sem_init_my value h.book).book = (h.table.sem_init_my value).book ∧
      (h.sem_init_my value h.book).cnt = (h.table.sem_init_my value).cnt := by
  obtain ⟨ks, eq, -, -⟩ := examine_eq_scan h
  unfold Heap.sem_init_my SemInit.Table.sem_init_my
  rw [eq]
  cases h.table.scan with
  | none =>
      have kept : ((h.past ks).grow h.book).book = h.book := funext fun k => ite_self _
      exact ⟨congrArg (SemByMutex.store · h.cnt value) kept, rfl⟩
  | some i => exact ⟨rfl, rfl⟩

/-- A call that leaves the block as it is. -/
theorem effect_of_entries (bytes : h.bytes = 2 * h.cnt) (accesses : List (Touch × ℕ))
    (examined : ∀ p ∈ accesses, p.1 = .examine → p.2 < h.cnt)
    (log : h'.log = h.log ++ accesses.map fun p => ⟨h.calls, p.1, p.2, h.bytes⟩)
    (calls : h'.calls = h.calls + 1) (block : h'.bytes = h.bytes) (cnt : h'.cnt = h.cnt)
    (inside : (∀ p ∈ accesses, 4 * p.2 + 4 ≤ 2 * h.cnt) ↔ Fits a h) :
    ∃ as, Effect a h h' as := by
  refine ⟨_, log, calls, fun x hx => ?_, ?_, fun x hx examine => ?_, fun k le lt => ?_, ?_⟩
  · obtain ⟨p, -, rfl⟩ := List.mem_map.1 hx
    rfl
  · rw [block, cnt, bytes]
  · obtain ⟨p, hp, rfl⟩ := List.mem_map.1 hx
    exact examined p hp examine
  · rw [cnt] at lt
    exact absurd le (Nat.not_le_of_lt lt)
  · rw [← inside, List.forall_mem_map, ← bytes]
    rfl

/-- The block grows by two bytes, and both entries of the new semaphore lie behind it. -/
theorem effect_grow {ks : List ℕ} (inner : ∀ k ∈ ks, k < h.cnt) (none : h.table.scan = none)
    (value : ℕ) (fresh : ℕ → ℤ) : ∃ as, Effect (.init value fresh) h
      ((((h.past ks).grow fresh).put h.cnt (wrap value)).enlist h.cnt).done as := by
  have outside : ¬ 4 * (2 * h.cnt) + 4 ≤ (h.cnt + 1) * 2 := by omega
  refine ⟨ks.map (fun k => ⟨h.calls, .examine, k, h.bytes⟩) ++
    [⟨h.calls, .write, 2 * h.cnt, (h.cnt + 1) * 2⟩,
      ⟨h.calls, .write, 2 * h.cnt + 1, (h.cnt + 1) * 2⟩], ?_, rfl, ?_, ?_, ?_, ?_, ?_⟩
  · simp [Heap.done, Heap.enlist, Heap.put, Heap.write, Heap.touch, Heap.grow, Heap.realloc,
      Heap.past]
  · simp only [List.mem_append, List.mem_map, List.mem_cons, List.not_mem_nil, or_false]
    rintro x (⟨k, -, rfl⟩ | rfl | rfl) <;> rfl
  · exact Nat.mul_comm _ 2
  · simp only [List.mem_append, List.mem_map, List.mem_cons, List.not_mem_nil, or_false]
    rintro x (⟨k, hk, rfl⟩ | rfl | rfl) examine
    · exact inner k hk
    · cases examine
    · cases examine
  · intro k le lt
    have lt' : k < 2 * (h.cnt + 1) := lt
    obtain rfl | rfl : k = 2 * h.cnt ∨ k = 2 * h.cnt + 1 := by omega
    · exact ⟨⟨h.calls, .write, 2 * h.cnt, (h.cnt + 1) * 2⟩, by simp, rfl, rfl⟩
    · exact ⟨⟨h.calls, .write, 2 * h.cnt + 1, (h.cnt + 1) * 2⟩, by simp, rfl, rfl⟩
  · refine iff_of_false (fun all => ?_) ?_
    · exact outside (all _ (List.mem_append_right _ List.mem_cons_self))
    · rintro ⟨i, first, -⟩
      cases none.symm.trans (SemInit.scan_eq_some_iff.2 first)

theorem effect_reuse (bytes : h.bytes = 2 * h.cnt) {ks : List ℕ} {i : ℕ}
    (inner : ∀ k ∈ ks, k < h.cnt) (before : ∀ k ∈ ks, k ≤ i) (found : h.table.scan = some i)
    (value : ℕ) (fresh : ℕ → ℤ) : ∃ as, Effect (.init value fresh) h
      (((h.past ks).put i (wrap value)).enlist i).done as := by
  refine effect_of_entries bytes (ks.map (fun k => (.examine, k)) ++
    [(.write, 2 * i), (.write, 2 * i + 1)]) ?_ ?_ rfl rfl rfl ?_
  · simp only [List.mem_append, List.mem_map, List.mem_cons, List.not_mem_nil, or_false]
    rintro p (⟨k, hk, rfl⟩ | rfl | rfl) examine
    · exact inner k hk
    · cases examine
    · cases examine
  · simp [Heap.done, Heap.enlist, Heap.put, Heap.write, Heap.touch, Heap.past]
  · constructor
    · intro all
      have last := all (.write, 2 * i + 1) (by simp)
      exact ⟨i, SemInit.scan_eq_some_iff.1 found, by omega⟩
    · rintro ⟨j, first, room⟩
      obtain rfl : i = j := Option.some.inj (found.symm.trans (SemInit.scan_eq_some_iff.2 first))
      simp only [List.mem_append, List.mem_map, List.mem_cons, List.not_mem_nil, or_false]
      rintro p (⟨k, hk, rfl⟩ | rfl | rfl)
      · have := before k hk
        dsimp only
        omega
      · dsimp only
        omega
      · dsimp only
        omega

theorem effect_init (bytes : h.bytes = 2 * h.cnt) (value : ℕ) (fresh : ℕ → ℤ) :
    ∃ as, Effect (.init value fresh) h (h.sem_init_my value fresh).done as := by
  obtain ⟨ks, eq, inner, before⟩ := examine_eq_scan h
  unfold Heap.sem_init_my
  rw [eq]
  cases scan : h.table.scan with
  | none => exact effect_grow inner scan value fresh
  | some i => exact effect_reuse bytes inner (before i scan) scan value fresh

theorem exists_effect (bytes : h.bytes = 2 * h.cnt) (hs : allocator.step a h = some h') :
    ∃ as, Effect a h h' as := by
  cases a with
  | init value fresh =>
      obtain rfl := Option.some.inj hs
      exact effect_init bytes value fresh
  | wait sem =>
      obtain ⟨-, hs⟩ := Option.ite_none_right_eq_some.1 hs
      obtain rfl := Option.some.inj hs
      refine effect_of_entries bytes [(.read, 2 * sem), (.read, 2 * sem), (.write, 2 * sem)] ?_ ?_
        rfl rfl rfl ?_
      · simp
      · simp [Heap.done, Heap.sem_wait_my, Heap.write, Heap.touch]
      · simp [Fits]
        omega
  | post sem =>
      obtain ⟨-, hs⟩ := Option.ite_none_right_eq_some.1 hs
      obtain rfl := Option.some.inj hs
      refine effect_of_entries bytes [(.read, 2 * sem), (.write, 2 * sem)] ?_ ?_ rfl rfl rfl ?_
      · simp
      · simp [Heap.done, Heap.sem_post_my, Heap.write, Heap.touch]
      · simp [Fits]
        omega
  | destroy sem =>
      obtain ⟨-, hs⟩ := Option.ite_none_right_eq_some.1 hs
      obtain rfl := Option.some.inj hs
      refine effect_of_entries bytes [(.write, 2 * sem), (.write, 2 * sem + 1)] ?_ ?_ rfl rfl rfl ?_
      · simp
      · simp [Heap.done, Heap.sem_destroy_my, Heap.put, Heap.write, Heap.touch]
      · simp [Fits]
        omega

/-! ## Runs -/

/-- Two bytes for each semaphore, and all entries below `2 * limit_cnt` have been written. -/
structure Sound (h : Heap) : Prop where
  bytes : h.bytes = 2 * h.cnt
  past : ∀ x ∈ h.log, x.call < h.calls
  written : ∀ k < 2 * h.cnt, ∃ w ∈ h.log, w.touch = .write ∧ w.entry = k
  examined : h.Examined

theorem Sound.step (s : Sound h) (hs : allocator.step a h = some h') : Sound h' := by
  obtain ⟨as, eff⟩ := exists_effect s.bytes hs
  have old : ∀ {x}, x ∈ h.log → x ∈ h'.log := fun hx => eff.log ▸ List.mem_append_left _ hx
  have new : ∀ {x}, x ∈ as → x ∈ h'.log := fun hx => eff.log ▸ List.mem_append_right _ hx
  refine ⟨eff.bytes, fun x hx => ?_, fun k lt => ?_, fun x hx examine => ?_⟩
  · rw [eff.calls]
    rw [eff.log] at hx
    rcases List.mem_append.1 hx with hx | hx
    · exact Nat.lt_succ_of_lt (s.past x hx)
    · exact (eff.now x hx).trans_lt (Nat.lt_succ_self _)
  · by_cases le : 2 * h.cnt ≤ k
    · obtain ⟨w, hw, write, entry⟩ := eff.written k le lt
      exact ⟨w, new hw, write, entry⟩
    · obtain ⟨w, hw, write, entry⟩ := s.written k (Nat.lt_of_not_le le)
      exact ⟨w, old hw, write, entry⟩
  · rw [eff.log] at hx
    rcases List.mem_append.1 hx with hx | hx
    · obtain ⟨w, hw, write, entry, earlier⟩ := s.examined x hx examine
      exact ⟨w, old hw, write, entry, earlier⟩
    · have below := eff.examined x hx examine
      obtain ⟨w, hw, write, entry⟩ := s.written x.entry (by omega)
      exact ⟨w, old hw, write, entry, (eff.now x hx).symm ▸ s.past w hw⟩

theorem sound_empty : Sound empty where
  bytes := rfl
  past x hx := by cases hx
  written k lt := absurd lt (Nat.not_lt_zero k)
  examined x hx := by cases hx

theorem sound_of_reachable (hr : allocator.Reachable h) : Sound h :=
  Machine.Inductive.reachable ⟨fun _ init => init ▸ sound_empty, fun _ _ _ _ s hs => s.step hs⟩ hr

theorem not_fits_empty (a : Call) : ¬ Fits a empty := by
  cases a with
  | init value fresh =>
      rintro ⟨i, -, le⟩
      exact Nat.not_succ_le_zero _ le
  | wait sem | post sem => exact Nat.not_succ_le_zero _
  | destroy sem => exact Nat.not_succ_le_zero _

theorem Sound.inside_iff (s : Sound h) (hs : allocator.step a h = some h') :
    (∀ x ∈ h'.log, x.call = h.calls → x.Inside) ↔ Fits a h := by
  obtain ⟨as, eff⟩ := exists_effect s.bytes hs
  rw [← eff.inside, eff.log]
  constructor
  · exact fun all x hx => all x (List.mem_append_right _ hx) (eff.now x hx)
  · intro all x hx now
    rcases List.mem_append.1 hx with hx | hx
    · exact absurd now (s.past x hx).ne
    · exact all x hx

/-- For every sequence of calls on live semaphores, whatever `realloc` delivers: only without a call
have all accesses been inside.  What the loop examines has been written; and of which calls the
accesses are inside. -/
theorem inside_iff_nil {calls : List Call} {h : Heap} (run : allocator.run calls empty = some h) :
    (allocator.Along (fun h => h.Inside ∧ h.Examined) calls empty ↔ calls = []) ∧ h.Examined ∧
      ∀ a h', allocator.step a h = some h' →
        ((∀ x ∈ h'.log, x.call = h.calls → x.Inside) ↔ Fits a h) := by
  have sound := sound_of_reachable (Machine.reachable_of_run calls rfl run)
  refine ⟨⟨fun along => ?_, ?_⟩, sound.examined, fun a h' hs => sound.inside_iff hs⟩
  · cases calls with
    | nil => rfl
    | cons a calls =>
        obtain ⟨h₁, hs, -⟩ := Option.bind_eq_some_iff.1 run
        have inside := (along.2 h₁ hs).first.1
        have fits := (sound_empty.inside_iff hs).1 fun x hx _ => inside x hx
        exact absurd fits (not_fits_empty a)
  · rintro rfl
    have inside : empty.Inside := fun x hx => absurd hx List.not_mem_nil
    exact show empty.Inside ∧ empty.Examined from ⟨inside, sound_empty.examined⟩

/-- Two semaphores in four bytes, and a call on the first one. -/
theorem inside_iff_nil_waitFirst : ∃ h h',
    allocator.run [.init 3 fun _ => 0, .init 2 fun _ => 0] empty = some h ∧ h.bytes = 4 ∧
      h.Examined ∧ allocator.step (.wait 0) h = some h' ∧
      ∀ x ∈ h'.log, x.call = h.calls → x.Inside := by
  have run : allocator.run [.init 3 fun _ => 0, .init 2 fun _ => 0] empty = some _ := rfl
  obtain ⟨-, examined, fits⟩ := inside_iff_nil run
  exact ⟨_, _, run, rfl, examined, rfl, (fits (.wait 0) _ rfl).2 (by show 4 * 0 + 2 ≤ 2; decide)⟩

/-- The first call writes to bytes 0 to 7 of a block of two. -/
theorem not_inside_first : ∃ h, allocator.Reachable h ∧
    h.log = [⟨0, .write, 0, 2⟩, ⟨0, .write, 1, 2⟩] ∧ ¬ h.Inside := by
  refine ⟨_, Machine.reachable_of_run [.init 5 fun _ => 0] rfl rfl, rfl, fun inside => ?_⟩
  have first : 4 * 0 + 4 ≤ 2 := inside ⟨0, .write, 0, 2⟩ List.mem_cons_self
  exact absurd first (by decide)

end LinuxNote.SemTable
