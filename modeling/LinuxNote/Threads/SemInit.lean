import LinuxNote.Threads.SemByMutex

/-!
# The allocator of `sem_by_mutex.c`

Semaphore `i` has the entries `2 * i` and `2 * i + 1` of `limit_book`, its counter and its initial
value.  `sem_init_my` looks for a zero at an odd index `i` and takes `i` for the handle; but entry
`i` belongs to semaphore `i / 2`, and is zero also while that one is live and began at 0.

So a handle can be given out twice.  `separate_iff_fresh` says that this happens exactly when the
first zero at an odd index below `limit_cnt` is found at the handle of a live semaphore.
-/

namespace LinuxNote.SemInit

open Conc SemByMutex

/-- A live semaphore, and what its counter should be when no other semaphore disturbs it. -/
structure Live where
  sem : ℕ
  count : ℤ

/-- `limit_book` and `limit_cnt`, and the semaphores that are live. -/
structure Table where
  book : ℕ → ℤ
  cnt : ℕ
  live : List Live

def Table.handles (b : Table) : List ℕ := b.live.map Live.sem

/-- `for (i = 1; i < limit_cnt; i += 2)`: the first `i` with `limit_book[i] == 0`. -/
def Table.scan (b : Table) : Option ℕ :=
  ((List.range (b.cnt / 2)).map (2 * · + 1)).find? (b.book · = 0)

def Table.sem_init_my (b : Table) (value : ℕ) : Table :=
  match b.scan with
  | some i => ⟨store b.book i value, b.cnt, b.live ++ [⟨i, wrap value⟩]⟩
  | none => ⟨store b.book b.cnt value, b.cnt + 1, b.live ++ [⟨b.cnt, wrap value⟩]⟩

/-- One semaphore less with this handle; others may have it too. -/
def Table.sem_destroy_my (b : Table) (sem : ℕ) : Table :=
  { b with book := store b.book sem 0, live := b.live.eraseP (·.sem == sem) }

/-- The counter of a semaphore changes by `d`. -/
def Table.count (b : Table) (sem : ℕ) (d : ℤ) : Table where
  book := Function.update b.book (slot sem) (wrap (b.book (slot sem) + d))
  cnt := b.cnt
  live := b.live.map fun l => if l.sem = sem then ⟨sem, wrap (l.count + d)⟩ else l

/-- At zero the only thread sleeps, and goes on after a spurious wakeup. -/
def Table.sem_wait_my (b : Table) (sem : ℕ) : Table := b.count sem (-1)

def Table.sem_post_my (b : Table) (sem : ℕ) : Table := b.count sem 1

inductive Call
  | init (value : ℕ)
  | wait (sem : ℕ)
  | post (sem : ℕ)
  | destroy (sem : ℕ)

/-- Nothing allocated; the memory that `realloc` will deliver holds `book`. -/
def empty (book : ℕ → ℤ) : Table := ⟨book, 0, []⟩

/-- One thread that calls the functions on live semaphores. -/
def allocator (book : ℕ → ℤ) : Machine Table Call where
  init b := b = empty book
  step
    | .init value, b => some (b.sem_init_my value)
    | .wait sem, b => if sem ∈ b.handles then some (b.sem_wait_my sem) else none
    | .post sem, b => if sem ∈ b.handles then some (b.sem_post_my sem) else none
    | .destroy sem, b => if sem ∈ b.handles then some (b.sem_destroy_my sem) else none

/-- The handles are distinct, and no counter is changed by a call on another semaphore. -/
structure Separate (b : Table) : Prop where
  distinct : b.handles.Nodup
  counts : ∀ l ∈ b.live, b.book (slot l.sem) = l.count

/-- The first zero at an odd index below `limit_cnt` is at `i`. -/
structure FirstZero (b : Table) (i : ℕ) : Prop where
  odd : i % 2 = 1
  lt : i < b.cnt
  zero : b.book i = 0
  first : ∀ j, j % 2 = 1 → j < i → b.book j ≠ 0

/-- Before a `sem_init_my`, the first zero at an odd index is not at the handle of a live
semaphore. -/
def Fresh (a : Call) (b : Table) : Prop :=
  match a with
  | .init _ => ∀ i, FirstZero b i → i ∉ b.handles
  | _ => True

variable {b : Table}

theorem scan_eq_some_iff {i : ℕ} : b.scan = some i ↔ FirstZero b i := by
  rw [Table.scan, List.find?_map, Option.map_eq_some_iff]
  simp only [List.find?_range_eq_some, List.mem_range, Function.comp_apply, decide_eq_true_eq,
    Bool.not_eq_true', decide_eq_false_iff_not]
  constructor
  · rintro ⟨k, ⟨zero, lt, first⟩, rfl⟩
    refine ⟨by omega, by omega, zero, fun j odd hj => ?_⟩
    have before := first (j / 2) (by omega)
    rwa [show 2 * (j / 2) + 1 = j by omega] at before
  · rintro ⟨odd, lt, zero, first⟩
    have half : 2 * (i / 2) + 1 = i := by omega
    refine ⟨i / 2, ⟨by rwa [half], by omega, fun j hj => first _ (by omega) (by omega)⟩, half⟩

/-! ## One call -/

theorem mem_handles {l : Live} (h : l ∈ b.live) : l.sem ∈ b.handles := List.mem_map_of_mem h

theorem handles_add (b : Table) (book : ℕ → ℤ) (cnt i : ℕ) (count : ℤ) :
    Table.handles ⟨book, cnt, b.live ++ [⟨i, count⟩]⟩ = b.handles ++ [i] := by
  simp [Table.handles]

/-- A new semaphore disturbs no other one. -/
theorem Separate.add (h : Separate b) {i : ℕ} (fresh : i ∉ b.handles) (value cnt : ℕ) :
    Separate ⟨store b.book i value, cnt, b.live ++ [⟨i, wrap value⟩]⟩ where
  distinct := by
    rw [handles_add, List.nodup_append]
    refine ⟨h.distinct, List.nodup_singleton i, fun j hj k hk => ?_⟩
    rintro rfl
    exact fresh (List.mem_singleton.1 hk ▸ hj)
  counts l hl := by
    rcases List.mem_append.1 hl with hl | hl
    · have ne : l.sem ≠ i := fun e => fresh (e ▸ mem_handles hl)
      exact (store_slot_of_ne b.book ne value).trans (h.counts l hl)
    · obtain rfl := List.mem_singleton.1 hl
      dsimp only
      exact store_slot b.book i value

theorem handles_destroy (b : Table) (sem : ℕ) :
    (b.sem_destroy_my sem).handles = b.handles.erase sem := by
  exact (List.erase_eq_eraseP' ..).trans List.eraseP_map |>.symm

theorem Separate.destroy (h : Separate b) (sem : ℕ) : Separate (b.sem_destroy_my sem) where
  distinct := handles_destroy b sem ▸ h.distinct.erase sem
  counts l hl := by
    have ne : l.sem ≠ sem := by
      rintro rfl
      have left : l.sem ∈ b.handles.erase l.sem := handles_destroy b l.sem ▸ mem_handles hl
      exact h.distinct.not_mem_erase left
    exact (store_slot_of_ne b.book ne 0).trans (h.counts l (List.mem_of_mem_eraseP hl))

theorem handles_count (b : Table) (sem : ℕ) (d : ℤ) : (b.count sem d).handles = b.handles := by
  simp only [Table.handles, Table.count, List.map_map]
  refine List.map_congr_left fun l _ => ?_
  by_cases e : l.sem = sem <;> simp [e]

theorem Separate.count (h : Separate b) (sem : ℕ) (d : ℤ) : Separate (b.count sem d) where
  distinct := by
    rw [handles_count]
    exact h.distinct
  counts l' hl' := by
    obtain ⟨l, hl, rfl⟩ := List.mem_map.1 hl'
    have before := h.counts l hl
    by_cases e : l.sem = sem
    · subst e
      simp [Table.count, before]
    · have other : slot l.sem ≠ slot sem := slot_ne e
      simp [Table.count, e, other, before]

/-! ## Runs -/

/-- What the calls keep while they are fresh. -/
structure Sound (b : Table) : Prop where
  separate : Separate b
  below : ∀ i ∈ b.handles, i < b.cnt

theorem Sound.init (h : Sound b) {value : ℕ} (fresh : Fresh (.init value) b) :
    Sound (b.sem_init_my value) := by
  rw [Table.sem_init_my]
  cases hs : b.scan with
  | some i =>
      have first := scan_eq_some_iff.1 hs
      refine ⟨h.separate.add (fresh i first) value b.cnt, fun j hj => ?_⟩
      rw [handles_add, List.mem_append, List.mem_singleton] at hj
      rcases hj with hj | rfl
      · exact h.below j hj
      · exact first.lt
  | none =>
      have unused : b.cnt ∉ b.handles := fun mem => Nat.lt_irrefl _ (h.below _ mem)
      refine ⟨h.separate.add unused value (b.cnt + 1), fun j hj => ?_⟩
      rw [handles_add, List.mem_append, List.mem_singleton] at hj
      rcases hj with hj | rfl
      · exact Nat.lt_succ_of_lt (h.below j hj)
      · exact Nat.lt_succ_self _

theorem Sound.count (h : Sound b) (sem : ℕ) (d : ℤ) : Sound (b.count sem d) where
  separate := h.separate.count sem d
  below i hi := h.below i (handles_count b sem d ▸ hi)

theorem Sound.destroy (h : Sound b) (sem : ℕ) : Sound (b.sem_destroy_my sem) where
  separate := h.separate.destroy sem
  below i hi := h.below i (List.mem_of_mem_erase (handles_destroy b sem ▸ hi))

theorem Sound.step {book : ℕ → ℤ} {a : Call} {b' : Table} (h : Sound b) (fresh : Fresh a b)
    (hs : (allocator book).step a b = some b') : Sound b' := by
  cases a with
  | init value =>
      obtain rfl := Option.some.inj hs
      exact h.init fresh
  | wait sem =>
      obtain ⟨-, hs⟩ := Option.ite_none_right_eq_some.1 hs
      obtain rfl := Option.some.inj hs
      exact h.count sem (-1)
  | post sem =>
      obtain ⟨-, hs⟩ := Option.ite_none_right_eq_some.1 hs
      obtain rfl := Option.some.inj hs
      exact h.count sem 1
  | destroy sem =>
      obtain ⟨-, hs⟩ := Option.ite_none_right_eq_some.1 hs
      obtain rfl := Option.some.inj hs
      exact h.destroy sem

/-- A handle that is given out twice. -/
theorem not_separate_of_not_fresh {book : ℕ → ℤ} {a : Call} {b' : Table} (used : ¬ Fresh a b)
    (hs : (allocator book).step a b = some b') : ¬ Separate b' := by
  cases a with
  | init value =>
      obtain rfl := Option.some.inj hs
      simp only [Fresh, not_forall, not_not] at used
      obtain ⟨i, first, mem⟩ := used
      intro separate
      have distinct := separate.distinct
      simp only [Table.sem_init_my, scan_eq_some_iff.2 first, handles_add,
        List.nodup_append] at distinct
      exact distinct.2.2 i mem i (List.mem_singleton.2 rfl) rfl
  | wait sem | post sem | destroy sem => exact absurd trivial used

/-- For every sequence of calls on live semaphores. -/
theorem separate_iff_fresh {book : ℕ → ℤ} {calls : List Call} {b' : Table}
    (h : (allocator book).run calls (empty book) = some b') :
    (allocator book).Along Separate calls (empty book) ↔
      (allocator book).Meets Fresh calls (empty book) := by
  have sound : Sound (empty book) := by
    refine ⟨⟨List.nodup_nil, fun l hl => ?_⟩, fun i hi => ?_⟩
    · cases hl
    · cases hi
  exact Machine.along_iff_meets (fun _ h => h.separate) (fun _ _ _ h fresh hs => h.step fresh hs)
    (fun _ _ _ _ used hs => not_separate_of_not_fresh used hs) sound h

/-- A semaphore is destroyed and its entry used again. -/
def reuse : List Call := [.init 3, .init 2, .wait 1, .destroy 0, .destroy 1, .init 4, .post 1]

theorem separate_iff_fresh_reuse : ((allocator fun _ => 0).run reuse (empty fun _ => 0)).isSome ∧
    ((allocator fun _ => 0).Along Separate reuse (empty fun _ => 0) ↔
      (allocator fun _ => 0).Meets Fresh reuse (empty fun _ => 0)) :=
  ⟨rfl, separate_iff_fresh rfl⟩

/-- With the initial value 0 of semaphore 0 at index 1, semaphore 1 is given out twice, and its
counter 5 becomes 7. -/
theorem not_separate_initialZero : ∃ b,
    (allocator fun _ => 0).run [.init 0, .init 5, .init 7] (empty fun _ => 0) =
    some b ∧ b.handles = [0, 1, 1] ∧ b.live.map Live.count = [0, 5, 7] ∧ b.book (slot 1) = 7 ∧
      ¬ Separate b := by
  refine ⟨_, rfl, rfl, rfl, rfl, fun h => ?_⟩
  exact absurd h.distinct (by decide)

end LinuxNote.SemInit
