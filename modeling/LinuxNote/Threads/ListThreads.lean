import LinuxNote.Conc.SharedList
import Mathlib.Data.Int.Notation

/-!
# Threads on one linked list

What `pth_cond.c` and `pth_cond_test.c` have in common: producers and consumers, the choices of
`malloc` and `rand`, and a memory with a heap and the pointer `head`.  A statement on a node goes
through `Memory.deref`, which also says what becomes of one on a cell that is not allocated.
-/

namespace LinuxNote.ListThreads

open Conc

inductive Role
  | producer
  | consumer
  deriving DecidableEq

/-- What the environment chooses: the cell that `malloc` offers and what is in it, and the value of
`rand()`. -/
structure Choice (A : Type*) where
  cell : A
  garbage : Node A ℤ
  rand : ℕ

structure Memory (A : Type*) where
  heap : Heap A ℤ
  head : Option A

namespace Memory

/-- Nothing is allocated, and the list is empty. -/
def empty (A : Type*) : Memory A := ⟨fun _ => none, none⟩

variable {A R : Type*} {m : Memory A} {p : A} {n : Node A ℤ}

/-- A statement on the node `*p`; `lost` is its result when the cell is not allocated. -/
def deref (m : Memory A) (p : A) (lost : R) (f : Node A ℤ → R) : R :=
  match m.heap p with
  | some n => f n
  | none => lost

theorem deref_some (h : m.heap p = some n) (lost : R) (f : Node A ℤ → R) :
    m.deref p lost f = f n := by rw [deref, h]

theorem exists_deref (h : m.heap p ≠ none) (lost : R) (f : Node A ℤ → R) :
    ∃ n, m.deref p lost f = f n := by
  obtain ⟨n, hn⟩ := Option.ne_none_iff_exists'.1 h
  exact ⟨n, deref_some hn lost f⟩

/-- What holds of both results. -/
theorem deref_of {P : R → Prop} {lost : R} {f : Node A ℤ → R} (none : P lost)
    (some : ∀ n, P (f n)) : P (m.deref p lost f) := by
  rw [deref]
  split
  · exact some _
  · exact none

/-- A test of the location that the statement leads to. -/
theorem test_deref {G L B : Type*} {test : L → B} {b : B} {g : G} {lost : L}
    {f : Node A ℤ → G × L} (none : test lost = b) (some : ∀ n, test (f n).2 = b) :
    test (m.deref p (g, lost) f).2 = b :=
  deref_of (P := fun r : G × L => test r.2 = b) none some

/-- At the start, when no thread has a cell. -/
theorem separate_empty {ι : Type*} {held : ι → Option A} (free : ∀ t, held t = none) :
    Separate (empty A).heap (empty A).head held [] := by
  have never : ∀ {t a}, held t ≠ some a := by
    intro t a ht
    cases (free t).symm.trans ht
  exact ⟨rfl, fun t a ht => absurd ht never, fun t a ht => absurd ht never,
    fun t u a ht => absurd ht never⟩

variable [DecidableEq A]

def store (m : Memory A) (p : A) (n : Node A ℤ) : Memory A :=
  { m with heap := Function.update m.heap p (some n) }

theorem store_self : (m.store p n).heap p = some n := Function.update_self ..

theorem store_ne_none : (m.store p n).heap p ≠ none := by
  rw [store_self]
  exact Option.some_ne_none _

end Memory

end LinuxNote.ListThreads
