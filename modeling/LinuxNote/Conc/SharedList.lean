import Mathlib.Data.List.Nodup
import Mathlib.Logic.Function.Basic

/-!
# A linked list shared by threads

Cells on a heap hold a value and a link.  `Chain heap p l` says that the cells met from `p` on, up
to the null pointer, are those of `l` with their values; such a list is determined by the heap and
meets no cell twice.  `Separate` says in addition that each thread has at most one cell for itself,
that nobody else has it and that it is not on the list.  The rules `Separate.handled_…` say that
what a thread does with cells keeps this and the cells of the others.  A cell that is not allocated
is `none`.
-/

namespace Conc

variable {A V ι : Type*}

structure Node (A V : Type*) where
  value : V
  next : Option A

abbrev Heap (A V : Type*) := A → Option (Node A V)

/-- The list from `p` on runs through the cells of `l`. -/
def Chain (heap : Heap A V) : Option A → List (A × V) → Prop
  | p, [] => p = none
  | p, x :: l => p = some x.1 ∧ ∃ next, heap x.1 = some ⟨x.2, next⟩ ∧ Chain heap next l

/-- The cells of a list. -/
def cells (l : List (A × V)) : List A := l.map Prod.fst

@[simp] theorem cells_nil : cells ([] : List (A × V)) = [] := rfl

@[simp] theorem cells_cons (x : A × V) (l : List (A × V)) : cells (x :: l) = x.1 :: cells l := rfl

@[simp] theorem cells_append (l l' : List (A × V)) : cells (l ++ l') = cells l ++ cells l' :=
  List.map_append

theorem exists_split_of_mem_cells {l : List (A × V)} {a : A} (h : a ∈ cells l) :
    ∃ l₁ v l₂, l = l₁ ++ (a, v) :: l₂ := by
  obtain ⟨⟨a', v⟩, mem, rfl⟩ := List.mem_map.1 h
  obtain ⟨l₁, l₂, split⟩ := List.append_of_mem mem
  exact ⟨l₁, v, l₂, split⟩

namespace Chain

variable {heap heap' : Heap A V} {p : Option A} {l l' l₁ l₂ : List (A × V)} {a b : A} {v w : V}

theorem head_eq (h : Chain heap p l) : p = (cells l).head? := by
  cases l with
  | nil => exact h
  | cons x l => exact h.1

theorem eq_none_iff (h : Chain heap p l) : p = none ↔ l = [] := by
  rw [h.head_eq, List.head?_eq_none_iff, cells, List.map_eq_nil_iff]

/-- Only the cells of the list matter. -/
theorem congr (h : Chain heap p l) (same : ∀ a ∈ cells l, heap' a = heap a) : Chain heap' p l := by
  induction l generalizing p with
  | nil => exact h
  | cons x l ih =>
      obtain ⟨rfl, next, cell, rest⟩ := h
      refine ⟨rfl, next, (same x.1 List.mem_cons_self).trans cell, ih rest fun a ha => ?_⟩
      exact same a (List.mem_cons_of_mem _ ha)

/-- From a cell of the list on, the rest of it is a list. -/
theorem drop (h : Chain heap p (l₁ ++ l₂)) : ∃ q, Chain heap q l₂ := by
  induction l₁ generalizing p with
  | nil => exact ⟨p, h⟩
  | cons x l₁ ih =>
      obtain ⟨-, next, -, rest⟩ := h
      exact ih rest

theorem read (h : Chain heap p (l₁ ++ (a, v) :: l₂)) :
    ∃ next, heap a = some ⟨v, next⟩ ∧ Chain heap next l₂ := by
  obtain ⟨q, -, next, cell, rest⟩ := h.drop
  exact ⟨next, cell, rest⟩

theorem allocated (h : Chain heap p l) (mem : a ∈ cells l) : heap a ≠ none := by
  obtain ⟨l₁, v, l₂, rfl⟩ := exists_split_of_mem_cells mem
  obtain ⟨next, cell, -⟩ := h.read
  rw [cell]
  exact Option.some_ne_none _

theorem unique (h : Chain heap p l) (h' : Chain heap p l') : l = l' := by
  induction l generalizing p l' with
  | nil =>
      cases l' with
      | nil => rfl
      | cons y l' => cases h.symm.trans h'.1
  | cons x l ih =>
      cases l' with
      | nil => cases h.1.symm.trans h'
      | cons y l' =>
          obtain ⟨rfl, next, cell, rest⟩ := h
          obtain ⟨same, next', cell', rest'⟩ := h'
          obtain ⟨a, v⟩ := x
          obtain ⟨a', v'⟩ := y
          obtain rfl : a = a' := Option.some.inj same
          obtain ⟨rfl, rfl⟩ := Node.mk.inj (Option.some.inj (cell.symm.trans cell'))
          rw [ih rest rest']

/-- A list that ends meets no cell twice: from the cell on it would go on in two ways. -/
theorem nodup (h : Chain heap p l) : (cells l).Nodup := by
  induction l generalizing p with
  | nil => exact List.nodup_nil
  | cons x l ih =>
      obtain ⟨a, v⟩ := x
      have whole := h
      obtain ⟨rfl, next, cell, rest⟩ := h
      refine List.nodup_cons.2 ⟨fun again => ?_, ih rest⟩
      obtain ⟨l₁, w, l₂, rfl⟩ := exists_split_of_mem_cells again
      obtain ⟨next', cell', rest'⟩ := rest.read
      have same := (show Chain heap (some a) ((a, w) :: l₂) from ⟨rfl, next', cell', rest'⟩).unique
        whole
      have longer := congrArg List.length same
      simp at longer
      omega

variable [DecidableEq A]

theorem update (h : Chain heap p l) (out : a ∉ cells l) (n : Option (Node A V)) :
    Chain (Function.update heap a n) p l := by
  apply h.congr
  intro b hb
  have ne : b ≠ a := fun e => out (e ▸ hb)
  exact Function.update_of_ne ne _ _

/-- The link of the last cell is set to a cell with a null link. -/
theorem concat (h : Chain heap p (l ++ [(a, v)])) (new : heap b = some ⟨w, none⟩)
    (out : b ∉ cells (l ++ [(a, v)])) :
    Chain (Function.update heap a (some ⟨v, some b⟩)) p (l ++ [(a, v), (b, w)]) := by
  have nodup := h.nodup
  induction l generalizing p with
  | nil =>
      obtain ⟨rfl, -⟩ := h
      have ne : b ≠ a := fun e => out (by simp [e])
      refine ⟨rfl, some b, Function.update_self .., rfl, none, ?_, rfl⟩
      rw [Function.update_of_ne ne]
      exact new
  | cons x l ih =>
      obtain ⟨rfl, next, cell, rest⟩ := h
      rw [List.cons_append, cells_cons, List.nodup_cons] at nodup
      have ne : x.1 ≠ a := fun e => nodup.1 (by simp [e])
      refine ⟨rfl, next, ?_, ih rest (fun mem => out (List.mem_cons_of_mem _ mem)) nodup.2⟩
      rw [Function.update_of_ne ne]
      exact cell

end Chain

/-! ## Cells that threads have for themselves -/

/-- The list, and the cell that each thread holds. -/
structure Separate (heap : Heap A V) (head : Option A) (held : ι → Option A) (l : List (A × V)) :
    Prop where
  chain : Chain heap head l
  allocated : ∀ t a, held t = some a → heap a ≠ none
  off : ∀ t a, held t = some a → a ∉ cells l
  single : ∀ t u a, held t = some a → held u = some a → t = u

/-- No thread has the cell. -/
def Unheld (held : ι → Option A) (a : A) : Prop := ∀ t, held t ≠ some a

namespace Separate

section

variable {heap : Heap A V} {head : Option A} {held : ι → Option A} {l : List (A × V)} {a : A}
  {v : V}

/-- A cell that no thread has becomes the first one. -/
theorem push (h : Separate heap head held l) (cell : heap a = some ⟨v, head⟩)
    (free : Unheld held a) : Separate heap (some a) held ((a, v) :: l) where
  chain := ⟨rfl, head, cell, h.chain⟩
  allocated := h.allocated
  off u b hu mem := by
    rcases List.mem_cons.1 mem with rfl | mem
    · exact free u hu
    · exact h.off u b hu mem
  single := h.single

/-- The first cell is taken off the list. -/
theorem pop (h : Separate heap head held ((a, v) :: l)) :
    ∃ next, head = some a ∧ heap a = some ⟨v, next⟩ ∧ Separate heap next held l ∧ a ∉ cells l ∧
      Unheld held a := by
  obtain ⟨first, next, cell, rest⟩ := h.chain
  have nodup := List.nodup_cons.1 h.chain.nodup
  refine ⟨next, first, cell, ⟨rest, h.allocated, fun u b hu mem => ?_, h.single⟩, nodup.1, ?_⟩
  · exact h.off u b hu (List.mem_cons_of_mem _ mem)
  · exact fun u hu => h.off u a hu List.mem_cons_self

/-- A cell that is not allocated is not on the list, and nobody has it. -/
theorem fresh (h : Separate heap head held l) (ha : heap a = none) : a ∉ cells l ∧ Unheld held a :=
  ⟨fun mem => h.chain.allocated mem ha, fun u hu => h.allocated u a hu ha⟩

variable [DecidableEq ι] {t : ι}

/-- A thread gets a cell that nobody has. -/
theorem hold (h : Separate heap head held l) (here : heap a ≠ none) (out : a ∉ cells l)
    (free : Unheld held a) : Separate heap head (Function.update held t (some a)) l := by
  have cases : ∀ {u b}, Function.update held t (some a) u = some b →
      (u = t ∧ b = a) ∨ (u ≠ t ∧ held u = some b) := by
    intro u b hu
    by_cases e : u = t
    · subst e
      rw [Function.update_self] at hu
      exact Or.inl ⟨rfl, (Option.some.inj hu).symm⟩
    · rw [Function.update_of_ne e] at hu
      exact Or.inr ⟨e, hu⟩
  refine ⟨h.chain, fun u b hu => ?_, fun u b hu => ?_, fun u u' b hu hu' => ?_⟩
  · rcases cases hu with ⟨-, rfl⟩ | ⟨-, hu⟩
    · exact here
    · exact h.allocated u b hu
  · rcases cases hu with ⟨-, rfl⟩ | ⟨-, hu⟩
    · exact out
    · exact h.off u b hu
  · rcases cases hu with ⟨rfl, rfl⟩ | ⟨-, hu⟩ <;> rcases cases hu' with ⟨e, e'⟩ | ⟨-, hu'⟩
    · exact e.symm
    · exact absurd hu' (free u')
    · exact absurd (e' ▸ hu) (free u)
    · exact h.single u u' b hu hu'

/-- A thread no longer has its cell. -/
theorem release (h : Separate heap head held l) :
    Separate heap head (Function.update held t none) l := by
  have before : ∀ {u b}, Function.update held t none u = some b → held u = some b := by
    intro u b hu
    by_cases e : u = t
    · subst e
      rw [Function.update_self] at hu
      cases hu
    · rwa [Function.update_of_ne e] at hu
  exact ⟨h.chain, fun u b hu => h.allocated u b (before hu), fun u b hu => h.off u b (before hu),
    fun u u' b hu hu' => h.single u u' b (before hu) (before hu')⟩

/-- After that, nobody has it. -/
theorem unheld_release (h : Separate heap head held l) (ht : held t = some a) :
    Unheld (Function.update held t none) a := by
  apply (Function.forall_update_iff _ fun _ x => x ≠ some a).2
  exact ⟨Option.some_ne_none a |>.symm, fun u ne hu => ne (h.single u t a hu ht)⟩

end

section

variable [DecidableEq A] {heap : Heap A V} {head : Option A} {held : ι → Option A}
  {l : List (A × V)} {a b : A} {v w : V}

/-- A cell that is not on the list is written or allocated. -/
theorem write (h : Separate heap head held l) (out : a ∉ cells l) (n : Node A V) :
    Separate (Function.update heap a (some n)) head held l where
  chain := h.chain.update out _
  allocated u b hu := by
    by_cases e : b = a
    · rw [e, Function.update_self]
      exact Option.some_ne_none _
    · rw [Function.update_of_ne e]
      exact h.allocated u b hu
  off := h.off
  single := h.single

/-- A cell is freed that is not on the list and that nobody has. -/
theorem free (h : Separate heap head held l) (out : a ∉ cells l) (unheld : Unheld held a) :
    Separate (Function.update heap a none) head held l where
  chain := h.chain.update out _
  allocated u b hu := by
    have ne : b ≠ a := fun e => unheld u (e ▸ hu)
    rw [Function.update_of_ne ne]
    exact h.allocated u b hu
  off := h.off
  single := h.single

/-- A cell that no thread has becomes the last one. -/
theorem concat (h : Separate heap head held (l ++ [(a, v)])) (cell : heap b = some ⟨w, none⟩)
    (out : b ∉ cells (l ++ [(a, v)])) (free : Unheld held b) :
    Separate (Function.update heap a (some ⟨v, some b⟩)) head held (l ++ [(a, v), (b, w)]) where
  chain := h.chain.concat cell out
  allocated u c hu := by
    have ne : c ≠ a := fun e => h.off u c hu (by simp [e])
    rw [Function.update_of_ne ne]
    exact h.allocated u c hu
  off u c hu mem := by
    rw [cells_append, List.mem_append] at mem
    rcases mem with mem | mem
    · exact h.off u c hu (by simp [mem])
    · rcases List.mem_cons.1 mem with rfl | mem
      · exact h.off u _ hu (by simp)
      · obtain rfl : c = b := List.mem_singleton.1 mem
        exact free u hu
  single := h.single

end

end Separate

/-! ## One step of a thread -/

/-- Thread `t` has made `heap'` of the heap and ends with the cell `x` for itself: all is separate
again, and the cells of the other threads are as they were. -/
structure Handled [DecidableEq ι] (held : ι → Option A) (t : ι) (heap heap' : Heap A V)
    (head' x : Option A) (l' : List (A × V)) : Prop where
  separate : Separate heap' head' (Function.update held t x) l'
  others : ∀ u a, u ≠ t → held u = some a → heap' a = heap a

namespace Separate

variable [DecidableEq ι] {heap : Heap A V} {head x : Option A} {held : ι → Option A}
  {l : List (A × V)} {a b : A} {v w : V} {t : ι}

/-- The thread only reads. -/
theorem handled_skip (h : Separate heap head held l) (ht : held t = x) :
    Handled held t heap heap head x l where
  separate := by
    rw [← ht, Function.update_eq_self]
    exact h
  others _ _ _ _ := rfl

/-- Its cell becomes the first one. -/
theorem handled_push (h : Separate heap head held l) (ht : held t = some a)
    (cell : heap a = some ⟨v, head⟩) : Handled held t heap heap (some a) none ((a, v) :: l) where
  separate := h.release.push cell (h.unheld_release ht)
  others _ _ _ _ := rfl

/-- The thread takes the first cell off. -/
theorem handled_pop (h : Separate heap head held ((a, v) :: l)) :
    ∃ next, head = some a ∧ heap a = some ⟨v, next⟩ ∧
      Handled held t heap heap next (some a) l := by
  obtain ⟨next, first, cell, rest, out, unheld⟩ := h.pop
  have allocated := h.chain.allocated (a := a) List.mem_cons_self
  exact ⟨next, first, cell, rest.hold allocated out unheld, fun _ _ _ _ => rfl⟩

variable [DecidableEq A]

/-- The thread is given a cell that was free. -/
theorem handled_malloc (h : Separate heap head held l) (ha : heap a = none) (n : Node A V) :
    Handled held t heap (Function.update heap a (some n)) head (some a) l where
  separate := by
    obtain ⟨out, unheld⟩ := h.fresh ha
    refine (h.write out n).hold ?_ out unheld
    rw [Function.update_self]
    exact Option.some_ne_none _
  others u b _ hu := by
    have ne : b ≠ a := fun e => h.allocated u b hu (e ▸ ha)
    exact Function.update_of_ne ne _ _

omit [DecidableEq ι] in
theorem others_update (h : Separate heap head held l) (ht : held t = some a)
    (n : Option (Node A V)) (u : ι) (b : A) (ne : u ≠ t) (hu : held u = some b) :
    Function.update heap a n b = heap b := by
  apply Function.update_of_ne
  rintro rfl
  exact ne (h.single u t b hu ht)

/-- The thread writes to its cell. -/
theorem handled_write (h : Separate heap head held l) (ht : held t = some a) (n : Node A V) :
    Handled held t heap (Function.update heap a (some n)) head (some a) l where
  separate := by
    rw [← ht, Function.update_eq_self]
    exact h.write (h.off t a ht) n
  others := h.others_update ht _

theorem handled_free (h : Separate heap head held l) (ht : held t = some a) :
    Handled held t heap (Function.update heap a none) head none l where
  separate := h.release.free (h.off t a ht) (h.unheld_release ht)
  others := h.others_update ht _

/-- Its cell becomes the last one. -/
theorem handled_concat (h : Separate heap head held (l ++ [(a, v)])) (ht : held t = some b)
    (cell : heap b = some ⟨w, none⟩) :
    Handled held t heap (Function.update heap a (some ⟨v, some b⟩)) head none
      (l ++ [(a, v), (b, w)]) where
  separate := h.release.concat cell (h.off t b ht) (h.unheld_release ht)
  others u c _ hu := by
    have ne : c ≠ a := fun e => h.off u c hu (by simp [e])
    exact Function.update_of_ne ne _ _

end Separate

end Conc
