import Mathlib.Data.List.Infix
import Mathlib.Data.Nat.ModEq

/-!
# Circular arrays

A list of `m` slots used in a circle keeps a stretch of a history: `Window a m h lo` says that the
values of `h` from position `lo` on are in the slots of `a` at their positions modulo `m`.
-/

namespace Conc

variable {V : Type*}

/-- The slots of `a` hold the values of `h` from `lo` on. -/
def Window (a : List V) (m : ℕ) (h : List V) (lo : ℕ) : Prop :=
  ∀ i, lo ≤ i → i < h.length → a[i % m]? = h[i]?

theorem mod_ne_mod {m i j : ℕ} (hij : i < j) (hj : j < i + m) : i % m ≠ j % m := by
  intro e
  have := Nat.le_of_dvd (by omega) ((Nat.modEq_iff_dvd' hij.le).1 e)
  omega

namespace Window

variable {a : List V} {m lo lo' : ℕ} {h : List V}

/-- While there is a free slot, the next value goes where no kept value is. -/
theorem push (w : Window a m h lo) (ha : a.length = m) (hm : 0 < m) (room : h.length < lo + m)
    (v : V) : Window (a.set (h.length % m) v) m (h ++ [v]) lo := by
  intro i hlo hi
  rw [List.length_append, List.length_singleton] at hi
  have pos : h.length % m < a.length := ha.symm ▸ Nat.mod_lt _ hm
  rcases Nat.lt_succ_iff_lt_or_eq.1 hi with hi | rfl
  · rw [List.getElem?_set_ne (mod_ne_mod hi (by omega)).symm, List.getElem?_append_left hi]
    exact w i hlo hi
  · simp [pos]

theorem mono (w : Window a m h lo) (le : lo ≤ lo') : Window a m h lo' :=
  fun i hlo hi => w i (Nat.le_trans le hlo) hi

theorem pop (w : Window a m h lo) : Window a m h (lo + 1) := w.mono (Nat.le_succ lo)

/-- Behind the stretch a slot is free for anything. -/
theorem set (w : Window a m h lo) {i : ℕ} (behind : i < lo) (room : h.length ≤ i + m) (v : V) :
    Window (a.set (i % m) v) m h lo := by
  intro j hlo hj
  have other : i % m ≠ j % m := mod_ne_mod (by omega) (by omega)
  rw [List.getElem?_set_ne other]
  exact w j hlo hj

end Window

theorem isPrefix_concat {p h : List V} {v : V} (hp : p <+: h) (hv : h[p.length]? = some v) :
    p ++ [v] <+: h := by
  rw [List.prefix_iff_eq_take] at hp ⊢
  rw [List.length_append, List.length_singleton, List.take_add_one, ← hp, hv]
  rfl

end Conc
