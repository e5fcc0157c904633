import Mathlib.Data.List.Infix

/-!
# Paths and their lexical resolution

A directory is the list of its names from the root on.  A path is a list of moves in such a
directory (`moves`), and `follow` makes them one after the other.  Moves that cancel can be left out
before one knows where the path starts: its `Route` is a number of steps up and then names
(`follow_eq`).
-/

namespace Text

/-- A component of a path. -/
inductive Move (α : Type*)
  | stay
  | up
  | down (name : α)

/-- A route goes up and then down. -/
structure Route (α : Type*) where
  ups : ℕ
  names : List α

section

variable {α : Type*}

/-- The root is its own parent. -/
def Move.go (dir : List α) : Move α → List α
  | .stay => dir
  | .up => dir.dropLast
  | .down a => dir ++ [a]

def follow (dir : List α) (ms : List (Move α)) : List α := ms.foldl Move.go dir

/-- One more move. -/
def Route.add : Route α → Move α → Route α
  | r, .stay => r
  | ⟨ups, []⟩, .up => ⟨ups + 1, []⟩
  | ⟨ups, a :: names⟩, .up => ⟨ups, (a :: names).dropLast⟩
  | ⟨ups, names⟩, .down b => ⟨ups, names ++ [b]⟩

def route (ms : List (Move α)) : Route α := ms.foldl Route.add ⟨0, []⟩

/-- Where a route leads from a directory. -/
def Route.dest (dir : List α) (r : Route α) : List α := dir.take (dir.length - r.ups) ++ r.names

theorem dest_add (dir : List α) (r : Route α) (m : Move α) :
    (r.add m).dest dir = m.go (r.dest dir) := by
  obtain ⟨ups, names⟩ := r
  cases m with
  | stay => rfl
  | up =>
      cases names with
      | nil =>
          show dir.take (dir.length - (ups + 1)) ++ [] =
            (dir.take (dir.length - ups) ++ []).dropLast
          rw [List.append_nil, List.append_nil, List.dropLast_eq_take, List.take_take,
            List.length_take]
          congr 1
          omega
      | cons a names => exact (List.dropLast_append_of_ne_nil (List.cons_ne_nil a names)).symm
  | down b => exact (List.append_assoc _ names [b]).symm

/-- Following a path is following its route. -/
theorem follow_eq (dir : List α) (ms : List (Move α)) : follow dir ms = (route ms).dest dir := by
  have key : ∀ r : Route α, ms.foldl Move.go (r.dest dir) = (ms.foldl Route.add r).dest dir := by
    induction ms with
    | nil => exact fun r => rfl
    | cons m ms ih =>
        intro r
        rw [List.foldl_cons, List.foldl_cons, ← dest_add, ih]
  have start : (⟨0, []⟩ : Route α).dest dir = dir := by
    rw [Route.dest, Nat.sub_zero, List.take_length, List.append_nil]
  have whole := key ⟨0, []⟩
  rwa [start] at whole

theorem follow_append (dir : List α) (ms ms' : List (Move α)) :
    follow dir (ms ++ ms') = follow (follow dir ms) ms' := List.foldl_append

end

/-! ## Paths as strings -/

def slash : UInt8 := 47

/-- Empty components and `.` stay, `..` goes up. -/
def Move.ofComponent (c : List UInt8) : Move (List UInt8) :=
  if c = [] ∨ c = [46] then .stay else if c = [46, 46] then .up else .down c

def moves (path : List UInt8) : List (Move (List UInt8)) :=
  (path.splitOn slash).map Move.ofComponent

theorem moves_append (path path' : List UInt8) :
    moves (path ++ slash :: path') = moves path ++ moves path' := by
  rw [moves, List.splitOn_append_cons_self, List.map_append]
  rfl

end Text
