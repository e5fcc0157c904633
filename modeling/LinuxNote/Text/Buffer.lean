import Mathlib.Data.List.Infix
import Mathlib.Data.List.TakeWhile

/-!
# Character arrays

An array of bytes that calls store into from its start (`overlay`), and that is read as a string up
to its first NUL (`str`); without NUL the string would run over the end of the array, and there is
no result.  A mark that is `Unbordered` is found behind text that does not have it
(`dropInfix?_append`).

`skipWhile`, `moveWhile` and `copyWhile` are the loops of hand-written parsers, an index at a time;
`Ahead` says what lies before such a loop, and with it the loops are `takeWhile` and `dropWhile`.
-/

namespace Text

/-- The array after a call has stored `bs` at its start. -/
def overlay (bs buf : List UInt8) : List UInt8 := bs ++ buf.drop bs.length

/-- The bytes before the first NUL. -/
def text (buf : List UInt8) : List UInt8 := buf.takeWhile (· ≠ 0)

/-- The string at the start of an array. -/
def str (buf : List UInt8) : Option (List UInt8) := if 0 ∈ buf then some (text buf) else none

/-- The bytes of an ASCII literal. -/
def bytes (s : String) : List UInt8 := s.toList.map fun c => c.val.toUInt8

/-- `sprintf` into an array: no result where text and NUL do not fit. -/
def sprintf (s buf : List UInt8) : Option (List UInt8) :=
  if s.length < buf.length then some (overlay (s ++ [0]) buf) else none

variable {bs s buf : List UInt8}

theorem noNul_text (s : List UInt8) : 0 ∉ text s := fun mem => by
  simpa using List.mem_takeWhile_imp mem

theorem text_append (h : 0 ∉ s) (buf : List UInt8) : text (s ++ buf) = s ++ text buf :=
  List.takeWhile_append_of_pos fun c hc => by simpa using fun e : c = 0 => h (e ▸ hc)

theorem text_eq (h : 0 ∉ s) : text s = s := by
  simpa [text] using text_append h []

theorem text_eq_iff : text s = s ↔ 0 ∉ s := ⟨fun h => h ▸ noNul_text s, text_eq⟩

theorem length_text_le (s : List UInt8) : (text s).length ≤ s.length :=
  (List.takeWhile_sublist _).length_le

theorem text_append_zero (s rest : List UInt8) : text (s ++ 0 :: rest) = text s := by
  induction s with
  | nil => rfl
  | cons c s ih =>
      unfold text at *
      by_cases hc : c = 0
      · simp [hc]
      · simpa [hc] using ih

theorem str_append_zero (s rest : List UInt8) : str (s ++ 0 :: rest) = some (text s) := by
  rw [str, if_pos (by simp), text_append_zero]

theorem str_append (h : 0 ∉ s) (rest : List UInt8) : str (s ++ 0 :: rest) = some s := by
  rw [str_append_zero, text_eq h]

/-- A string begins with the bytes before the first NUL. -/
theorem prefix_of_str (h : 0 ∉ s) {t : List UInt8} (ht : str (s ++ buf) = some t) : s <+: t := by
  obtain ⟨-, eq⟩ := Option.ite_none_right_eq_some.1 ht
  rw [text_append h, Option.some.injEq] at eq
  exact ⟨_, eq⟩

theorem overlay_append (h : bs.length ≤ s.length) (rest : List UInt8) :
    overlay bs (s ++ rest) = bs ++ s.drop bs.length ++ rest := by
  rw [overlay, List.drop_append_of_le_length h, List.append_assoc]

theorem length_overlay (h : bs.length ≤ buf.length) : (overlay bs buf).length = buf.length := by
  rw [overlay, List.length_append, List.length_drop]
  omega

theorem overlay_eq_left (h : buf.length ≤ bs.length) : overlay bs buf = bs := by
  rw [overlay, List.drop_eq_nil_of_le h, List.append_nil]

/-- Behind what was stored. -/
theorem getElem?_overlay {i : ℕ} (h : bs.length ≤ i) : (overlay bs buf)[i]? = buf[i]? := by
  rw [overlay, List.getElem?_append_right h, List.getElem?_drop]
  congr 1
  omega

/-- A store before `n` does not change what is from `n` on. -/
theorem drop_overlay {n : ℕ} (h : bs.length ≤ n) : (overlay bs buf).drop n = buf.drop n := by
  rw [overlay, List.drop_append, List.drop_eq_nil_of_le h, List.nil_append, List.drop_drop]
  congr 1
  omega

/-- The same store into arrays that agree from `n` on. -/
theorem drop_overlay_congr {n : ℕ} {buf' : List UInt8} (h : buf.drop n = buf'.drop n) :
    (overlay bs buf).drop n = (overlay bs buf').drop n := by
  have rest : ∀ b : List UInt8,
      (b.drop bs.length).drop (n - bs.length) = (b.drop n).drop (bs.length - n) := by
    intro b
    rw [List.drop_drop, List.drop_drop]
    congr 1
    omega
  rw [overlay, overlay, List.drop_append, List.drop_append, rest, rest, h]

theorem overlay_congr {buf' : List UInt8}
    (h : buf.drop bs.length = buf'.drop bs.length) : overlay bs buf = overlay bs buf' := by
  rw [overlay, overlay, h]

theorem str_overlay (s buf : List UInt8) : str (overlay (s ++ [0]) buf) = some (text s) := by
  rw [overlay, List.append_assoc]
  exact str_append_zero s _

theorem length_of_sprintf {buf' : List UInt8} (h : sprintf s buf = some buf') :
    buf'.length = buf.length := by
  obtain ⟨fits, h⟩ := Option.ite_none_right_eq_some.1 h
  rw [← Option.some.inj h]
  refine length_overlay ?_
  rw [List.length_append]
  exact fits

/-- The NUL that ends what was stored. -/
theorem overlay_set (h : s.length < buf.length) :
    (overlay s buf).set s.length 0 = overlay (s ++ [0]) buf := by
  have more : buf.drop s.length = buf[s.length] :: buf.drop (s.length + 1) :=
    List.drop_eq_getElem_cons h
  rw [overlay, overlay, more, List.set_append_right _ _ (Nat.le_refl _), Nat.sub_self,
    List.set_cons_zero, List.length_append, List.append_assoc]
  rfl

theorem text_overlay (h : 0 ∉ s) (buf : List UInt8) : text (overlay (s ++ [0]) buf) = s := by
  rw [overlay, List.append_assoc, List.singleton_append, text_append_zero, text_eq h]

/-! ## Marks -/

/-- No end of `mark` begins it again. -/
def Unbordered (mark : List UInt8) : Prop := ∀ t ∈ mark.inits, t <:+ mark → t = [] ∨ t = mark

instance (mark : List UInt8) : Decidable (Unbordered mark) :=
  inferInstanceAs (Decidable (∀ t ∈ mark.inits, t <:+ mark → t = [] ∨ t = mark))

variable {mark : List UInt8}

theorem dropInfix?_eq_none (no : ¬ mark <:+: s) : s.dropInfix? mark = none := by
  rw [Option.eq_none_iff_forall_ne_some]
  rintro ⟨before, after⟩ h
  obtain ⟨⟨mark', eq, same⟩, -⟩ := List.dropInfix?_eq_some_iff.1 h
  obtain rfl : mark' = mark := eq_of_beq same
  exact no ⟨before, after, eq.symm⟩

/-- The first `mark` is the one behind text without it. -/
theorem dropInfix?_append (h : Unbordered mark) (no : ¬ mark <:+: s) (rest : List UInt8) :
    (s ++ mark ++ rest).dropInfix? mark = some (s, rest) := by
  refine List.dropInfix?_eq_some_iff.2 ⟨⟨mark, rfl, beq_self_eq_true mark⟩, ?_⟩
  intro before mark' after eq same
  obtain rfl : mark' = mark := eq_of_beq same
  by_contra early
  -- an earlier one would reach from `s` into the mark
  rw [List.append_assoc, List.append_assoc] at eq
  rcases List.append_eq_append_iff.1 eq with ⟨u, long, -⟩ | ⟨u, rfl, tail⟩
  · rw [long, List.length_append] at early
    omega
  · rcases List.append_eq_append_iff.1 tail with ⟨t, eq, -⟩ | ⟨t, eq, both⟩
    · exact no ⟨before, t, by rw [eq, List.append_assoc]⟩
    · have suffix : t <:+ mark' := ⟨u, eq.symm⟩
      have begins : t <+: mark' :=
        List.prefix_of_prefix_length_le ⟨after, both.symm⟩ ⟨rest, rfl⟩ suffix.length_le
      rcases h t ((List.mem_inits _ _).2 begins) suffix with rfl | rfl
      · exact no ⟨before, [], by rw [eq, List.append_nil, List.append_nil]⟩
      · obtain rfl : u = [] := List.self_eq_append_left.1 eq
        simp at early

/-! ## Loops -/

/-- `while (left > 0 && p(buf[i])) i++` with `left` bytes to go. -/
def skipWhile (p : UInt8 → Bool) (buf : List UInt8) : ℕ → ℕ → ℕ
  | 0, i => i
  | left + 1, i => if p (buf.getD i 0) then skipWhile p buf left (i + 1) else i

/-- `while (left > 0 && p(buf[i])) buf[j++] = buf[i++]`: the indices and the array after it. -/
def moveWhile (p : UInt8 → Bool) : ℕ → ℕ → ℕ → List UInt8 → ℕ × ℕ × List UInt8
  | 0, i, j, buf => (i, j, buf)
  | left + 1, i, j, buf =>
      if p (buf.getD i 0) then moveWhile p left (i + 1) (j + 1) (buf.set j (buf.getD i 0))
      else (i, j, buf)

/-- `while (left > 0 && p(src[i])) dst[j++] = src[i++]`: the index and the array after it. -/
def copyWhile (p : UInt8 → Bool) (src : List UInt8) : ℕ → ℕ → ℕ → List UInt8 → ℕ × List UInt8
  | 0, _, j, dst => (j, dst)
  | left + 1, i, j, dst =>
      if p (src.getD i 0) then copyWhile p src left (i + 1) (j + 1) (dst.set j (src.getD i 0))
      else (j, dst)

/-- A store at `j`, and `seg` behind it. -/
theorem set_append {j : ℕ} (h : j < buf.length) (c : UInt8) (seg : List UInt8) :
    (buf.set j c).take (j + 1) ++ seg ++ (buf.set j c).drop (j + 1 + seg.length) =
      buf.take j ++ c :: seg ++ buf.drop (j + (c :: seg).length) := by
  have front : (buf.set j c).take (j + 1) = buf.take j ++ [c] := by
    rw [List.take_add_one, List.getElem?_set_self h, List.take_set_of_le (Nat.le_refl j)]
    rfl
  have back : (buf.set j c).drop (j + 1 + seg.length) = buf.drop (j + 1 + seg.length) := by
    rw [List.drop_set, if_pos (by omega)]
  rw [front, back, List.length_cons, List.append_assoc (buf.take j), Nat.add_right_comm j 1,
    Nat.add_assoc j]
  rfl

/-- The first `n` bytes of the array are `rest` from `i` on. -/
structure Ahead (buf : List UInt8) (n i : ℕ) (rest : List UInt8) : Prop where
  eq : (buf.take n).drop i = rest
  count : i + rest.length = n

namespace Ahead

variable {n i j : ℕ} {c : UInt8} {rest : List UInt8} {p : UInt8 → Bool}

theorem head (h : Ahead buf n i (c :: rest)) : buf.getD i 0 = c := by
  have lt : i < n := by
    have := h.count
    rw [List.length_cons] at this
    omega
  have := congrArg List.head? h.eq
  rw [List.head?_drop, List.getElem?_take_of_lt lt] at this
  rw [List.getD_eq_getElem?_getD, this]
  rfl

theorem tail (h : Ahead buf n i (c :: rest)) : Ahead buf n (i + 1) rest where
  eq := by
    rw [← List.drop_drop, h.eq]
    rfl
  count := by
    have := h.count
    rw [List.length_cons] at this
    omega

theorem left (h : Ahead buf n i rest) : n - i = rest.length := by
  have := h.count
  omega

theorem skipWhile (h : Ahead buf n i rest) :
    Text.skipWhile p buf (n - i) i = i + (rest.takeWhile p).length ∧
      Ahead buf n (Text.skipWhile p buf (n - i) i) (rest.dropWhile p) := by
  rw [h.left]
  induction rest generalizing i with
  | nil => exact ⟨rfl, h⟩
  | cons c rest ih =>
      rw [List.length_cons, Text.skipWhile, h.head]
      by_cases hc : p c
      · obtain ⟨index, ahead⟩ := ih h.tail
        rw [if_pos hc, List.takeWhile_cons_of_pos hc, List.dropWhile_cons_of_pos hc]
        refine ⟨index.trans ?_, ahead⟩
        rw [List.length_cons]
        omega
      · rw [if_neg hc, List.takeWhile_cons_of_neg hc, List.dropWhile_cons_of_neg hc]
        exact ⟨rfl, h⟩

/-- The bytes that a loop has taken are no longer ahead. -/
theorem drop (h : Ahead buf n i rest) (p : UInt8 → Bool) :
    Ahead buf n (i + (rest.takeWhile p).length) (rest.dropWhile p) :=
  h.skipWhile.1 ▸ h.skipWhile.2

/-- What is stored before `i` does not change what lies ahead. -/
theorem overlay (h : Ahead buf n i rest) (le : bs.length ≤ i) :
    Ahead (Text.overlay bs buf) n i rest where
  eq := by
    rw [← h.eq, List.drop_take, List.drop_take, Text.overlay, List.drop_append,
      List.drop_eq_nil_of_le le, List.drop_drop, List.nil_append]
    congr 2
    omega
  count := h.count

/-- Stores before `i` do not change what lies ahead. -/
theorem set (h : Ahead buf n i rest) (lt : j < i) (v : UInt8) : Ahead (buf.set j v) n i rest where
  eq := by
    rw [← h.eq, List.take_set, List.drop_set, if_pos lt]
  count := h.count

theorem lt_length (h : Ahead buf n i (c :: rest)) : i < buf.length := by
  have := congrArg List.length h.eq
  rw [List.length_drop, List.length_take, List.length_cons] at this
  omega

theorem moveWhile (h : Ahead buf n i rest) (lt : j < i) :
    Text.moveWhile p (n - i) i j buf =
      (i + (rest.takeWhile p).length, j + (rest.takeWhile p).length,
        buf.take j ++ rest.takeWhile p ++ buf.drop (j + (rest.takeWhile p).length)) := by
  rw [h.left]
  induction rest generalizing i j buf with
  | nil => simp [Text.moveWhile]
  | cons c rest ih =>
      have inside : j < buf.length := lt.trans h.lt_length
      rw [List.length_cons, Text.moveWhile, h.head]
      by_cases hc : p c
      · rw [if_pos hc, ih (h.tail.set (by omega) c) (by omega), List.takeWhile_cons_of_pos hc]
        rw [set_append inside, List.length_cons]
        simp only [Nat.add_right_comm, Nat.add_assoc]
      · rw [if_neg hc, List.takeWhile_cons_of_neg hc]
        simp

theorem copyWhile (h : Ahead buf n i rest) {dst : List UInt8}
    (fits : j + rest.length ≤ dst.length) :
    Text.copyWhile p buf (n - i) i j dst =
      (j + (rest.takeWhile p).length,
        dst.take j ++ rest.takeWhile p ++ dst.drop (j + (rest.takeWhile p).length)) := by
  rw [h.left]
  induction rest generalizing i j dst with
  | nil => simp [Text.copyWhile]
  | cons c rest ih =>
      rw [List.length_cons] at fits
      have inside : j < dst.length := by omega
      rw [List.length_cons, Text.copyWhile, h.head]
      by_cases hc : p c
      · rw [if_pos hc, ih h.tail (by rw [List.length_set]; omega), List.takeWhile_cons_of_pos hc]
        rw [set_append inside, List.length_cons, Nat.add_right_comm, Nat.add_assoc]
      · rw [if_neg hc, List.takeWhile_cons_of_neg hc]
        simp

/-- A word is moved to the start of the array it lies in. -/
theorem moveWord (h : Ahead buf n i rest) (pos : 0 < i) :
    Text.moveWhile p (n - i) i 0 buf =
      (i + (rest.takeWhile p).length, (rest.takeWhile p).length,
        Text.overlay (rest.takeWhile p) buf) := by
  rw [h.moveWhile pos, Nat.zero_add]
  rfl

/-- A word is copied to the start of another array. -/
theorem copyWord (h : Ahead buf n i rest) {dst : List UInt8} (fits : rest.length ≤ dst.length) :
    Text.copyWhile p buf (n - i) i 0 dst =
      ((rest.takeWhile p).length, Text.overlay (rest.takeWhile p) dst) := by
  rw [h.copyWhile (by omega), Nat.zero_add]
  rfl

end Ahead

end Text
