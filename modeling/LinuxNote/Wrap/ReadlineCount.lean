import LinuxNote.Wrap.Failure
import LinuxNote.Wrap.Readline

/-!
# What `Readline` returns

The counter of the loop starts at 1.  At a newline it has counted the bytes stored, and at the end
of the stream the return takes the 1 off.  When the buffer is full it is not taken off: `Readline`
returns `maxlen`, one more than the bytes it has stored (`readline_counts_iff`).
-/

namespace LinuxNote.Wrap

open Function

/-- A result other than an error is the number of bytes that come before the NUL, and these are the
next ones of the stream. -/
def Result.Counts (maxlen : BitVec 64) (stream : List UInt8) (r : Result) : Prop :=
  0 ≤ r.ret → ∃ line, line <+: stream ∧ r.stored = line ++ [0] ∧ r.ret = line.length ∧
    r.ret ≤ maxlen.toNat - 1

/-- A `read` fails before `m` bytes have been handed out or the stream has ended. -/
def Reader.FailsBefore (m : ℕ) (r : Reader) : Prop :=
  r.desc.FailsBefore bufSize (m - r.ahead.length)

/-- Within the bytes that fit there is a newline, or the stream ends, or a `read` fails. -/
def Reader.Ends (left : ℕ) (r : Reader) : Prop :=
  newline ∈ r.rest.take left ∨ r.rest.length < left ∨ r.FailsBefore left

/-- The process after calls on `fd`. -/
def afterReadlines (fd : ℕ) (maxlens : List (BitVec 64)) (w : World) : World :=
  maxlens.foldl (fun w maxlen => (readline fd maxlen w).2) w

/-! ## One byte -/

/-- The stream has ended, or the call has failed, or it hands out the next byte. -/
theorem Reader.get_cases (r : Reader) :
    (∃ r', r.get = (.zero, r') ∧ r.rest = []) ∨
      (∃ r', r.get = (.minusOne, r') ∧ ∀ m, r.FailsBefore (m + 1)) ∨
      ∃ c r', r.get = (.one c, r') ∧ r.rest = c :: r'.rest ∧
        ∀ m, r.FailsBefore (m + 1) ↔ r'.FailsBefore m := by
  obtain ⟨ahead, d⟩ := r
  cases ahead with
  | cons c ahead =>
      refine Or.inr (Or.inr ⟨c, ⟨ahead, d⟩, rfl, rfl, fun m => ?_⟩)
      rw [FailsBefore, FailsBefore, List.length_cons, Nat.add_sub_add_right]
  | nil =>
      have asks : 0 < bufSize := by decide
      cases again : d.again bufSize with
      | mk res d' =>
          rcases res with (_ | ⟨c, ahead⟩) | errno
          · have ended : d.data = [] := (Desc.again_bytes asks again).progress rfl
            exact Or.inl ⟨⟨[], d'⟩, by simp only [get, again], ended⟩
          · have piece := Desc.again_bytes asks again
            refine Or.inr (Or.inr ⟨c, ⟨ahead, d'⟩, by simp only [get, again], ?_, fun m => ?_⟩)
            · exact piece.stream.symm
            · rw [FailsBefore, FailsBefore, Desc.failsBefore_again_bytes asks again,
                List.length_cons, List.length_nil, Nat.sub_zero, Nat.add_sub_add_right]
              exact and_iff_right (List.cons_ne_nil c ahead)
          · refine Or.inr (Or.inl ⟨⟨[], d'⟩, by simp only [get, again], fun m => ?_⟩)
            exact Desc.failsBefore_again_error (Nat.succ_pos m) again

/-! ## The loop -/

/-- The loop that starts with `n` at `stored` and is not cut short. -/
def Result.Counted (left : ℕ) (n : ℤ) (stored rest : List UInt8) (res : Result) : Prop :=
  0 ≤ res.ret → ∃ line, line <+: rest ∧ line.length ≤ left ∧
    res.stored = stored ++ line ++ [0] ∧ res.ret = n - 1 + line.length

theorem Result.Counted.cons {left : ℕ} {n : ℤ} {stored rest : List UInt8} {c : UInt8}
    {res : Result} (h : res.Counted left (n + 1) (stored ++ [c]) rest) :
    res.Counted (left + 1) n stored (c :: rest) := by
  intro ok
  obtain ⟨line, sub, short, bytes, ret⟩ := h ok
  refine ⟨c :: line, List.cons_prefix_cons.2 ⟨rfl, sub⟩, Nat.succ_le_succ short, ?_, ?_⟩
  · rw [bytes, List.append_assoc stored, List.singleton_append]
  · rw [ret, List.length_cons]
    omega

theorem Reader.not_ends_zero (r : Reader) : ¬ r.Ends 0 := by
  rintro (h | h | h)
  · simp at h
  · exact absurd h (Nat.not_lt_zero _)
  · rw [FailsBefore, Nat.zero_sub] at h
    exact Desc.not_failsBefore_zero h

/-- The loop counts what it stores unless the buffer fills up. -/
theorem Reader.readlineLoop_counted (left : ℕ) (n : ℤ) (stored : List UInt8) (r : Reader) :
    (r.Ends left → (readlineLoop get left n stored r).1.Counted left n stored r.rest) ∧
      (¬ r.Ends left → left ≤ r.rest.length ∧
        (readlineLoop get left n stored r).1 = ⟨n + left, stored ++ r.rest.take left ++ [0]⟩) := by
  induction left generalizing n stored r with
  | zero =>
      refine ⟨fun h => absurd h r.not_ends_zero, fun _ => ⟨Nat.zero_le _, ?_⟩⟩
      simp [readlineLoop]
  | succ left ih =>
      rcases r.get_cases with ⟨r', eq, ended⟩ | ⟨r', eq, fails⟩ | ⟨c, r', eq, rest, fails⟩
      · have ends : r.Ends (left + 1) := by
          refine Or.inr (Or.inl ?_)
          rw [ended]
          exact Nat.succ_pos left
        refine ⟨fun _ _ => ⟨[], List.nil_prefix, Nat.zero_le _, ?_, ?_⟩, fun h => absurd ends h⟩
        · simp [readlineLoop, eq]
        · simp [readlineLoop, eq]
      · have ends : r.Ends (left + 1) := Or.inr (Or.inr (fails left))
        refine ⟨fun _ ok => absurd ok ?_, fun h => absurd ends h⟩
        simp [readlineLoop, eq]
      · by_cases hc : c = newline
        · have ends : r.Ends (left + 1) := by
            refine Or.inl ?_
            rw [rest, hc, List.take_succ_cons]
            exact List.mem_cons_self
          refine ⟨fun _ _ => ⟨[c], ?_, by simp, ?_, ?_⟩, fun h => absurd ends h⟩
          · rw [rest]
            exact ⟨r'.rest, rfl⟩
          · simp [readlineLoop, eq, hc]
          · simp [readlineLoop, eq, hc]
        · have same : r.Ends (left + 1) ↔ r'.Ends left := by
            rw [Ends, Ends, rest, fails, List.take_succ_cons, List.mem_cons, List.length_cons,
              Nat.add_lt_add_iff_right]
            simp [Ne.symm hc]
          have loop : readlineLoop get (left + 1) n stored r =
              readlineLoop get left (n + 1) (stored ++ [c]) r' := by
            simp [readlineLoop, eq, hc]
          obtain ⟨counted, full⟩ := ih (n + 1) (stored ++ [c]) r'
          rw [same, loop, rest]
          refine ⟨fun ends => (counted ends).cons, fun h => ?_⟩
          obtain ⟨long, result⟩ := full h
          refine ⟨Nat.succ_le_succ long, ?_⟩
          rw [result, List.take_succ_cons]
          simp
          omega

/-! ## The calls -/

theorem rounds_le {maxlen : BitVec 64} (some : rounds maxlen ≠ 0) :
    (rounds maxlen : ℤ) ≤ maxlen.toNat - 1 := by
  rw [rounds] at some ⊢
  have : maxlen.toInt ≤ maxlen.toNat := by
    rw [BitVec.toInt_eq_toNat_cond]
    split <;> omega
  omega

theorem Reader.counts_iff (maxlen : BitVec 64) (r : Reader) :
    (r.readline maxlen).1.Counts maxlen r.rest ↔ r.Ends (rounds maxlen) := by
  obtain ⟨counted, full⟩ := readlineLoop_counted (rounds maxlen) 1 [] r
  constructor
  · intro counts
    by_contra endless
    obtain ⟨long, result⟩ := full endless
    rw [readline, result] at counts
    have positive : (0 : ℤ) ≤ 1 + rounds maxlen := by omega
    obtain ⟨line, -, bytes, ret, -⟩ := counts positive
    dsimp only at ret
    have filled : r.rest.take (rounds maxlen) = line := (List.append_left_inj [0]).1 bytes
    rw [← filled, List.length_take, Nat.min_eq_left long] at ret
    -- The counter is one ahead of the bytes.
    omega
  · intro ends ok
    obtain ⟨line, sub, short, bytes, ret⟩ := counted ends ok
    have some : rounds maxlen ≠ 0 := fun none => r.not_ends_zero (none ▸ ends)
    have bound := rounds_le some
    refine ⟨line, sub, bytes, ?_, ?_⟩
    · rw [readline, ret]
      omega
    · rw [readline, ret]
      omega

theorem refines_afterReadlines {fd : ℕ} {rs : ℕ → Reader} (maxlens : List (BitVec 64)) {w : World}
    {r : Reader} (h : Refines fd rs w r) :
    ∃ r', Refines fd rs (afterReadlines fd maxlens w) r' := by
  induction maxlens generalizing w r with
  | nil => exact ⟨r, h⟩
  | cons maxlen maxlens ih => exact ih (h.readline maxlen).2

/-- After any calls on the descriptor, the next one counts what it has stored if and only if a
newline, the end of the stream or a failure comes before the buffer is full. -/
theorem readline_counts_iff (files : ℕ → Desc) (fd : ℕ) (earlier : List (BitVec 64))
    (maxlen : BitVec 64) :
    (readline fd maxlen (afterReadlines fd earlier (world files))).1.Counts maxlen
        ((afterReadlines fd earlier (world files)).reader fd).rest ↔
      ((afterReadlines fd earlier (world files)).reader fd).Ends (rounds maxlen) := by
  have start := refines_reader (world_sound files) (Or.inl (Int.le_refl 0) : World.Owns _ fd)
  obtain ⟨r, refines⟩ := refines_afterReadlines earlier start
  obtain rfl : (afterReadlines fd earlier (world files)).reader fd = r := by
    rw [refines.reader, update_self]
  rw [(refines.readline maxlen).1]
  exact Reader.counts_iff maxlen _

/-- Two bytes fill a buffer of three, and 3 is returned. -/
theorem not_counts_full :
    (readline 0 3 (world fun _ => ⟨[97, 98, 99], []⟩)).1 = ⟨3, [97, 98, 0]⟩ ∧
      ¬ (readline 0 3 (world fun _ => ⟨[97, 98, 99], []⟩)).1.Counts 3 [97, 98, 99] := by
  have run : (readline 0 3 (world fun _ => ⟨[97, 98, 99], []⟩)).1 = ⟨3, [97, 98, 0]⟩ := by decide
  refine ⟨run, fun counts => ?_⟩
  rw [run] at counts
  obtain ⟨line, -, -, -, bound⟩ := counts (by decide)
  exact absurd bound (by decide)

end LinuxNote.Wrap
