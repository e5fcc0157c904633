import LinuxNote.Web.Server

/-!
# Splitting the request in place

The parser of `server` once more, with every access to `buf` and `http` written down.  The path is
moved to the start of the array it is read from: `Sound` says that the stores stay behind the reads,
which is why nothing is lost, and why what lies beyond the request does not matter (`Same`).
-/

namespace LinuxNote.Web

open Text

/-- An access to `buf`, or a store into `http`. -/
inductive Touch
  | read (k : ℕ)
  | write (k : ℕ)
  | http (k : ℕ)
  deriving DecidableEq

def Touch.index : Touch → ℕ
  | .read k => k
  | .write k => k
  | .http k => k

/-- The variables of the parser with the accesses that it has made. -/
structure Scanner where
  i : ℕ
  j : ℕ
  buf : List UInt8
  http : List UInt8
  log : List Touch
  deriving DecidableEq

namespace Scanner

/-- `buf[i]` -/
def char (s : Scanner) : UInt8 := s.buf.getD s.i 0

/-- `buf[i]` is read. -/
def look (s : Scanner) : Scanner := { s with log := s.log ++ [.read s.i] }

/-- `i++` -/
def next (s : Scanner) : Scanner := { s with i := s.i + 1 }

/-- `i++` and `j++` -/
def both (s : Scanner) : Scanner := { s with i := s.i + 1, j := s.j + 1 }

/-- `buf[j] = c` -/
def store (c : UInt8) (s : Scanner) : Scanner :=
  { s with buf := s.buf.set s.j c, log := s.log ++ [.write s.j] }

/-- `http[j] = c` -/
def storeHttp (c : UInt8) (s : Scanner) : Scanner :=
  { s with http := s.http.set s.j c, log := s.log ++ [.http s.j] }

/-- `j = 0` -/
def restart (s : Scanner) : Scanner := { s with j := 0 }

/-- `for (; i < n && p(buf[i]); ) i++;` with `left` bytes before `n`. -/
def skip (p : UInt8 → Bool) : ℕ → Scanner → Scanner
  | 0, s => s
  | left + 1, s => if p s.char then skip p left s.look.next else s.look

/-- `for (; i < n && p(buf[i]); ) buf[j++] = buf[i++];` -/
def move (p : UInt8 → Bool) : ℕ → Scanner → Scanner
  | 0, s => s
  | left + 1, s => if p s.char then move p left (s.look.look.store s.char).both else s.look

/-- `for (; i < n && p(buf[i]); ) http[j++] = buf[i++];` -/
def copy (p : UInt8 → Bool) : ℕ → Scanner → Scanner
  | 0, s => s
  | left + 1, s => if p s.char then copy p left (s.look.look.storeHttp s.char).both else s.look

/-- Behind the test for `GET`. -/
def start (l : Locals) : Scanner := ⟨3, 0, l.buf, l.http, [.read 0, .read 1, .read 2]⟩

/-- The first two loops, which leave the path. -/
def path (n : ℕ) (s : Scanner) : Scanner :=
  let s := s.skip (· = 32) (n - s.i)
  (s.move (· ≠ 32) (n - s.i)).store 0

/-- The other two, which leave the version. -/
def version (n : ℕ) (s : Scanner) : Scanner :=
  let s := (s.skip (· = 32) (n - s.i)).restart
  (s.copy (fun c => !Shell.isspace c) (n - s.i)).storeHttp 0

/-- The parser on `n` bytes. -/
def run (n : ℕ) (l : Locals) : Scanner := ((start l).path n).version n

/-! ## Result -/

variable {p : UInt8 → Bool} {left : ℕ} {s s' : Scanner}

/-- The variables without the log. -/
def vars (s : Scanner) : ℕ × ℕ × List UInt8 × List UInt8 := (s.i, s.j, s.buf, s.http)

theorem vars_skip : (s.skip p left).vars = (skipWhile p s.buf left s.i, s.j, s.buf, s.http) := by
  induction left generalizing s with
  | zero => rfl
  | succ left ih =>
      rw [skip, skipWhile]
      by_cases hc : p s.char
      · rw [if_pos hc, if_pos (show p (s.buf.getD s.i 0) from hc), ih]
        rfl
      · rw [if_neg hc, if_neg (show ¬ p (s.buf.getD s.i 0) from hc)]
        rfl

theorem vars_move : (s.move p left).vars =
    ((moveWhile p left s.i s.j s.buf).1, (moveWhile p left s.i s.j s.buf).2.1,
      (moveWhile p left s.i s.j s.buf).2.2, s.http) := by
  induction left generalizing s with
  | zero => rfl
  | succ left ih =>
      rw [move, moveWhile]
      by_cases hc : p s.char
      · rw [if_pos hc, if_pos (show p (s.buf.getD s.i 0) from hc), ih]
        rfl
      · rw [if_neg hc, if_neg (show ¬ p (s.buf.getD s.i 0) from hc)]
        rfl

/-- The index of the input after this loop is not used any more. -/
theorem vars_copy : (s.copy p left).vars.2 =
    ((copyWhile p s.buf left s.i s.j s.http).1, s.buf,
      (copyWhile p s.buf left s.i s.j s.http).2) := by
  induction left generalizing s with
  | zero => rfl
  | succ left ih =>
      rw [copy, copyWhile]
      by_cases hc : p s.char
      · rw [if_pos hc, if_pos (show p (s.buf.getD s.i 0) from hc), ih]
        rfl
      · rw [if_neg hc, if_neg (show ¬ p (s.buf.getD s.i 0) from hc)]
        rfl

section

variable (p : UInt8 → Bool) (left : ℕ) (s : Scanner)

@[simp] theorem skip_i : (s.skip p left).i = skipWhile p s.buf left s.i :=
  congrArg (·.1) vars_skip

@[simp] theorem skip_j : (s.skip p left).j = s.j := congrArg (·.2.1) vars_skip

@[simp] theorem skip_buf : (s.skip p left).buf = s.buf := congrArg (·.2.2.1) vars_skip

@[simp] theorem skip_http : (s.skip p left).http = s.http := congrArg (·.2.2.2) vars_skip

@[simp] theorem move_i : (s.move p left).i = (moveWhile p left s.i s.j s.buf).1 :=
  congrArg (·.1) vars_move

@[simp] theorem move_j : (s.move p left).j = (moveWhile p left s.i s.j s.buf).2.1 :=
  congrArg (·.2.1) vars_move

@[simp] theorem move_buf : (s.move p left).buf = (moveWhile p left s.i s.j s.buf).2.2 :=
  congrArg (·.2.2.1) vars_move

@[simp] theorem move_http : (s.move p left).http = s.http := congrArg (·.2.2.2) vars_move

@[simp] theorem copy_j : (s.copy p left).j = (copyWhile p s.buf left s.i s.j s.http).1 :=
  congrArg (·.1) vars_copy

@[simp] theorem copy_buf : (s.copy p left).buf = s.buf := congrArg (·.2.1) vars_copy

@[simp] theorem copy_http : (s.copy p left).http = (copyWhile p s.buf left s.i s.j s.http).2 :=
  congrArg (·.2.2) vars_copy

end

/-- Without the log it is the parser of the server. -/
theorem run_buf (n : ℕ) (l : Locals) : (run n l).buf = (l.parse n).buf := by
  simp [run, path, version, start, store, storeHttp, restart, Locals.parse]

theorem run_http (n : ℕ) (l : Locals) : (run n l).http = (l.parse n).http := by
  simp [run, path, version, start, store, storeHttp, restart, Locals.parse]

/-! ## Accesses -/

end Scanner

/-- Before each store into `buf` the byte there has been read, and it is not read again. -/
def InOrder (log : List Touch) : Prop :=
  ∀ before k after, log = before ++ .write k :: after → .read k ∈ before ∧ .read k ∉ after

theorem InOrder.snoc {log : List Touch} (h : InOrder log) {t : Touch}
    (write : ∀ k, t = .write k → .read k ∈ log) (read : ∀ k, t = .read k → .write k ∉ log) :
    InOrder (log ++ [t]) := by
  intro before k after eq
  rcases List.eq_nil_or_concat after with rfl | ⟨rest, u, rfl⟩
  · obtain ⟨rfl, last⟩ := List.append_inj' eq rfl
    exact ⟨write k (List.singleton_inj.1 last), List.not_mem_nil⟩
  · rw [List.concat_eq_append, ← List.cons_append, ← List.append_assoc] at eq
    obtain ⟨front, last⟩ := List.append_inj' eq rfl
    obtain rfl := List.singleton_inj.1 last
    obtain ⟨seen, fresh⟩ := h before k rest front
    refine ⟨seen, fun mem => ?_⟩
    rw [List.concat_eq_append] at mem
    rcases List.mem_append.1 mem with old | new
    · exact fresh old
    · have stored : .write k ∈ log := front ▸ List.mem_append_right before List.mem_cons_self
      exact read k (List.mem_singleton.1 new).symm stored

namespace Scanner

variable {n : ℕ} {p : UInt8 → Bool} {left : ℕ} {s s' : Scanner}

/-- All that lies before `i` has been read, and the stores are behind. -/
structure Sound (n : ℕ) (s : Scanner) : Prop where
  behind : s.j < s.i
  inside : s.i ≤ n
  seen : ∀ k < s.i, .read k ∈ s.log
  written : ∀ k, .write k ∈ s.log → k < s.i
  bounded : ∀ t ∈ s.log, t.index < n
  order : InOrder s.log

namespace Sound

/-- One more access: a read at `i` or further on, or a store before it. -/
theorem touch (h : s.Sound n) {t : Touch} (inside : t.index < n)
    (write : ∀ k, t = .write k → k < s.i) (read : ∀ k, t = .read k → s.i ≤ k) :
    Sound n { s with log := s.log ++ [t] } where
  behind := h.behind
  inside := h.inside
  seen k hk := List.mem_append_left _ (h.seen k hk)
  written k hk := by
    rcases List.mem_append.1 hk with old | new
    · exact h.written k old
    · exact write k (List.mem_singleton.1 new).symm
  bounded u hu := by
    rcases List.mem_append.1 hu with old | new
    · exact h.bounded u old
    · rw [List.mem_singleton.1 new]
      exact inside
  order := by
    refine h.order.snoc (fun k hk => h.seen k (write k hk)) fun k hk mem => ?_
    exact absurd (h.written k mem) (Nat.not_lt.2 (read k hk))

theorem look (h : s.Sound n) (lt : s.i < n) : s.look.Sound n := by
  refine h.touch lt (fun k hk => ?_) fun k hk => ?_
  · cases hk
  · exact (Touch.read.inj hk).le

theorem store (h : s.Sound n) (c : UInt8) : (s.store c).Sound n := by
  have inside : s.j < n := lt_of_lt_of_le h.behind h.inside
  have touched := h.touch (t := .write s.j) inside
    (fun k hk => Touch.write.inj hk ▸ h.behind) fun k hk => by cases hk
  exact ⟨touched.behind, touched.inside, touched.seen, touched.written, touched.bounded,
    touched.order⟩

theorem storeHttp (h : s.Sound n) (c : UInt8) : (s.storeHttp c).Sound n := by
  have inside : s.j < n := lt_of_lt_of_le h.behind h.inside
  have touched := h.touch (t := .http s.j) inside (fun k hk => by cases hk) fun k hk => by cases hk
  exact ⟨touched.behind, touched.inside, touched.seen, touched.written, touched.bounded,
    touched.order⟩

/-- The index may pass a byte that has been read. -/
theorem next (h : s.Sound n) (lt : s.i < n) (seen : .read s.i ∈ s.log) : s.next.Sound n where
  behind := Nat.lt_succ_of_lt h.behind
  inside := lt
  seen k hk := by
    rcases Nat.lt_succ_iff_lt_or_eq.1 hk with before | rfl
    · exact h.seen k before
    · exact seen
  written k hk := Nat.lt_succ_of_lt (h.written k hk)
  bounded := h.bounded
  order := h.order

theorem both (h : s.Sound n) (lt : s.i < n) (seen : .read s.i ∈ s.log) : s.both.Sound n :=
  have moved := h.next lt seen
  ⟨Nat.succ_lt_succ h.behind, moved.inside, moved.seen, moved.written, moved.bounded, moved.order⟩

theorem restart (h : s.Sound n) : s.restart.Sound n :=
  ⟨Nat.zero_lt_of_lt h.behind, h.inside, h.seen, h.written, h.bounded, h.order⟩

theorem skip (h : s.Sound n) (le : s.i + left ≤ n) : (s.skip p left).Sound n := by
  induction left generalizing s with
  | zero => exact h
  | succ left ih =>
      have lt : s.i < n := by omega
      have looked := h.look lt
      have seen : .read s.i ∈ s.look.log := List.mem_append_right _ List.mem_cons_self
      rw [Scanner.skip]
      split
      · exact ih (looked.next lt seen) (show s.i + 1 + left ≤ n by omega)
      · exact looked

theorem move (h : s.Sound n) (le : s.i + left ≤ n) : (s.move p left).Sound n := by
  induction left generalizing s with
  | zero => exact h
  | succ left ih =>
      have lt : s.i < n := by omega
      have looked := h.look lt
      rw [Scanner.move]
      split
      · have stored := (looked.look lt).store s.char
        have seen : .read s.i ∈ (s.look.look.store s.char).log :=
          List.mem_append_left _ (List.mem_append_right _ List.mem_cons_self)
        exact ih (stored.both lt seen) (show s.i + 1 + left ≤ n by omega)
      · exact looked

theorem copy (h : s.Sound n) (le : s.i + left ≤ n) : (s.copy p left).Sound n := by
  induction left generalizing s with
  | zero => exact h
  | succ left ih =>
      have lt : s.i < n := by omega
      have looked := h.look lt
      rw [Scanner.copy]
      split
      · have stored := (looked.look lt).storeHttp s.char
        have seen : .read s.i ∈ (s.look.look.storeHttp s.char).log :=
          List.mem_append_left _ (List.mem_append_right _ List.mem_cons_self)
        exact ih (stored.both lt seen) (show s.i + 1 + left ≤ n by omega)
      · exact looked

theorem path (h : s.Sound n) : (s.path n).Sound n := by
  have rest : s.i + (n - s.i) ≤ n := (Nat.add_sub_cancel' h.inside).le
  have blanks := h.skip (p := (· = 32)) rest
  exact (blanks.move (Nat.add_sub_cancel' blanks.inside).le).store 0

theorem version (h : s.Sound n) : (s.version n).Sound n := by
  have rest : s.i + (n - s.i) ≤ n := (Nat.add_sub_cancel' h.inside).le
  have blanks := h.skip (p := (· = 32)) rest
  exact (blanks.restart.copy (Nat.add_sub_cancel' blanks.inside).le).storeHttp 0

theorem start (l : Locals) (three : 3 ≤ n) : (Scanner.start l).Sound n where
  behind := Nat.zero_lt_succ 2
  inside := three
  seen k hk := by
    have : k = 0 ∨ k = 1 ∨ k = 2 := by
      have : k < 3 := hk
      omega
    rcases this with rfl | rfl | rfl <;> simp [Scanner.start]
  written k hk := by simp [Scanner.start] at hk
  bounded t ht := by
    have : t = .read 0 ∨ t = .read 1 ∨ t = .read 2 := by simpa [Scanner.start] using ht
    rcases this with rfl | rfl | rfl <;> exact lt_of_lt_of_le (by decide) three
  order before k after eq := by
    have mem : .write k ∈ (Scanner.start l).log :=
      eq ▸ List.mem_append_right before List.mem_cons_self
    simp [Scanner.start] at mem

theorem run (l : Locals) (three : 3 ≤ n) : (Scanner.run n l).Sound n :=
  (start l three).path.version

end Sound

/-- Two scans at the same place, with the same bytes ahead up to `n`. -/
structure Same (n : ℕ) (s s' : Scanner) : Prop where
  i : s.i = s'.i
  j : s.j = s'.j
  log : s.log = s'.log
  ahead : ∀ k, s.i ≤ k → k < n → s.buf.getD k 0 = s'.buf.getD k 0

namespace Same

theorem char (h : Same n s s') (lt : s.i < n) : s.char = s'.char := by
  rw [Scanner.char, Scanner.char, h.ahead s.i le_rfl lt, h.i]

theorem look (h : Same n s s') : Same n s.look s'.look where
  i := h.i
  j := h.j
  log := by rw [Scanner.look, Scanner.look, h.log, h.i]
  ahead := h.ahead

theorem next (h : Same n s s') : Same n s.next s'.next where
  i := congrArg (· + 1) h.i
  j := h.j
  log := h.log
  ahead k hk := h.ahead k (Nat.le_of_succ_le hk)

theorem both (h : Same n s s') : Same n s.both s'.both where
  i := congrArg (· + 1) h.i
  j := congrArg (· + 1) h.j
  log := h.log
  ahead k hk := h.ahead k (Nat.le_of_succ_le hk)

/-- A store behind `i` is not seen. -/
theorem store (h : Same n s s') (behind : s.j < s.i) (c : UInt8) :
    Same n (s.store c) (s'.store c) where
  i := h.i
  j := h.j
  log := by rw [Scanner.store, Scanner.store, h.log, h.j]
  ahead k hk lt := by
    have apart : s.j ≠ k := (lt_of_lt_of_le behind hk).ne
    have apart' : s'.j ≠ k := h.j ▸ apart
    have := h.ahead k hk lt
    rw [List.getD_eq_getElem?_getD, List.getD_eq_getElem?_getD] at this ⊢
    rw [Scanner.store, Scanner.store, List.getElem?_set_ne apart, List.getElem?_set_ne apart']
    exact this

theorem storeHttp (h : Same n s s') (c : UInt8) :
    Same n (s.storeHttp c) (s'.storeHttp c) where
  i := h.i
  j := h.j
  log := by rw [Scanner.storeHttp, Scanner.storeHttp, h.log, h.j]
  ahead := h.ahead

theorem restart (h : Same n s s') : Same n s.restart s'.restart := ⟨h.i, rfl, h.log, h.ahead⟩

theorem skip (h : Same n s s') (le : s.i + left ≤ n) :
    Same n (s.skip p left) (s'.skip p left) := by
  induction left generalizing s s' with
  | zero => exact h
  | succ left ih =>
      rw [Scanner.skip, Scanner.skip, h.char (by omega)]
      split
      · exact ih h.look.next (show s.i + 1 + left ≤ n by omega)
      · exact h.look

theorem move (h : Same n s s') (le : s.i + left ≤ n) (behind : s.j < s.i) :
    Same n (s.move p left) (s'.move p left) := by
  induction left generalizing s s' with
  | zero => exact h
  | succ left ih =>
      rw [Scanner.move, Scanner.move, h.char (by omega)]
      split
      · exact ih (h.look.look.store behind s'.char).both (show s.i + 1 + left ≤ n by omega)
          (Nat.succ_lt_succ behind)
      · exact h.look

theorem copy (h : Same n s s') (le : s.i + left ≤ n) :
    Same n (s.copy p left) (s'.copy p left) := by
  induction left generalizing s s' with
  | zero => exact h
  | succ left ih =>
      rw [Scanner.copy, Scanner.copy, h.char (by omega)]
      split
      · exact ih (h.look.look.storeHttp s'.char).both (show s.i + 1 + left ≤ n by omega)
      · exact h.look

theorem path (h : Same n s s') (sound : s.Sound n) : Same n (s.path n) (s'.path n) := by
  have rest : s.i + (n - s.i) ≤ n := (Nat.add_sub_cancel' sound.inside).le
  have blanks := sound.skip (p := (· = 32)) rest
  have word := blanks.move (p := (· ≠ 32)) (Nat.add_sub_cancel' blanks.inside).le
  have same := h.skip (p := (· = 32)) rest
  unfold Scanner.path
  dsimp only
  rw [← h.i, ← same.i]
  exact (same.move (Nat.add_sub_cancel' blanks.inside).le blanks.behind).store word.behind 0

theorem version (h : Same n s s') (sound : s.Sound n) :
    Same n (s.version n) (s'.version n) := by
  have rest : s.i + (n - s.i) ≤ n := (Nat.add_sub_cancel' sound.inside).le
  have blanks := sound.skip (p := (· = 32)) rest
  have same := h.skip (p := (· = 32)) rest
  unfold Scanner.version
  dsimp only
  rw [← h.i, ← same.restart.i]
  exact (same.restart.copy (Nat.add_sub_cancel' blanks.inside).le).storeHttp 0

theorem start {l l' : Locals} (h : l.buf.take n = l'.buf.take n) :
    Same n (Scanner.start l) (Scanner.start l') where
  i := rfl
  j := rfl
  log := rfl
  ahead k _ lt := by
    have byte := congrArg (·[k]?) h
    simp only [List.getElem?_take_of_lt lt] at byte
    rw [List.getD_eq_getElem?_getD, List.getD_eq_getElem?_getD]
    exact congrArg (·.getD 0) byte

end Same

/-- What lies beyond the `n` bytes does not show in the accesses. -/
theorem log_run_eq {l l' : Locals} (three : 3 ≤ n) (h : l.buf.take n = l'.buf.take n) :
    (run n l).log = (run n l').log :=
  have sound := Sound.start l three
  (((Same.start h).path sound).version sound.path).log

end Scanner

/-- For every array and every `n`: the words are cut out of the request, and nothing else changes;
each access is inside the request, a byte is overwritten only after it has been read for the last
time, and the accesses are the same whatever lies beyond. -/
theorem run_correct (n : ℕ) (l : Locals) (three : 3 ≤ n) (bounded : n ≤ MAXLINE) (sized : l.Sized)
    (get : IsGet (l.buf.take n)) :
    (Scanner.run n l).buf = overlay (pathWord (l.buf.take n) ++ [0]) l.buf ∧
      (Scanner.run n l).http = overlay (versionWord (l.buf.take n) ++ [0]) l.http ∧
      (∀ t ∈ (Scanner.run n l).log, t.index < n ∧ t.index < MAXLINE) ∧
      InOrder (Scanner.run n l).log ∧
      ∀ l' : Locals, l'.buf.take n = l.buf.take n →
        (Scanner.run n l').log = (Scanner.run n l).log := by
  have sound := Scanner.Sound.run l three
  have len : (l.buf.take n).length = n := by
    rw [List.length_take, sized.buf]
    omega
  have whole : overlay (l.buf.take n) l.buf = l.buf := by
    rw [overlay, len, List.take_append_drop]
  have parsed := parse_eq (l := l) get (len.trans_le (bounded.trans_eq sized.buf.symm))
    (len.trans_le (bounded.trans_eq sized.http.symm))
  rw [len, whole] at parsed
  refine ⟨?_, ?_, fun t ht => ?_, sound.order, fun l' same => Scanner.log_run_eq three same⟩
  · rw [Scanner.run_buf, parsed]
  · rw [Scanner.run_http, parsed]
  · have inside := sound.bounded t ht
    exact ⟨inside, lt_of_lt_of_le inside bounded⟩

/-- Fifteen bytes have been read, the last one of the array is an old one. -/
def getFile : Locals := { fresh 7 with buf := overlay (bytes "GET  /a  HTTP/1") (fresh 7).buf }

/-- The run on them. -/
theorem run_correct_getFile :
    (Scanner.run 15 getFile).buf.take 3 = bytes "/a" ++ [0] ∧
      (Scanner.run 15 getFile).http.take 7 = bytes "HTTP/1" ++ [0] := by
  have sized : getFile.Sized := ⟨rfl, rfl, rfl, rfl⟩
  obtain ⟨buf, http, -⟩ :=
    run_correct 15 getFile (by decide) (by decide) sized (by decide +kernel)
  rw [buf, http]
  decide +kernel

end LinuxNote.Web
