import LinuxNote.Shell.MiniShell
import Mathlib.Data.List.Forall2

/-!
# Which lines the parsing loop of `mini_shell.c` parses well

`accepts_iff_spaced`: the loop does what the grammar says exactly on the lines where every file name
is followed by two blanks, or by one and a word.  There each round of the loop reads one token
(`loop_of_spaced`).  Elsewhere a NUL or an operator is taken for the beginning of a word
(`spoiled_of_finish`), and no later round takes an argument back (`Extends`).
-/

namespace LinuxNote.Shell

/-! ## One round -/

/-- The loop has passed the bytes `done`, and `*ptr` is the first of `rest`. -/
def scanAt (done rest : List UInt8) (argv : List ℕ) (flag : ℕ) (i o : Option ℕ) : Scan :=
  ⟨done ++ rest, done.length, argv, flag, i, o⟩

/-- What a redirection leaves in `relocate_flag`. -/
def Op.flag (flag : ℕ) : Op → ℕ
  | .input => flag ||| 4
  | .output => 1
  | .append => 2

/-- What a redirection to `x` leaves as the input, and as the output. -/
def Op.setIn {α : Type*} (x : α) (i : Option α) : Op → Option α
  | .input => some x
  | .output | .append => i

def Op.setOut {α : Type*} (x : α) (o : Option α) : Op → Option α
  | .input => o
  | .output | .append => some x

section

variable {done rest run w gap name : List UInt8} {argv : List ℕ} {flag : ℕ} {i o : Option ℕ}
variable {c : UInt8} {p : UInt8 → Bool}

theorem char_scanAt : (scanAt done (c :: rest) argv flag i o).char = some c := by
  simp [scanAt, Scan.char]

theorem next_scanAt :
    (scanAt done (c :: rest) argv flag i o).next = scanAt (done ++ [c]) rest argv flag i o := by
  simp [scanAt, Scan.next]

theorem skip_scanAt (h : ∀ d ∈ run, p d ∧ d ≠ 0) (hc : ¬ (p c ∧ c ≠ 0)) :
    (scanAt done (run ++ c :: rest) argv flag i o).skip p =
      some (scanAt (done ++ run) (c :: rest) argv flag i o) := by
  simp [scanAt, Scan.skip, skip_append h hc]

theorem terminate_scanAt : (scanAt done (c :: rest) argv flag i o).terminate =
    some (scanAt done (0 :: rest) argv flag i o) := by
  simp [scanAt, Scan.terminate, store0]

/-- The byte behind a run of graphic bytes. -/
def Stops (c : UInt8) : Prop := isspace c ∨ c = 0

theorem skipRun_scanAt (h : ∀ d ∈ run, IsGraph d) (hc : Stops c) :
    (scanAt done (run ++ c :: rest) argv flag i o).skip (!isspace ·) =
      some (scanAt (done ++ run) (c :: rest) argv flag i o) := by
  refine skip_scanAt (fun d hd => ?_) ?_
  · obtain ⟨graph, nonzero⟩ := h d hd
    exact ⟨by simpa using graph, nonzero⟩
  · rintro ⟨graph, nonzero⟩
    rcases hc with space | rfl
    · simp [space] at graph
    · exact nonzero rfl

theorem argument_scanAt (h : ∀ d ∈ w, IsGraph d) (hc : Stops c) :
    (scanAt done (w ++ c :: rest) argv flag i o).argument =
      if argv.length < argvSize then
        some (scanAt (done ++ w) (0 :: rest) (argv ++ [done.length]) flag i o)
      else none := by
  have run : (scanAt done (w ++ c :: rest) (argv ++ [done.length]) flag i o).skip (!isspace ·) =
      some (scanAt (done ++ w) (c :: rest) (argv ++ [done.length]) flag i o) := skipRun_scanAt h hc
  by_cases room : argv.length < argvSize
  · rw [if_pos room, Scan.argument, if_pos (show (scanAt _ _ argv _ _ _).argv.length < _ from room)]
    exact (congrArg (· >>= Scan.terminate) run).trans terminate_scanAt
  · rw [if_neg room, Scan.argument,
      if_neg (show ¬ (scanAt _ _ argv _ _ _).argv.length < _ from room)]

theorem isSpace_skip {gap : List UInt8} (h : ∀ d ∈ gap, IsBlank d) :
    ∀ d ∈ gap, isspace d ∧ d ≠ 0 := by
  intro d hd
  refine ⟨(h d hd).1, ?_⟩
  rintro rfl
  exact absurd (h 0 hd).1 (by decide)

theorem filename_scanAt (hg : ∀ d ∈ gap, IsBlank d) (hn : IsRun name) (hc : Stops c) :
    (scanAt done (gap ++ (name ++ c :: rest)) argv flag i o).filename =
      some ((done ++ gap).length, scanAt (done ++ gap ++ name ++ [0]) rest argv flag i o) := by
  obtain ⟨d, name', rfl⟩ := List.exists_cons_of_ne_nil hn.1
  have graph := hn.2 d List.mem_cons_self
  have first : (scanAt done (gap ++ (d :: name' ++ c :: rest)) argv flag i o).skip isspace =
      some (scanAt (done ++ gap) (d :: name' ++ c :: rest) argv flag i o) :=
    skip_scanAt (isSpace_skip hg) fun h => graph.1 h.1
  have second : (scanAt (done ++ gap) (d :: name' ++ c :: rest) argv flag i o).skip (!isspace ·) =
      some (scanAt (done ++ gap ++ (d :: name')) (c :: rest) argv flag i o) :=
    skipRun_scanAt hn.2 hc
  simp only [Scan.filename, first, second, terminate_scanAt, next_scanAt, Option.bind_eq_bind,
    Option.bind_some, Option.pure_def]
  rfl

theorem redirectIn_scanAt (hg : ∀ d ∈ gap, IsBlank d) (hn : IsRun name) (hc : Stops c) :
    (scanAt done (lt :: (gap ++ (name ++ c :: rest))) argv flag i o).redirectIn =
      some (scanAt (done ++ [lt] ++ gap ++ name ++ [0]) rest argv (flag ||| 4)
        (some (done ++ [lt] ++ gap).length) o) := by
  show Option.bind (scanAt done (lt :: (gap ++ (name ++ c :: rest))) argv (flag ||| 4) i
    o).next.filename _ = _
  rw [next_scanAt, filename_scanAt hg hn hc]
  rfl

/-- The byte behind the first `>` tells the two operators apart. -/
theorem exists_head_ne_gt (hg : ∀ d ∈ gap, IsBlank d) (hn : IsRun name)
    (single : gap = [] → name.head? ≠ some gt) (rest : List UInt8) :
    ∃ d rest', gap ++ (name ++ rest) = d :: rest' ∧ d ≠ gt := by
  cases gap with
  | cons d gap =>
      refine ⟨d, _, rfl, ?_⟩
      rintro rfl
      exact absurd (hg gt List.mem_cons_self).1 (by decide)
  | nil =>
      obtain ⟨d, name', rfl⟩ := List.exists_cons_of_ne_nil hn.1
      exact ⟨d, _, rfl, fun e => single rfl (by rw [List.head?_cons, e])⟩

theorem redirectOut_of_char {d : UInt8}
    (char : (scanAt (done ++ [gt]) rest argv 1 i o).char = some d) :
    (scanAt done (gt :: rest) argv flag i o).redirectOut =
      (if d = gt then (scanAt (done ++ [gt]) rest argv 2 i o).next
        else scanAt (done ++ [gt]) rest argv 1 i o).filename.bind
          fun named => some { named.2 with filenameOut := some named.1 } := by
  show (do
    let s := (scanAt done (gt :: rest) argv 1 i o).next
    let c ← s.char
    let s := if c = gt then { s with relocateFlag := 2 }.next else s
    let named ← s.filename
    return { named.2 with filenameOut := some named.1 }) = _
  simp only [next_scanAt, char, Option.bind_eq_bind, Option.bind_some, Option.pure_def]
  rfl

theorem redirectOut_scanAt (hg : ∀ d ∈ gap, IsBlank d) (hn : IsRun name)
    (single : gap = [] → name.head? ≠ some gt) (hc : Stops c) :
    (scanAt done (gt :: (gap ++ (name ++ c :: rest))) argv flag i o).redirectOut =
      some (scanAt (done ++ [gt] ++ gap ++ name ++ [0]) rest argv 1 i
        (some (done ++ [gt] ++ gap).length)) := by
  obtain ⟨d, rest', eq, ne⟩ := exists_head_ne_gt hg hn single (c :: rest)
  have char : (scanAt (done ++ [gt]) (gap ++ (name ++ c :: rest)) argv 1 i o).char = some d := by
    rw [eq, char_scanAt]
  rw [redirectOut_of_char char, if_neg ne, filename_scanAt hg hn hc]
  rfl

theorem redirectAppend_scanAt (hg : ∀ d ∈ gap, IsBlank d) (hn : IsRun name) (hc : Stops c) :
    (scanAt done (gt :: gt :: (gap ++ (name ++ c :: rest))) argv flag i o).redirectOut =
      some (scanAt (done ++ [gt, gt] ++ gap ++ name ++ [0]) rest argv 2 i
        (some (done ++ [gt, gt] ++ gap).length)) := by
  rw [redirectOut_of_char char_scanAt, if_pos rfl, next_scanAt, List.append_assoc,
    filename_scanAt hg hn hc]
  rfl

variable (rest) in
/-- A redirection, up to the test for a word. -/
theorem round_redirect {op : Op} (valid : (Token.redirect op gap name).Valid) (hc : Stops c) :
    ∃ d rest', (Token.redirect op gap name).text ++ c :: rest = d :: rest' ∧ d ≠ 0 ∧
      ∀ done argv flag i o, (scanAt done (d :: rest') argv flag i o).round d =
        (scanAt (done ++ (Token.redirect op gap name).text ++ [0]) rest argv (op.flag flag)
          (op.setIn (done ++ op.text ++ gap).length i)
          (op.setOut (done ++ op.text ++ gap).length o)).finish := by
  obtain ⟨hg, hn, single⟩ := valid
  cases op with
  | input =>
      refine ⟨lt, gap ++ (name ++ c :: rest), by simp [Token.text, Op.text], by decide, ?_⟩
      intro done argv flag i o
      rw [Scan.round, if_neg (by decide), if_pos rfl, redirectIn_scanAt hg hn hc]
      simp [Token.text, Op.text, Op.flag, Op.setIn, Op.setOut]
  | output =>
      refine ⟨gt, gap ++ (name ++ c :: rest), by simp [Token.text, Op.text], by decide, ?_⟩
      intro done argv flag i o
      rw [Scan.round, if_pos rfl, redirectOut_scanAt hg hn (single rfl) hc]
      simp [Token.text, Op.text, Op.flag, Op.setIn, Op.setOut]
  | append =>
      refine ⟨gt, gt :: (gap ++ (name ++ c :: rest)), by simp [Token.text, Op.text], by decide, ?_⟩
      intro done argv flag i o
      rw [Scan.round, if_pos rfl, redirectAppend_scanAt hg hn hc]
      simp [Token.text, Op.text, Op.flag, Op.setIn, Op.setOut]

/-! ### Words and blanks -/

theorem finish_of_char {s : Scan} (hc : s.char = some c) :
    s.finish = if isspace c then some s.next else s.argument.map Scan.next := by
  simp only [Scan.finish, hc, Option.bind_eq_bind, Option.bind_some]
  split
  · rfl
  · exact Option.map_eq_bind.symm

theorem exists_char_of_finish {s s' : Scan} (h : s.finish = some s') : ∃ c, s.char = some c := by
  obtain ⟨c, hc, -⟩ := Option.bind_eq_some_iff.1 h
  exact ⟨c, hc⟩

theorem finish_blank (hc : isspace c) : (scanAt done (c :: rest) argv flag i o).finish =
    some (scanAt (done ++ [c]) rest argv flag i o) := by
  rw [finish_of_char char_scanAt, if_pos hc, next_scanAt]

theorem finish_word (hw : IsRun w) (hc : Stops c) :
    (scanAt done (w ++ c :: rest) argv flag i o).finish =
      if argv.length < argvSize then
        some (scanAt (done ++ w ++ [0]) rest (argv ++ [done.length]) flag i o)
      else none := by
  obtain ⟨d, w, rfl⟩ := List.exists_cons_of_ne_nil hw.1
  have graph : ¬ isspace d := (hw.2 d List.mem_cons_self).1
  have char : (scanAt done (d :: w ++ c :: rest) argv flag i o).char = some d := char_scanAt
  rw [finish_of_char char, if_neg graph, argument_scanAt hw.2 hc]
  split
  · rw [Option.map_some, next_scanAt]
  · rfl

/-! ### The loop -/

theorem loop_zero {fuel : ℕ} : (scanAt done (0 :: rest) argv flag i o).loop (fuel + 1) =
    some (scanAt done (0 :: rest) argv flag i o) := by
  rw [Scan.loop, char_scanAt, Option.bind_some, if_pos rfl]

theorem loop_succ {fuel : ℕ} (hc : c ≠ 0) :
    (scanAt done (c :: rest) argv flag i o).loop (fuel + 1) =
      ((scanAt done (c :: rest) argv flag i o).round c).bind (Scan.loop fuel) := by
  rw [Scan.loop, char_scanAt, Option.bind_some, if_neg hc]

/-- The next byte is white space or begins a word. -/
def Harmless : List Token → Prop
  | .blank _ :: _ | .word _ :: _ => True
  | _ => False

/-- Where no redirection begins, a round is only the test for a word. -/
theorem loop_harmless {ts : List Token} (wf : WellFormed ts) (h : Harmless ts) {fuel : ℕ} :
    (scanAt done (text ts ++ rest) argv flag i o).loop (fuel + 1) =
      (scanAt done (text ts ++ rest) argv flag i o).finish.bind (Scan.loop fuel) := by
  have plain : ∀ {d rest'}, d ≠ 0 → d ≠ gt → d ≠ lt →
      (scanAt done (d :: rest') argv flag i o).loop (fuel + 1) =
        (scanAt done (d :: rest') argv flag i o).finish.bind (Scan.loop fuel) := by
    intro d rest' nonzero ne_gt ne_lt
    rw [loop_succ nonzero, Scan.round, if_neg ne_gt, if_neg ne_lt]
  match ts, wf, h with
  | .blank d :: ts, wf, _ =>
      have space : isspace d := wf.1.1
      refine plain ?_ ?_ ?_ <;> rintro rfl <;> exact absurd space (by decide)
  | .word w :: ts, wf, _ =>
      obtain ⟨run, ne_lt, ne_gt⟩ := wf.1
      obtain ⟨d, w, rfl⟩ := List.exists_cons_of_ne_nil run.1
      apply plain (run.2 d List.mem_cons_self).2
      · rintro rfl; exact ne_gt rfl
      · rintro rfl; exact ne_lt rfl

end

/-! ## Lines -/

/-- What is left of a line when the byte behind an item has been passed. -/
def behind : List Token → List Token
  | .blank _ :: ts => ts
  | _ => []

/-- The end of the array: NULs. -/
def zeros (k : ℕ) : List UInt8 := List.replicate k 0

/-- Behind an item stands a byte that ends it: a blank or the first NUL. -/
theorem exists_stop {ts : List Token} (wf : WellFormed ts) (ends : Ends ts) (k : ℕ) :
    ∃ c k', text ts ++ zeros (k + 1) = c :: (text (behind ts) ++ zeros k') ∧ Stops c ∧
      k ≤ k' ∧ (ts ≠ [] → k' = k + 1) := by
  match ts, wf, ends with
  | [], _, _ => exact ⟨0, k, rfl, Or.inr rfl, le_rfl, fun h => absurd rfl h⟩
  | .blank c :: ts, wf, _ => exact ⟨c, k + 1, rfl, Or.inl wf.1.1, Nat.le_succ k, fun _ => rfl⟩

theorem wellFormed_behind {ts : List Token} (wf : WellFormed ts) (ends : Ends ts) :
    WellFormed (behind ts) := by
  match ts, wf, ends with
  | [], _, _ => trivial
  | .blank c :: ts, wf, _ => exact wf.2

theorem length_behind_le (ts : List Token) : (behind ts).length ≤ ts.length := by
  match ts with
  | .blank c :: ts => exact Nat.le_succ _
  | [] | .word w :: ts | .redirect op gap name :: ts => exact Nat.zero_le _

theorem ne_nil_of_behind {ts : List Token} (h : behind ts ≠ []) : ts ≠ [] := by
  rintro rfl
  exact h rfl

theorem words_behind {ts : List Token} (ends : Ends ts) : words (behind ts) = words ts := by
  match ts, ends with
  | [], _ => rfl
  | .blank c :: ts, _ => rfl

theorem inputs_behind {ts : List Token} (ends : Ends ts) : inputs (behind ts) = inputs ts := by
  match ts, ends with
  | [], _ => rfl
  | .blank c :: ts, _ => rfl

theorem outputs_behind {ts : List Token} (ends : Ends ts) : outputs (behind ts) = outputs ts := by
  match ts, ends with
  | [], _ => rfl
  | .blank c :: ts, _ => rfl

theorem spaced_behind {ts : List Token} (ends : Ends ts) : Spaced (behind ts) ↔ Spaced ts := by
  match ts, ends with
  | [], _ => rfl
  | .blank c :: ts, _ => rfl

theorem separated_iff {ts : List Token} (ends : Ends ts) : Separated ts ↔ Harmless (behind ts) := by
  match ts, ends with
  | [], _ => rfl
  | [.blank c], _ => rfl
  | .blank c :: .blank d :: ts, _ | .blank c :: .word w :: ts, _ => rfl
  | .blank c :: .redirect op gap name :: ts, _ => rfl

theorem text_length_behind_le {ts : List Token} (ends : Ends ts) :
    (text (behind ts)).length ≤ (text ts).length := by
  match ts, ends with
  | [], _ => exact le_rfl
  | .blank c :: ts, _ => exact Nat.le_succ _

section

variable {ts : List Token} {done w gap name : List UInt8} {argv : List ℕ} {flag fuel k : ℕ}
variable {i o : Option ℕ} {c : UInt8} {op : Op}

theorem loop_blank (wf : WellFormed (.blank c :: ts)) :
    (scanAt done (text (.blank c :: ts) ++ zeros k) argv flag i o).loop (fuel + 1) =
      (scanAt (done ++ [c]) (text ts ++ zeros k) argv flag i o).loop fuel := by
  rw [loop_harmless wf trivial]
  show (scanAt done (c :: (text ts ++ zeros k)) argv flag i o).finish.bind (Scan.loop fuel) = _
  rw [finish_blank wf.1.1]
  rfl

variable (k) in
theorem loop_word (wf : WellFormed (.word w :: ts)) : ∃ k', k ≤ k' ∧ (ts ≠ [] → k' = k + 1) ∧
    ∀ done argv flag i o fuel,
      (scanAt done (text (.word w :: ts) ++ zeros (k + 1)) argv flag i o).loop (fuel + 1) =
        if argv.length < argvSize then
          (scanAt (done ++ w ++ [0]) (text (behind ts) ++ zeros k') (argv ++ [done.length]) flag i
            o).loop fuel
        else none := by
  obtain ⟨c, k', tail, stops, le, hk⟩ := exists_stop wf.2.2 wf.2.1 k
  refine ⟨k', le, hk, fun done argv flag i o fuel => ?_⟩
  have head : text (.word w :: ts) ++ zeros (k + 1) = w ++ c :: (text (behind ts) ++ zeros k') := by
    rw [← tail]
    simp [text, Token.text]
  rw [loop_harmless wf trivial, head, finish_word wf.1.1 stops]
  split <;> rfl

variable (k) in
/-- A redirection moves the loop behind its file name, to the test for a word. -/
theorem loop_redirect (wf : WellFormed (.redirect op gap name :: ts)) :
    ∃ k', k ≤ k' ∧ (ts ≠ [] → k' = k + 1) ∧ ∀ done argv flag i o fuel,
      (scanAt done (text (.redirect op gap name :: ts) ++ zeros (k + 1)) argv flag i o).loop
          (fuel + 1) =
        (scanAt (done ++ (Token.redirect op gap name).text ++ [0])
          (text (behind ts) ++ zeros k') argv (op.flag flag)
          (op.setIn (done ++ op.text ++ gap).length i)
          (op.setOut (done ++ op.text ++ gap).length o)).finish.bind (Scan.loop fuel) := by
  obtain ⟨valid, ends, wf⟩ := wf
  obtain ⟨c, k', tail, stops, le, hk⟩ := exists_stop wf ends k
  obtain ⟨d, rest', eq, nonzero, round⟩ := round_redirect (text (behind ts) ++ zeros k') valid stops
  have head : text (.redirect op gap name :: ts) ++ zeros (k + 1) = d :: rest' := by
    rw [← eq, ← tail]
    simp [text]
  exact ⟨k', le, hk, fun done argv flag i o fuel => by rw [head, loop_succ nonzero, round]⟩

/-! ## Lines that are parsed well -/

/-- The pointers point to the given strings. -/
structure PointsTo (done : List UInt8) (argv : List ℕ) (i o : Option ℕ)
    (ws : List (List UInt8)) (is os : Option (List UInt8)) : Prop where
  argv : List.Forall₂ (HasString done) argv ws
  input : Option.Rel (HasString done) i is
  output : Option.Rel (HasString done) o os

theorem optionRel_append {more : List UInt8} {p : Option ℕ} {str : Option (List UInt8)}
    (h : Option.Rel (HasString done) p str) : Option.Rel (HasString (done ++ more)) p str := by
  cases h with
  | some h => exact .some (h.append more)
  | none => exact .none

theorem PointsTo.append {ws : List (List UInt8)} {is os : Option (List UInt8)}
    (h : PointsTo done argv i o ws is os) (more : List UInt8) :
    PointsTo (done ++ more) argv i o ws is os where
  argv := h.argv.imp fun _ _ h => h.append more
  input := optionRel_append h.input
  output := optionRel_append h.output

theorem map_cstr_of_forall₂ {ws : List (List UInt8)} (h : List.Forall₂ (HasString done) argv ws) :
    argv.map (cstr done) = ws := by
  induction h with
  | nil => rfl
  | cons string _ ih => exact congrArg₂ List.cons string.cstr ih

theorem map_cstr_of_rel {p : Option ℕ} {str : Option (List UInt8)}
    (h : Option.Rel (HasString done) p str) : p.map (cstr done) = str := by
  cases h with
  | some h => exact congrArg some h.cstr
  | none => rfl

theorem IsRun.zero_not_mem (h : IsRun w) : (0 : UInt8) ∉ w := fun mem => (h.2 0 mem).2 rfl

/-- The word has become an argument. -/
theorem PointsTo.word {ws : List (List UInt8)} {is os : Option (List UInt8)}
    (h : PointsTo done argv i o ws is os) (hw : IsRun w) :
    PointsTo (done ++ w ++ [0]) (argv ++ [done.length]) i o (ws ++ [w]) is os := by
  have before := h.append (w ++ [0])
  rw [← List.append_assoc] at before
  refine ⟨?_, before.input, before.output⟩
  exact List.rel_append before.argv (.cons (hasString_concat hw.zero_not_mem) .nil)

/-- The file name has become one of the two names. -/
theorem PointsTo.redirect {ws : List (List UInt8)} {is os : Option (List UInt8)}
    (h : PointsTo done argv i o ws is os) (hn : IsRun name) :
    PointsTo (done ++ (Token.redirect op gap name).text ++ [0]) argv
      (op.setIn (done ++ op.text ++ gap).length i) (op.setOut (done ++ op.text ++ gap).length o)
      ws (op.setIn name is) (op.setOut name os) := by
  have new : HasString (done ++ (Token.redirect op gap name).text ++ [0])
      (done ++ op.text ++ gap).length name := by
    have : HasString (done ++ op.text ++ gap ++ name ++ [0]) (done ++ op.text ++ gap).length name :=
      hasString_concat hn.zero_not_mem
    simpa [Token.text] using this
  have before := h.append ((Token.redirect op gap name).text ++ [0])
  rw [← List.append_assoc] at before
  cases op with
  | input => exact ⟨before.argv, .some new, before.output⟩
  | output | append => exact ⟨before.argv, before.input, .some new⟩

/-- The loop ends and leaves the words of `ts` behind the arguments `ws`, and the names of its last
redirections or else `is` and `os`. -/
def Reads (ts : List Token) (ws : List (List UInt8)) (is os : Option (List UInt8))
    (result : Option Scan) : Prop :=
  ∃ s, result = some s ∧ PointsTo s.buf s.argv s.filenameIn s.filenameOut (ws ++ words ts)
    ((inputs ts).getLast?.or is) ((outputs ts).getLast?.or os)

section

variable {ws : List (List UInt8)} {is os : Option (List UInt8)} {result : Option Scan}

theorem reads_behind (ends : Ends ts) :
    Reads (behind ts) ws is os result ↔ Reads ts ws is os result := by
  rw [Reads, words_behind ends, inputs_behind ends, outputs_behind ends]
  rfl

theorem Reads.word (h : Reads ts (ws ++ [w]) is os result) :
    Reads (.word w :: ts) ws is os result := by
  obtain ⟨s, hs, points⟩ := h
  rw [List.append_assoc] at points
  exact ⟨s, hs, points⟩

theorem getLast?_cons_or {α : Type*} (a : α) (l : List α) (b : Option α) :
    (a :: l).getLast?.or b = l.getLast?.or (some a) := by
  rw [List.getLast?_cons]
  cases l.getLast? <;> rfl

theorem Reads.redirect (h : Reads ts ws (op.setIn name is) (op.setOut name os) result) :
    Reads (.redirect op gap name :: ts) ws is os result := by
  obtain ⟨s, hs, points⟩ := h
  refine ⟨s, hs, points.argv, ?_, ?_⟩
  · cases op with
    | input => exact getLast?_cons_or name (inputs ts) is ▸ points.input
    | output | append => exact points.input
  · cases op with
    | input => exact points.output
    | output | append => exact getLast?_cons_or name (outputs ts) os ▸ points.output

theorem loop_of_spaced (wf : WellFormed ts) (spaced : Spaced ts) (enough : (text ts).length < fuel)
    (pos : 1 ≤ k) (room : ts ≠ [] → 2 ≤ k) (few : argv.length + (words ts).length < argvSize)
    (h : PointsTo done argv i o ws is os) :
    Reads ts ws is os ((scanAt done (text ts ++ zeros k) argv flag i o).loop fuel) := by
  induction hn : ts.length using Nat.strong_induction_on generalizing
    ts fuel done argv flag i o k ws is os with
  | _ n ih =>
      obtain ⟨fuel, rfl⟩ := Nat.exists_eq_add_of_le' (Nat.one_le_of_lt enough)
      obtain ⟨k, rfl⟩ := Nat.exists_eq_add_of_le' pos
      match ts, wf, spaced with
      | [], _, _ =>
          refine ⟨_, loop_zero, ?_⟩
          rw [show words [] = [] from rfl, List.append_nil]
          exact h.append (zeros (k + 1))
      | .blank c :: ts, wf, spaced =>
          have shorter : ts.length < n := by simp [← hn]
          have bytes : (text (.blank c :: ts)).length = (text ts).length + 1 := by
            simp [text, Token.text]
          rw [loop_blank wf]
          exact ih ts.length shorter wf.2 spaced (by omega) pos
            (fun _ => room (List.cons_ne_nil _ _)) few (h.append [c]) rfl
      | .word w :: ts, wf, spaced =>
          obtain ⟨k', le, hk, loop⟩ := loop_word k wf
          obtain ⟨⟨run, -⟩, ends, wf'⟩ := wf
          have shorter : (behind ts).length < n :=
            (length_behind_le ts).trans_lt (by simp [← hn])
          have bytes : (text (behind ts)).length < (text (.word w :: ts)).length := by
            have := text_length_behind_le ends
            have := List.length_pos_iff.2 run.1
            simp only [text, Token.text, List.flatMap_cons, List.length_append] at *
            omega
          have count : (words (.word w :: ts)).length = (words ts).length + 1 := rfl
          have two := room (List.cons_ne_nil _ _)
          rw [loop, if_pos (by omega)]
          refine Reads.word ((reads_behind ends).1 ?_)
          apply ih (behind ts).length shorter (wellFormed_behind wf' ends)
            ((spaced_behind ends).2 spaced) (by omega) (by omega) _ _ (h.word run) rfl
          · intro ne
            rw [hk (ne_nil_of_behind ne)]
            exact two
          · rw [words_behind ends, List.length_append, List.length_singleton]
            omega
      | .redirect op gap name :: ts, wf, ⟨separated, spaced⟩ =>
          obtain ⟨k', -, hk, loop⟩ := loop_redirect k wf
          obtain ⟨⟨-, run, -⟩, ends, wf'⟩ := wf
          have shorter : (behind ts).length < n :=
            (length_behind_le ts).trans_lt (by simp [← hn])
          have bytes : (text (behind ts)).length ≤ (text (.redirect op gap name :: ts)).length :=
            (text_length_behind_le ends).trans (by simp [text])
          have ne : ts ≠ [] := by rintro rfl; exact separated
          have two := room (List.cons_ne_nil _ _)
          have wf'' := wellFormed_behind wf' ends
          rw [loop, ← loop_harmless wf'' ((separated_iff ends).1 separated), hk ne]
          refine Reads.redirect ((reads_behind ends).1 ?_)
          apply ih (behind ts).length shorter wf'' ((spaced_behind ends).2 spaced) (by omega)
            pos (fun _ => two) _ (h.redirect run) rfl
          rw [words_behind ends]
          exact few

end

end

/-! ## Lines that are not -/

/-- What no later step of the loop undoes: it only moves on, adds arguments and writes ahead. -/
structure Extends (s s' : Scan) : Prop where
  argv : s.argv <+: s'.argv
  ptr : s.ptr ≤ s'.ptr
  buf : ∀ p, p < s.ptr → s'.buf[p]? = s.buf[p]?

namespace Extends

variable {s s' s'' : Scan} {p : UInt8 → Bool} {c : UInt8} {name fuel : ℕ}

theorem refl (s : Scan) : Extends s s := ⟨List.prefix_refl _, le_rfl, fun _ _ => rfl⟩

theorem trans (h : Extends s s') (h' : Extends s' s'') : Extends s s'' where
  argv := h.argv.trans h'.argv
  ptr := h.ptr.trans h'.ptr
  buf p hp := (h'.buf p (hp.trans_le h.ptr)).trans (h.buf p hp)

theorem next (s : Scan) : Extends s s.next := ⟨List.prefix_refl _, Nat.le_succ _, fun _ _ => rfl⟩

theorem of_skip (h : s.skip p = some s') : Extends s s' := by
  obtain ⟨n, -, rfl⟩ := Option.map_eq_some_iff.1 h
  exact ⟨List.prefix_refl _, Nat.le_add_right _ _, fun _ _ => rfl⟩

theorem of_terminate (h : s.terminate = some s') : Extends s s' := by
  obtain ⟨buf, hbuf, rfl⟩ := Option.map_eq_some_iff.1 h
  obtain ⟨-, rfl⟩ : s.ptr < s.buf.length ∧ s.buf.set s.ptr 0 = buf := by simpa [store0] using hbuf
  exact ⟨List.prefix_refl _, le_rfl, fun p hp => List.getElem?_set_ne hp.ne'⟩

theorem of_argument (h : s.argument = some s') : Extends s s' := by
  simp only [Scan.argument, Option.bind_eq_bind, Option.ite_none_right_eq_some,
    Option.bind_eq_some_iff] at h
  obtain ⟨-, s₁, h₁, h₂⟩ := h
  have added : Extends s { s with argv := s.argv ++ [s.ptr] } :=
    ⟨List.prefix_append _ _, le_rfl, fun _ _ => rfl⟩
  exact added.trans ((of_skip h₁).trans (of_terminate h₂))

theorem of_finish (h : s.finish = some s') : Extends s s' := by
  obtain ⟨c, hc⟩ := exists_char_of_finish h
  rw [finish_of_char hc] at h
  split at h
  · cases h
    exact next s
  · obtain ⟨s₁, h₁, rfl⟩ := Option.map_eq_some_iff.1 h
    exact (of_argument h₁).trans (next s₁)

theorem of_filename (h : s.filename = some (name, s')) : Extends s s' := by
  simp only [Scan.filename, Option.bind_eq_bind, Option.bind_eq_some_iff, Option.pure_def,
    Option.some.injEq, Prod.mk.injEq] at h
  obtain ⟨s₁, h₁, s₂, h₂, s₃, h₃, -, rfl⟩ := h
  exact (of_skip h₁).trans ((of_skip h₂).trans ((of_terminate h₃).trans (next s₃)))

theorem of_redirectIn (h : s.redirectIn = some s') : Extends s s' := by
  simp only [Scan.redirectIn, Option.bind_eq_bind, Option.bind_eq_some_iff, Option.pure_def,
    Option.some.injEq, Prod.exists] at h
  obtain ⟨name, s₁, h₁, rfl⟩ := h
  obtain ⟨argv, ptr, buf⟩ := (next _).trans (of_filename h₁)
  exact ⟨argv, ptr, buf⟩

theorem of_redirectOut (h : s.redirectOut = some s') : Extends s s' := by
  simp only [Scan.redirectOut, Option.bind_eq_bind, Option.bind_eq_some_iff, Option.pure_def,
    Option.some.injEq, Prod.exists] at h
  obtain ⟨c, -, name, s₁, h₁, rfl⟩ := h
  have moved : Extends s (if c = gt then
      { { s with relocateFlag := 1 }.next with relocateFlag := 2 }.next
      else { s with relocateFlag := 1 }.next) := by
    split
    · exact ⟨List.prefix_refl _, Nat.le_add_right _ 2, fun _ _ => rfl⟩
    · exact ⟨List.prefix_refl _, Nat.le_succ _, fun _ _ => rfl⟩
  obtain ⟨argv, ptr, buf⟩ := moved.trans (of_filename h₁)
  exact ⟨argv, ptr, buf⟩

theorem of_round (h : s.round c = some s') : Extends s s' := by
  unfold Scan.round at h
  split at h
  · obtain ⟨s₁, h₁, h₂⟩ := Option.bind_eq_some_iff.1 h
    exact (of_redirectOut h₁).trans (of_finish h₂)
  · split at h
    · obtain ⟨s₁, h₁, h₂⟩ := Option.bind_eq_some_iff.1 h
      exact (of_redirectIn h₁).trans (of_finish h₂)
    · exact of_finish h

theorem of_loop (h : s.loop fuel = some s') : Extends s s' := by
  induction fuel generalizing s with
  | zero => cases h
  | succ fuel ih =>
      obtain ⟨c, -, h⟩ := Option.bind_eq_some_iff.1 h
      split at h
      · cases h
        exact refl _
      · obtain ⟨s₁, h₁, h₂⟩ := Option.bind_eq_some_iff.1 h
        exact (of_round h₁).trans (ih h₂)

end Extends

/-- The byte is a NUL or an operator: no word begins with it. -/
def Foreign (c : UInt8) : Prop := c = 0 ∨ c = lt ∨ c = gt

/-- An argument behind the pointer is empty or begins with an operator. -/
def Spoiled (s : Scan) : Prop := ∃ p ∈ s.argv, p < s.ptr ∧ ∃ c, s.buf[p]? = some c ∧ Foreign c

theorem Spoiled.of_extends {s s' : Scan} (h : Spoiled s) (ext : Extends s s') : Spoiled s' := by
  obtain ⟨p, mem, before, c, hc, foreign⟩ := h
  exact ⟨p, ext.argv.subset mem, before.trans_le ext.ptr, c, (ext.buf p before).trans hc, foreign⟩

/-- Writing a NUL does not make a byte the beginning of a word. -/
theorem foreign_set {buf : List UInt8} {p n : ℕ} {c : UInt8} (hc : buf[p]? = some c)
    (foreign : Foreign c) : ∃ d, (buf.set n 0)[p]? = some d ∧ Foreign d := by
  by_cases eq : n = p
  · subst eq
    have inside : n < buf.length := (List.getElem?_eq_some_iff.1 hc).1
    exact ⟨0, List.getElem?_set_self inside, Or.inl rfl⟩
  · exact ⟨c, (List.getElem?_set_ne eq).trans hc, foreign⟩

/-- The test for a word takes a foreign byte for the beginning of one. -/
theorem spoiled_of_finish {s s' : Scan} {c : UInt8} (hc : s.char = some c) (foreign : Foreign c)
    (h : s.finish = some s') : Spoiled s' := by
  have graph : ¬ isspace c := by
    rcases foreign with rfl | rfl | rfl <;> decide
  rw [finish_of_char hc, if_neg graph] at h
  obtain ⟨s₁, h₁, rfl⟩ := Option.map_eq_some_iff.1 h
  simp only [Scan.argument, Option.bind_eq_bind, Option.ite_none_right_eq_some,
    Option.bind_eq_some_iff] at h₁
  obtain ⟨-, s₂, skipped, terminated⟩ := h₁
  obtain ⟨n, -, rfl⟩ := Option.map_eq_some_iff.1 skipped
  obtain ⟨buf, stored, rfl⟩ := Option.map_eq_some_iff.1 terminated
  obtain ⟨-, rfl⟩ : s.ptr + n < s.buf.length ∧ s.buf.set (s.ptr + n) 0 = buf := by
    simpa [store0] using stored
  refine ⟨s.ptr, List.mem_append_right _ List.mem_cons_self, ?_, foreign_set hc foreign⟩
  show s.ptr < s.ptr + n + 1
  omega

/-- Where neither white space nor a word begins, there is a foreign byte. -/
theorem exists_foreign {ts : List Token} (h : ¬ Harmless ts) {k : ℕ} (pos : 1 ≤ k) :
    ∃ c rest, text ts ++ zeros k = c :: rest ∧ Foreign c := by
  match ts with
  | [] =>
      obtain ⟨k, rfl⟩ := Nat.exists_eq_add_of_le' pos
      exact ⟨0, zeros k, rfl, Or.inl rfl⟩
  | .blank _ :: _ | .word _ :: _ => exact absurd trivial h
  | .redirect .input gap name :: ts => exact ⟨lt, _, rfl, Or.inr (Or.inl rfl)⟩
  | .redirect .output gap name :: ts | .redirect .append gap name :: ts =>
      exact ⟨gt, _, rfl, Or.inr (Or.inr rfl)⟩

section

variable {ts : List Token} {done : List UInt8} {argv : List ℕ} {flag fuel k : ℕ} {i o : Option ℕ}

theorem spoiled_of_not_spaced {s : Scan} (wf : WellFormed ts) (crowded : ¬ Spaced ts) (two : 2 ≤ k)
    (h : (scanAt done (text ts ++ zeros k) argv flag i o).loop fuel = some s) : Spoiled s := by
  induction hn : ts.length using Nat.strong_induction_on generalizing
    ts fuel done argv flag i o k with
  | _ n ih =>
      obtain _ | fuel := fuel
      · cases h
      obtain ⟨k, rfl⟩ := Nat.exists_eq_add_of_le' (Nat.one_le_of_lt two)
      match ts, wf, crowded with
      | [], _, crowded => exact absurd trivial crowded
      | .blank c :: ts, wf, crowded =>
          rw [loop_blank wf] at h
          exact ih ts.length (by simp [← hn]) wf.2 crowded two h rfl
      | .word w :: ts, wf, crowded =>
          have ends : Ends ts := wf.2.1
          have ne : ts ≠ [] := by rintro rfl; exact crowded trivial
          have shorter := length_behind_le ts
          obtain ⟨k', -, hk, loop⟩ := loop_word k wf
          rw [loop] at h
          split at h
          · have wf' := wellFormed_behind wf.2.2 ends
            refine ih (behind ts).length (by simp at hn; omega) wf' ?_ ?_ h rfl
            · exact fun spaced => crowded ((spaced_behind ends).1 spaced)
            · rw [hk ne]; exact two
          · cases h
      | .redirect op gap name :: ts, wf, crowded =>
          have ends : Ends ts := wf.2.1
          have wf' := wellFormed_behind wf.2.2 ends
          have shorter := length_behind_le ts
          obtain ⟨k', le, hk, loop⟩ := loop_redirect k wf
          rw [loop] at h
          by_cases harmless : Harmless (behind ts)
          · -- this file name is followed as it should be; another one is not
            rw [← loop_harmless wf' harmless] at h
            have separated := (separated_iff ends).2 harmless
            have ne : ts ≠ [] := by rintro rfl; exact separated
            refine ih (behind ts).length (by simp at hn; omega) wf' ?_ ?_ h rfl
            · exact fun spaced => crowded ⟨separated, (spaced_behind ends).1 spaced⟩
            · rw [hk ne]; exact two
          · obtain ⟨c, rest, eq, foreign⟩ := exists_foreign harmless (show 1 ≤ k' by omega)
            obtain ⟨s₁, finish, rest_of_loop⟩ := Option.bind_eq_some_iff.1 h
            rw [eq] at finish
            have spoiled := spoiled_of_finish char_scanAt foreign finish
            exact spoiled.of_extends (.of_loop rest_of_loop)

/-- No word is empty or begins with an operator. -/
theorem head_of_mem_words (wf : WellFormed ts) {w : List UInt8} (h : w ∈ words ts) :
    ∃ c w', w = c :: w' ∧ ¬ Foreign c := by
  induction ts with
  | nil => cases h
  | cons t ts ih =>
      cases t with
      | blank c | redirect op gap name => exact ih wf.tail h
      | word v =>
          obtain rfl | h := List.mem_cons.1 h
          · obtain ⟨run, ne_lt, ne_gt⟩ := wf.1
            obtain ⟨c, w', rfl⟩ := List.exists_cons_of_ne_nil run.1
            refine ⟨c, w', rfl, ?_⟩
            rintro (rfl | rfl | rfl)
            · exact (run.2 0 List.mem_cons_self).2 rfl
            · exact ne_lt rfl
            · exact ne_gt rfl
          · exact ih wf.tail h

theorem head_of_cstr {buf w : List UInt8} {p : ℕ} {c d : UInt8} (hp : buf[p]? = some d)
    (h : cstr buf p = c :: w) : c = d := by
  obtain ⟨inside, rfl⟩ := List.getElem?_eq_some_iff.1 hp
  rw [cstr, List.drop_eq_getElem_cons inside, List.takeWhile_cons] at h
  split at h
  · exact (List.cons.inj h).1.symm
  · cases h

theorem Spoiled.args_ne {s : Scan} (h : Spoiled s) (wf : WellFormed ts) : s.args ≠ words ts := by
  intro eq
  obtain ⟨p, mem, -, d, hd, foreign⟩ := h
  have arg : cstr s.buf p ∈ words ts := eq ▸ List.mem_map_of_mem mem
  obtain ⟨c, w, hw, native⟩ := head_of_mem_words wf arg
  exact native (head_of_cstr hd hw ▸ foreign)

end

/-! ## The whole line -/

theorem zero_not_mem_text {ts : List Token} (wf : WellFormed ts) : (0 : UInt8) ∉ text ts := by
  induction ts with
  | nil => exact List.not_mem_nil
  | cons t ts ih =>
      refine fun mem => (List.mem_append.1 mem).elim (fun mem => ?_) (ih wf.tail)
      cases t with
      | blank c =>
          obtain rfl := List.mem_singleton.1 mem
          exact absurd wf.1.1 (by decide)
      | word w => exact wf.1.1.zero_not_mem mem
      | redirect op gap name =>
          obtain mem | mem := List.mem_append.1 mem
          · obtain mem | mem := List.mem_append.1 mem
            · cases op <;> exact absurd mem (by decide)
            · exact (isSpace_skip wf.1.1 0 mem).2 rfl
          · exact wf.1.2.1.zero_not_mem mem

/-- The newline is overwritten. -/
theorem cmdBuf_line {body : List UInt8} (noNul : 0 ∉ body) (len : body.length + 1 < bufSize) :
    cmdBuf (body ++ [newline]) = some (body ++ zeros (bufSize - body.length)) := by
  obtain ⟨k, hk⟩ : ∃ k, bufSize = body.length + 1 + (k + 1) :=
    ⟨bufSize - body.length - 2, by omega⟩
  have buffer : body ++ [newline] ++ List.replicate (bufSize - (body ++ [newline]).length) 0 =
      body ++ [newline] ++ 0 :: zeros k := by
    have : bufSize - (body ++ [newline]).length = k + 1 := by simp; omega
    rw [this, List.replicate_succ, zeros]
  have noNul' : (0 : UInt8) ∉ body ++ [newline] := by
    simpa using ⟨noNul, show (0 : UInt8) ≠ newline by decide⟩
  have string : HasString (body ++ [newline] ++ 0 :: zeros k) 0 (body ++ [newline]) :=
    ⟨noNul', zeros k, rfl⟩
  have strlen_eq : strlen (body ++ [newline] ++ 0 :: zeros k) = body.length + 1 := by
    rw [strlen, string.cstr, List.length_append, List.length_singleton]
  have left : bufSize - body.length = k + 1 + 1 := by omega
  rw [cmdBuf, buffer, strlen_eq, left]
  simp [store0, zeros, List.replicate_succ]

theorem parse_line {body : List UInt8} (noNul : 0 ∉ body) (len : body.length + 1 < bufSize) :
    parse (body ++ [newline]) =
      ((scanAt [] (body ++ zeros (bufSize - body.length)) [] 0 none none).loop
        (bufSize + 1)).bind fun s => if s.argv.length < argvSize then some s else none := by
  rw [parse, cmdBuf_line noNul len]
  rfl

section

variable {ts : List Token}

/-- A redirection that is followed by something else costs an argument. -/
theorem spaced_of_accepts (wf : WellFormed ts) (len : (text ts).length + 1 < bufSize)
    (h : Accepts ts) : Spaced ts := by
  obtain ⟨s, parsed, args, -⟩ := h
  by_contra crowded
  rw [parse_line (zero_not_mem_text wf) len] at parsed
  obtain ⟨s', loop, kept⟩ := Option.bind_eq_some_iff.1 parsed
  obtain ⟨-, rfl⟩ : s'.argv.length < argvSize ∧ s' = s := by simpa using kept
  exact (spoiled_of_not_spaced wf crowded (by omega) loop).args_ne wf args

theorem accepts_of_spaced (wf : WellFormed ts) (len : (text ts).length + 1 < bufSize)
    (few : (words ts).length < argvSize) (spaced : Spaced ts) : Accepts ts := by
  have start : PointsTo [] [] none none [] none none := ⟨.nil, .none, .none⟩
  have few' : ([] : List ℕ).length + (words ts).length < argvSize := by
    rw [List.length_nil]
    omega
  obtain ⟨s, loop, points⟩ : Reads ts [] none none ((scanAt []
      (text ts ++ zeros (bufSize - (text ts).length)) [] 0 none none).loop (bufSize + 1)) :=
    loop_of_spaced wf spaced (by omega) (by omega) (fun _ => by omega) few' start
  rw [Option.or_none, Option.or_none, List.nil_append] at points
  have argc : s.argv.length = (words ts).length := points.argv.length_eq
  have parsed : parse (text ts ++ [newline]) = some s := by
    rw [parse_line (zero_not_mem_text wf) len, loop, Option.bind_some, if_pos (argc ▸ few)]
  exact ⟨s, parsed, map_cstr_of_forall₂ points.argv, map_cstr_of_rel points.input,
    map_cstr_of_rel points.output⟩

/-- For a line that fits into `cmd_buf` and `argv`. -/
theorem accepts_iff_spaced (wf : WellFormed ts) (len : (text ts ++ [newline]).length ≤ 1022)
    (few : (words ts).length ≤ 31) : Accepts ts ↔ Spaced ts := by
  have fits : (text ts).length + 1 < bufSize := by
    rw [List.length_append, List.length_singleton] at len
    exact len.trans_lt (by decide)
  exact ⟨spaced_of_accepts wf fits, accepts_of_spaced wf fits (few.trans_lt (by decide))⟩

end

/-- `>out  ls` -/
theorem accepts_twoBlanks :
    Accepts [.redirect .output [] [111, 117, 116], .blank 32, .blank 32, .word [108, 115]] :=
  (accepts_iff_spaced (by decide +kernel) (by decide) (by decide)).2 ⟨trivial, trivial⟩

/-- `ls > out`: the end of the line becomes an argument. -/
theorem not_accepts_lastRedirection :
    let ts := [.word [108, 115], .blank 32, .redirect .output [32] [111, 117, 116]]
    WellFormed ts ∧ (parse (text ts ++ [newline])).map Scan.args = some (words ts ++ [[]]) ∧
      ¬ Accepts ts := by
  have wf : WellFormed [.word [108, 115], .blank 32, .redirect .output [32] [111, 117, 116]] := by
    decide +kernel
  exact ⟨wf, by decide +kernel, fun h => (spaced_of_accepts wf (by decide) h).1⟩

end LinuxNote.Shell
