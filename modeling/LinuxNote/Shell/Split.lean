import LinuxNote.Shell.MiniShellParse
import LinuxNote.Text.Buffer
import LinuxNote.Text.Line

/-!
# The tokenising loops of `shell.c` and `Myshell.c`

Each word gets a NUL behind it, and the loop goes on behind that NUL, where the text may have ended.
It does not run away there: in front of the NUL that `fgets` has written stands the one that has
replaced the newline.  So what the array held before does not matter, and the three shells split a
line alike (`args_eq_runs`).
-/

namespace LinuxNote.Shell

open Text (overlay str)

/-- The maximal runs of bytes that are no white space. -/
def runs (line : List UInt8) : List (List UInt8) := (line.splitOnP isspace).filter (· ≠ [])

/-! ## The programs -/

/-- `inbuf[strlen(inbuf) - 1] = '\0'` -/
def chop (buf : List UInt8) : Option (List UInt8) := do
  let line ← str buf
  if line = [] then none else store0 buf (line.length - 1)

/-- The local variables of the loop of `shell.c`; that of `Myshell.c` has a pointer for `i`. -/
structure Split where
  buf : List UInt8
  i : ℕ
  argv : List ℕ
  deriving DecidableEq

/-- `argv[argc++] = &inbuf[i]`, and a NUL behind the word. -/
def Split.word (s : Split) : Option Split := do
  if s.argv.length < argvSize then
    let n ← skip (!isspace ·) (s.buf.drop s.i)
    let buf ← store0 s.buf (s.i + n)
    some ⟨buf, s.i + n, s.argv ++ [s.i]⟩
  else none

/-- `i++` -/
def Split.next (s : Split) : Split := { s with i := s.i + 1 }

/-- One round, where `c` is `inbuf[i]`. -/
def Split.round (c : UInt8) (s : Split) : Option Split :=
  if isspace c then some s.next else s.word.map next

/-- `while (inbuf[i])`; each round moves `i`, so the fuel is enough when it is more than the length
of the array. -/
def Split.loop : ℕ → Split → Option Split
  | 0, _ => none
  | fuel + 1, s => s.buf[s.i]?.bind fun c => if c = 0 then some s else (s.round c).bind (loop fuel)

def Split.args (s : Split) : List (List UInt8) := s.argv.map (cstr s.buf)

/-- From `fgets` to `argv[argc] = NULL`. -/
def split (inbuf : List UInt8) : Option Split := do
  let buf ← chop inbuf
  let s ← Split.loop (bufSize + 1) ⟨buf, 0, []⟩
  if s.argv.length < argvSize then some s else none

/-- `char inbuf[1024] = { 0 }` -/
def zeroed : List UInt8 := List.replicate bufSize 0

/-- The arguments that `shell.c` finds in a line. -/
def shellArgs (line : List UInt8) : Option (List (List UInt8)) :=
  (split (overlay (line ++ [0]) zeroed)).map Split.args

/-- Those that `Myshell.c` finds, where its array held `old`. -/
def myshellArgs (old line : List UInt8) : Option (List (List UInt8)) :=
  (split (overlay (line ++ [0]) old)).map Split.args

/-- Those that `mini_shell.c` finds. -/
def miniShellArgs (line : List UInt8) : Option (List (List UInt8)) := (parse line).map Scan.args

/-! ## Runs -/

theorem runs_nil : runs [] = [] := rfl

section Runs

variable {c : UInt8} {w l : List UInt8}

theorem runs_blank (h : isspace c) : runs (c :: l) = runs l := by
  rw [runs, List.splitOnP_cons_eq_if_modifyHead, if_pos h]
  rfl

theorem not_isspace_of_isRun (h : IsRun w) : ∀ d ∈ w, isspace d = false :=
  fun d hd => Bool.eq_false_iff.2 (h.2 d hd).1

theorem runs_word (h : IsRun w) : runs w = [w] := by
  rw [runs, List.splitOnP_eq_singleton (not_isspace_of_isRun h), List.filter_cons_of_pos]
  · rfl
  · simpa using h.1

theorem runs_word_blank (h : IsRun w) (hc : isspace c) : runs (w ++ c :: l) = w :: runs l := by
  rw [runs, List.splitOnP_append_cons_of_forall_mem (not_isspace_of_isRun h) c hc,
    List.filter_cons_of_pos]
  · rfl
  · simpa using h.1

/-- A line is empty, or begins with white space, or with a run up to white space or its end. -/
theorem line_cases (noNul : 0 ∉ l) :
    l = [] ∨ (∃ c l', l = c :: l' ∧ isspace c) ∨
      ∃ w l', l = w ++ l' ∧ IsRun w ∧ (l' = [] ∨ ∃ c l'', l' = c :: l'' ∧ isspace c) := by
  cases l with
  | nil => exact Or.inl rfl
  | cons c l =>
      right
      by_cases hc : isspace c
      · exact Or.inl ⟨c, l, rfl, hc⟩
      · right
        refine ⟨(c :: l).takeWhile (!isspace ·), (c :: l).dropWhile (!isspace ·),
          List.takeWhile_append_dropWhile.symm, ⟨?_, fun d hd => ⟨?_, ?_⟩⟩, ?_⟩
        · rw [List.takeWhile_cons_of_pos (by simpa using hc)]
          exact List.cons_ne_nil _ _
        · simpa using List.mem_takeWhile_imp hd
        · rintro rfl
          exact noNul (List.takeWhile_subset _ hd)
        · cases tail : (c :: l).dropWhile (!isspace ·) with
          | nil => exact Or.inl rfl
          | cons d l' =>
              have stop := List.head?_dropWhile_not (!isspace ·) (c :: l)
              rw [tail] at stop
              exact Or.inr ⟨d, l', rfl, by simpa using stop⟩

end Runs

/-! ## One loop for all -/

/-- The loop `L` stops at a NUL, steps over white space, and turns a run of bytes into an argument
when the run does not begin with a special byte.  `L fuel done rest argv` is its result when it has
passed `done`, before `rest`. -/
structure Tokenises {σ : Type*} (L : ℕ → List UInt8 → List UInt8 → List ℕ → Option σ)
    (buf : σ → List UInt8) (argv : σ → List ℕ) (Special : UInt8 → Prop) : Prop where
  stop : ∀ fuel done rest av, ∃ s, L (fuel + 1) done (0 :: rest) av = some s ∧
    buf s = done ++ 0 :: rest ∧ argv s = av
  blank : ∀ fuel done c rest av, isspace c →
    L (fuel + 1) done (c :: rest) av = L fuel (done ++ [c]) rest av
  word : ∀ fuel done w c rest av, IsRun w → Stops c → (∀ d ∈ w.head?, ¬ Special d) →
    av.length < argvSize →
    L (fuel + 1) done (w ++ c :: rest) av = L fuel (done ++ w ++ [0]) rest (av ++ [done.length])

theorem forall₂_append {done : List UInt8} {av : List ℕ} {ws : List (List UInt8)}
    (h : List.Forall₂ (HasString done) av ws) (more : List UInt8) :
    List.Forall₂ (HasString (done ++ more)) av ws := h.imp fun _ _ h => h.append more

section Tokenises

variable {σ : Type*} {L : ℕ → List UInt8 → List UInt8 → List ℕ → Option σ}
variable {buf : σ → List UInt8} {argv : σ → List ℕ} {Special : UInt8 → Prop}

/-- Before the text stands a NUL, and behind a text that is not empty a second one. -/
theorem Tokenises.exists_args (T : Tokenises L buf argv Special) {rest done t : List UInt8}
    {ws : List (List UInt8)} {av : List ℕ} {fuel : ℕ} (noNul : 0 ∉ rest)
    (room : rest ≠ [] → t.head? = some 0) (enough : rest.length < fuel)
    (few : av.length + (runs rest).length < argvSize)
    (plain : ∀ w ∈ runs rest, ∀ c ∈ w.head?, ¬ Special c)
    (points : List.Forall₂ (HasString done) av ws) :
    ∃ s, L fuel done (rest ++ 0 :: t) av = some s ∧
      List.Forall₂ (HasString (buf s)) (argv s) (ws ++ runs rest) := by
  induction hn : rest.length using Nat.strong_induction_on generalizing
    rest done t ws av fuel with
  | _ n ih =>
      obtain ⟨fuel, rfl⟩ := Nat.exists_eq_add_of_le' (Nat.one_le_of_lt enough)
      rcases line_cases noNul with rfl | ⟨c, l, rfl, hc⟩ | ⟨w, l, rfl, hw, behind⟩
      · obtain ⟨s, result, hbuf, hargv⟩ := T.stop fuel done t av
        refine ⟨s, result, ?_⟩
        rw [runs_nil, List.append_nil, hbuf, hargv]
        exact forall₂_append points _
      · rw [runs_blank hc] at few plain ⊢
        rw [List.cons_append, T.blank _ _ _ _ _ hc]
        rw [List.length_cons] at hn enough
        exact ih l.length (by omega) (fun mem => noNul (List.mem_cons_of_mem _ mem))
          (fun _ => room (List.cons_ne_nil _ _)) (by omega) few plain
          (forall₂_append points [c]) rfl
      · have long := List.length_pos_iff.2 hw.1
        have noNul' : 0 ∉ l := fun mem => noNul (List.mem_append_right _ mem)
        have points' : List.Forall₂ (HasString (done ++ w ++ [0])) (av ++ [done.length])
            (ws ++ [w]) := by
          have before := forall₂_append points (w ++ [0])
          rw [← List.append_assoc] at before
          exact List.rel_append before (.cons (hasString_concat hw.zero_not_mem) .nil)
        rw [List.length_append] at hn enough
        rcases behind with rfl | ⟨c, l, rfl, hc⟩
        · -- the loop writes over the first NUL and stops at the second
          obtain ⟨t, rfl⟩ := List.head?_eq_some_iff.1 (room (by simpa using hw.1))
          obtain ⟨fuel, rfl⟩ := Nat.exists_eq_add_of_le' (show 1 ≤ fuel by omega)
          rw [List.append_nil, runs_word hw] at few plain ⊢
          rw [List.length_singleton] at few
          obtain ⟨s, result, hbuf, hargv⟩ :=
            T.stop fuel (done ++ w ++ [0]) t (av ++ [done.length])
          refine ⟨s, (T.word _ _ _ _ _ _ hw (Or.inr rfl) (plain w (List.mem_singleton_self w))
            (by omega)).trans result, ?_⟩
          rw [hbuf, hargv]
          exact forall₂_append points' _
        · rw [runs_word_blank hw hc] at few plain ⊢
          rw [List.length_cons] at hn enough few
          have more : (av ++ [done.length]).length + (runs l).length < argvSize := by
            rw [List.length_append, List.length_singleton]
            omega
          have shorter : l.length < fuel := by omega
          obtain ⟨s, result, args⟩ := ih l.length (by omega)
            (fun mem => noNul' (List.mem_cons_of_mem _ mem))
            (fun _ => room (List.append_ne_nil_of_left_ne_nil hw.1 _)) shorter more
            (fun w' hw' => plain w' (List.mem_cons_of_mem _ hw')) points' rfl
          refine ⟨s, ?_, by rwa [List.append_assoc] at args⟩
          rw [List.append_assoc, List.cons_append,
            T.word _ _ _ _ _ _ hw (Or.inl hc) (plain w List.mem_cons_self) (by omega)]
          exact result

end Tokenises

/-! ## The loops of the programs -/

section Loops

variable {done rest w : List UInt8} {argv : List ℕ} {c : UInt8}

/-- The loop of `shell.c` has passed `done`, before `rest`. -/
def splitAt (done rest : List UInt8) (argv : List ℕ) : Split := ⟨done ++ rest, done.length, argv⟩

theorem next_splitAt : (splitAt done (c :: rest) argv).next = splitAt (done ++ [c]) rest argv := by
  simp [splitAt, Split.next]

theorem loop_splitAt {fuel : ℕ} : Split.loop (fuel + 1) (splitAt done (c :: rest) argv) =
    if c = 0 then some (splitAt done (c :: rest) argv)
    else ((splitAt done (c :: rest) argv).round c).bind (Split.loop fuel) := by
  have char : (splitAt done (c :: rest) argv).buf[(splitAt done (c :: rest) argv).i]? = some c := by
    simp [splitAt]
  rw [Split.loop, char]
  rfl

theorem word_splitAt (hw : IsRun w) (hc : Stops c) (few : argv.length < argvSize) :
    (splitAt done (w ++ c :: rest) argv).word =
      some (splitAt (done ++ w) (0 :: rest) (argv ++ [done.length])) := by
  have run : skip (!isspace ·) (w ++ c :: rest) = some w.length := by
    refine skip_append (fun d hd => ?_) ?_
    · exact ⟨by simpa using (hw.2 d hd).1, (hw.2 d hd).2⟩
    · rintro ⟨graph, nonzero⟩
      rcases hc with space | rfl
      · simp [space] at graph
      · exact nonzero rfl
  have store : store0 (done ++ (w ++ c :: rest)) (done.length + w.length) =
      some (done ++ w ++ 0 :: rest) := by
    simp [store0]
  show (if argv.length < argvSize then _ else none) = _
  rw [if_pos few]
  simp only [splitAt, List.drop_left, run, store, Option.bind_eq_bind, Option.bind_some,
    List.length_append]

theorem tokenises_split :
    Tokenises (fun fuel done rest av => Split.loop fuel (splitAt done rest av))
    Split.buf Split.argv fun _ => False where
  stop fuel done rest av :=
    ⟨splitAt done (0 :: rest) av, by rw [loop_splitAt, if_pos rfl], rfl, rfl⟩
  blank fuel done c rest av hc := by
    have nonzero : c ≠ 0 := by
      rintro rfl
      exact absurd hc (by decide)
    rw [loop_splitAt, if_neg nonzero, Split.round, if_pos hc, next_splitAt]
    rfl
  word fuel done w c rest av hw hc _ few := by
    obtain ⟨d, w', rfl⟩ := List.exists_cons_of_ne_nil hw.1
    obtain ⟨graph, nonzero⟩ := hw.2 d List.mem_cons_self
    rw [List.cons_append, loop_splitAt, if_neg nonzero, Split.round, if_neg graph,
      ← List.cons_append, word_splitAt hw hc few, Option.map_some, next_splitAt]
    rfl

theorem tokenises_scan :
    Tokenises (fun fuel done rest av => (scanAt done rest av 0 none none).loop fuel) Scan.buf
      Scan.argv fun c => c = lt ∨ c = gt where
  stop fuel done rest av := ⟨_, loop_zero, rfl, rfl⟩
  blank fuel done c rest av hc := by
    have nonzero : c ≠ 0 := by
      rintro rfl
      exact absurd hc (by decide)
    have plain : ¬ (c = lt ∨ c = gt) := fun special => not_isspace_op special hc
    obtain ⟨ne_lt, ne_gt⟩ := not_or.1 plain
    rw [loop_succ nonzero, Scan.round, if_neg ne_gt, if_neg ne_lt, finish_blank hc]
    rfl
  word fuel done w c rest av hw hc plain few := by
    obtain ⟨d, w', rfl⟩ := List.exists_cons_of_ne_nil hw.1
    obtain ⟨ne_lt, ne_gt⟩ := not_or.1 (plain d rfl)
    rw [List.cons_append, loop_succ (hw.2 d List.mem_cons_self).2, Scan.round, if_neg ne_gt,
      if_neg ne_lt, ← List.cons_append, finish_word hw hc, if_pos few]
    rfl

end Loops

/-! ## Lines -/

section Lines

variable {body old : List UInt8}

theorem noNul_line (noNul : 0 ∉ body) : 0 ∉ body ++ [newline] := by
  simpa using ⟨noNul, show (0 : UInt8) ≠ newline by decide⟩

theorem runs_line (body : List UInt8) : runs (body ++ [newline]) = runs body := by
  have split : (body ++ [newline]).splitOnP isspace =
      body.splitOnP isspace ++ [].splitOnP isspace :=
    List.splitOnP_append_cons body [] (by decide)
  rw [runs, split, List.filter_append]
  exact List.append_nil _

/-- The newline becomes a NUL, in front of the one of `fgets`. -/
theorem chop_line (noNul : 0 ∉ body) : chop (overlay (body ++ [newline] ++ [0]) old) =
    some (body ++ 0 :: 0 :: old.drop (body.length + 2)) := by
  have line : str (overlay (body ++ [newline] ++ [0]) old) = some (body ++ [newline]) := by
    rw [Text.str_overlay, Text.text_eq (noNul_line noNul)]
  simp only [chop, line, Option.bind_eq_bind, Option.bind_some]
  rw [if_neg (by simp)]
  simp [store0, overlay]

/-- `shell.c` and `Myshell.c` find the runs, whatever the array held. -/
theorem split_line (noNul : 0 ∉ body) (fits : body.length < bufSize)
    (few : (runs body).length < argvSize) :
    (split (overlay (body ++ [newline] ++ [0]) old)).map Split.args = some (runs body) := by
  have few' : ([] : List ℕ).length + (runs body).length < argvSize := by
    rwa [List.length_nil, Nat.zero_add]
  obtain ⟨s, loop, points⟩ := tokenises_split.exists_args (t := 0 :: old.drop (body.length + 2))
    noNul (fun _ => rfl) (Nat.lt_succ_of_lt fits) few' (fun _ _ _ _ => id)
    (.nil (R := HasString []))
  have argc : s.argv.length = (runs body).length := points.length_eq
  have start : Split.loop (bufSize + 1) ⟨body ++ 0 :: 0 :: old.drop (body.length + 2), 0, []⟩ =
      some s := loop
  rw [split, chop_line noNul]
  simp only [Option.bind_eq_bind, Option.bind_some, start, if_pos (argc ▸ few), Option.map_some]
  exact congrArg some (map_cstr_of_forall₂ points)

/-- So does `mini_shell.c` where no run begins with an operator. -/
theorem miniShellArgs_line (noNul : 0 ∉ body) (fits : body.length + 1 < bufSize)
    (few : (runs body).length < argvSize)
    (plain : ∀ w ∈ runs body, w.head? ≠ some lt ∧ w.head? ≠ some gt) :
    miniShellArgs (body ++ [newline]) = some (runs body) := by
  obtain ⟨k, hk⟩ : ∃ k, bufSize - body.length = k + 2 := ⟨bufSize - body.length - 2, by omega⟩
  have few' : ([] : List ℕ).length + (runs body).length < argvSize := by
    rwa [List.length_nil, Nat.zero_add]
  have plain' : ∀ w ∈ runs body, ∀ c ∈ w.head?, ¬ (c = lt ∨ c = gt) := by
    rintro w hw c hc (rfl | rfl)
    · exact (plain w hw).1 hc
    · exact (plain w hw).2 hc
  have enough : body.length < bufSize + 1 := by omega
  obtain ⟨s, loop, points⟩ := tokenises_scan.exists_args (t := zeros (k + 1)) noNul
    (fun _ => rfl) enough few' plain' (.nil (R := HasString []))
  have argc : s.argv.length = (runs body).length := points.length_eq
  have start : (scanAt [] (body ++ zeros (bufSize - body.length)) [] 0 none none).loop
      (bufSize + 1) = some s := by
    rw [hk]
    exact loop
  rw [miniShellArgs, parse_line noNul fits, start, Option.bind_some, if_pos (argc ▸ few)]
  exact congrArg some (map_cstr_of_forall₂ points)

end Lines

/-- What `fgets` delivers for a line that fits into the array, has at most 31 words, and none that
begins with an operator. -/
structure Ordinary (line : List UInt8) : Prop where
  ends : line.getLast? = some newline
  noNul : 0 ∉ line
  fits : line.length ≤ 1022
  few : (runs line).length ≤ 31
  plain : ∀ w ∈ runs line, w.head? ≠ some lt ∧ w.head? ≠ some gt

section Ordinary

variable {line : List UInt8}

theorem Ordinary.exists_body (h : Ordinary line) :
    ∃ body, line = body ++ [newline] ∧ 0 ∉ body ∧ body.length + 1 < bufSize ∧
      (runs body).length < argvSize := by
  obtain ⟨body, rfl⟩ := List.getLast?_eq_some_iff.1 h.ends
  have fits := h.fits
  have few := h.few
  rw [List.length_append, List.length_singleton] at fits
  rw [runs_line] at few
  exact ⟨body, rfl, fun mem => h.noNul (List.mem_append_left _ mem), fits.trans_lt (by decide),
    few.trans_lt (by decide)⟩

theorem Ordinary.split (h : Ordinary line) (old : List UInt8) :
    (split (overlay (line ++ [0]) old)).map Split.args = some (runs line) := by
  obtain ⟨body, rfl, noNul, fits, few⟩ := h.exists_body
  rw [runs_line]
  exact split_line noNul (Nat.lt_of_succ_lt fits) few

theorem Ordinary.parse (h : Ordinary line) : miniShellArgs line = some (runs line) := by
  have plain := h.plain
  obtain ⟨body, rfl, noNul, fits, few⟩ := h.exists_body
  rw [runs_line] at plain ⊢
  exact miniShellArgs_line noNul fits few plain

end Ordinary

/-- For every line, and whatever the array of `Myshell.c` held: the arguments are the runs. -/
theorem args_eq_runs {line : List UInt8} (h : Ordinary line) (old : List UInt8) :
    shellArgs line = some (runs line) ∧ myshellArgs old line = some (runs line) ∧
      miniShellArgs line = some (runs line) := ⟨h.split zeroed, h.split old, h.parse⟩

/-- "ls  -l\n" -/
theorem args_eq_runs_ls : shellArgs [108, 115, 32, 32, 45, 108, 10] = some [[108, 115], [45, 108]] ∧
    myshellArgs (List.replicate bufSize 120) [108, 115, 32, 32, 45, 108, 10] =
      some [[108, 115], [45, 108]] ∧
    miniShellArgs [108, 115, 32, 32, 45, 108, 10] = some [[108, 115], [45, 108]] :=
  args_eq_runs ⟨by decide, by decide, by decide, by decide, by decide⟩ _

end LinuxNote.Shell
