import LinuxNote.Shell.Items

/-!
# Which lines keep the shells inside their arrays

`safe_iff_fits`: whatever lies behind the line buffer, a shell writes only inside the buffer and
inside `argv` exactly when the string delivered is not empty, its words leave a place for the NULL,
and the loop of `mini_shell.c` ends at a NUL in front of the end of the array.  The loop can only
run past the end where a file name ends at the last byte that `fgets` delivers: then it reads on
behind the array and takes for words what it finds there (`exists_items`).
-/

namespace LinuxNote.Shell

open Text (str)

/-- An access that does not write, or writes inside the array. -/
def Access.Fits : Access → Prop
  | .read _ => True
  | .write i => 0 ≤ i ∧ i < bufSize
  | .argv k => k < argvSize

/-- Whether the parsing loop knows redirections. -/
def Program.redirects : Program → Bool
  | .miniShell => true
  | .shell | .myshell => false

/-- The line buffer when `fgets` has delivered `line`, or nothing; without an initial value it held
`old`. -/
def Program.array (old line : List UInt8) : Program → List UInt8
  | .myshell => fgets line old
  | .shell | .miniShell => fgets line zeroed

/-- What `fgets` writes. -/
def fgetsWrites (line : List UInt8) : List Access :=
  if line = [] then [] else (List.range (line.length + 1)).map fun i : ℕ => .write i

/-- The accesses from `fgets` to `argv[argc] = NULL`; `beyond` lies behind the buffer. -/
def Program.accesses (p : Program) (old line beyond : List UInt8) : Option (List Access) :=
  let mem := p.array old line ++ beyond
  ((pass (cut mem) []).loop p.redirects (mem.length + 1)).map fun q =>
    fgetsWrites line ++ [.write ((strlen mem : ℤ) - 1)] ++ q.log ++ [.argv q.argv.length]

/-- All writes are inside. -/
def Program.Safe (p : Program) (old line : List UInt8) : Prop :=
  ∀ beyond, ∃ log, p.accesses old line beyond = some log ∧ ∀ a ∈ log, a.Fits

/-- The string that has been delivered, its words and the place where the loop stops. -/
def Program.Fits (p : Program) (old line : List UInt8) : Prop :=
  ∃ text, str (p.array old line) = some text ∧ text ≠ [] ∧
    match p with
    | .shell | .myshell => (runs text.dropLast).length < argvSize
    | .miniShell =>
        argCount (items true (command line [])).1 < argvSize ∧ (items true (command line [])).2 ≠ []

/-! ## Items before two NULs -/

/-- What is left of bytes with two NULs behind them, of which one may have been taken. -/
def CutShort (k : ℕ) (s : List UInt8) : Prop :=
  s = [0] ∨ ∃ m : List UInt8, m.length ≤ k ∧ s = m ++ [0, 0]

section

variable {redirects : Bool} {f : UInt8 → Bool} {m s t : List UInt8} {c : UInt8} {k k' : ℕ}

theorem CutShort.mono (h : CutShort k s) (le : k ≤ k') : CutShort k' s := by
  rcases h with h | ⟨m, len, h⟩
  · exact Or.inl h
  · exact Or.inr ⟨m, len.trans le, h⟩

theorem dropWhile_zero : (m ++ 0 :: t).dropWhile (keeps f) = m.dropWhile (keeps f) ++ 0 :: t := by
  have stop : (0 :: t).dropWhile (keeps f) = 0 :: t := by
    rw [List.dropWhile_cons_of_neg]
    rw [keeps_zero]
    exact Bool.false_ne_true
  rw [List.dropWhile_append, stop]
  split
  · next empty => rw [List.isEmpty_iff.1 empty, List.nil_append]
  · rfl

/-- The byte behind a run is a NUL or a byte before the NULs. -/
theorem tail_cutShort (m : List UInt8) :
    ∃ s, (∀ t, (m ++ 0 :: 0 :: t).tail = s ++ t) ∧ CutShort (m.length - 1) s := by
  cases m with
  | nil => exact ⟨[0], fun t => rfl, Or.inl rfl⟩
  | cons c m => exact ⟨m ++ [0, 0], fun t => by simp, Or.inr ⟨m, le_rfl, rfl⟩⟩

theorem behindName_cutShort (m : List UInt8) :
    ∃ s, (∀ t, behindName (m ++ 0 :: 0 :: t) = s ++ t) ∧ CutShort m.length s := by
  obtain ⟨s, eq, short⟩ :=
    tail_cutShort ((m.dropWhile (keeps isspace)).dropWhile (keeps (!isspace ·)))
  refine ⟨s, fun t => ?_, short.mono ?_⟩
  · rw [behindName, dropWhile_zero, dropWhile_zero, eq]
  · have := List.length_dropWhile_le (keeps (!isspace ·)) (m.dropWhile (keeps isspace))
    have := List.length_dropWhile_le (keeps isspace) m
    omega

theorem behindWord_cutShort (m : List UInt8) :
    ∃ s, (∀ t, behindWord (m ++ 0 :: 0 :: t) = s ++ t) ∧ CutShort (m.length - 1) s := by
  by_cases space : isspace (m.headD 0)
  · cases m with
    | nil => cases space
    | cons c m =>
        refine ⟨m ++ [0, 0], fun t => ?_, Or.inr ⟨m, le_rfl, rfl⟩⟩
        rw [behindWord, if_pos (by simpa using space)]
        simp
  · obtain ⟨s, eq, short⟩ := tail_cutShort (m.dropWhile (keeps (!isspace ·)))
    refine ⟨s, fun t => ?_, short.mono ?_⟩
    · have head : (m ++ 0 :: 0 :: t).headD 0 = m.headD 0 := by cases m <;> rfl
      rw [behindWord, if_neg (by rwa [head]), dropWhile_zero, eq]
    · have := List.length_dropWhile_le (keeps (!isspace ·)) m
      omega

/-- A redirection leaves less; where there is none, all is left. -/
theorem redirection_cutShort (redirects : Bool) (c : UInt8) (m : List UInt8) :
    ∃ o s, (∀ t, redirection redirects (c :: m ++ 0 :: 0 :: t) = (o, s ++ t)) ∧
      (CutShort m.length s ∨ s = c :: m ++ [0, 0]) := by
  obtain ⟨s, eq, short⟩ := behindName_cutShort m
  by_cases out : redirects ∧ c = gt
  · cases m with
    | nil =>
        refine ⟨some .output, s, fun t => ?_, Or.inl short⟩
        rw [redirection, if_pos (by simpa using out), if_neg (by simp [gt])]
        exact congrArg _ (eq t)
    | cons d m =>
        by_cases double : d = gt
        · obtain ⟨s, eq, short⟩ := behindName_cutShort m
          refine ⟨some .append, s, fun t => ?_, Or.inl (short.mono (Nat.le_succ _))⟩
          rw [redirection, if_pos (by simpa using out), if_pos (by simpa using double)]
          exact congrArg _ (eq t)
        · refine ⟨some .output, s, fun t => ?_, Or.inl short⟩
          rw [redirection, if_pos (by simpa using out), if_neg (by simpa using double)]
          exact congrArg _ (eq t)
  · by_cases inp : redirects ∧ c = lt
    · refine ⟨some .input, s, fun t => ?_, Or.inl short⟩
      rw [redirection, if_neg (by simpa using out), if_pos (by simpa using inp)]
      exact congrArg _ (eq t)
    · refine ⟨none, c :: m ++ [0, 0], fun t => ?_, Or.inr rfl⟩
      rw [redirection, if_neg (by simpa using out), if_neg (by simpa using inp)]
      simp

theorem item_cutShort (redirects : Bool) (c : UInt8) (m : List UInt8) :
    ∃ i s, (∀ t, item redirects (c :: m ++ 0 :: 0 :: t) = (i, s ++ t)) ∧
      (s = [] ∨ CutShort m.length s) := by
  obtain ⟨o, s, eq, short⟩ := redirection_cutShort redirects c m
  have word : s = [0] ∨ ∃ m', m'.length ≤ m.length + 1 ∧ s = m' ++ [0, 0] := by
    rcases short with (h | ⟨m', len, h⟩) | h
    · exact Or.inl h
    · exact Or.inr ⟨m', by omega, h⟩
    · exact Or.inr ⟨c :: m, le_rfl, h⟩
  rcases word with rfl | ⟨m', len, rfl⟩
  · refine ⟨⟨o, true⟩, [], fun t => ?_, Or.inl rfl⟩
    rw [item, eq]
    rfl
  · obtain ⟨s, word, short⟩ := behindWord_cutShort m'
    refine ⟨⟨o, !isspace ((m' ++ [0, 0]).headD 0)⟩, s, fun t => ?_, Or.inr (short.mono (by omega))⟩
    have head : (m' ++ [0, 0] ++ t).headD 0 = (m' ++ [0, 0]).headD 0 := by cases m' <;> rfl
    have behind : behindWord (m' ++ [0, 0] ++ t) = s ++ t := by
      rw [List.append_assoc]
      exact word t
    rw [item, eq, ← behind]
    dsimp only
    rw [head]

theorem items_zero : items redirects (0 :: t) = ([], 0 :: t) := by
  rw [items, dif_pos (by rfl)]

/-- The items of bytes with two NULs behind them: the loop stops at one of these, or goes on with
what follows them. -/
theorem exists_items (redirects : Bool) (m : List UInt8) :
    ∃ is s, ∀ t, items redirects (m ++ 0 :: 0 :: t) =
      if s = [] then (is ++ (items redirects t).1, (items redirects t).2) else (is, s ++ t) := by
  induction hn : m.length using Nat.strong_induction_on generalizing m with
  | _ n ih =>
      by_cases stop : m.headD 0 = 0
      · refine ⟨[], m ++ [0, 0], fun t => ?_⟩
        have head : (m ++ 0 :: 0 :: t).headD 0 = m.headD 0 := by cases m <;> rfl
        rw [items, dif_pos (head.trans stop), if_neg (by simp)]
        simp
      · obtain ⟨c, m, rfl⟩ := List.exists_cons_of_ne_nil fun e : m = [] => stop (by rw [e]; rfl)
        obtain ⟨i, s, eq, short⟩ := item_cutShort redirects c m
        have first : ∀ t, items redirects (c :: m ++ 0 :: 0 :: t) =
            (i :: (items redirects (s ++ t)).1, (items redirects (s ++ t)).2) := by
          intro t
          have some : ¬ (c :: m ++ 0 :: 0 :: t).headD 0 = 0 := stop
          rw [items, dif_neg some, eq]
        rcases short with rfl | rfl | ⟨m', len, rfl⟩
        · refine ⟨[i], [], fun t => ?_⟩
          rw [first, if_pos rfl]
          rfl
        · refine ⟨[i], [0], fun t => ?_⟩
          have zero : items redirects ([0] ++ t) = ([], [0] ++ t) := items_zero
          rw [first, zero, if_neg (by simp)]
        · obtain ⟨is, s, rest⟩ := ih m'.length (by rw [← hn, List.length_cons]; omega) m' rfl
          refine ⟨i :: is, s, fun t => ?_⟩
          have later : m' ++ [0, 0] ++ t = m' ++ 0 :: 0 :: t := by simp
          rw [first, later, rest]
          split <;> rfl

theorem item_blank (hc : isspace c) : item false (c :: t) = (⟨none, false⟩, t) := by
  have plain : item false (c :: t) = (⟨none, !isspace c⟩, behindWord (c :: t)) := rfl
  rw [plain, behindWord, if_pos (show isspace ((c :: t).headD 0) from hc), hc]
  rfl

/-- A run is taken together with the byte behind it. -/
theorem item_run {w : List UInt8} (hw : IsRun w) (hc : Stops c) :
    item false (w ++ c :: t) = (⟨none, true⟩, t) ∧ (w ++ c :: t).headD 0 ≠ 0 := by
  obtain ⟨d, w, rfl⟩ := List.exists_cons_of_ne_nil hw.1
  have graph := hw.2 d List.mem_cons_self
  have space : isspace ((d :: w ++ c :: t).headD 0) = false := Bool.eq_false_iff.2 graph.1
  have plain : item false (d :: w ++ c :: t) =
      (⟨none, !isspace ((d :: w ++ c :: t).headD 0)⟩, behindWord (d :: w ++ c :: t)) := rfl
  have run : ∀ e ∈ d :: w, keeps (!isspace ·) e := fun e he => by
    simpa [keeps, IsGraph] using hw.2 e he
  have stop : keeps (!isspace ·) c = false := by
    rcases hc with hc | rfl
    · simp [keeps, hc]
    · exact keeps_zero _
  rw [plain, behindWord, space, List.dropWhile_append_of_pos run,
    List.dropWhile_cons_of_neg (by rw [stop]; exact Bool.false_ne_true)]
  exact ⟨rfl, graph.2⟩

/-- Without redirections a word is taken for each run, and the loop stops at one of the NULs. -/
theorem items_words (noNul : 0 ∉ m) (t : List UInt8) :
    ∃ is s, items false (m ++ 0 :: 0 :: t) = (is, s ++ t) ∧ s ≠ [] ∧
      argCount is = (runs m).length := by
  induction hn : m.length using Nat.strong_induction_on generalizing m with
  | _ n ih =>
      rcases line_cases noNul with rfl | ⟨c, l, rfl, hc⟩ | ⟨w, l, rfl, hw, behind⟩
      · exact ⟨[], [0, 0], items_zero, by simp, rfl⟩
      · have some : c ≠ 0 := fun e => by
          rw [e] at hc
          cases hc
        obtain ⟨is, s, rest, stop, count⟩ := ih l.length (by rw [← hn, List.length_cons]; omega)
          (fun mem => noNul (List.mem_cons_of_mem _ mem)) rfl
        refine ⟨⟨none, false⟩ :: is, s, ?_, stop, ?_⟩
        · rw [List.cons_append, items, dif_neg (show ¬ (c :: _).headD 0 = 0 from some),
            item_blank hc]
          simp only [rest]
        · rw [argCount_cons, count, runs_blank hc]
          simp
      · have long := List.length_pos_iff.2 hw.1
        rcases behind with rfl | ⟨c, l, rfl, hc⟩
        · obtain ⟨taken, some⟩ := item_run (t := 0 :: t) hw (Or.inr rfl)
          rw [List.append_nil]
          refine ⟨[⟨none, true⟩], [0], ?_, by simp, ?_⟩
          · rw [items, dif_neg some, taken]
            simp only [items_zero]
            rfl
          · rw [runs_word hw]
            rfl
        · obtain ⟨taken, some⟩ := item_run (t := l ++ 0 :: 0 :: t) hw (Or.inl hc)
          obtain ⟨is, s, rest, stop, count⟩ := ih l.length
            (by rw [← hn, List.length_append, List.length_cons]; omega)
            (fun mem => noNul (List.mem_append_right _ (List.mem_cons_of_mem _ mem))) rfl
          refine ⟨⟨none, true⟩ :: is, s, ?_, stop, ?_⟩
          · rw [List.append_assoc, List.cons_append, items, dif_neg some, taken]
            simp only [rest]
          · rw [argCount_cons, count, runs_word_blank hw hc, List.length_cons, Nat.add_comm]
            rfl

end

/-! ## The writes -/

section

variable {redirects : Bool} {m s t : List UInt8} {is : List Item}

/-- The loop on bytes with two NULs in the array behind them, when it stops at one of these. -/
theorem exists_loop_fits (room : m.length + 1 < bufSize)
    (stops : items redirects (m ++ 0 :: 0 :: t) = (is, s ++ t)) (before : s ≠ [])
    (few : argCount is < argvSize) {fuel : ℕ} (enough : (m ++ 0 :: 0 :: t).length < fuel) :
    ∃ q, (pass (m ++ 0 :: 0 :: t) []).loop redirects fuel = some q ∧
      (∀ a ∈ q.log, a.Fits) ∧ q.argv.length < argvSize := by
  obtain ⟨q, result, after⟩ :=
    Pass.exists_loop redirects (p := pass (m ++ 0 :: 0 :: t) []) enough
  have front : (pass (m ++ 0 :: 0 :: t) []).rest = m ++ 0 :: 0 :: t := rfl
  rw [front, stops] at after
  have args : q.argv.length = argCount is := after.args.trans (Nat.zero_add _)
  have near : q.ptr ≤ m.length + 1 := by
    have size : q.buf.length = (m ++ 0 :: 0 :: t).length := Pass.length_loop result
    have left : (q.buf.drop q.ptr).length = (s ++ t).length := congrArg List.length after.rest
    have := List.length_pos_iff.2 before
    rw [List.length_drop, size, List.length_append, List.length_append, List.length_cons,
      List.length_cons] at left
    omega
  have allows : Allows Access.Fits m.length argvSize :=
    ⟨fun _ _ => trivial, fun i le => ⟨Int.natCast_nonneg i, by omega⟩, fun k lt => lt⟩
  have start : (pass (m ++ 0 :: 0 :: t) []).Safe Access.Fits m.length (m.length + 2) := by
    refine ⟨fun i lo hi => ?_, fun a ha => absurd ha List.not_mem_nil⟩
    show (m ++ 0 :: 0 :: t).getD i 0 = 0
    obtain rfl | rfl : i = m.length ∨ i = m.length + 1 := by omega
    · simp
    · simp
  have safe := start.loop allows le_rfl (Nat.zero_le _) result (Or.inr near)
    (by rw [args]; exact few.le)
  exact ⟨q, result, safe.log, by rw [args]; exact few⟩

end

/-! ## The exact condition -/

theorem exists_of_str {buf t : List UInt8} (h : str buf = some t) :
    0 ∉ t ∧ ∃ more, buf = t ++ 0 :: more := by
  obtain ⟨mem, -⟩ := Option.ite_none_right_eq_some.1 h
  obtain ⟨s, more, rfl, noNul⟩ := List.eq_append_cons_of_mem mem
  obtain rfl := Option.some.inj ((Text.str_append noNul more).symm.trans h)
  exact ⟨noNul, more, rfl⟩

/-- The last two bytes of a cleared array are NULs. -/
theorem exists_command_eq {line : List UInt8} (fits : line.length ≤ 1022) :
    ∃ m, m.length = 1022 ∧ ∀ beyond, command line beyond = m ++ 0 :: 0 :: beyond := by
  have zeros : List.replicate (bufSize - line.length) (0 : UInt8) =
      List.replicate (1022 - line.length) 0 ++ [0, 0] := by
    rw [show [0, 0] = List.replicate 2 (0 : UInt8) from rfl, List.replicate_append_replicate]
    congr 1
    unfold bufSize
    omega
  have size : (line ++ List.replicate (1022 - line.length) 0).length = 1022 := by
    rw [List.length_append, List.length_replicate]
    omega
  generalize body : line ++ List.replicate (1022 - line.length) 0 = m at size
  have array : ∀ beyond, fgets line zeroed ++ beyond = m ++ 0 :: 0 :: beyond := by
    intro beyond
    rw [fgets_zeroed fits, zeros, ← List.append_assoc, body, List.append_assoc]
    rfl
  refine ⟨m.set ((Text.text m).length - 1) 0, by rw [List.length_set, size], fun beyond => ?_⟩
  have len : strlen (m ++ 0 :: 0 :: beyond) = (Text.text m).length :=
    congrArg List.length (Text.text_append_zero m _)
  have := Text.length_text_le m
  rw [command, array, cut, len, List.set_append_left _ _ (by omega)]

theorem argCount_words (n : ℕ) :
    argCount (items true (List.replicate n [97, 32]).flatten).1 = n := by
  induction n with
  | zero =>
      rw [items, dif_pos (by rfl)]
      rfl
  | succ n ih =>
      have first : item true (97 :: 32 :: (List.replicate n [97, 32]).flatten) =
          (⟨none, true⟩, (List.replicate n [97, 32]).flatten) := rfl
      rw [List.replicate_succ, List.flatten_cons, List.cons_append, List.cons_append,
        List.nil_append, items, dif_neg (by simp), first, argCount_cons, ih, Nat.add_comm]
      rfl

section

variable {p : Program} {old line : List UInt8}

theorem Program.length_array (h : old.length = bufSize) (fits : line.length ≤ 1022) :
    (p.array old line).length = bufSize := by
  have keeps : ∀ buf : List UInt8, buf.length = bufSize → (fgets line buf).length = bufSize := by
    intro buf size
    rw [fgets]
    split
    · exact size
    · rw [Text.length_overlay _, size]
      rw [List.length_append, List.length_singleton, size]
      unfold bufSize
      omega
  cases p with
  | myshell => exact keeps old h
  | shell | miniShell => exact keeps zeroed List.length_replicate

/-- The memory before the loop ends in two NULs inside the array, and the loop stops at one of
them. -/
theorem Program.Fits.exists_stop (ok : p.Fits old line) (h : old.length = bufSize)
    (fits : line.length ≤ 1022) (beyond : List UInt8) :
    ∃ m t is s, cut (p.array old line ++ beyond) = m ++ 0 :: 0 :: t ∧ m.length + 1 < bufSize ∧
      items p.redirects (m ++ 0 :: 0 :: t) = (is, s ++ t) ∧ s ≠ [] ∧ argCount is < argvSize := by
  obtain ⟨text, delivered, nonempty, few⟩ := ok
  obtain ⟨noNul, more, array⟩ := exists_of_str delivered
  have long := List.length_pos_iff.2 nonempty
  have words : p.redirects = false → (runs text.dropLast).length < argvSize → ∃ m t is s,
      cut (p.array old line ++ beyond) = m ++ 0 :: 0 :: t ∧ m.length + 1 < bufSize ∧
      items p.redirects (m ++ 0 :: 0 :: t) = (is, s ++ t) ∧ s ≠ [] ∧ argCount is < argvSize := by
    intro plain few
    obtain ⟨is, s, stops, before, count⟩ :=
      items_words (fun mem => noNul (List.mem_of_mem_dropLast mem)) (more ++ beyond)
    refine ⟨text.dropLast, more ++ beyond, is, s, ?_, ?_, by rw [plain, stops], before, by omega⟩
    · rw [array, List.append_assoc, List.cons_append, cut_append nonempty noNul]
    · have size := p.length_array h fits
      rw [array, List.length_append, List.length_cons] at size
      rw [List.length_dropLast]
      omega
  cases p with
  | shell | myshell => exact words rfl few
  | miniShell =>
      obtain ⟨m, size, eq⟩ := exists_command_eq fits
      obtain ⟨is, s, stops⟩ := exists_items true m
      obtain ⟨few, before⟩ := few
      have here := stops []
      rw [eq] at few before
      by_cases past : s = []
      · rw [if_pos past] at here
        rw [here] at before
        rw [items, dif_pos (by rfl)] at before
        exact absurd rfl before
      · rw [if_neg past] at here
        rw [here] at few
        refine ⟨m, beyond, is, s, eq beyond, ?_, ?_, past, few⟩
        · rw [size]
          decide
        · exact (stops beyond).trans (if_neg past)

theorem Program.safe_of_fits (h : old.length = bufSize) (fits : line.length ≤ 1022)
    (ok : p.Fits old line) : p.Safe old line := by
  intro beyond
  obtain ⟨m, t, is, s, eq, room, stops, before, few⟩ := ok.exists_stop h fits beyond
  have enough : (m ++ 0 :: 0 :: t).length < (p.array old line ++ beyond).length + 1 := by
    rw [← eq, cut, List.length_set]
    exact Nat.lt_succ_self _
  obtain ⟨q, result, log, args⟩ := exists_loop_fits room stops before few enough
  refine ⟨_, by rw [accesses, eq, result]; rfl, ?_⟩
  simp only [List.mem_append, List.mem_singleton]
  rintro a (((delivered | rfl) | looped) | rfl)
  · unfold fgetsWrites at delivered
    split at delivered
    · exact absurd delivered List.not_mem_nil
    · obtain ⟨i, hi, rfl⟩ := List.mem_map.1 delivered
      have := List.mem_range.1 hi
      exact ⟨Int.natCast_nonneg i, by unfold bufSize; omega⟩
  · obtain ⟨text, delivered, nonempty, -⟩ := ok
    obtain ⟨noNul, more, array⟩ := exists_of_str delivered
    have long := List.length_pos_iff.2 nonempty
    have size := p.length_array h fits
    rw [array, List.length_append, List.length_cons] at size
    rw [array, List.append_assoc, List.cons_append, strlen_append noNul]
    exact ⟨by omega, by omega⟩
  · exact log a looped
  · exact args

/-- Of a shell that is safe the last write is, and the one in place of the newline. -/
theorem Program.Safe.writes (safe : p.Safe old line) (beyond : List UInt8) :
    argCount (items p.redirects (cut (p.array old line ++ beyond))).1 < argvSize ∧
      0 < strlen (p.array old line ++ beyond) ∧
      strlen (p.array old line ++ beyond) ≤ bufSize := by
  obtain ⟨log, eq, fits⟩ := safe beyond
  obtain ⟨q, result, rfl⟩ := Option.map_eq_some_iff.1 eq
  have enough : (pass (cut (p.array old line ++ beyond)) []).rest.length <
      (p.array old line ++ beyond).length + 1 := by
    show (cut _).length < _
    rw [cut, List.length_set]
    exact Nat.lt_succ_self _
  obtain ⟨q', result', after⟩ := Pass.exists_loop p.redirects enough
  obtain rfl := Option.some.inj (result.symm.trans result')
  have args : q.argv.length = _ := after.args.trans (Nat.zero_add _)
  have last : Access.Fits (.argv q.argv.length) := fits _ (by simp)
  have nul : Access.Fits (.write ((strlen (p.array old line ++ beyond) : ℤ) - 1)) :=
    fits _ (by simp)
  obtain ⟨low, high⟩ := nul
  exact ⟨args ▸ last, by omega, by omega⟩

/-- Without a NUL in the array the string goes on behind it, and so do the writes. -/
theorem Program.Safe.exists_str (safe : p.Safe old line)
    (size : (p.array old line).length = bufSize) : ∃ text, str (p.array old line) = some text := by
  by_contra none
  have noNul : 0 ∉ p.array old line := fun mem => none ⟨_, if_pos mem⟩
  have all : Text.text (p.array old line ++ [97]) = p.array old line ++ [97] :=
    Text.text_eq (by simpa using noNul)
  have long : strlen (p.array old line ++ [97]) = bufSize + 1 := by
    rw [← size]
    exact (congrArg List.length all).trans List.length_append
  have := (safe.writes [97]).2.2
  omega

/-- Were the loop to go on behind the array, it might find as many words there as there are
places. -/
theorem Program.Safe.stops (safe : Program.Safe .miniShell old line) (fits : line.length ≤ 1022) :
    (items true (command line [])).2 ≠ [] := by
  intro past
  obtain ⟨m, -, eq⟩ := exists_command_eq fits
  obtain ⟨is, s, stops⟩ := exists_items true m
  have empty : s = [] := by
    by_contra some
    have here := stops []
    rw [if_neg some] at here
    rw [eq, here] at past
    exact some (List.append_eq_nil_iff.1 past).1
  have more := (safe.writes (List.replicate argvSize [97, 32]).flatten).1
  have mem : cut (Program.array old line .miniShell ++
      (List.replicate argvSize [97, 32]).flatten) = m ++ 0 :: 0 :: _ := eq _
  rw [mem, Program.redirects, stops, if_pos empty] at more
  have count := argCount_words argvSize
  unfold argCount at more count
  rw [List.countP_append] at more
  omega

theorem Program.fits_of_safe (h : old.length = bufSize) (fits : line.length ≤ 1022)
    (safe : p.Safe old line) : p.Fits old line := by
  obtain ⟨text, delivered⟩ := safe.exists_str (p.length_array h fits)
  obtain ⟨noNul, more, array⟩ := exists_of_str delivered
  obtain ⟨few, pos, -⟩ := safe.writes []
  have nonempty : text ≠ [] := by
    rintro rfl
    rw [array] at pos
    exact absurd pos (lt_irrefl 0)
  refine ⟨text, delivered, nonempty, ?_⟩
  have words : p.redirects = false → (runs text.dropLast).length < argvSize := by
    intro plain
    obtain ⟨is, s, stops, -, count⟩ :=
      items_words (fun mem => noNul (List.mem_of_mem_dropLast mem)) more
    rw [plain, array, List.append_nil, cut_append nonempty noNul, stops] at few
    change argCount is < argvSize at few
    rwa [count] at few
  cases p with
  | shell | myshell => exact words rfl
  | miniShell => exact ⟨few, safe.stops fits⟩

end

/-- For each shell and everything that `fgets` can deliver. -/
theorem safe_iff_fits (p : Program) {old line : List UInt8} (h : old.length = bufSize)
    (fits : line.length ≤ 1022) : p.Safe old line ↔ p.Fits old line :=
  ⟨Program.fits_of_safe h fits, Program.safe_of_fits h fits⟩

/-- "ls\n" in `shell.c` -/
theorem safe_iff_fits_ls : Program.Safe .shell zeroed [108, 115, 10] :=
  (safe_iff_fits .shell List.length_replicate (by decide)).2
    ⟨[108, 115, 10], by decide +kernel, by decide, by decide +kernel⟩

/-- At the end of the input the NUL is written in front of the array. -/
theorem not_safe_atEnd : ¬ Program.Safe .shell zeroed [] := by
  intro safe
  have pos := (safe.writes []).2.1
  have empty : strlen (Program.array zeroed [] .shell ++ []) = 0 := by decide +kernel
  omega

end LinuxNote.Shell
