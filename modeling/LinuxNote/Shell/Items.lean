import LinuxNote.Shell.Access
import LinuxNote.Shell.Rounds

/-!
# What the parsing loops recognise

A round of a loop takes one item from the bytes in front of the pointer: an operator with its file
name, if one stands there, and then a word or a blank.  `items` cuts a list of bytes so, without an
array or a pointer, and `exists_loop` says that the loops take these items and no others.  With
that, two results on `mini_shell.c`: the loop stays inside the array (`loop_inside`), and its flags
agree with its file names unless an output follows the last input (`agrees_iff_inputLast`).
-/

namespace LinuxNote.Shell

open Text (overlay)

/-- What one round takes. -/
structure Item where
  op : Option Op
  argument : Bool
  deriving DecidableEq

/-- Behind white space, a file name and the byte that ends it. -/
def behindName (l : List UInt8) : List UInt8 :=
  ((l.dropWhile (keeps isspace)).dropWhile (keeps (!isspace ·))).tail

/-- The operator at the beginning, and what stands behind its file name. -/
def redirection (redirects : Bool) (l : List UInt8) : Option Op × List UInt8 :=
  if redirects ∧ l.headD 0 = gt then
    if l.tail.headD 0 = gt then (some .append, behindName l.tail.tail)
    else (some .output, behindName l.tail)
  else if redirects ∧ l.headD 0 = lt then (some .input, behindName l.tail)
  else (none, l)

/-- A word with the byte that ends it, or a blank. -/
def behindWord (l : List UInt8) : List UInt8 :=
  if isspace (l.headD 0) then l.tail else (l.dropWhile (keeps (!isspace ·))).tail

def item (redirects : Bool) (l : List UInt8) : Item × List UInt8 :=
  let r := redirection redirects l
  (⟨r.1, !isspace (r.2.headD 0)⟩, behindWord r.2)

section

variable {redirects : Bool} {l : List UInt8}

theorem length_behindName_le : (behindName l).length ≤ l.length := by
  rw [behindName, List.length_tail]
  have := List.length_dropWhile_le (keeps (!isspace ·)) (l.dropWhile (keeps isspace))
  have := List.length_dropWhile_le (keeps isspace) l
  omega

theorem length_redirection_le : (redirection redirects l).2.length ≤ l.length := by
  have tail : l.tail.length ≤ l.length := by
    rw [List.length_tail]
    omega
  unfold redirection
  split
  · split
    · have := length_behindName_le (l := l.tail.tail)
      rw [List.length_tail] at this
      dsimp only
      omega
    · exact length_behindName_le.trans tail
  · split
    · exact length_behindName_le.trans tail
    · exact le_rfl

theorem length_behindWord_le : (behindWord l).length ≤ l.length - 1 := by
  unfold behindWord
  split
  · exact (List.length_tail).le
  · rw [List.length_tail]
    have := List.length_dropWhile_le (keeps (!isspace ·)) l
    omega

theorem length_item_lt (some : l.headD 0 ≠ 0) : (item redirects l).2.length < l.length := by
  have nonempty : 0 < l.length := List.length_pos_iff.2 fun e => some (by rw [e]; rfl)
  have behind : (item redirects l).2.length ≤ (redirection redirects l).2.length - 1 :=
    length_behindWord_le
  have : (redirection redirects l).2.length ≤ l.length := length_redirection_le
  omega

end

/-- The items up to a NUL, and what is left from that NUL on. -/
def items (redirects : Bool) (l : List UInt8) : List Item × List UInt8 :=
  if _some : l.headD 0 = 0 then ([], l)
  else
    ((item redirects l).1 :: (items redirects (item redirects l).2).1,
      (items redirects (item redirects l).2).2)
termination_by l.length
decreasing_by exact length_item_lt _some

/-- The operators that are recognised in a line. -/
def ops (is : List Item) : List Op := is.filterMap Item.op

def argCount (is : List Item) : ℕ := is.countP Item.argument

theorem ops_cons (i : Item) (is : List Item) : ops (i :: is) = i.op.toList ++ ops is := by
  cases h : i.op <;> simp [ops, h]

theorem argCount_cons (i : Item) (is : List Item) :
    argCount (i :: is) = (if i.argument then 1 else 0) + argCount is := by
  rw [argCount, List.countP_cons, Nat.add_comm, argCount]

/-! ## Rounds take items -/

/-- Between `p` and `p'` the loop has recognised `os` and stored `n` arguments, and `rest` is in
front of the pointer. -/
structure Pass.After (os : List Op) (n : ℕ) (rest : List UInt8) (p p' : Pass) : Prop where
  rest : p'.rest = rest
  args : p'.argv.length = p.argv.length + n
  ops : p'.ops = p.ops ++ os
  flag : p'.relocateFlag = os.foldl Op.flag p.relocateFlag
  input : p'.filenameIn ≠ none ↔ p.filenameIn ≠ none ∨ .input ∈ os
  output : p'.filenameOut ≠ none ↔ p.filenameOut ≠ none ∨ ∃ o ∈ os, o ≠ .input

section

variable {redirects : Bool} {p p' p'' : Pass} {f : UInt8 → Bool} {os os' : List Op} {n n' : ℕ}
variable {rest rest' : List UInt8}

theorem drop_length_takeWhile (q : UInt8 → Bool) (l : List UInt8) :
    l.drop (l.takeWhile q).length = l.dropWhile q := by
  have behind : (l.takeWhile q ++ l.dropWhile q).drop (l.takeWhile q).length = l.dropWhile q :=
    List.drop_left
  rwa [List.takeWhile_append_dropWhile] at behind

theorem Pass.rest_next : p.next.rest = p.rest.tail := by
  rw [rest, rest, List.tail_drop]
  rfl

theorem Pass.rest_skip : (p.skip f).rest = p.rest.dropWhile (keeps f) := by
  show p.buf.drop (p.ptr + _) = _
  rw [← List.drop_drop]
  exact drop_length_takeWhile (keeps f) p.rest

theorem Pass.rest_terminate_next : p.terminate.next.rest = p.rest.tail := by
  rw [rest, rest, List.tail_drop]
  show (p.buf.set p.ptr 0).drop (p.ptr + 1) = _
  rw [List.drop_set_of_lt (Nat.lt_succ_self p.ptr)]

theorem Pass.rest_filename : p.filename.2.rest = behindName p.rest := by
  show ((p.skip isspace).skip (!isspace ·)).terminate.next.rest = _
  rw [rest_terminate_next, rest_skip, rest_skip, behindName]

namespace Pass.After

theorem refl (p : Pass) : p.After [] 0 p.rest p := ⟨rfl, rfl, by simp, rfl, by simp, by simp⟩

theorem trans (h : p.After os n rest p') (h' : p'.After os' n' rest' p'') :
    p.After (os ++ os') (n + n') rest' p'' where
  rest := h'.rest
  args := by rw [h'.args, h.args, Nat.add_assoc]
  ops := by rw [h'.ops, h.ops, List.append_assoc]
  flag := by rw [h'.flag, h.flag, List.foldl_append]
  input := by rw [h'.input, h.input, List.mem_append, or_assoc]
  output := by
    rw [h'.output, h.output, or_assoc]
    simp only [List.mem_append, or_and_right, exists_or]

theorem of_look (h : p.look.After os n rest p') : p.After os n rest p' :=
  ⟨h.rest, h.args, h.ops, h.flag, h.input, h.output⟩

theorem redirectOut (h : p.rest.headD 0 = gt) :
    p.After (redirection true p.rest).1.toList 0 (redirection true p.rest).2 p.redirectOut := by
  have second : (p.flag 1).next.look.char = p.rest.tail.headD 0 :=
    congrArg (List.headD · 0) (rest_next (p := p))
  rw [redirection, if_pos ⟨rfl, h⟩]
  unfold Pass.redirectOut
  simp only [second]
  split
  · refine ⟨?_, rfl, rfl, rfl, by simp [Pass.nameOut, Pass.filename]; rfl, by simp [Pass.nameOut]⟩
    show ((((p.flag 1).next.look.flag 2).note .append).next).filename.2.rest = _
    rw [rest_filename, rest_next]
    exact congrArg (fun l => behindName l.tail) (rest_next (p := p))
  · refine ⟨?_, rfl, rfl, rfl, by simp [Pass.nameOut, Pass.filename]; rfl, by simp [Pass.nameOut]⟩
    show ((p.flag 1).next.look.note .output).filename.2.rest = _
    rw [rest_filename]
    exact congrArg behindName (rest_next (p := p))

theorem redirectIn (not : p.rest.headD 0 ≠ gt) (h : p.rest.headD 0 = lt) :
    p.After (redirection true p.rest).1.toList 0 (redirection true p.rest).2 p.redirectIn := by
  rw [redirection, if_neg fun out => not out.2, if_pos ⟨rfl, h⟩]
  refine ⟨?_, rfl, rfl, rfl, by simp [Pass.redirectIn, Pass.nameIn],
    by simp [Pass.redirectIn, Pass.nameIn, Pass.filename]; rfl⟩
  show ((p.flag (p.relocateFlag ||| 4)).note .input).next.filename.2.rest = _
  rw [rest_filename]
  exact congrArg behindName (rest_next (p := p))

theorem finish (p : Pass) :
    p.After [] (if isspace (p.rest.headD 0) then 0 else 1) (behindWord p.rest) p.finish := by
  have char : p.look.char = p.rest.headD 0 := rfl
  unfold Pass.finish behindWord
  simp only [char]
  split
  · refine ⟨?_, rfl, (List.append_nil _).symm, rfl, by simp; rfl, by simp; rfl⟩
    exact rest_next
  · refine ⟨?_, List.length_append, (List.append_nil _).symm, rfl, by simp; rfl, by simp; rfl⟩
    show ((p.look.push.skip (!isspace ·)).terminate).next.rest = _
    rw [rest_terminate_next, rest_skip]
    rfl

/-- A round takes the next item. -/
theorem round (redirects : Bool) (p : Pass) :
    p.After (item redirects p.rest).1.op.toList
      (if (item redirects p.rest).1.argument then 1 else 0) (item redirects p.rest).2
      (p.round redirects) := by
  have behind : ∀ p', p.After (redirection redirects p.rest).1.toList 0
      (redirection redirects p.rest).2 p' →
      p.After (item redirects p.rest).1.op.toList
        (if (item redirects p.rest).1.argument then 1 else 0) (item redirects p.rest).2
        p'.finish := by
    intro p' h
    have both := h.trans (finish p')
    rw [h.rest, List.append_nil, Nat.zero_add] at both
    unfold item
    by_cases space : isspace ((redirection redirects p.rest).2.headD 0)
    · simpa only [space, Bool.not_true, Bool.false_eq_true, if_false, if_true] using both
    · simpa only [space, Bool.not_false, Bool.false_eq_true, if_false, if_true] using both
  unfold Pass.round
  by_cases out : redirects ∧ p.rest.headD 0 = gt
  · rw [if_pos (show redirects ∧ p.char = gt from out)]
    obtain ⟨rfl, out⟩ := out
    exact behind _ (of_look (redirectOut (p := p.look) out))
  · rw [if_neg (show ¬ (redirects ∧ p.char = gt) from out)]
    by_cases inp : redirects ∧ p.rest.headD 0 = lt
    · rw [if_pos (show redirects ∧ p.char = lt from inp)]
      obtain ⟨rfl, inp⟩ := inp
      exact behind _ (of_look (redirectIn (p := p.look) (fun gt => out ⟨rfl, gt⟩) inp))
    · rw [if_neg (show ¬ (redirects ∧ p.char = lt) from inp)]
      refine behind p ?_
      rw [redirection, if_neg out, if_neg inp]
      exact refl p

end Pass.After

/-- The loop takes the items up to the first one that would begin with a NUL. -/
theorem Pass.exists_loop (redirects : Bool) {fuel : ℕ} (enough : p.rest.length < fuel) :
    ∃ p', p.loop redirects fuel = some p' ∧
      p.After (Shell.ops (items redirects p.rest).1) (argCount (items redirects p.rest).1)
        (items redirects p.rest).2 p' := by
  induction fuel generalizing p with
  | zero => exact absurd enough (Nat.not_lt_zero _)
  | succ fuel ih =>
      rw [loop]
      by_cases stop : p.rest.headD 0 = 0
      · rw [if_pos (show p.char = 0 from stop), items, dif_pos stop]
        exact ⟨_, rfl, After.of_look (After.refl p.look)⟩
      · rw [if_neg (show ¬ p.char = 0 from stop), items, dif_neg stop]
        have first : p.After (item redirects p.rest).1.op.toList
            (if (item redirects p.rest).1.argument then 1 else 0) (item redirects p.rest).2
            (p.look.round redirects) := After.of_look (After.round redirects p.look)
        have fewer : (item redirects p.rest).2.length < p.rest.length := length_item_lt stop
        have shorter : (p.look.round redirects).rest.length < fuel := by
          rw [first.rest]
          exact lt_of_lt_of_le fewer (Nat.le_of_lt_succ enough)
        obtain ⟨p', result, later⟩ := ih shorter
        rw [ops_cons, argCount_cons]
        rw [first.rest] at later
        exact ⟨p', result, first.trans later⟩

end

/-! ## Inside the array -/

/-- The memory after `buf[strlen(buf) - 1] = '\0'`; for an empty string it is as before, since the
NUL then comes in front of the array. -/
def cut (mem : List UInt8) : List UInt8 := mem.set (strlen mem - 1) 0

/-- `cmd_buf` with what lies behind it, before the loop and when `fgets` has delivered `line`. -/
def command (line beyond : List UInt8) : List UInt8 := cut (fgets line zeroed ++ beyond)

/-- The parsing loop of `mini_shell.c`; each round moves the pointer. -/
def miniShellLoop (mem : List UInt8) : Option Pass := (pass mem []).loop true (mem.length + 1)

theorem exists_miniShellLoop (mem : List UInt8) : ∃ p, miniShellLoop mem = some p ∧
    (pass mem []).After (ops (items true mem).1) (argCount (items true mem).1)
      (items true mem).2 p :=
  Pass.exists_loop true (p := pass mem []) (Nat.lt_succ_self mem.length)

/-- Only indices of `cmd_buf`, whatever those of `argv`. -/
def Access.Inside : Access → Prop
  | .read i | .write i => 0 ≤ i ∧ i < bufSize
  | .argv _ => True

theorem cstr_append {line : List UInt8} (noNul : 0 ∉ line) (rest : List UInt8) :
    cstr (line ++ 0 :: rest) 0 = line := by
  rw [cstr, List.drop_zero, List.takeWhile_append_of_pos fun c hc => ?_]
  · simp
  · simpa using fun e : c = 0 => noNul (e ▸ hc)

theorem strlen_append {line : List UInt8} (noNul : 0 ∉ line) (rest : List UInt8) :
    strlen (line ++ 0 :: rest) = line.length := by
  rw [strlen, cstr_append noNul]

theorem cut_append {line : List UInt8} (nonempty : line ≠ []) (noNul : 0 ∉ line)
    (rest : List UInt8) : cut (line ++ 0 :: rest) = line.dropLast ++ 0 :: 0 :: rest := by
  rw [cut, strlen_append noNul]
  obtain ⟨body, c, rfl⟩ := (List.eq_nil_or_concat line).resolve_left nonempty
  simp

theorem fgets_zeroed {line : List UInt8} (fits : line.length ≤ 1022) :
    fgets line zeroed = line ++ List.replicate (bufSize - line.length) 0 := by
  rw [fgets]
  split
  · next empty =>
      rw [empty]
      rfl
  · rw [overlay, zeroed, List.drop_replicate, List.append_assoc, List.length_append,
      List.length_singleton, List.singleton_append, ← List.replicate_succ]
    congr 2
    unfold bufSize
    omega

/-- Without NULs the array holds all of the line but the last byte, and then zeros. -/
theorem command_eq {line : List UInt8} (nonempty : line ≠ []) (noNul : 0 ∉ line)
    (fits : line.length ≤ 1022) (beyond : List UInt8) : command line beyond =
      line.dropLast ++ (List.replicate (bufSize - (line.length - 1)) 0 ++ beyond) := by
  have long := List.length_pos_iff.2 nonempty
  have zeros : List.replicate (bufSize - line.length) (0 : UInt8) =
      0 :: List.replicate (bufSize - line.length - 1) 0 := by
    rw [← List.replicate_succ]
    congr 1
    unfold bufSize
    omega
  have more : List.replicate (bufSize - (line.length - 1)) (0 : UInt8) =
      0 :: List.replicate (bufSize - line.length) 0 := by
    rw [← List.replicate_succ]
    congr 1
    unfold bufSize
    omega
  rw [command, fgets_zeroed fits, more, zeros, List.append_assoc, List.cons_append,
    cut_append nonempty noNul]
  rfl

theorem loop_inside {line : List UInt8} (nonempty : line ≠ []) (noNul : 0 ∉ line)
    (fits : line.length ≤ 1022) (beyond : List UInt8) :
    ∃ p, miniShellLoop (command line beyond) = some p ∧ ∀ a ∈ p.log, a.Inside := by
  obtain ⟨p, result, -⟩ := exists_miniShellLoop (command line beyond)
  have long := List.length_pos_iff.2 nonempty
  refine ⟨p, result, ?_⟩
  have allows : Allows Access.Inside (line.length - 1) p.argv.length := by
    refine ⟨fun i le => ?_, fun i le => ?_, fun _ _ => trivial⟩
    · exact ⟨Int.natCast_nonneg i, by unfold bufSize; omega⟩
    · exact ⟨Int.natCast_nonneg i, by unfold bufSize; omega⟩
  have start : (pass (command line beyond) []).Safe Access.Inside (line.length - 1) bufSize := by
    refine ⟨fun i lo hi => ?_, fun a ha => absurd ha List.not_mem_nil⟩
    show (command line beyond).getD i 0 = 0
    rw [command_eq nonempty noNul fits, List.getD_eq_getElem?_getD, List.getElem?_append_right,
      List.getElem?_append_left, List.getElem?_replicate]
    · split <;> rfl
    · rw [List.length_replicate, List.length_dropLast]
      omega
    · rw [List.length_dropLast]
      exact lo
  have room : line.length - 1 + 2 < bufSize := by
    unfold bufSize
    omega
  exact (start.loop allows room.le (Nat.zero_le _) result (Or.inl room) le_rfl).log

/-- A line of 1022 operators. -/
theorem loop_inside_operators :
    ∃ p, miniShellLoop (command (List.replicate 1022 gt) []) = some p ∧ ∀ a ∈ p.log, a.Inside :=
  loop_inside (by decide) (fun nul => absurd (List.eq_of_mem_replicate nul) (by decide))
    List.length_replicate.le []

/-! ## The flags -/

/-- The last operator with an output. -/
def lastOutput (os : List Op) : Option Op := (os.filter (· ≠ .input)).getLast?

/-- What the two low bits are to be. -/
def outputBits : Option Op → ℕ
  | some .output => 1
  | some .append => 2
  | _ => 0

/-- The redirections of the child, with the names of the files. -/
def Scan.redirections (s : Scan) : List (Op × Option ℕ) :=
  (if s.relocateFlag &&& 1 ≠ 0 then [(.output, s.filenameOut)]
    else if s.relocateFlag &&& 2 ≠ 0 then [(.append, s.filenameOut)]
    else []) ++
  if s.relocateFlag &&& 4 ≠ 0 then [(.input, s.filenameIn)] else []

/-- `relocate_flag` agrees with the names and with the operators recognised, and the child makes the
last redirection of each kind. -/
structure Pass.Agrees (p : Pass) : Prop where
  input : p.relocateFlag &&& 4 ≠ 0 ↔ p.filenameIn ≠ none
  output : p.relocateFlag &&& 3 = outputBits (lastOutput p.ops)
  named : p.relocateFlag &&& 3 = 0 ↔ p.filenameOut = none
  child : p.redirections = (lastOutput p.ops).toList.map (·, p.filenameOut) ++
    if .input ∈ p.ops then [(.input, p.filenameIn)] else []

/-- If there is an input, the last redirection is one. -/
def InputLast (os : List Op) : Prop := .input ∈ os → os.getLast? = some .input

/-- The operators of a line, from left to right. -/
def operators (line beyond : List UInt8) : List Op := ops (items true (command line beyond)).1

section

variable {os : List Op} {o : Op}

theorem lastOutput_input : lastOutput (os ++ [.input]) = lastOutput os := by
  simp [lastOutput]

theorem lastOutput_concat (h : o ≠ .input) : lastOutput (os ++ [o]) = some o := by
  simp [lastOutput, h]

theorem lastOutput_eq_none_iff : lastOutput os = none ↔ ∀ o ∈ os, o = .input := by
  simp [lastOutput]

theorem ne_input_of_lastOutput (h : lastOutput os = some o) : o ≠ .input := by
  simpa using (List.mem_filter.1 (List.mem_of_getLast? h)).2

/-- `>` and `>>` set the flag anew, `<` keeps the two low bits. -/
theorem foldl_flag (os : List Op) : os.foldl Op.flag 0 =
    (if os.getLast? = some .input then 4 else 0) ||| outputBits (lastOutput os) := by
  induction os using List.reverseRecOn with
  | nil => rfl
  | append_singleton os o ih =>
      rw [List.foldl_append, List.getLast?_concat, List.foldl_cons, List.foldl_nil, ih]
      cases o with
      | input =>
          rw [lastOutput_input, if_pos rfl, Op.flag]
          cases lastOutput os with
          | none => split <;> rfl
          | some o => cases o <;> split <;> rfl
      | output | append =>
          rw [lastOutput_concat (by simp)]
          simp [Op.flag, outputBits]

/-- The bits of such a flag. -/
theorem flag_bits (last : Prop) [Decidable last] (out : Option Op) :
    ∃ flag, ((if last then 4 else 0) ||| outputBits out) = flag ∧ (flag &&& 4 ≠ 0 ↔ last) ∧
      flag &&& 3 = outputBits out ∧ (flag &&& 1 ≠ 0 ↔ out = some .output) ∧
      (flag &&& 2 ≠ 0 ↔ out = some .append) := by
  refine ⟨_, rfl, ?_⟩
  by_cases hl : last
  · rcases out with _ | o
    · simp [hl, outputBits]
    · cases o <;> simp [hl, outputBits]
  · rcases out with _ | o
    · simp [hl, outputBits]
    · cases o <;> simp [hl, outputBits]

theorem inputLast_iff : InputLast os ↔ (os.getLast? = some .input ↔ .input ∈ os) :=
  ⟨fun h => ⟨List.mem_of_getLast?, h⟩, fun h => h.2⟩

theorem Pass.After.agrees_iff {mem rest : List UInt8} {n : ℕ} {p : Pass}
    (h : (pass mem []).After os n rest p) : p.Agrees ↔ InputLast os := by
  have recognised : p.ops = os := h.ops
  have input : p.filenameIn ≠ none ↔ .input ∈ os := h.input.trans (or_iff_right fun e => e rfl)
  have output : p.filenameOut ≠ none ↔ ∃ o ∈ os, o ≠ .input :=
    h.output.trans (or_iff_right fun e => e rfl)
  have flag : p.relocateFlag = _ := h.flag.trans (foldl_flag os)
  obtain ⟨value, eq, four, three, one, two⟩ :=
    flag_bits (os.getLast? = some .input) (lastOutput os)
  rw [eq] at flag
  rw [inputLast_iff, ← four, ← input, ← flag]
  constructor
  · exact fun agrees => agrees.input
  · intro same
    refine ⟨same, ?_, ?_, ?_⟩
    · rw [flag, three, recognised]
    · rw [flag, three, ← not_iff_not]
      refine Iff.trans ?_ output.symm
      cases last : lastOutput os with
      | none =>
          have inputs := lastOutput_eq_none_iff.1 last
          exact iff_of_false (fun h => h rfl) fun ⟨o, mem, ne⟩ => ne (inputs o mem)
      | some o =>
          have ne := ne_input_of_lastOutput last
          have mem := (List.mem_filter.1 (List.mem_of_getLast? last)).1
          refine iff_of_true ?_ ⟨o, mem, ne⟩
          cases o <;> simp_all [outputBits]
    · have last : os.getLast? = some .input ↔ .input ∈ os :=
        four.symm.trans ((flag ▸ same).trans input)
      unfold Scan.redirections
      rw [recognised, flag]
      simp only [one, two, four, last]
      cases last : lastOutput os with
      | none => simp
      | some o =>
          have ne := ne_input_of_lastOutput last
          cases o <;> simp_all

end

/-- For every line: the flags agree with the names exactly when no output redirection follows the
last input redirection. -/
theorem agrees_iff_inputLast (line beyond : List UInt8) :
    ∃ p, miniShellLoop (command line beyond) = some p ∧ p.ops = operators line beyond ∧
      (p.Agrees ↔ InputLast (operators line beyond)) := by
  obtain ⟨p, result, after⟩ := exists_miniShellLoop (command line beyond)
  exact ⟨p, result, after.ops, after.agrees_iff⟩

/-- "< a  > b\n" -/
def inputThenOutput : List UInt8 := [60, 32, 97, 32, 32, 62, 32, 98, 10]

/-- `filename_in` is set, and the child does not open it. -/
theorem not_agrees_inputThenOutput :
    ∃ p, miniShellLoop (command inputThenOutput []) = some p ∧ p.ops = [.input, .output] ∧
      p.filenameIn = some 2 ∧ p.redirections = [(.output, some 7)] ∧ ¬ p.Agrees := by
  have run : (miniShellLoop (command inputThenOutput [])).map (fun p =>
      (p.ops, p.relocateFlag, p.filenameIn, p.redirections)) =
      some ([.input, .output], 1, some 2, [(.output, some 7)]) := by decide +kernel
  obtain ⟨p, result, eq⟩ := Option.map_eq_some_iff.1 run
  obtain ⟨ops, flag, name, child⟩ : p.ops = [.input, .output] ∧ p.relocateFlag = 1 ∧
      p.filenameIn = some 2 ∧ p.redirections = [(.output, some 7)] := by simpa using eq
  refine ⟨p, result, ops, name, child, fun agrees => ?_⟩
  have bit := agrees.input.2 (by rw [name]; exact Option.some_ne_none 2)
  rw [flag] at bit
  exact bit rfl

end LinuxNote.Shell
