import LinuxNote.Shell.MiniShellParse

/-!
# The accesses of the parsing loops

The loops once more, on the whole memory from the line buffer on and with every access written down.
Where `Scan` has no result for an access outside, a `Pass` goes on with what lies there, and behind
the bytes given the memory is zero.  So a round can be followed wherever the pointer goes, and what
it may touch is bounded by the first two zeros in front of the pointer (`Safe.round`).
-/

namespace LinuxNote.Shell

/-- An access to the line buffer or to `argv`, with its index. -/
inductive Access
  | read (i : ℤ)
  | write (i : ℤ)
  | argv (k : ℕ)
  deriving DecidableEq

/-- The local variables of the loop with the operators that it has recognised and the accesses that
it has made. -/
structure Pass extends Scan where
  ops : List Op
  log : List Access
  deriving DecidableEq

/-- `f(c) && c != '\0'` -/
def keeps (f : UInt8 → Bool) (c : UInt8) : Bool := f c && c ≠ 0

/-- What the memory holds from `ptr` on. -/
def Pass.rest (p : Pass) : List UInt8 := p.buf.drop p.ptr

/-- `*ptr` -/
def Pass.char (p : Pass) : UInt8 := p.rest.headD 0

def Pass.touch (p : Pass) (as : List Access) : Pass := { p with log := p.log ++ as }

/-- `*ptr` is read. -/
def Pass.look (p : Pass) : Pass := p.touch [.read p.ptr]

/-- `ptr++` -/
def Pass.next (p : Pass) : Pass := { p with ptr := p.ptr + 1 }

/-- `while (f(*ptr) && *ptr != '\0') ptr++;` -/
def Pass.skip (f : UInt8 → Bool) (p : Pass) : Pass :=
  let n := (p.rest.takeWhile (keeps f)).length
  { p.touch ((List.range' p.ptr (n + 1)).map fun i : ℕ => .read i) with ptr := p.ptr + n }

/-- `*ptr = '\0'` -/
def Pass.terminate (p : Pass) : Pass := { p.touch [.write p.ptr] with buf := p.buf.set p.ptr 0 }

/-- `argv[argc++] = ptr` -/
def Pass.push (p : Pass) : Pass :=
  { p.touch [.argv p.argv.length] with argv := p.argv ++ [p.ptr] }

/-- A word from `*ptr` on, and a NUL behind it. -/
def Pass.argument (p : Pass) : Pass := (p.push.skip (!isspace ·)).terminate

/-- The file name from `*ptr` on, which a NUL now ends, and the byte behind it. -/
def Pass.filename (p : Pass) : ℕ × Pass :=
  let p := p.skip isspace
  (p.ptr, (p.skip (!isspace ·)).terminate.next)

/-- `relocate_flag = flag` -/
def Pass.flag (flag : ℕ) (p : Pass) : Pass := { p with relocateFlag := flag }

/-- The operator `o` has been recognised. -/
def Pass.note (o : Op) (p : Pass) : Pass := { p with ops := p.ops ++ [o] }

/-- `filename_out = ...` -/
def Pass.nameOut (p : Pass) (name : ℕ) : Pass := { p with filenameOut := some name }

/-- `filename_in = ...` -/
def Pass.nameIn (p : Pass) (name : ℕ) : Pass := { p with filenameIn := some name }

/-- The branch for `>` and `>>`. -/
def Pass.redirectOut (p : Pass) : Pass :=
  let p := (p.flag 1).next.look
  let p := if p.char = gt then ((p.flag 2).note .append).next else p.note .output
  p.filename.2.nameOut p.filename.1

/-- The branch for `<`. -/
def Pass.redirectIn (p : Pass) : Pass :=
  let p := ((p.flag (p.relocateFlag ||| 4)).note .input).next
  p.filename.2.nameIn p.filename.1

/-- The end of a round: `if (!isspace(*ptr)) ...; ptr++;` -/
def Pass.finish (p : Pass) : Pass :=
  let p := p.look
  (if isspace p.char then p else p.argument).next

/-- One round; `shell.c` and `Myshell.c` have no redirections. -/
def Pass.round (redirects : Bool) (p : Pass) : Pass :=
  if redirects ∧ p.char = gt then p.look.redirectOut.finish
  else if redirects ∧ p.char = lt then p.look.redirectIn.finish
  else p.finish

/-- `while (*ptr != '\0')` -/
def Pass.loop (redirects : Bool) : ℕ → Pass → Option Pass
  | 0, _ => none
  | fuel + 1, p => if p.char = 0 then some p.look else loop redirects fuel (p.look.round redirects)

/-- Before the loop. -/
def pass (mem : List UInt8) (log : List Access) : Pass := ⟨⟨mem, 0, [], 0, none, none⟩, [], log⟩

section

variable (p : Pass) (flag name : ℕ) (o : Op)

@[simp] theorem Pass.look_ptr : p.look.ptr = p.ptr := rfl

@[simp] theorem Pass.next_ptr : p.next.ptr = p.ptr + 1 := rfl

@[simp] theorem Pass.flag_ptr : (p.flag flag).ptr = p.ptr := rfl

@[simp] theorem Pass.note_ptr : (p.note o).ptr = p.ptr := rfl

@[simp] theorem Pass.nameOut_ptr : (p.nameOut name).ptr = p.ptr := rfl

@[simp] theorem Pass.nameIn_ptr : (p.nameIn name).ptr = p.ptr := rfl

end

/-! ## The checked loop -/

section

variable {s s' : Scan} {p : Pass} {f : UInt8 → Bool}

theorem skip_eq_some {l : List UInt8} {n : ℕ} (h : skip f l = some n) :
    (l.takeWhile (keeps f)).length = n := by
  induction l generalizing n with
  | nil => cases h
  | cons c l ih =>
      change (if keeps f c then (skip f l).map (· + 1) else some 0) = some n at h
      by_cases hc : keeps f c
      · rw [if_pos hc] at h
        obtain ⟨m, hm, rfl⟩ := Option.map_eq_some_iff.1 h
        rw [List.takeWhile_cons_of_pos hc, List.length_cons, ih hm]
      · rw [if_neg hc] at h
        cases h
        rw [List.takeWhile_cons_of_neg hc]
        rfl

theorem char_of_scan {c : UInt8} (h : p.toScan.char = some c) : p.char = c := by
  unfold Scan.char at h
  rw [Pass.char, Pass.rest, List.headD_eq_head?_getD, List.head?_drop, h]
  rfl

theorem skip_of_scan (h : p.toScan.skip f = some s') : (p.skip f).toScan = s' := by
  obtain ⟨n, hn, rfl⟩ := Option.map_eq_some_iff.1 h
  simp only [Pass.skip, Pass.rest, Pass.touch, skip_eq_some hn]

theorem terminate_of_scan (h : p.toScan.terminate = some s') : p.terminate.toScan = s' := by
  obtain ⟨buf, hb, rfl⟩ := Option.map_eq_some_iff.1 h
  obtain rfl := Option.some.inj (Option.ite_none_right_eq_some.1 hb).2
  rfl

theorem argument_of_scan (h : p.toScan.argument = some s') : p.argument.toScan = s' := by
  obtain ⟨-, h⟩ := Option.ite_none_right_eq_some.1 h
  obtain ⟨s, hs, ht⟩ := Option.bind_eq_some_iff.1 h
  refine terminate_of_scan (ht ▸ congrArg Scan.terminate ?_)
  exact skip_of_scan (p := p.push) hs

theorem filename_of_scan {name : ℕ} (h : p.toScan.filename = some (name, s')) :
    p.filename.1 = name ∧ p.filename.2.toScan = s' := by
  obtain ⟨s₁, h₁, h⟩ := Option.bind_eq_some_iff.1 h
  obtain ⟨s₂, h₂, h⟩ := Option.bind_eq_some_iff.1 h
  obtain ⟨s₃, h₃, h⟩ := Option.bind_eq_some_iff.1 h
  obtain rfl := skip_of_scan h₁
  obtain rfl := skip_of_scan h₂
  obtain rfl := terminate_of_scan h₃
  cases h
  exact ⟨rfl, rfl⟩

theorem redirectOut_of_scan (h : p.toScan.redirectOut = some s') : p.redirectOut.toScan = s' := by
  obtain ⟨c, hc, h⟩ := Option.bind_eq_some_iff.1 h
  obtain ⟨⟨name, s₁⟩, h₁, h⟩ := Option.bind_eq_some_iff.1 h
  cases h
  have char : (p.flag 1).next.look.char = c := char_of_scan hc
  unfold Pass.redirectOut
  simp only [char]
  by_cases double : c = gt
  · rw [if_pos double] at h₁ ⊢
    obtain ⟨rfl, rfl⟩ :=
      filename_of_scan (p := (((p.flag 1).next.look.flag 2).note .append).next) h₁
    rfl
  · rw [if_neg double] at h₁ ⊢
    obtain ⟨rfl, rfl⟩ := filename_of_scan (p := (p.flag 1).next.look.note .output) h₁
    rfl

theorem redirectIn_of_scan (h : p.toScan.redirectIn = some s') : p.redirectIn.toScan = s' := by
  obtain ⟨⟨name, s₁⟩, h₁, h⟩ := Option.bind_eq_some_iff.1 h
  cases h
  obtain ⟨rfl, rfl⟩ :=
    filename_of_scan (p := ((p.flag (p.relocateFlag ||| 4)).note .input).next) h₁
  rfl

theorem finish_of_scan (h : p.toScan.finish = some s') : p.finish.toScan = s' := by
  obtain ⟨c, hc, h⟩ := Option.bind_eq_some_iff.1 h
  have char : p.look.char = c := char_of_scan hc
  unfold Pass.finish
  simp only [char]
  by_cases space : isspace c
  · rw [if_pos space] at h ⊢
    exact Option.some.inj h
  · rw [if_neg space] at h ⊢
    obtain ⟨s₁, h₁, h⟩ := Option.bind_eq_some_iff.1 h
    obtain rfl := argument_of_scan (p := p.look) h₁
    exact Option.some.inj h

theorem round_of_scan (h : p.toScan.round p.char = some s') : (p.round true).toScan = s' := by
  unfold Pass.round
  simp only [true_and]
  unfold Scan.round at h
  split at h
  · next out =>
      rw [if_pos out]
      obtain ⟨s₁, h₁, h⟩ := Option.bind_eq_some_iff.1 h
      obtain rfl := redirectOut_of_scan (p := p.look) h₁
      exact finish_of_scan h
  · next out =>
      rw [if_neg out]
      split at h
      · next inp =>
          rw [if_pos inp]
          obtain ⟨s₁, h₁, h⟩ := Option.bind_eq_some_iff.1 h
          obtain rfl := redirectIn_of_scan (p := p.look) h₁
          exact finish_of_scan h
      · next inp =>
          rw [if_neg inp]
          exact finish_of_scan h

/-- Where all the accesses of the checked loop are inside, the pass ends as it does. -/
theorem loop_of_scan {fuel : ℕ} (h : Scan.loop fuel p.toScan = some s') :
    ∃ p', p.loop true fuel = some p' ∧ p'.toScan = s' := by
  induction fuel generalizing p with
  | zero => cases h
  | succ fuel ih =>
      obtain ⟨c, hc, h⟩ := Option.bind_eq_some_iff.1 h
      have char := char_of_scan hc
      by_cases zero : c = 0
      · rw [if_pos zero] at h
        rw [Pass.loop, if_pos (char.trans zero)]
        exact ⟨_, rfl, Option.some.inj h⟩
      · rw [if_neg zero] at h
        obtain ⟨s₁, h₁, h⟩ := Option.bind_eq_some_iff.1 h
        obtain rfl := char
        obtain rfl := round_of_scan (p := p.look) h₁
        rw [Pass.loop, if_neg zero]
        exact ih h

end

/-! ## What a round touches -/

theorem keeps_zero (f : UInt8 → Bool) : keeps f 0 = false := Bool.and_false _

/-- A loop that skips does not go past a zero. -/
theorem length_takeWhile_le {f : UInt8 → Bool} {l : List UInt8} {k : ℕ} (h : l.getD k 0 = 0) :
    (l.takeWhile (keeps f)).length ≤ k := by
  induction l generalizing k with
  | nil => exact Nat.zero_le k
  | cons c l ih =>
      by_cases hc : keeps f c
      · rw [List.takeWhile_cons_of_pos hc, List.length_cons]
        cases k with
        | zero =>
            obtain rfl : c = 0 := h
            rw [keeps_zero] at hc
            cases hc
        | succ k => exact Nat.succ_le_succ (ih h)
      · rw [List.takeWhile_cons_of_neg hc]
        exact Nat.zero_le k

theorem getD_set_zero {buf : List UInt8} {i : ℕ} (h : buf.getD i 0 = 0) (k : ℕ) :
    (buf.set k 0).getD i 0 = 0 := by
  rw [List.getD_eq_getElem?_getD] at h ⊢
  rw [List.getElem?_set]
  split
  · split <;> rfl
  · exact h

/-- The accesses that rounds before the zeros at `z` and `z + 1` may make, with up to `n`
arguments. -/
structure Allows (P : Access → Prop) (z n : ℕ) : Prop where
  read : ∀ i : ℕ, i ≤ z + 2 → P (.read i)
  write : ∀ i : ℕ, i ≤ z + 1 → P (.write i)
  argv : ∀ k < n, P (.argv k)

/-- Zeros from `z` up to `e`, and only such accesses so far. -/
structure Pass.Safe (P : Access → Prop) (z e : ℕ) (p : Pass) : Prop where
  zeros : ∀ i, z ≤ i → i < e → p.buf.getD i 0 = 0
  log : ∀ a ∈ p.log, P a

section

variable {P : Access → Prop} {z e n : ℕ} {p p' : Pass} {f : UInt8 → Bool} {redirects : Bool}

theorem Pass.char_eq : p.char = p.buf.getD p.ptr 0 := by
  rw [char, rest, List.headD_eq_head?_getD, List.head?_drop, List.getD_eq_getElem?_getD]

theorem Pass.skip_le (le : p.ptr ≤ e) (zero : p.buf.getD e 0 = 0) : (p.skip f).ptr ≤ e := by
  have stop : p.rest.getD (e - p.ptr) 0 = 0 := by
    rw [List.getD_eq_getElem?_getD] at zero ⊢
    rwa [rest, List.getElem?_drop, Nat.add_sub_cancel' le]
  have := length_takeWhile_le (f := f) stop
  show p.ptr + _ ≤ e
  omega

theorem Pass.lt_filename : p.ptr < p.filename.2.ptr := by
  show p.ptr < p.ptr + _ + _ + 1
  omega

theorem Pass.lt_redirectOut : p.ptr < p.redirectOut.ptr := by
  unfold redirectOut
  dsimp only
  rw [nameOut_ptr]
  refine lt_trans ?_ lt_filename
  split <;> simp only [next_ptr, note_ptr, flag_ptr, look_ptr] <;> omega

theorem Pass.lt_redirectIn : p.ptr < p.redirectIn.ptr := by
  unfold redirectIn
  dsimp only
  rw [nameIn_ptr]
  refine lt_trans ?_ lt_filename
  exact Nat.lt_succ_self p.ptr

theorem Pass.lt_finish : p.ptr < p.finish.ptr := by
  unfold finish
  dsimp only
  rw [next_ptr]
  split
  · exact Nat.lt_succ_self p.ptr
  · exact Nat.lt_succ_of_le (Nat.le_add_right p.ptr _)

/-- Every round moves the pointer. -/
theorem Pass.lt_round : p.ptr < (p.round redirects).ptr := by
  unfold round
  split
  · exact lt_trans (lt_redirectOut (p := p.look)) lt_finish
  · split
    · exact lt_trans (lt_redirectIn (p := p.look)) lt_finish
    · exact lt_finish

/-- What holds where the loop stops, and in front of a round when it holds behind it. -/
theorem Pass.rel_of_loop {R : Pass → Pass → Prop} (stop : ∀ p : Pass, R p p.look)
    (step : ∀ p q : Pass, R (p.look.round redirects) q → R p q) {fuel : ℕ}
    (h : p.loop redirects fuel = some p') : R p p' := by
  induction fuel generalizing p with
  | zero => cases h
  | succ fuel ih =>
      rw [loop] at h
      split at h
      · cases h
        exact stop p
      · exact step p p' (ih h)

theorem Pass.le_loop {fuel : ℕ} (h : p.loop redirects fuel = some p') : p.ptr ≤ p'.ptr :=
  rel_of_loop (R := fun p q => p.ptr ≤ q.ptr) (fun _ => le_rfl)
    (fun p _ later => le_trans (lt_round (p := p.look)).le later) h

theorem Pass.length_finish : p.finish.buf.length = p.buf.length := by
  unfold finish
  dsimp only
  split
  · rfl
  · exact List.length_set

theorem Pass.length_round : (p.round redirects).buf.length = p.buf.length := by
  unfold round
  split
  · refine length_finish.trans ?_
    unfold redirectOut
    dsimp only
    split <;> exact List.length_set
  · split
    · exact length_finish.trans List.length_set
    · exact length_finish

theorem Pass.length_loop {fuel : ℕ} (h : p.loop redirects fuel = some p') :
    p'.buf.length = p.buf.length :=
  rel_of_loop (R := fun p q => q.buf.length = p.buf.length) (fun _ => rfl)
    (fun p _ later => later.trans (length_round (p := p.look))) h

theorem Pass.argv_redirectOut : p.redirectOut.argv = p.argv := by
  unfold redirectOut
  dsimp only
  split <;> rfl

theorem Pass.le_argv_finish : p.argv.length ≤ p.finish.argv.length := by
  unfold finish
  dsimp only
  split
  · exact le_rfl
  · have stored : p.look.argument.next.argv.length = p.argv.length + 1 := List.length_append
    exact stored ▸ Nat.le_succ _

theorem Pass.le_argv_round : p.argv.length ≤ (p.round redirects).argv.length := by
  unfold round
  split
  · exact (congrArg List.length (argv_redirectOut (p := p.look))).ge.trans le_argv_finish
  · split
    · exact le_argv_finish (p := p.look.redirectIn)
    · exact le_argv_finish

theorem Pass.le_argv_loop {fuel : ℕ} (h : p.loop redirects fuel = some p') :
    p.argv.length ≤ p'.argv.length :=
  rel_of_loop (R := fun p q => p.argv.length ≤ q.argv.length) (fun _ => le_rfl)
    (fun p _ later => le_trans (le_argv_round (p := p.look)) later) h

namespace Pass.Safe

theorem touch (h : p.Safe P z e) {as : List Access} (ok : ∀ a ∈ as, P a) :
    (p.touch as).Safe P z e := by
  refine ⟨h.zeros, fun a ha => ?_⟩
  rcases List.mem_append.1 ha with old | new
  · exact h.log a old
  · exact ok a new

theorem look (h : p.Safe P z e) (allows : Allows P z n) (le : p.ptr ≤ z + 2) : p.look.Safe P z e :=
  h.touch fun a ha => by
    rw [List.mem_singleton.1 ha]
    exact allows.read _ le

theorem next (h : p.Safe P z e) : p.next.Safe P z e := ⟨h.zeros, h.log⟩

theorem flag (h : p.Safe P z e) (flag : ℕ) : (p.flag flag).Safe P z e := ⟨h.zeros, h.log⟩

theorem note (h : p.Safe P z e) (o : Op) : (p.note o).Safe P z e := ⟨h.zeros, h.log⟩

theorem nameOut (h : p.Safe P z e) (name : ℕ) : (p.nameOut name).Safe P z e := ⟨h.zeros, h.log⟩

theorem nameIn (h : p.Safe P z e) (name : ℕ) : (p.nameIn name).Safe P z e := ⟨h.zeros, h.log⟩

variable (allows : Allows P z n) (two : z + 2 ≤ e)
include two

theorem skip_le_first (h : p.Safe P z e) (le : p.ptr ≤ z) : (p.skip f).ptr ≤ z :=
  skip_le le (h.zeros z le_rfl (by omega))

theorem skip_le_second (h : p.Safe P z e) (le : p.ptr ≤ z + 1) : (p.skip f).ptr ≤ z + 1 :=
  skip_le le (h.zeros (z + 1) (by omega) (by omega))

include allows

/-- Nothing is read behind the zero that stops the loop. -/
theorem skip (h : p.Safe P z e) (le : p.ptr ≤ z + 1) : (p.skip f).Safe P z e := by
  have touched : (p.touch ((List.range' p.ptr ((p.rest.takeWhile (keeps f)).length + 1)).map
      fun i : ℕ => .read i)).Safe P z e := by
    refine h.touch fun a ha => ?_
    obtain ⟨i, hi, rfl⟩ := List.mem_map.1 ha
    have stop : p.ptr + (p.rest.takeWhile (keeps f)).length ≤ z + 1 := h.skip_le_second two le
    rw [List.mem_range'_1] at hi
    exact allows.read i (by omega)
  exact ⟨touched.zeros, touched.log⟩

omit two in
theorem terminate (h : p.Safe P z e) (le : p.ptr ≤ z + 1) : p.terminate.Safe P z e := by
  have touched : (p.touch [.write p.ptr]).Safe P z e := h.touch fun a ha => by
    rw [List.mem_singleton.1 ha]
    exact allows.write _ le
  exact ⟨fun i lo hi => getD_set_zero (h.zeros i lo hi) p.ptr, touched.log⟩

omit two in
theorem push (h : p.Safe P z e) (few : p.argv.length < n) : p.push.Safe P z e := by
  have touched : (p.touch [.argv p.argv.length]).Safe P z e := h.touch fun a ha => by
    rw [List.mem_singleton.1 ha]
    exact allows.argv _ few
  exact ⟨touched.zeros, touched.log⟩

theorem argument (h : p.Safe P z e) (le : p.ptr ≤ z + 1) (few : p.argv.length < n) :
    p.argument.Safe P z e ∧ p.argument.ptr ≤ z + 1 := by
  have stored : p.push.Safe P z e := h.push allows few
  have stop : (p.push.skip (!isspace ·)).ptr ≤ z + 1 := stored.skip_le_second two le
  have skipped : (p.push.skip (!isspace ·)).Safe P z e := stored.skip allows two le
  exact ⟨skipped.terminate allows stop, stop⟩

/-- The name ends at the first zero at the latest. -/
theorem filename (h : p.Safe P z e) (le : p.ptr ≤ z) :
    p.filename.2.Safe P z e ∧ p.filename.2.ptr ≤ z + 1 := by
  have gap : (p.skip isspace).ptr ≤ z := h.skip_le_first two le
  have safe := h.skip (f := isspace) allows two (by omega)
  have name : ((p.skip isspace).skip (!isspace ·)).ptr ≤ z := safe.skip_le_first two gap
  exact ⟨((safe.skip allows two (by omega)).terminate allows (by omega)).next,
    Nat.succ_le_succ name⟩

theorem redirectOut (h : p.Safe P z e) (lt : p.ptr < z) :
    p.redirectOut.Safe P z e ∧ p.redirectOut.ptr ≤ z + 1 := by
  have second : (p.flag 1).next.look.Safe P z e :=
    (h.flag 1).next.look allows (show p.ptr + 1 ≤ z + 2 by omega)
  unfold Pass.redirectOut
  dsimp only
  split
  · next double =>
      -- the second `>` is no zero either
      have more : p.ptr + 1 < z := by
        refine Nat.lt_of_le_of_ne lt fun eq => ?_
        have zero : p.buf.getD (p.ptr + 1) 0 = 0 := h.zeros _ eq.ge (by omega)
        rw [char_eq] at double
        exact absurd (zero.symm.trans double) (by decide)
      obtain ⟨safe, le⟩ := ((second.flag 2).note .append).next.filename allows two more
      exact ⟨safe.nameOut _, le⟩
  · obtain ⟨safe, le⟩ := (second.note .output).filename allows two lt
    exact ⟨safe.nameOut _, le⟩

theorem redirectIn (h : p.Safe P z e) (lt : p.ptr < z) :
    p.redirectIn.Safe P z e ∧ p.redirectIn.ptr ≤ z + 1 := by
  obtain ⟨safe, le⟩ :=
    ((h.flag (p.relocateFlag ||| 4)).note .input).next.filename allows two lt
  exact ⟨safe.nameIn _, le⟩

theorem finish (h : p.Safe P z e) (le : p.ptr ≤ z + 1) (few : p.finish.argv.length ≤ n) :
    p.finish.Safe P z e ∧ p.finish.ptr ≤ z + 2 := by
  have looked : p.look.Safe P z e := h.look allows (by omega)
  unfold Pass.finish at few ⊢
  dsimp only at few ⊢
  split
  · exact ⟨looked.next, Nat.succ_le_succ le⟩
  · next graph =>
      rw [if_neg graph] at few
      have stored : p.look.argument.next.argv.length = p.argv.length + 1 := List.length_append
      obtain ⟨safe, second⟩ :=
        looked.argument allows two le (show p.argv.length < n by omega)
      exact ⟨safe.next, Nat.succ_le_succ second⟩

/-- A round begins before the first zero and ends at most one byte behind the second. -/
theorem round (h : p.Safe P z e) (lt : p.ptr < z) (few : (p.round redirects).argv.length ≤ n) :
    (p.round redirects).Safe P z e ∧ (p.round redirects).ptr ≤ z + 2 := by
  have looked : p.look.Safe P z e := h.look allows (by omega)
  unfold Pass.round at few ⊢
  by_cases out : redirects ∧ p.char = gt
  · rw [if_pos out] at few ⊢
    obtain ⟨safe, le⟩ := looked.redirectOut allows two lt
    exact safe.finish allows two le few
  · rw [if_neg out] at few ⊢
    by_cases inp : redirects ∧ p.char = Shell.lt
    · rw [if_pos inp] at few ⊢
      obtain ⟨safe, le⟩ := looked.redirectIn allows two lt
      exact safe.finish allows two le few
    · rw [if_neg inp] at few ⊢
      exact h.finish allows two (by omega) few

/-- The loop stops at a zero, unless it gets past the second one and there is no third. -/
theorem loop {fuel : ℕ} (h : p.Safe P z e) (le : p.ptr ≤ z + 2)
    (hl : p.loop redirects fuel = some p') (off : z + 2 < e ∨ p'.ptr ≤ z + 1)
    (few : p'.argv.length ≤ n) : p'.Safe P z e := by
  induction fuel generalizing p with
  | zero => cases hl
  | succ fuel ih =>
      have looked : p.look.Safe P z e := h.look allows le
      rw [Pass.loop] at hl
      split at hl
      · cases hl
        exact looked
      · next some =>
          have before : p.ptr < z := by
            have after : p.ptr ≤ p'.ptr := le_trans (lt_round (p := p.look)).le (le_loop hl)
            by_contra ge
            exact some (char_eq.trans (h.zeros p.ptr (by omega) (by omega)))
          obtain ⟨safe, le⟩ := looked.round allows two before ((le_argv_loop hl).trans few)
          exact ih safe le hl

end Pass.Safe

end

end LinuxNote.Shell
