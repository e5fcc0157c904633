import LinuxNote.Shell.CString

/-!
# The command lines of `mini_shell.c`

A line is a sequence of blanks, words and redirections: `<`, `>` or `>>`, white space, a file name.
`WellFormed` says that the tokens are read from left to right and are as long as possible; a line
has one reading (`text_injective`).
-/

namespace LinuxNote.Shell

/-- `\n` -/
def newline : UInt8 := 10

/-- `<` -/
def lt : UInt8 := 60

/-- `>` -/
def gt : UInt8 := 62

inductive Op
  | input
  | output
  | append
  deriving DecidableEq

def Op.text : Op → List UInt8
  | .input => [lt]
  | .output => [gt]
  | .append => [gt, gt]

inductive Token
  | blank (c : UInt8)
  | word (w : List UInt8)
  | redirect (op : Op) (gap name : List UInt8)
  deriving DecidableEq

def Token.text : Token → List UInt8
  | .blank c => [c]
  | .word w => w
  | .redirect op gap name => op.text ++ gap ++ name

def text (ts : List Token) : List UInt8 := ts.flatMap Token.text

/-- White space inside a line. -/
def IsBlank (c : UInt8) : Prop := isspace c ∧ c ≠ newline

/-- A byte of a word or of a file name. -/
def IsGraph (c : UInt8) : Prop := ¬ isspace c ∧ c ≠ 0

def IsRun (w : List UInt8) : Prop := w ≠ [] ∧ ∀ c ∈ w, IsGraph c

/-- A word does not begin with an operator, nor the name after `>` with the `>` of a `>>`. -/
def Token.Valid : Token → Prop
  | .blank c => IsBlank c
  | .word w => IsRun w ∧ w.head? ≠ some lt ∧ w.head? ≠ some gt
  | .redirect op gap name =>
      (∀ c ∈ gap, IsBlank c) ∧ IsRun name ∧ (op = .output → gap = [] → name.head? ≠ some gt)

/-- The end of the line or a blank: a run of other bytes ends here. -/
def Ends : List Token → Prop
  | [] | .blank _ :: _ => True
  | _ => False

def WellFormed : List Token → Prop
  | [] => True
  | .blank c :: ts => IsBlank c ∧ WellFormed ts
  | t :: ts => t.Valid ∧ Ends ts ∧ WellFormed ts

instance (c : UInt8) : Decidable (IsBlank c) := inferInstanceAs (Decidable (_ ∧ _))

instance (c : UInt8) : Decidable (IsGraph c) := inferInstanceAs (Decidable (_ ∧ _))

instance (w : List UInt8) : Decidable (IsRun w) := inferInstanceAs (Decidable (_ ∧ _))

instance : DecidablePred Token.Valid
  | .blank c => inferInstanceAs (Decidable (IsBlank c))
  | .word w => inferInstanceAs (Decidable (IsRun w ∧ w.head? ≠ some lt ∧ w.head? ≠ some gt))
  | .redirect op gap name =>
      inferInstanceAs (Decidable ((∀ c ∈ gap, IsBlank c) ∧ IsRun name ∧
        (op = .output → gap = [] → name.head? ≠ some gt)))

instance : DecidablePred Ends
  | [] | .blank _ :: _ => isTrue trivial
  | .word _ :: _ | .redirect _ _ _ :: _ => isFalse id

instance decidableWellFormed : DecidablePred WellFormed
  | [] => isTrue trivial
  | .blank c :: ts =>
      haveI := decidableWellFormed ts
      inferInstanceAs (Decidable (IsBlank c ∧ WellFormed ts))
  | .word w :: ts =>
      haveI := decidableWellFormed ts
      inferInstanceAs (Decidable ((Token.word w).Valid ∧ Ends ts ∧ WellFormed ts))
  | .redirect op gap name :: ts =>
      haveI := decidableWellFormed ts
      inferInstanceAs (Decidable ((Token.redirect op gap name).Valid ∧ Ends ts ∧ WellFormed ts))

/-! ## What a line says -/

/-- The words in order. -/
def words (ts : List Token) : List (List UInt8) :=
  ts.filterMap fun
    | .word w => some w
    | _ => none

/-- The names after `<`. -/
def inputs (ts : List Token) : List (List UInt8) :=
  ts.filterMap fun
    | .redirect .input _ name => some name
    | _ => none

/-- The names after `>` and `>>`. -/
def outputs (ts : List Token) : List (List UInt8) :=
  ts.filterMap fun
    | .redirect .output _ name | .redirect .append _ name => some name
    | _ => none

/-- Two blanks, or one and a word. -/
def Separated : List Token → Prop
  | .blank _ :: .blank _ :: _ | .blank _ :: .word _ :: _ => True
  | _ => False

/-- Every file name is followed by two blanks, or by one and a word. -/
def Spaced : List Token → Prop
  | [] => True
  | .redirect _ _ _ :: ts => Separated ts ∧ Spaced ts
  | _ :: ts => Spaced ts

/-! ## One reading -/

/-- What the first byte tells about the token. -/
def Token.Starts (c : UInt8) : Token → Prop
  | .blank _ => isspace c
  | .word _ => ¬ isspace c ∧ c ≠ lt ∧ c ≠ gt
  | .redirect _ _ _ => c = lt ∨ c = gt

theorem not_isspace_op {c : UInt8} (h : c = lt ∨ c = gt) : ¬ isspace c := by
  rcases h with rfl | rfl <;> decide

theorem exists_starts {t : Token} (valid : t.Valid) : ∃ c l, t.text = c :: l ∧ t.Starts c := by
  cases t with
  | blank c => exact ⟨c, [], rfl, valid.1⟩
  | word w =>
      obtain ⟨run, ne_lt, ne_gt⟩ := valid
      obtain ⟨c, w, rfl⟩ := List.exists_cons_of_ne_nil run.1
      refine ⟨c, w, rfl, (run.2 c List.mem_cons_self).1, ?_, ?_⟩
      · rintro rfl; exact ne_lt rfl
      · rintro rfl; exact ne_gt rfl
  | redirect op gap name =>
      cases op with
      | input => exact ⟨lt, _, rfl, Or.inl rfl⟩
      | output | append => exact ⟨gt, _, rfl, Or.inr rfl⟩

/-- The longest piece with a property is the same in two readings. -/
theorem piece_unique {p : UInt8 → Prop} {u u' rest rest' : List UInt8} (hu : ∀ c ∈ u, p c)
    (hu' : ∀ c ∈ u', p c) (h : ∀ c ∈ rest.head?, ¬ p c) (h' : ∀ c ∈ rest'.head?, ¬ p c)
    (eq : u ++ rest = u' ++ rest') : u = u' ∧ rest = rest' := by
  induction u generalizing u' with
  | nil =>
      cases u' with
      | nil => exact ⟨rfl, eq⟩
      | cons c u' =>
          rw [List.nil_append] at eq
          subst eq
          exact absurd (hu' c List.mem_cons_self) (h c rfl)
  | cons c u ih =>
      cases u' with
      | nil =>
          rw [List.nil_append] at eq
          subst eq
          exact absurd (hu c List.mem_cons_self) (h' c rfl)
      | cons d u' =>
          obtain ⟨rfl, tails⟩ := List.cons.inj eq
          obtain ⟨rfl, rest_eq⟩ := ih (fun c hc => hu c (List.mem_cons_of_mem _ hc))
            (fun c hc => hu' c (List.mem_cons_of_mem _ hc)) tails
          exact ⟨rfl, rest_eq⟩

theorem WellFormed.head_valid {t : Token} {ts : List Token} (wf : WellFormed (t :: ts)) :
    t.Valid := by
  cases t with
  | blank c => exact wf.1
  | word w | redirect op gap name => exact wf.1

theorem WellFormed.tail {t : Token} {ts : List Token} (wf : WellFormed (t :: ts)) :
    WellFormed ts := by
  cases t with
  | blank c => exact wf.2
  | word w | redirect op gap name => exact wf.2.2

/-- Behind an item no byte of it can follow. -/
theorem head_of_ends {ts : List Token} (wf : WellFormed ts) (ends : Ends ts) :
    ∀ c ∈ (text ts).head?, ¬ IsGraph c := by
  match ts, wf, ends with
  | [], _, _ => exact fun c hc => absurd hc (by simp [text])
  | .blank d :: ts, wf, _ =>
      rintro c ⟨⟩ graph
      exact graph.1 wf.1.1

theorem IsRun.head_not_blank {name : List UInt8} (run : IsRun name) (rest : List UInt8) :
    ∀ c ∈ (name ++ rest).head?, ¬ IsBlank c := by
  obtain ⟨d, name, rfl⟩ := List.exists_cons_of_ne_nil run.1
  rintro c ⟨⟩ blank
  exact (run.2 d List.mem_cons_self).1 blank.1

/-- The byte behind `>` tells the two operators apart. -/
theorem head_ne_gt {gap name rest : List UInt8}
    (valid : (Token.redirect .output gap name).Valid) :
    (gap ++ (name ++ rest)).head? ≠ some gt := by
  obtain ⟨blanks, run, single⟩ := valid
  cases gap with
  | cons d gap =>
      rintro ⟨⟩
      exact absurd (blanks gt List.mem_cons_self).1 (by decide)
  | nil =>
      obtain ⟨d, name, rfl⟩ := List.exists_cons_of_ne_nil run.1
      exact single rfl rfl

theorem redirect_unique {op op' : Op} {gap gap' name name' rest rest' : List UInt8}
    (valid : (Token.redirect op gap name).Valid) (valid' : (Token.redirect op' gap' name').Valid)
    (eq : op.text ++ (gap ++ (name ++ rest)) = op'.text ++ (gap' ++ (name' ++ rest'))) :
    op = op' ∧ gap = gap' ∧ name ++ rest = name' ++ rest' := by
  have tails : op = op' ∧ gap ++ (name ++ rest) = gap' ++ (name' ++ rest') := by
    cases op <;> cases op'
    case input.input | output.output | append.append =>
      exact ⟨rfl, List.append_cancel_left eq⟩
    case output.append =>
      have second : (gap ++ (name ++ rest)).head? = some gt :=
        congrArg List.head? (List.cons.inj eq).2
      exact absurd second (head_ne_gt valid)
    case append.output =>
      have second : (gap' ++ (name' ++ rest')).head? = some gt :=
        congrArg List.head? (List.cons.inj eq).2.symm
      exact absurd second (head_ne_gt valid')
    all_goals exact absurd (List.cons.inj eq).1 (by decide)
  refine ⟨tails.1, piece_unique valid.1 valid'.1 ?_ ?_ tails.2⟩
  · exact valid.2.1.head_not_blank rest
  · exact valid'.2.1.head_not_blank rest'

theorem token_unique {t t' : Token} {ts ts' : List Token} (wf : WellFormed (t :: ts))
    (wf' : WellFormed (t' :: ts')) (eq : t.text ++ text ts = t'.text ++ text ts') :
    t = t' ∧ text ts = text ts' := by
  obtain ⟨c, l, ht, starts⟩ := exists_starts wf.head_valid
  obtain ⟨c', l', ht', starts'⟩ := exists_starts wf'.head_valid
  obtain rfl : c = c' := by
    rw [ht, ht'] at eq
    exact (List.cons.inj eq).1
  cases t <;> cases t'
  case blank.blank =>
    obtain ⟨rfl, tails⟩ := List.cons.inj eq
    exact ⟨rfl, tails⟩
  case word.word =>
    obtain ⟨rfl, tails⟩ := piece_unique wf.1.1.2 wf'.1.1.2 (head_of_ends wf.2.2 wf.2.1)
      (head_of_ends wf'.2.2 wf'.2.1) eq
    exact ⟨rfl, tails⟩
  case redirect.redirect op gap name op' gap' name' =>
    simp only [Token.text, List.append_assoc] at eq
    obtain ⟨rfl, rfl, names⟩ := redirect_unique wf.1 wf'.1 eq
    obtain ⟨rfl, tails⟩ := piece_unique wf.1.2.1.2 wf'.1.2.1.2 (head_of_ends wf.2.2 wf.2.1)
      (head_of_ends wf'.2.2 wf'.2.1) names
    exact ⟨rfl, tails⟩
  -- tokens of two kinds begin with different bytes
  case blank.word => exact absurd starts starts'.1
  case word.blank => exact absurd starts' starts.1
  case blank.redirect => exact absurd starts (not_isspace_op starts')
  case redirect.blank => exact absurd starts' (not_isspace_op starts)
  case word.redirect => exact absurd starts' (not_or.2 starts.2)
  case redirect.word => exact absurd starts (not_or.2 starts'.2)

/-- A line has one reading. -/
theorem text_injective {ts ts' : List Token} (wf : WellFormed ts) (wf' : WellFormed ts')
    (eq : text ts = text ts') : ts = ts' := by
  have nonempty : ∀ {t : Token} {ts : List Token}, WellFormed (t :: ts) → text (t :: ts) ≠ [] := by
    intro t ts wf empty
    obtain ⟨c, l, ht, -⟩ := exists_starts wf.head_valid
    rw [text, List.flatMap_cons, ht] at empty
    cases empty
  induction ts generalizing ts' with
  | nil =>
      cases ts' with
      | nil => rfl
      | cons t' ts' => exact absurd eq.symm (nonempty wf')
  | cons t ts ih =>
      cases ts' with
      | nil => exact absurd eq (nonempty wf)
      | cons t' ts' =>
          obtain ⟨rfl, tails⟩ := token_unique wf wf' eq
          rw [ih wf.tail wf'.tail tails]

end LinuxNote.Shell
