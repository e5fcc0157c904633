import LinuxNote.Text.Occurrences

/-!
# Scanners

The rules of a scanner are patterns with actions.  At each position the rule is taken that matches
the longest piece of the text, and of several the earliest (`Best`); what no rule matches is passed
over an element at a time.  `yylex` goes on like this until an action returns, or the text ends,
and then it returns 0.

Rules for words that are `Apart`, with nothing behind them but rules for single elements, find every
occurrence of every word (`count_tokens`).
-/

namespace Text

variable {α σ : Type*}

/-- Rule `i` matches all of `w`. -/
def Hits (patterns : List (List α → Bool)) (i : ℕ) (w : List α) : Prop :=
  ∃ p, patterns[i]? = some p ∧ p w

/-- Rule `i` is taken at the start of `s`, for `n` of at most `k` elements. -/
structure Best (patterns : List (List α → Bool)) (s : List α) (k i n : ℕ) : Prop where
  pos : 0 < n
  inside : n ≤ k
  hits : Hits patterns i (s.take n)
  longest : ∀ j m, 0 < m → m ≤ k → Hits patterns j (s.take m) → m ≤ n
  earliest : ∀ j, Hits patterns j (s.take n) → i ≤ j

def best (patterns : List (List α → Bool)) (s : List α) : ℕ → Option (ℕ × ℕ)
  | 0 => none
  | n + 1 =>
      match patterns.findIdx? fun p => p (s.take (n + 1)) with
      | some i => some (i, n + 1)
      | none => best patterns s n

section Best

variable {patterns : List (List α → Bool)} {s w : List α} {i n k : ℕ}

theorem findIdx?_eq_some_iff_hits : patterns.findIdx? (fun p => p w) = some i ↔
    Hits patterns i w ∧ ∀ j, Hits patterns j w → i ≤ j := by
  rw [List.findIdx?_eq_some_iff_getElem]
  constructor
  · rintro ⟨lt, hit, first⟩
    refine ⟨⟨_, List.getElem?_eq_getElem lt, hit⟩, fun j ⟨p, hj, hp⟩ => ?_⟩
    by_contra before
    obtain ⟨lt', rfl⟩ := List.getElem?_eq_some_iff.1 hj
    exact first j (Nat.lt_of_not_le before) hp
  · rintro ⟨⟨p, hi, hp⟩, first⟩
    obtain ⟨lt, rfl⟩ := List.getElem?_eq_some_iff.1 hi
    refine ⟨lt, hp, fun j hj hit => ?_⟩
    exact Nat.not_le_of_lt hj (first j ⟨_, List.getElem?_eq_getElem (hj.trans lt), hit⟩)

theorem findIdx?_eq_none_iff_hits :
    patterns.findIdx? (fun p => p w) = none ↔ ∀ j, ¬ Hits patterns j w := by
  rw [List.findIdx?_eq_none_iff]
  constructor
  · rintro none j ⟨p, hj, hp⟩
    rw [none p (List.mem_of_getElem? hj)] at hp
    cases hp
  · intro none p hp
    obtain ⟨j, hj⟩ := List.mem_iff_getElem?.1 hp
    exact Bool.eq_false_iff.2 fun hit => none j ⟨p, hj, hit⟩

theorem best_eq_some_iff : best patterns s k = some (i, n) ↔ Best patterns s k i n := by
  induction k with
  | zero =>
      exact iff_of_false (fun h => by cases h) fun h => absurd h.inside (Nat.not_le_of_lt h.pos)
  | succ k ih =>
      rw [best]
      split
      · next i' hi =>
          obtain ⟨hit, first⟩ := findIdx?_eq_some_iff_hits.1 hi
          constructor
          · intro eq
            obtain ⟨rfl, rfl⟩ := Prod.mk.inj (Option.some.inj eq)
            exact ⟨Nat.succ_pos k, le_rfl, hit, fun j m _ le _ => le, first⟩
          · intro h
            have full := h.longest i' (k + 1) (Nat.succ_pos k) le_rfl hit
            obtain rfl := Nat.le_antisymm h.inside full
            rw [Nat.le_antisymm (first i h.hits) (h.earliest i' hit)]
      · next hi =>
          have last := findIdx?_eq_none_iff_hits.1 hi
          rw [ih]
          constructor
          · intro h
            refine ⟨h.pos, Nat.le_succ_of_le h.inside, h.hits, fun j m pos le hit => ?_, h.earliest⟩
            rcases Nat.le_succ_iff.1 le with le | rfl
            · exact h.longest j m pos le hit
            · exact absurd hit (last j)
          · intro h
            have lt : n ≠ k + 1 := by
              rintro rfl
              exact last i h.hits
            exact ⟨h.pos, Nat.le_of_lt_succ (Nat.lt_of_le_of_ne h.inside lt), h.hits,
              fun j m pos le => h.longest j m pos (Nat.le_succ_of_le le), h.earliest⟩

end Best

/-! ## The tokens of a text -/

/-- The rule that is taken, or none, and what is left. -/
def munch (patterns : List (List α → Bool)) (s : List α) : Option ℕ × List α :=
  match best patterns s s.length with
  | some (i, n) => (some i, s.drop n)
  | none => (none, s.tail)

theorem munch_of_best {patterns : List (List α → Bool)} {s : List α} {i n : ℕ}
    (h : Best patterns s s.length i n) : munch patterns s = (some i, s.drop n) := by
  rw [munch, best_eq_some_iff.2 h]

theorem length_munch_lt (patterns : List (List α → Bool)) {s : List α} (more : s ≠ []) :
    (munch patterns s).2.length < s.length := by
  have pos := List.length_pos_iff.2 more
  unfold munch
  split
  · next i n h =>
      have := (best_eq_some_iff.1 h).pos
      rw [List.length_drop]
      omega
  · rw [List.length_tail]
    omega

/-- The rules that are taken, one after the other. -/
def tokens (patterns : List (List α → Bool)) (s : List α) : List (Option ℕ) :=
  if _end : s.length = 0 then [] else (munch patterns s).1 :: tokens patterns (munch patterns s).2
termination_by s.length
decreasing_by exact length_munch_lt patterns fun e => _end (congrArg List.length e)

theorem tokens_nil (patterns : List (List α → Bool)) : tokens patterns ([] : List α) = [] := by
  rw [tokens, dif_pos List.length_nil]

theorem tokens_of_ne (patterns : List (List α → Bool)) {s : List α} (more : s ≠ []) :
    tokens patterns s = (munch patterns s).1 :: tokens patterns (munch patterns s).2 := by
  rw [tokens, dif_neg fun e => more (List.length_eq_zero_iff.1 e)]

/-- A pattern, and an action that may return. -/
structure Rule (α σ : Type*) where
  pattern : List α → Bool
  action : σ → σ × Option ℤ

/-- The action of a token. -/
def act (rules : List (Rule α σ)) (t : Option ℕ) (g : σ) : σ × Option ℤ :=
  match t.bind (rules[·]?) with
  | some rule => rule.action g
  | none => (g, none)

/-- What `yylex` returns, the text that is left, and the state of the actions. -/
def yylex (rules : List (Rule α σ)) (s : List α) (g : σ) : ℤ × List α × σ :=
  if _end : s.length = 0 then (0, [], g)
  else
    match act rules (munch (rules.map Rule.pattern) s).1 g with
    | (g', some r) => (r, (munch (rules.map Rule.pattern) s).2, g')
    | (g', none) => yylex rules (munch (rules.map Rule.pattern) s).2 g'
termination_by s.length
decreasing_by exact length_munch_lt _ fun e => _end (congrArg List.length e)

/-- Where no action returns, `yylex` runs to the end of the text. -/
theorem yylex_eq_foldl {rules : List (Rule α σ)}
    (silent : ∀ rule ∈ rules, ∀ g, (rule.action g).2 = none) (s : List α) (g : σ) :
    yylex rules s g =
      (0, [], (tokens (rules.map Rule.pattern) s).foldl (fun g t => (act rules t g).1) g) := by
  have quiet : ∀ t g, act rules t g = ((act rules t g).1, none) := by
    intro t g
    unfold act
    split
    · next rule h =>
        obtain ⟨i, -, hi⟩ := Option.bind_eq_some_iff.1 h
        exact Prod.ext rfl (silent rule (List.mem_of_getElem? hi) g)
    · rfl
  induction hn : s.length using Nat.strong_induction_on generalizing s g with
  | _ n ih =>
      by_cases more : s = []
      · rw [more, yylex, dif_pos List.length_nil, tokens_nil]
        rfl
      · have shorter := length_munch_lt (rules.map Rule.pattern) more
        rw [yylex, dif_neg fun e => more (List.length_eq_zero_iff.1 e), quiet, tokens_of_ne _ more]
        exact ih _ (hn ▸ shorter) _ _ rfl

/-! ## Rules for words -/

/-- A rule for each word, and behind them rules for single elements. -/
structure Lists (words : List (List α)) (patterns : List (List α → Bool)) : Prop where
  word : ∀ i < words.length, ∀ w, Hits patterns i w ↔ words[i]? = some w
  single : ∀ i, words.length ≤ i → ∀ w, Hits patterns i w → w.length = 1

section Lists

variable [DecidableEq α] {words : List (List α)} {patterns : List (List α → Bool)}
variable {s u : List α} {i : ℕ}

omit [DecidableEq α] in
theorem munch_of_isPrefix (h : Lists words patterns) (apart : Apart words) (nodup : words.Nodup)
    (nonempty : [] ∉ words) (hi : words[i]? = some u) (at_ : u <+: s) :
    munch patterns s = (some i, s.drop u.length) := by
  obtain ⟨lt, rfl⟩ := List.getElem?_eq_some_iff.1 hi
  have mem : words[i] ∈ words := List.getElem_mem lt
  have taken : s.take words[i].length = words[i] := (List.prefix_iff_eq_take.1 at_).symm
  have pos : 0 < words[i].length := List.length_pos_iff.2 fun e => nonempty (e ▸ mem)
  refine munch_of_best ⟨pos, at_.length_le, ?_, fun j m _ le hit => ?_, fun j hit => ?_⟩
  · rw [taken]
    exact (h.word i lt _).2 hi
  · by_cases hj : j < words.length
    · have other := (h.word j hj _).1 hit
      have same := (apart.of_isPrefix mem (List.mem_of_getElem? other) at_ pos
        (List.take_prefix m s)).2
      rw [same, List.length_take]
      exact (Nat.min_eq_left le).ge
    · have one := h.single j (Nat.le_of_not_lt hj) _ hit
      rw [List.length_take, Nat.min_eq_left le] at one
      exact one.trans_le pos
  · by_cases hj : j < words.length
    · rw [taken] at hit
      have other := (h.word j hj _).1 hit
      exact ((List.getElem?_inj lt nodup).1 (hi.trans other.symm)).le
    · exact lt.le.trans (Nat.le_of_not_lt hj)

omit [DecidableEq α] in
/-- Where no word begins, one element is passed over. -/
theorem munch_of_not_isPrefix (h : Lists words patterns) (none : ∀ u ∈ words, ¬ u <+: s) :
    (munch patterns s).2 = s.tail ∧ ∀ i, (munch patterns s).1 = some i → words.length ≤ i := by
  unfold munch
  split
  · next i n hb =>
      have best := best_eq_some_iff.1 hb
      have other : words.length ≤ i := by
        by_contra lt
        have word := (h.word i (Nat.lt_of_not_le lt) _).1 best.hits
        exact none _ (List.mem_of_getElem? word) (List.take_prefix n s)
      have one := h.single i other _ best.hits
      rw [List.length_take, Nat.min_eq_left best.inside] at one
      refine ⟨?_, fun j hj => Option.some.inj hj ▸ other⟩
      rw [one, List.drop_one]
  · exact ⟨rfl, fun i hi => by cases hi⟩

theorem count_tokens (h : Lists words patterns) (apart : Apart words) (nodup : words.Nodup)
    (nonempty : [] ∉ words) (hi : words[i]? = some u) (s : List α) :
    (tokens patterns s).count (some i) = occurrences u s := by
  induction hn : s.length using Nat.strong_induction_on generalizing s with
  | _ n ih =>
      by_cases more : s = []
      · rw [more, tokens_nil, occurrences_nil, List.count_nil]
      · have shorter : (munch patterns s).2.length < n := hn ▸ length_munch_lt patterns more
        rw [tokens_of_ne patterns more, List.count_cons, ih _ shorter _ rfl]
        have mem : u ∈ words := List.mem_of_getElem? hi
        by_cases none : ∀ v ∈ words, ¬ v <+: s
        · obtain ⟨rest, other⟩ := munch_of_not_isPrefix h none
          obtain ⟨c, s, rfl⟩ := List.exists_cons_of_ne_nil more
          have not : (munch patterns (c :: s)).1 ≠ some i := by
            intro e
            exact absurd (List.getElem?_eq_some_iff.1 hi).1 (Nat.not_lt.2 (other i e))
          rw [rest, occurrences_cons, if_neg (none u mem), Nat.zero_add, beq_false_of_ne not]
          rfl
        · push Not at none
          obtain ⟨v, hv, at_⟩ := none
          obtain ⟨j, hj⟩ := List.mem_iff_getElem?.1 hv
          have long : v ≠ [] := fun e => nonempty (e ▸ hv)
          have same : j = i ↔ v = u := by
            constructor
            · rintro rfl
              exact Option.some.inj (hj.symm.trans hi)
            · rintro rfl
              obtain ⟨lt, -⟩ := List.getElem?_eq_some_iff.1 hj
              exact (List.getElem?_inj lt nodup).1 (hj.trans hi.symm)
          rw [munch_of_isPrefix h apart nodup nonempty hj at_, apart.occurrences_eq hv mem long at_,
            Nat.add_comm]
          simp only [beq_iff_eq, Option.some.injEq, same]

end Lists

end Text
