import LinuxNote.Text.Buffer
import LinuxNote.Text.Flex

/-!
# The word counter of `2_rule`

The scanner of `lexer.l` has a rule for each of four words, and two for single characters.  The
words are `Apart`, so each of them is counted wherever it occurs (`counter_eq`).
-/

namespace LinuxNote.Counter

open Text

/-- The counters of `lexer.l`. -/
structure Globals where
  fee_count : ℤ
  fie_count : ℤ
  foe_count : ℤ
  fum_count : ℤ

def word (w : String) (action : Globals → Globals) : Rule UInt8 Globals where
  pattern s := s = bytes w
  action g := (action g, none)

/-- A rule with an empty action. -/
def skip (pattern : List UInt8 → Bool) : Rule UInt8 Globals := ⟨pattern, fun g => (g, none)⟩

/-- The rules of `lexer.l`; `.` matches every byte but a newline. -/
def rules : List (Rule UInt8 Globals) :=
  [word "fee" fun g => { g with fee_count := g.fee_count + 1 },
    word "fie" fun g => { g with fie_count := g.fie_count + 1 },
    word "foe" fun g => { g with foe_count := g.foe_count + 1 },
    word "fum" fun g => { g with fum_count := g.fum_count + 1 },
    skip fun s => s.length = 1 ∧ s ≠ [10],
    skip fun s => s = [10]]

/-- The input that has not been read, and the counters. -/
structure Process where
  stdin : List UInt8
  globals : Globals

def yylex (s : Process) : ℤ × Process :=
  let (r, stdin, globals) := Text.yylex rules s.stdin s.globals
  (r, ⟨stdin, globals⟩)

/-- `while (yylex()) continue;`, and the array `counts`. -/
def counter : ℕ → Process → Option (List ℤ × Process)
  | 0, _ => none
  | fuel + 1, s =>
      let (r, s) := yylex s
      if r ≠ 0 then counter fuel s
      else
        some ([s.globals.fee_count, s.globals.fie_count, s.globals.foe_count,
          s.globals.fum_count], s)

def words : List (List UInt8) := [bytes "fee", bytes "fie", bytes "foe", bytes "fum"]

theorem apart_words : Apart words := by decide

theorem act_rules (t : Option ℕ) (g : Globals) : (act rules t g).1 =
    ⟨g.fee_count + if t = some 0 then 1 else 0, g.fie_count + if t = some 1 then 1 else 0,
      g.foe_count + if t = some 2 then 1 else 0, g.fum_count + if t = some 3 then 1 else 0⟩ := by
  rcases t with _ | _ | _ | _ | _ | _ | _ | i <;> simp [act, rules, word, skip]

/-- The counters after some tokens. -/
theorem foldl_act (ts : List (Option ℕ)) (g : Globals) :
    ts.foldl (fun g t => (act rules t g).1) g =
      ⟨g.fee_count + ts.count (some 0), g.fie_count + ts.count (some 1),
        g.foe_count + ts.count (some 2), g.fum_count + ts.count (some 3)⟩ := by
  induction ts generalizing g with
  | nil => simp
  | cons t ts ih =>
      rw [List.foldl_cons, ih, act_rules]
      simp only [List.count_cons, beq_iff_eq, Globals.mk.injEq]
      refine ⟨?_, ?_, ?_, ?_⟩ <;> split <;> omega

theorem lists_rules : Lists words (rules.map Rule.pattern) where
  word i lt w := by
    have cases : i = 0 ∨ i = 1 ∨ i = 2 ∨ i = 3 := by
      have : i < 4 := lt
      omega
    constructor
    · rintro ⟨p, hp, hit⟩
      rcases cases with rfl | rfl | rfl | rfl <;> obtain rfl := Option.some.inj hp <;>
        exact congrArg some (of_decide_eq_true hit).symm
    · intro hw
      rcases cases with rfl | rfl | rfl | rfl <;> obtain rfl := Option.some.inj hw <;>
        exact ⟨_, rfl, by decide⟩
  single i le w := by
    rintro ⟨p, hp, hit⟩
    have le' : 4 ≤ i := le
    rcases Nat.lt_or_ge i 6 with lt | ge
    · have cases : i = 4 ∨ i = 5 := by omega
      rcases cases with rfl | rfl <;> obtain rfl := Option.some.inj hp
      · exact (of_decide_eq_true hit).1
      · rw [of_decide_eq_true hit]
        rfl
    · have size : (rules.map Rule.pattern).length ≤ i := ge
      rw [List.getElem?_eq_none size] at hp
      cases hp

theorem yylex_eq (s : Process) : yylex s = (0, ⟨[],
    ⟨s.globals.fee_count + occurrences (bytes "fee") s.stdin,
      s.globals.fie_count + occurrences (bytes "fie") s.stdin,
      s.globals.foe_count + occurrences (bytes "foe") s.stdin,
      s.globals.fum_count + occurrences (bytes "fum") s.stdin⟩⟩) := by
  have silent : ∀ rule ∈ rules, ∀ g, (rule.action g).2 = none := by
    intro rule mem g
    simp only [rules, List.mem_cons, List.not_mem_nil, or_false] at mem
    rcases mem with rfl | rfl | rfl | rfl | rfl | rfl <;> rfl
  have counts : ∀ (i : ℕ) (u : List UInt8), words[i]? = some u →
      (tokens (rules.map Rule.pattern) s.stdin).count (some i) = occurrences u s.stdin :=
    fun i u hi => count_tokens lists_rules apart_words (by decide) (by decide) hi s.stdin
  unfold yylex
  rw [yylex_eq_foldl silent, foldl_act, counts 0 _ rfl, counts 1 _ rfl, counts 2 _ rfl,
    counts 3 _ rfl]

/-- For every text, after the first call: at how many positions each of the words occurs. -/
theorem counter_eq (text : List UInt8) (fuel : ℕ) :
    (counter (fuel + 1) ⟨text, 0, 0, 0, 0⟩).map Prod.fst =
      some (words.map fun w => (occurrences w text : ℤ)) := by
  rw [counter, yylex_eq]
  simp [words]

/-- Near misses: "feefifofumfefee". -/
example : (counter 1 ⟨bytes "feefifofumfefee", 0, 0, 0, 0⟩).map Prod.fst = some [2, 0, 0, 1] := by
  decide +kernel

end LinuxNote.Counter
