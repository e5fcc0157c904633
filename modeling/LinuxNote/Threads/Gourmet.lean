import LinuxNote.Conc.Wakeup

/-!
# The gourmets and the chiefs of `cond.c`

A flag says whether a bowl stands ready.  A gourmet waits while there is none and a chief while
there is one, each on a condition variable of its kind, and both signal the other kind after they
have unlocked.

The messages alternate because the flag is the parity of their number, but for a thread between its
message and its change of the flag (`Asserts`).  No signal is lost: whatever a sleeping thread could
take is matched by a signal still to be sent or by a woken thread on its way (`covered`).
-/

namespace LinuxNote.Gourmet

open Conc

/-- `cond_gourmet` and `cond_cheif`. -/
inductive Cond
  | gourmet
  | cheif
  deriving DecidableEq

/-- The two messages: `I made a bowl of Buddha jumping over the wall` and `Readlly delicious`. -/
inductive Message
  | made
  | delicious
  deriving DecidableEq

/-- `have_delicacy`, and the messages printed so far. -/
structure Table where
  haveDelicacy : ℤ
  printed : List Message

def Table.print (g : Table) (m : Message) : Table := { g with printed := g.printed ++ [m] }

/-- `have_delicacy--` -/
def Table.take (g : Table) : Table := { g with haveDelicacy := g.haveDelicacy - 1 }

/-- `have_delicacy++` -/
def Table.put (g : Table) : Table := { g with haveDelicacy := g.haveDelicacy + 1 }

/-- Each location is before the statement it names; `again` says that the thread comes from
`pthread_cond_wait`. -/
inductive Loc
  | gourmetLock
  | gourmetTest (again : Bool)
  | gourmetWait
  | gourmetPrint (again : Bool)
  | gourmetTake (again : Bool)
  | gourmetUnlock
  | gourmetSignal
  | chiefLock
  | chiefTest (again : Bool)
  | chiefWait
  | chiefPrint (again : Bool)
  | chiefPut (again : Bool)
  | chiefUnlock
  | chiefSignal

def prog : Loc → Instr Unit Cond Empty Empty Table Loc
  | .gourmetLock => .lock () (.gourmetTest false)
  | .gourmetTest again => .stmt fun g =>
      (g, if g.haveDelicacy = 0 then .gourmetWait else .gourmetPrint again)
  | .gourmetWait => .wait .gourmet () (.gourmetTest true)
  | .gourmetPrint again => .stmt fun g => (g.print .delicious, .gourmetTake again)
  | .gourmetTake _ => .stmt fun g => (g.take, .gourmetUnlock)
  | .gourmetUnlock => .unlock () .gourmetSignal
  | .gourmetSignal => .signal .cheif .gourmetLock
  | .chiefLock => .lock () (.chiefTest false)
  | .chiefTest again => .stmt fun g =>
      (g, if g.haveDelicacy = 1 then .chiefWait else .chiefPrint again)
  | .chiefWait => .wait .cheif () (.chiefTest true)
  | .chiefPrint again => .stmt fun g => (g.print .made, .chiefPut again)
  | .chiefPut _ => .stmt fun g => (g.put, .chiefUnlock)
  | .chiefUnlock => .unlock () .chiefSignal
  | .chiefSignal => .signal .gourmet .chiefLock

inductive Role
  | gourmet
  | chief
  deriving DecidableEq

def Role.start : Role → Loc
  | .gourmet => .gourmetLock
  | .chief => .chiefLock

abbrev State (ι : Type*) := Conc.State ι Unit Cond Empty Table Loc

/-- The threads, each with its function. -/
def system {ι : Type*} [Fintype ι] [DecidableEq ι] (role : ι → Role) :
    Machine (State ι) (Act ι Empty) :=
  machine (fun _ => prog) (start (fun t => (role t).start) Empty.elim ⟨0, []⟩)

/-! ## Alternation -/

/-- The `n`-th message. -/
def Message.turn (n : ℕ) : Message := if n % 2 = 0 then .made else .delicious

/-- The messages are the two kinds in turn, the first one `made`. -/
def Alternates (printed : List Message) : Prop :=
  ∀ i, i < printed.length → printed[i]? = some (.turn i)

theorem Alternates.concat {printed : List Message} (h : Alternates printed) {m : Message}
    (hm : m = .turn printed.length) : Alternates (printed ++ [m]) := by
  intro i hi
  rw [List.length_append, List.length_singleton] at hi
  by_cases old : i < printed.length
  · rw [List.getElem?_append_left old]
    exact h i old
  · obtain rfl : i = printed.length := by omega
    simp [hm]

/-- The statements between `pthread_mutex_lock` and `pthread_mutex_unlock`. -/
def Loc.locked : Loc → Bool
  | .gourmetLock | .gourmetSignal | .chiefLock | .chiefSignal => false
  | _ => true

def Loc.holds (l : Loc) (_ : Unit) : Prop := l.locked

/-- While no thread is in a critical section, the flag is the parity of the number of messages. -/
structure Table.Sound (g : Table) : Prop where
  parity : g.haveDelicacy = (g.printed.length % 2 : ℕ)
  alternates : Alternates g.printed

/-- A thread that has printed its message has still to change the flag. -/
def Loc.Asserts (l : Loc) (g : Table) : Prop :=
  match l with
  | .gourmetWait | .chiefPrint _ => g.Sound ∧ g.haveDelicacy = 0
  | .gourmetPrint _ | .chiefWait => g.Sound ∧ g.haveDelicacy = 1
  | .gourmetTake _ => Alternates g.printed ∧ g.haveDelicacy = 1 ∧ g.printed.length % 2 = 0
  | .chiefPut _ => Alternates g.printed ∧ g.haveDelicacy = 0 ∧ g.printed.length % 2 = 1
  | _ => g.Sound

theorem Table.Sound.cases {g : Table} (h : g.Sound) : g.haveDelicacy = 0 ∨ g.haveDelicacy = 1 := by
  have := h.parity
  omega

theorem Table.Sound.print {g : Table} (h : g.Sound) {m : Message}
    (hm : m = .turn g.printed.length) :
    Alternates (g.print m).printed ∧ (g.print m).haveDelicacy = g.haveDelicacy ∧
      (g.print m).printed.length = g.printed.length + 1 := by
  refine ⟨h.alternates.concat hm, rfl, ?_⟩
  rw [Table.print, List.length_append, List.length_singleton]

theorem prog_respects (l : Loc) : (prog l).Respects Loc.holds l := by
  cases l with
  | gourmetTest again | chiefTest again =>
      refine Instr.respects_of_flag Loc.locked fun g => ?_
      split <;> rfl
  | _ => simp [prog, Instr.Respects, Loc.holds, Loc.locked]

theorem prog_keeps {ι : Type*} (t : ι) (l : Loc) :
    (prog l).Keeps Loc.holds Table.Sound (fun _ => Loc.Asserts) t l := by
  cases l with
  | gourmetLock | chiefLock => exact fun g h => h
  | gourmetTest again =>
      refine fun g => ⟨fun _ (h : g.Sound) => ?_, fun h => absurd rfl h⟩
      dsimp only
      split
      · next none => exact ⟨h, none⟩
      · next some => exact ⟨h, h.cases.resolve_left some⟩
  | chiefTest again =>
      refine fun g => ⟨fun _ (h : g.Sound) => ?_, fun h => absurd rfl h⟩
      dsimp only
      split
      · next some => exact ⟨h, some⟩
      · next none => exact ⟨h, h.cases.resolve_right none⟩
  | gourmetWait | chiefWait => exact fun g => ⟨fun h => h.1, fun h => h⟩
  | gourmetPrint again =>
      refine fun g => ⟨fun _ ⟨sound, one⟩ => ?_, fun h => absurd rfl h⟩
      have parity := sound.parity
      have turn : Message.delicious = .turn g.printed.length := by
        rw [Message.turn, if_neg (by omega)]
      obtain ⟨alternates, same, length⟩ := sound.print turn
      refine ⟨alternates, same.trans one, ?_⟩
      show (g.print .delicious).printed.length % 2 = 0
      omega
  | chiefPrint again =>
      refine fun g => ⟨fun _ ⟨sound, zero⟩ => ?_, fun h => absurd rfl h⟩
      have parity := sound.parity
      have turn : Message.made = .turn g.printed.length := by
        rw [Message.turn, if_pos (by omega)]
      obtain ⟨alternates, same, length⟩ := sound.print turn
      refine ⟨alternates, same.trans zero, ?_⟩
      show (g.print .made).printed.length % 2 = 1
      omega
  | gourmetTake again =>
      refine fun g => ⟨fun _ ⟨alternates, one, even⟩ => ⟨?_, alternates⟩, fun h => absurd rfl h⟩
      show g.haveDelicacy - 1 = (g.printed.length % 2 : ℕ)
      omega
  | chiefPut again =>
      refine fun g => ⟨fun _ ⟨alternates, zero, odd⟩ => ⟨?_, alternates⟩, fun h => absurd rfl h⟩
      show g.haveDelicacy + 1 = (g.printed.length % 2 : ℕ)
      omega
  | gourmetUnlock | chiefUnlock => exact fun g h => h
  | gourmetSignal | chiefSignal => exact fun g h => by simp [Loc.holds, Loc.locked] at h

/-! ## Wakeups -/

/-- What a thread that waits on the condition variable could take. -/
def Table.available (g : Table) : Cond → ℕ
  | .gourmet => g.haveDelicacy.toNat
  | .cheif => (1 - g.haveDelicacy).toNat

/-- Between the change of the flag and the end of the signal on `c`. -/
def Loc.signalling : Cond → Loc → Bool
  | .gourmet, .chiefUnlock | .gourmet, .chiefSignal => true
  | .cheif, .gourmetUnlock | .cheif, .gourmetSignal => true
  | _, _ => false

/-- Woken from `c`, the flag not yet changed. -/
def Loc.returning : Cond → Loc → Bool
  | .gourmet, .gourmetTest true | .gourmet, .gourmetPrint true | .gourmet, .gourmetTake true => true
  | .cheif, .chiefTest true | .cheif, .chiefPrint true | .cheif, .chiefPut true => true
  | _, _ => false

def Loc.owes (c : Cond) (l : Loc) : Bool := l.signalling c || l.returning c

theorem prog_pays (c : Cond) (l : Loc) :
    (prog l).Pays c (Loc.owes c) (fun g : Table => g.available c)
      (fun l g => l.locked → l.Asserts g) l := by
  cases l with
  | gourmetLock | gourmetUnlock | gourmetSignal | chiefLock | chiefUnlock | chiefSignal =>
      cases c <;> simp [prog, Instr.Pays, Loc.owes, Loc.signalling, Loc.returning]
  | gourmetTest again =>
      intro g _
      by_cases none : g.haveDelicacy = 0
      · cases c with
        | gourmet => exact Or.inl (by simp [Table.available, none])
        | cheif => exact Or.inr (by simp [none]; exact le_rfl)
      · right
        cases c <;> cases again <;> simp [none] <;> exact le_rfl
  | chiefTest again =>
      intro g _
      by_cases some : g.haveDelicacy = 1
      · cases c with
        | cheif => exact Or.inl (by simp [Table.available, some])
        | gourmet => exact Or.inr (by simp [some]; exact le_rfl)
      · right
        cases c <;> cases again <;> simp [some] <;> exact le_rfl
  | gourmetWait =>
      cases c with
      | gourmet =>
          refine ⟨rfl, fun g known => ?_⟩
          have none : g.haveDelicacy = 0 := (known rfl).2
          simp [Table.available, none]
      | cheif => exact Bool.false_ne_true
  | chiefWait =>
      cases c with
      | gourmet => exact Bool.false_ne_true
      | cheif =>
          refine ⟨rfl, fun g known => ?_⟩
          have some : g.haveDelicacy = 1 := (known rfl).2
          simp [Table.available, some]
  | gourmetPrint again | chiefPrint again =>
      intro g _
      right
      cases c <;> cases again <;> exact le_rfl
  | gourmetTake again =>
      intro g known
      obtain ⟨-, one, -⟩ := known rfl
      cases c with
      | gourmet => exact Or.inl (by simp [Table.available, Table.take, one])
      | cheif => exact Or.inr (by simp [Table.available, Table.take, one, Loc.owes,
          Loc.signalling, Loc.returning])
  | chiefPut again =>
      intro g known
      obtain ⟨-, zero, -⟩ := known rfl
      cases c with
      | cheif => exact Or.inl (by simp [Table.available, Table.put, zero])
      | gourmet => exact Or.inr (by simp [Table.available, Table.put, zero, Loc.owes,
          Loc.signalling, Loc.returning])

/-- The role whose function a location belongs to. -/
def Loc.role : Loc → Role
  | .gourmetLock | .gourmetTest _ | .gourmetWait | .gourmetPrint _ | .gourmetTake _
  | .gourmetUnlock | .gourmetSignal => .gourmet
  | _ => .chief

def Role.cond : Role → Cond
  | .gourmet => .gourmet
  | .chief => .cheif

theorem role_of_leads {l k : Loc} (hk : (prog l).Leads k) : k.role = l.role := by
  cases l with
  | gourmetTest again | chiefTest again =>
      obtain ⟨g, rfl⟩ := hk
      dsimp only
      split <;> rfl
  | gourmetPrint again | gourmetTake again | chiefPrint again | chiefPut again =>
      obtain ⟨g, rfl⟩ := hk
      rfl
  | _ =>
      obtain rfl : _ = k := hk
      rfl

section

variable {ι : Type*} [Fintype ι] [DecidableEq ι] {role : ι → Role} {s : State ι}

omit [Fintype ι] [DecidableEq ι] in
theorem not_holds_start (t : ι) (m : Unit) : ¬ Loc.holds (role t).start m := by
  cases role t <;> simp [Role.start, Loc.holds, Loc.locked]

theorem monitored (h : (system role).Reachable s) :
    Monitored Loc.holds Table.Sound (fun _ => Loc.Asserts) s := by
  apply monitored_of_reachable not_holds_start _ (fun _ => prog_respects) prog_keeps h
  exact ⟨rfl, fun i hi => absurd hi (Nat.not_lt_zero i)⟩

theorem owned (h : (system role).Reachable s) : Owned Loc.holds s.thr s.owner :=
  owned_of_reachable not_holds_start (fun _ => prog_respects) h

/-- While threads sleep on `c`, the bowl or the empty place they could take is owed to them. -/
theorem covered (h : (system role).Reachable s) (c : Cond) :
    Covered c (Loc.owes c) (fun g => g.available c) s :=
  covered_of_reachable (fun _ => prog_pays c) (fun _ hr => (monitored hr).inside) h

theorem asleepOn_cond (h : (system role).Reachable s) {t : ι} {c : Cond} {m : Unit} {k : Loc}
    (ht : s.thr t = .asleep c m k) : c = (role t).cond := by
  have start : ∀ t, (role t).start.role = role t := fun t => by cases role t <;> rfl
  have valid := valid_of_reachable (R := fun t l => l.role = role t) start
    (fun t l k hl hk => (role_of_leads hk).trans hl) h t
  rw [ht] at valid
  obtain ⟨l, own, hl⟩ := valid
  cases l <;> simp only [prog, reduceCtorEq, Instr.wait.injEq] at hl
  all_goals
    obtain ⟨rfl, -, -⟩ := hl
    rw [← own]
    rfl

/-- The flag is 0 or 1, the messages alternate, and not all threads are asleep. -/
structure Alternating (s : State ι) : Prop where
  flag : s.mem.haveDelicacy = 0 ∨ s.mem.haveDelicacy = 1
  messages : Alternates s.mem.printed
  awake : ∃ t, ∀ c, ¬ (s.thr t).AsleepOn c
  goes : ∃ t, ¬ Blocked (fun _ => prog) s t

/-- For any threads, at least one of each role, and every interleaving. -/
theorem alternating_of_reachable {p q : ι} (hp : role p = .gourmet) (hq : role q = .chief)
    (h : (system role).Reachable s) : Alternating s := by
  have both : (s.mem.haveDelicacy = 0 ∨ s.mem.haveDelicacy = 1) ∧ Alternates s.mem.printed := by
    apply (monitored h).always (owned h)
      (P := fun g => (g.haveDelicacy = 0 ∨ g.haveDelicacy = 1) ∧ Alternates g.printed)
    · exact fun g sound => ⟨sound.cases, sound.alternates⟩
    intro t l g hl
    cases l with
    | gourmetWait | chiefPrint _ => exact ⟨Or.inl hl.2, hl.1.alternates⟩
    | gourmetPrint _ | chiefWait => exact ⟨Or.inr hl.2, hl.1.alternates⟩
    | gourmetTake _ => exact ⟨Or.inr hl.2.1, hl.1⟩
    | chiefPut _ => exact ⟨Or.inl hl.2.1, hl.1⟩
    | _ => exact ⟨Table.Sound.cases hl, Table.Sound.alternates hl⟩
  obtain ⟨flag, messages⟩ := both
  have some : ∃ t, 0 < s.mem.available (role t).cond := by
    rcases flag with zero | one
    · exact ⟨q, by simp [hq, Role.cond, Table.available, zero]⟩
    · exact ⟨p, by simp [hp, Role.cond, Table.available, one]⟩
  obtain ⟨t, ht⟩ := some
  obtain ⟨u, goes⟩ := exists_not_blocked_of_covered (fun _ => prog_respects) (owned h)
    (fun _ _ _ _ => asleepOn_cond h) (covered h) ht
  exact ⟨flag, messages, ⟨u, fun c asleep => goes (blocked_of_asleepOn asleep)⟩, ⟨u, goes⟩⟩

end

/-- Thread 0 eats and thread 1 cooks. -/
def oneOfEach : Fin 2 → Role
  | 0 => .gourmet
  | 1 => .chief

/-- The gourmet sleeps, the chief has made a bowl and unlocked, and its signal is still to come. -/
theorem alternating_oneOfEach : ∃ s, (system oneOfEach).Reachable s ∧
    (s.thr 0).AsleepOn .gourmet ∧ s.mem.printed = [.made] ∧ Alternating s := by
  have h := Machine.reachable_of_run (M := system oneOfEach)
    [.exec 0, .exec 0, .exec 0, .exec 1, .exec 1, .exec 1, .exec 1, .exec 1] rfl rfl
  exact ⟨_, h, rfl, rfl, alternating_of_reachable (p := 0) (q := 1) rfl rfl h⟩

end LinuxNote.Gourmet
