import LinuxNote.Conc.Machine
import LinuxNote.Wrap.Readline
import Mathlib.Data.List.Perm.Basic

/-!
# `Readline`, `Readn` and `Read` on one descriptor

`Readn` and `Read` call `read` and do not look into the buffer that `Readline` has read ahead into.
Still no byte is lost or delivered twice: what has been delivered and what is in the buffer are, up
to their order, the bytes that have come from the stream.  The order is that of the stream as long
as every plain call finds the buffer empty (`conserves_and_keepsOrder`).
-/

namespace LinuxNote.Wrap

open Conc Function

theorem Desc.read_error {count : ℕ} {d d' : Desc} {errno : Errno}
    (h : d.read count = (.error errno, d')) :
    d'.data = d.data ∧ d.script = .fail errno :: d'.script := by
  obtain ⟨data, script⟩ := d
  rcases script with _ | ⟨k | errno', script⟩ <;> cases h
  exact ⟨rfl, rfl⟩

/-- The loop of `Readn`: `none` is the return of −1. -/
def Desc.readnLoop (nleft : ℕ) (stored : List UInt8) (d : Desc) : Option (List UInt8) × Desc :=
  if _pos : nleft = 0 then (some stored, d)
  else
    match _h : d.read nleft with
    | (.error .EINTR, d') => readnLoop nleft stored d'
    | (.error (.other _), d') => (none, d')
    | (.bytes [], d') => (some stored, d')
    | (.bytes (c :: bs), d') => readnLoop (nleft - (c :: bs).length) (stored ++ c :: bs) d'
termination_by d.script.length + nleft
decreasing_by
  · rw [(Desc.read_error _h).2, List.length_cons]
    omega
  · have := (Desc.read_bytes (Nat.pos_of_ne_zero _pos) _h).script.length_le
    rw [List.length_cons]
    omega

/-- The loop of the source. -/
theorem Desc.readnLoop_eq (nleft : ℕ) (stored : List UInt8) (d : Desc) :
    d.readnLoop nleft stored =
      if nleft = 0 then (some stored, d)
      else
        match d.read nleft with
        | (.error .EINTR, d') => d'.readnLoop nleft stored
        | (.error (.other _), d') => (none, d')
        | (.bytes [], d') => (some stored, d')
        | (.bytes (c :: bs), d') =>
            d'.readnLoop (nleft - (c :: bs).length) (stored ++ c :: bs) := by
  rw [Desc.readnLoop]
  by_cases pos : nleft = 0
  · rw [dif_pos pos, if_pos pos]
  · rw [dif_neg pos, if_neg pos]
    split <;> simp only [*]

def Desc.readn (n : ℕ) (d : Desc) : Option (List UInt8) × Desc := d.readnLoop n []

inductive MixedCall
  | readline (maxlen : BitVec 64)
  | readn (n : ℕ)
  | read (nbytes : ℕ)

/-- The bytes that a call of `Readline` delivers. -/
def Result.delivered (r : Result) : List UInt8 := if r.ret = -1 then [] else r.stored.dropLast

/-- The process, and the bytes delivered to the caller so far. -/
structure Caller where
  world : World
  delivered : List UInt8

/-- A call that reads `d` and leaves the static buffer alone. -/
def Caller.plain (fd : ℕ) (s : Caller) (bs : List UInt8) (d : Desc) : Caller :=
  ⟨⟨update s.world.files fd d, s.world.static⟩, s.delivered ++ bs⟩

def Caller.call (fd : ℕ) (s : Caller) : MixedCall → Caller
  | .readline maxlen =>
      let (r, w) := Wrap.readline fd maxlen s.world
      ⟨w, s.delivered ++ r.delivered⟩
  | .readn n =>
      let (r, d) := (s.world.files fd).readn n
      s.plain fd (r.getD []) d
  | .read nbytes =>
      match (s.world.files fd).again nbytes with
      | (.bytes bs, d) => s.plain fd bs d
      | (.error _, d) => s.plain fd [] d

def caller (fd : ℕ) (files : ℕ → Desc) : Machine Caller MixedCall where
  init s := s = ⟨world files, []⟩
  step c s := some (s.call fd c)

/-- The bytes delivered and those read ahead are all that has been taken from the stream. -/
def Caller.Conserves (fd : ℕ) (stream : List UInt8) (s : Caller) : Prop :=
  ∃ taken, taken ++ (s.world.files fd).data = stream ∧
    (s.delivered ++ (s.world.reader fd).ahead).Perm taken

/-- A plain call finds nothing read ahead, asks for nothing or finds the end of the stream. -/
def Drained (fd : ℕ) (c : MixedCall) (s : Caller) : Prop :=
  match c with
  | .readline _ => True
  | .readn n | .read n => s.world.static.readCnt ≤ 0 ∨ n = 0 ∨ (s.world.files fd).data = []

instance (fd : ℕ) (c : MixedCall) (s : Caller) : Decidable (Drained fd c s) := by
  unfold Drained
  split <;> infer_instance

/-! ## Plain calls -/

/-- What a plain call on a quiet descriptor does. -/
structure Takes (count : ℕ) (d : Desc) (bs : List UInt8) (d' : Desc) : Prop where
  stream : bs ++ d'.data = d.data
  bounded : bs.length ≤ count
  quiet : d'.Quiet

section Plain

variable {d d' : Desc} {count : ℕ}

theorem Desc.Quiet.of_script (h : d.Quiet) (sub : d'.script <:+ d.script) : d'.Quiet :=
  fun errno mem => h errno (sub.subset mem)

theorem Desc.Quiet.takes (h : d.Quiet) (count : ℕ) :
    ∃ bs d', d.again count = (.bytes bs, d') ∧ Takes count d bs d' := by
  obtain ⟨data, script⟩ := d
  induction script with
  | nil =>
      exact ⟨_, _, rfl, List.take_append_drop count data, List.length_take_le count data, h⟩
  | cons e script ih =>
      have rest : Desc.Quiet ⟨data, script⟩ := h.of_script (List.suffix_cons e script)
      rcases e with k | ⟨_ | code⟩
      · refine ⟨_, _, rfl, List.take_append_drop _ data, ?_, rest⟩
        exact (List.length_take_le _ data).trans (Nat.min_le_right _ _)
      · obtain ⟨bs, d', eq, takes⟩ := ih rest
        exact ⟨bs, d', eq, takes.stream, takes.bounded, takes.quiet⟩
      · cases h _ List.mem_cons_self

theorem Desc.Quiet.readnLoop (h : d.Quiet) (nleft : ℕ) (stored : List UInt8) :
    ∃ bs d', d.readnLoop nleft stored = (some (stored ++ bs), d') ∧ Takes nleft d bs d' := by
  induction nleft, stored, d using Desc.readnLoop.induct with
  | case1 stored d =>
      refine ⟨[], d, ?_, rfl, Nat.le_refl 0, h⟩
      rw [Desc.readnLoop_eq, if_pos rfl, List.append_nil]
  | case2 nleft stored d pos d' eq ih =>
      obtain ⟨data, script⟩ := Desc.read_error eq
      obtain ⟨bs, d'', loop, takes⟩ := ih (h.of_script (script ▸ List.suffix_cons _ _))
      refine ⟨bs, d'', ?_, takes.stream.trans data, takes.bounded, takes.quiet⟩
      rw [Desc.readnLoop_eq, if_neg pos, eq]
      exact loop
  | case3 nleft stored d pos code d' eq =>
      obtain ⟨-, script⟩ := Desc.read_error eq
      cases h (.other code) (script ▸ List.mem_cons_self)
  | case4 nleft stored d pos d' eq =>
      have piece := Desc.read_bytes (Nat.pos_of_ne_zero pos) eq
      refine ⟨[], d', ?_, piece.stream, Nat.zero_le _, h.of_script piece.script⟩
      rw [Desc.readnLoop_eq, if_neg pos, eq, List.append_nil]
  | case5 nleft stored d pos c bs d' eq ih =>
      have piece := Desc.read_bytes (Nat.pos_of_ne_zero pos) eq
      obtain ⟨more, d'', loop, takes⟩ := ih (h.of_script piece.script)
      refine ⟨c :: bs ++ more, d'', ?_, ?_, ?_, takes.quiet⟩
      · rw [Desc.readnLoop_eq, if_neg pos, eq]
        dsimp only
        rw [loop, List.append_assoc]
      · rw [List.append_assoc, takes.stream, piece.stream]
      · have := takes.bounded
        have := piece.bounded
        rw [List.length_append]
        omega

end Plain

/-! ## Calls of `Readline` -/

theorem Reader.get_suffix {r : Reader} (h : r.desc.Quiet) :
    r.get.2.desc.Quiet ∧ r.get.2.desc.data <:+ r.desc.data := by
  obtain ⟨ahead, d⟩ := r
  cases ahead with
  | cons c ahead => exact ⟨h, List.suffix_refl _⟩
  | nil =>
      obtain ⟨bs, d', eq, takes⟩ := h.takes bufSize
      have shrinks : d'.data <:+ d.data := ⟨bs, takes.stream⟩
      cases bs <;> simpa only [Reader.get, eq] using ⟨takes.quiet, shrinks⟩

/-- `Readline` only takes from the front of the stream. -/
theorem Reader.readline_suffix {r : Reader} (h : r.desc.Quiet) (maxlen : BitVec 64) :
    (r.readline maxlen).2.desc.data <:+ r.desc.data := by
  have step : ∀ s t : Reader, (s = t ∧ s.desc.Quiet ∧ s.desc.data <:+ r.desc.data) →
      s.get.1 = t.get.1 ∧
        s.get.2 = t.get.2 ∧ s.get.2.desc.Quiet ∧ s.get.2.desc.data <:+ r.desc.data := by
    rintro s t ⟨rfl, quiet, shrinks⟩
    obtain ⟨quiet', shrinks'⟩ := Reader.get_suffix quiet
    exact ⟨rfl, rfl, quiet', shrinks'.trans shrinks⟩
  exact (readlineLoop_sim step (rounds maxlen) 1 [] ⟨rfl, h, List.suffix_refl _⟩).2.2.2

theorem Reader.readlineLoop_ret {r : Reader} (h : r.desc.Quiet) (left : ℕ) {n : ℤ} (pos : 1 ≤ n)
    (stored : List UInt8) : 0 ≤ (readlineLoop Reader.get left n stored r).1.ret := by
  induction left generalizing n stored r with
  | zero =>
      show 0 ≤ n
      omega
  | succ left ih =>
      rcases Reader.get_spec h with ⟨r', get, quiet, -⟩ | ⟨c, r', get, quiet, -⟩
      · simp only [readlineLoop, get]
        omega
      · by_cases hc : c = newline
        · simp only [readlineLoop, get, if_pos hc]
          omega
        · simp only [readlineLoop, get, if_neg hc]
          exact ih quiet (by omega) _

/-- On a quiet descriptor a call delivers the next bytes, first those read ahead. -/
theorem Reader.readline_delivers {r : Reader} (h : r.desc.Quiet) (maxlen : BitVec 64) :
    (r.readline maxlen).1.delivered ++ (r.readline maxlen).2.rest = r.rest ∧
      (r.readline maxlen).2.desc.Quiet := by
  obtain ⟨ret, r', loop, quiet, stream⟩ := Reader.readlineLoop_spec h (rounds maxlen) 1 []
  have pos := Reader.readlineLoop_ret h (rounds maxlen) (Int.le_refl 1) []
  rw [loop] at pos
  rw [Reader.readline, loop]
  refine ⟨?_, quiet⟩
  rw [Result.delivered, if_neg (by dsimp only at pos ⊢; omega)]
  simpa using stream

/-! ## Runs -/

/-- What every call keeps. -/
structure Caller.Sound (fd : ℕ) (stream : List UInt8) (s : Caller) : Prop where
  static : s.world.static.Sound
  owns : s.world.Owns fd
  quiet : (s.world.files fd).Quiet
  conserves : s.Conserves fd stream

section Calls

variable {fd : ℕ} {stream : List UInt8} {s : Caller}

theorem Caller.Sound.plain (h : s.Sound fd stream) {count : ℕ} {bs : List UInt8} {d : Desc}
    (takes : Takes count (s.world.files fd) bs d) : (s.plain fd bs d).Sound fd stream := by
  have file : (s.plain fd bs d).world.files fd = d := update_self ..
  refine ⟨h.static, h.owns, by rw [file]; exact takes.quiet, ?_⟩
  obtain ⟨taken, total, perm⟩ := h.conserves
  refine ⟨taken ++ bs, ?_, ?_⟩
  · rw [file, List.append_assoc, takes.stream, total]
  · have moved : (s.delivered ++ bs ++ (s.world.reader fd).ahead).Perm
        (s.delivered ++ (s.world.reader fd).ahead ++ bs) := by
      rw [List.append_assoc, List.append_assoc]
      exact List.perm_append_comm.append_left s.delivered
    exact moved.trans (perm.append_right bs)

/-- A call of `Readline`, as its reader sees it. -/
theorem Caller.Sound.readline (h : s.Sound fd stream) (maxlen : BitVec 64) :
    (s.call fd (.readline maxlen)).Sound fd stream ∧
      (s.call fd (.readline maxlen)).delivered ++
          ((s.call fd (.readline maxlen)).world.reader fd).rest =
        s.delivered ++ (s.world.reader fd).rest := by
  obtain ⟨result, refines⟩ := (refines_reader h.static h.owns).readline maxlen
  obtain ⟨delivers, quiet⟩ := Reader.readline_delivers (r := s.world.reader fd) h.quiet maxlen
  have shrinks := Reader.readline_suffix (r := s.world.reader fd) h.quiet maxlen
  generalize (s.world.reader fd).readline maxlen = after at *
  obtain ⟨res, r'⟩ := after
  have reader : (Wrap.readline fd maxlen s.world).2.reader fd = r' := by
    rw [refines.reader, update_self]
  have file : (Wrap.readline fd maxlen s.world).2.files fd = r'.desc := congrArg Reader.desc reader
  have call : s.call fd (.readline maxlen) =
      ⟨(Wrap.readline fd maxlen s.world).2, s.delivered ++ res.delivered⟩ := by
    simp only [Caller.call, result]
  rw [call]
  refine ⟨⟨refines.sound, refines.owns, by rw [file]; exact quiet, ?_⟩, ?_⟩
  · obtain ⟨taken, total, perm⟩ := h.conserves
    obtain ⟨more, data⟩ := shrinks
    refine ⟨taken ++ more, ?_, ?_⟩
    · rw [file, List.append_assoc, data]
      exact total
    · rw [reader]
      have eq : res.delivered ++ r'.ahead = (s.world.reader fd).ahead ++ more := by
        apply (List.append_left_inj r'.desc.data).1
        rw [List.append_assoc, List.append_assoc, data]
        exact delivers
      rw [List.append_assoc, eq, ← List.append_assoc]
      exact perm.append_right more
  · rw [reader, List.append_assoc, delivers]

theorem Caller.Sound.call (h : s.Sound fd stream) (c : MixedCall) :
    (s.call fd c).Sound fd stream := by
  cases c with
  | readline maxlen => exact (h.readline maxlen).1
  | readn n =>
      obtain ⟨bs, d, loop, takes⟩ := h.quiet.readnLoop n []
      simp only [Caller.call, Desc.readn, loop]
      exact h.plain takes
  | read nbytes =>
      obtain ⟨bs, d, again, takes⟩ := h.quiet.takes nbytes
      simp only [Caller.call, again]
      exact h.plain takes

/-- What has been delivered and what is to come are the stream, in order. -/
def Caller.InOrder (fd : ℕ) (stream : List UInt8) (s : Caller) : Prop :=
  s.delivered ++ (s.world.reader fd).rest = stream

theorem Caller.InOrder.plain (h : s.InOrder fd stream) {count : ℕ} {bs : List UInt8} {d : Desc}
    (takes : Takes count (s.world.files fd) bs d)
    (drained : s.world.static.readCnt ≤ 0 ∨ count = 0 ∨ (s.world.files fd).data = []) :
    (s.plain fd bs d).InOrder fd stream := by
  have file : (s.plain fd bs d).world.files fd = d := update_self ..
  have next : (s.world.reader fd).ahead ++ (bs ++ d.data) = (s.world.reader fd).rest :=
    congrArg _ takes.stream
  have apart : bs = [] ∨ (s.world.reader fd).ahead = [] := by
    rcases drained with empty | rfl | ended
    · right
      simp only [World.reader, buffered_of_le empty, ite_self]
    · exact Or.inl (List.eq_nil_of_length_eq_zero (Nat.le_zero.1 takes.bounded))
    · exact Or.inl (List.append_eq_nil_iff.1 (takes.stream.trans ended)).1
  unfold Caller.InOrder at *
  rw [← h, ← next]
  show s.delivered ++ bs ++ ((s.world.reader fd).ahead ++
    ((s.plain fd bs d).world.files fd).data) = _
  rw [file]
  rcases apart with rfl | empty
  · simp
  · simp [empty]

theorem Caller.InOrder.call (h : s.InOrder fd stream) (sound : s.Sound fd stream) {c : MixedCall}
    (ok : Drained fd c s) : (s.call fd c).InOrder fd stream := by
  cases c with
  | readline maxlen => exact (sound.readline maxlen).2.trans h
  | readn n =>
      obtain ⟨bs, d, loop, takes⟩ := sound.quiet.readnLoop n []
      simp only [Caller.call, Desc.readn, loop]
      exact h.plain takes ok
  | read nbytes =>
      obtain ⟨bs, d, again, takes⟩ := sound.quiet.takes nbytes
      simp only [Caller.call, again]
      exact h.plain takes ok

end Calls

theorem sound_world {files : ℕ → Desc} {fd : ℕ} (quiet : (files fd).Quiet) :
    Caller.Sound fd (files fd).data ⟨world files, []⟩ ∧
      Caller.InOrder fd (files fd).data ⟨world files, []⟩ := by
  have owns : (world files).Owns fd := Or.inl (Int.le_refl 0)
  have ahead : ((world files).reader fd).ahead = [] := by
    simp [World.reader, world, Static.buffered]
  refine ⟨⟨world_sound files, owns, quiet, [], rfl, ?_⟩, ?_⟩
  · rw [ahead]
    exact List.Perm.refl _
  · rw [Caller.InOrder, Reader.rest, ahead]
    rfl

/-- For every sequence of calls: nothing is lost, and the order is kept by plain calls that find the
buffer empty. -/
theorem conserves_and_keepsOrder {files : ℕ → Desc} {fd : ℕ} (quiet : (files fd).Quiet)
    {cs : List MixedCall} {s : Caller}
    (h : (caller fd files).run cs ⟨world files, []⟩ = some s) :
    s.Conserves fd (files fd).data ∧
      ((caller fd files).Meets (Drained fd) cs ⟨world files, []⟩ →
        s.delivered <+: (files fd).data) := by
  obtain ⟨sound, inOrder⟩ := sound_world quiet
  have always : (caller fd files).Inductive (Caller.Sound fd (files fd).data) := by
    refine ⟨fun s hs => ?_, fun c s s' _ h hs => ?_⟩
    · obtain rfl : s = ⟨world files, []⟩ := hs
      exact sound
    · obtain rfl := Option.some.inj hs
      exact h.call c
  refine ⟨(always.reachable (Machine.reachable_of_run cs rfl h)).conserves, fun meets => ?_⟩
  have keep : ∀ c s s', s.Sound fd (files fd).data ∧ s.InOrder fd (files fd).data →
      Drained fd c s → (caller fd files).step c s = some s' →
      s'.Sound fd (files fd).data ∧ s'.InOrder fd (files fd).data := by
    intro c s s' h ok hs
    obtain rfl := Option.some.inj hs
    exact ⟨h.1.call c, h.2.call h.1 ok⟩
  have after := (Machine.invariant_of_meets keep ⟨sound, inOrder⟩ h meets).2
  exact ⟨_, after⟩

/-- A line and four bytes, the first `read` cut behind the line. -/
def lineFirst (_ : ℕ) : Desc := ⟨[97, 10, 98, 99, 100, 101], [.short 1, .fail .EINTR, .short 0]⟩

def lineThenReads : List MixedCall := [.readline 80, .read 2, .read 2]

theorem conserves_and_keepsOrder_lineFirst : ∃ s,
    (caller 0 lineFirst).run lineThenReads ⟨world lineFirst, []⟩ = some s ∧
      s.delivered = [97, 10, 98, 99, 100] ∧ s.Conserves 0 (lineFirst 0).data ∧
      s.delivered <+: (lineFirst 0).data := by
  have quiet : (lineFirst 0).Quiet := fun errno h => by simpa [lineFirst] using h
  have meets : (caller 0 lineFirst).Meets (Drained 0) lineThenReads ⟨world lineFirst, []⟩ := by
    decide
  have both := @conserves_and_keepsOrder lineFirst 0 quiet lineThenReads _ rfl
  exact ⟨_, rfl, rfl, both.1, both.2 meets⟩

/-- The first `read` brings a byte behind the line. -/
def readAhead (_ : ℕ) : Desc := ⟨[97, 10, 98, 99, 100], [.short 2]⟩

/-- `Read` delivers "cd" before the "b" that was read ahead. -/
theorem not_prefix_readAhead : ∃ s,
    (caller 0 readAhead).run [.readline 80, .read 2, .readline 80] ⟨world readAhead, []⟩ = some s ∧
      s.delivered = [97, 10, 99, 100, 98] ∧ ¬ s.delivered <+: (readAhead 0).data :=
  ⟨_, rfl, rfl, by decide⟩

end LinuxNote.Wrap
