import LinuxNote.Text.Line
import LinuxNote.Wrap.Descriptor
import Mathlib.Logic.Function.Basic

/-!
# `Readline` of `wrap.c`

`my_read` hands out one byte at a time from a static buffer, which it fills with a `read` of up to
100 bytes; `Readline` calls it until a newline.  The buffer is kept between calls, whatever their
descriptor.

The meaning of the code is a `Reader`, one for each descriptor: the bytes read ahead and the rest of
the stream.  While the buffer holds bytes of the descriptor of the call or none, the code does what
the reader does and leaves the readers of the other descriptors alone (`Refines`); and a reader
delivers lines in the sense of `Text.IsLongestLine`, however `read` cuts the stream.
-/

namespace LinuxNote.Wrap

open Function

/-- `static char read_buf[100]` -/
def bufSize : ℕ := 100

/-- The static variables of `my_read`, and in `filledFrom` the descriptor it last called `read`
on. -/
structure Static where
  readCnt : ℤ
  readPtr : ℕ
  readBuf : List UInt8
  filledFrom : ℕ

structure World where
  files : ℕ → Desc
  static : Static

/-- What `my_read` returns; with 1 it stores a byte. -/
inductive Rc
  | one (c : UInt8)
  | zero
  | minusOne
  deriving DecidableEq

/-- `read_cnt--; *ptr = *read_ptr++; return 1;` -/
def Static.take (b : Static) : Rc × Static :=
  (.one (b.readBuf.getD b.readPtr 0), { b with readCnt := b.readCnt - 1, readPtr := b.readPtr + 1 })

/-- The static variables after a `read` on `fd` that stored `bs`. -/
def Static.fill (b : Static) (fd : ℕ) (bs : List UInt8) : Static :=
  ⟨bs.length, 0, bs ++ b.readBuf.drop bs.length, fd⟩

def myRead (fd : ℕ) (w : World) : Rc × World :=
  if w.static.readCnt ≤ 0 then
    match (w.files fd).again bufSize with
    | (.error _, d) =>
        (.minusOne, ⟨update w.files fd d, { w.static with readCnt := -1, filledFrom := fd }⟩)
    | (.bytes [], d) =>
        (.zero, ⟨update w.files fd d, { w.static with readCnt := 0, filledFrom := fd }⟩)
    | (.bytes bs, d) =>
        let (rc, b) := (w.static.fill fd bs).take
        (rc, ⟨update w.files fd d, b⟩)
  else
    let (rc, b) := w.static.take
    (rc, ⟨w.files, b⟩)

def newline : UInt8 := 10

/-- The value that `Readline` returns and the bytes it stores in the caller's buffer. -/
structure Result where
  ret : ℤ
  stored : List UInt8
  deriving DecidableEq

/-- The loop of `Readline` over `get`, with `left` rounds to go: `left = (ssize_t)maxlen - n`. -/
def readlineLoop {σ : Type*} (get : σ → Rc × σ) : ℕ → ℤ → List UInt8 → σ → Result × σ
  | 0, n, stored, s => (⟨n, stored ++ [0]⟩, s)
  | left + 1, n, stored, s =>
      match get s with
      | (.one c, s) =>
          if c = newline then (⟨n, stored ++ [c] ++ [0]⟩, s)
          else readlineLoop get left (n + 1) (stored ++ [c]) s
      | (.zero, s) => (⟨n - 1, stored ++ [0]⟩, s)
      | (.minusOne, s) => (⟨-1, stored⟩, s)

/-- The rounds of `for (n = 1; n < (ssize_t)maxlen; n++)` -/
def rounds (maxlen : BitVec 64) : ℕ := (maxlen.toInt - 1).toNat

def readline (fd : ℕ) (maxlen : BitVec 64) (w : World) : Result × World :=
  readlineLoop (myRead fd) (rounds maxlen) 1 [] w

/-- Before the first call: the static variables are zero. -/
def world (files : ℕ → Desc) : World := ⟨files, ⟨0, 0, List.replicate bufSize 0, 0⟩⟩

/-! ## Readers -/

/-- The bytes read ahead, and the descriptor. -/
structure Reader where
  ahead : List UInt8
  desc : Desc

def Reader.get (r : Reader) : Rc × Reader :=
  match r.ahead with
  | c :: ahead => (.one c, { r with ahead })
  | [] =>
      match r.desc.again bufSize with
      | (.error _, d) => (.minusOne, ⟨[], d⟩)
      | (.bytes [], d) => (.zero, ⟨[], d⟩)
      | (.bytes (c :: ahead), d) => (.one c, ⟨ahead, d⟩)

def Reader.readline (maxlen : BitVec 64) (r : Reader) : Result × Reader :=
  readlineLoop Reader.get (rounds maxlen) 1 [] r

/-- The part of the stream that has not been delivered. -/
def Reader.rest (r : Reader) : List UInt8 := r.ahead ++ r.desc.data

/-- A loop over related sources does the same. -/
theorem readlineLoop_sim {σ τ : Type*} {get : σ → Rc × σ} {get' : τ → Rc × τ} {R : σ → τ → Prop}
    (step : ∀ s t, R s t → (get s).1 = (get' t).1 ∧ R (get s).2 (get' t).2) (left : ℕ) (n : ℤ)
    (stored : List UInt8) {s : σ} {t : τ} (h : R s t) :
    (readlineLoop get left n stored s).1 = (readlineLoop get' left n stored t).1 ∧
      R (readlineLoop get left n stored s).2 (readlineLoop get' left n stored t).2 := by
  induction left generalizing n stored s t with
  | zero => exact ⟨rfl, h⟩
  | succ left ih =>
      have next := step s t h
      cases hs : get s with
      | mk rc s' =>
          cases ht : get' t with
          | mk rc' t' =>
              rw [hs, ht] at next
              obtain ⟨rfl, h'⟩ : rc = rc' ∧ R s' t' := next
              simp only [readlineLoop, hs, ht]
              cases rc with
              | one c =>
                  by_cases hc : c = newline
                  · simp only [if_pos hc]
                    exact ⟨trivial, h'⟩
                  · simp only [if_neg hc]
                    exact ih (n + 1) (stored ++ [c]) h'
              | zero | minusOne => exact ⟨rfl, h'⟩

/-! ## Lines -/

/-- On a quiet descriptor the next byte of the stream comes, or its end. -/
theorem Reader.get_spec {r : Reader} (h : r.desc.Quiet) :
    (∃ r', r.get = (.zero, r') ∧ r'.desc.Quiet ∧ r.rest = [] ∧ r'.rest = []) ∨
      ∃ c r', r.get = (.one c, r') ∧ r'.desc.Quiet ∧ r.rest = c :: r'.rest := by
  obtain ⟨ahead, d⟩ := r
  cases ahead with
  | cons c ahead => exact Or.inr ⟨c, ⟨ahead, d⟩, rfl, h, rfl⟩
  | nil =>
      obtain ⟨bs, d', eq, piece, quiet⟩ := h.again (show 0 < bufSize by decide)
      have stream : bs ++ d'.data = d.data := piece.stream
      cases bs with
      | nil =>
          have ended : d.data = [] := piece.progress rfl
          exact Or.inl ⟨⟨[], d'⟩, by simp only [Reader.get, eq], quiet, ended, stream.trans ended⟩
      | cons c ahead =>
          exact Or.inr ⟨c, ⟨ahead, d'⟩, by simp only [Reader.get, eq], quiet, stream.symm⟩

theorem Reader.readlineLoop_spec {r : Reader} (h : r.desc.Quiet) (left : ℕ) (n : ℤ)
    (stored : List UInt8) :
    ∃ ret r', readlineLoop Reader.get left n stored r =
        (⟨ret, stored ++ Text.takeLine newline left r.rest ++ [0]⟩, r') ∧
      r'.desc.Quiet ∧ Text.takeLine newline left r.rest ++ r'.rest = r.rest := by
  induction left generalizing n stored r with
  | zero => exact ⟨n, r, by simp [readlineLoop, Text.takeLine], h, rfl⟩
  | succ left ih =>
      rcases Reader.get_spec h with ⟨r', get, quiet, rest, rest'⟩ | ⟨c, r', get, quiet, rest⟩
      · refine ⟨n - 1, r', ?_, quiet, ?_⟩
        · simp [readlineLoop, get, rest, Text.takeLine]
        · simp [rest, rest', Text.takeLine]
      · by_cases hc : c = newline
        · refine ⟨n, r', ?_, quiet, ?_⟩
          · simp [readlineLoop, get, rest, Text.takeLine, hc]
          · simp [rest, Text.takeLine, hc]
        · obtain ⟨ret, r'', loop, quiet', stream⟩ := ih quiet (n + 1) (stored ++ [c])
          refine ⟨ret, r'', ?_, quiet', ?_⟩
          · simp [readlineLoop, get, rest, Text.takeLine, hc, loop]
          · simp [rest, Text.takeLine, hc, stream]

/-! ## The static buffer -/

/-- The bytes that `my_read` will hand out before its next `read`. -/
def Static.buffered (b : Static) : List UInt8 := (b.readBuf.drop b.readPtr).take b.readCnt.toNat

/-- The bytes still to be handed out lie inside the array. -/
def Static.Sound (b : Static) : Prop :=
  b.readBuf.length = bufSize ∧ b.readPtr + b.readCnt.toNat ≤ bufSize

theorem Static.Sound.take {b : Static} (h : b.Sound) (some : 0 < b.readCnt) :
    ∃ c b', b.take = (.one c, b') ∧ b.buffered = c :: b'.buffered ∧ b'.Sound ∧
      b'.filledFrom = b.filledFrom := by
  obtain ⟨size, bound⟩ := h
  obtain ⟨cnt, hcnt⟩ := Int.eq_succ_of_zero_lt some
  have lt : b.readPtr < b.readBuf.length := by omega
  refine ⟨b.readBuf.getD b.readPtr 0, _, rfl, ?_, ⟨size, ?_⟩, rfl⟩
  · have more : b.readCnt.toNat = (b.readCnt - 1).toNat + 1 := by omega
    simp only [buffered, more]
    rw [List.drop_eq_getElem_cons lt, List.take_succ_cons, List.getD_eq_getElem?_getD,
      List.getElem?_eq_getElem lt]
    rfl
  · show b.readPtr + 1 + (b.readCnt - 1).toNat ≤ bufSize
    omega

theorem Static.Sound.fill {b : Static} (h : b.Sound) (fd : ℕ) {bs : List UInt8}
    (bound : bs.length ≤ bufSize) : (b.fill fd bs).Sound ∧ (b.fill fd bs).buffered = bs := by
  refine ⟨⟨?_, ?_⟩, ?_⟩
  · have := h.1
    simp only [Static.fill, List.length_append, List.length_drop]
    omega
  · simpa [Static.fill] using bound
  · simp [Static.fill, buffered]

/-- The reader of a descriptor: the buffer is its own or another one's. -/
def World.reader (w : World) (fd : ℕ) : Reader where
  ahead := if w.static.filledFrom = fd then w.static.buffered else []
  desc := w.files fd

/-- The buffer is empty or holds bytes of `fd`. -/
def World.Owns (w : World) (fd : ℕ) : Prop := w.static.readCnt ≤ 0 ∨ w.static.filledFrom = fd

instance (w : World) (fd : ℕ) : Decidable (w.Owns fd) := inferInstanceAs (Decidable (_ ∨ _))

/-- What a call on `fd` keeps in view: its reader is `r`, the others are as in `rs`. -/
structure Refines (fd : ℕ) (rs : ℕ → Reader) (w : World) (r : Reader) : Prop where
  sound : w.static.Sound
  owns : w.Owns fd
  reader : w.reader = update rs fd r

theorem buffered_of_le {b : Static} (h : b.readCnt ≤ 0) : b.buffered = [] := by
  simp [Static.buffered, Int.toNat_of_nonpos h]

/-- The buffer says nothing about the other descriptors. -/
theorem World.Owns.reader_of_ne {w : World} {fd f : ℕ} (h : w.Owns fd) (ne : f ≠ fd) :
    w.reader f = ⟨[], w.files f⟩ := by
  rw [World.reader]
  rcases h with h | h
  · rw [buffered_of_le h, ite_self]
  · rw [if_neg (h ▸ ne.symm)]

theorem Refines.next {fd : ℕ} {rs : ℕ → Reader} {w : World} {r : Reader} (h : Refines fd rs w r)
    {rc : Rc} {d : Desc} {b : Static} (run : myRead fd w = (rc, ⟨update w.files fd d, b⟩))
    (get : r.get = (rc, ⟨b.buffered, d⟩)) (sound : b.Sound) (filled : b.filledFrom = fd) :
    (myRead fd w).1 = r.get.1 ∧ Refines fd rs (myRead fd w).2 r.get.2 := by
  rw [run, get]
  have owns : World.Owns ⟨update w.files fd d, b⟩ fd := Or.inr filled
  refine ⟨rfl, sound, owns, funext fun f => ?_⟩
  by_cases e : f = fd
  · subst e
    simp [World.reader, filled]
  · have before := congrFun h.reader f
    rw [update_of_ne e, h.owns.reader_of_ne e] at before
    rw [update_of_ne e, owns.reader_of_ne e, ← before]
    simp [e]

theorem Static.Sound.of_empty {b b' : Static} (h : b.Sound) (buf : b'.readBuf = b.readBuf)
    (ptr : b'.readPtr = b.readPtr) (empty : b'.readCnt ≤ 0) : b'.Sound := by
  obtain ⟨size, bound⟩ := h
  refine ⟨buf ▸ size, ?_⟩
  rw [ptr, Int.toNat_of_nonpos empty]
  omega

/-- One byte: the code and the reader agree. -/
theorem Refines.myRead {fd : ℕ} {rs : ℕ → Reader} {w : World} {r : Reader}
    (h : Refines fd rs w r) :
    (myRead fd w).1 = r.get.1 ∧ Refines fd rs (myRead fd w).2 r.get.2 := by
  obtain rfl : w.reader fd = r := by rw [h.reader, update_self]
  by_cases empty : w.static.readCnt ≤ 0
  · have reader : w.reader fd = ⟨[], w.files fd⟩ := by
      rw [World.reader, buffered_of_le empty, ite_self]
    cases again : (w.files fd).again bufSize with
    | mk res d =>
        rcases res with (_ | ⟨c, bs⟩) | errno
        · have run : Wrap.myRead fd w = (.zero, ⟨update w.files fd d,
              { w.static with readCnt := 0, filledFrom := fd }⟩) := by
            simp only [Wrap.myRead, if_pos empty, again]
          refine h.next run ?_ (h.sound.of_empty rfl rfl (Int.le_refl 0)) rfl
          rw [reader, buffered_of_le (Int.le_refl 0)]
          simp only [Reader.get, again]
        · have bound : (c :: bs).length ≤ bufSize := (Desc.again_bytes (by decide) again).bounded
          obtain ⟨sound, buffered⟩ := h.sound.fill fd bound
          obtain ⟨c', b', take, more, sound', filled⟩ :=
            sound.take (show 0 < ((c :: bs).length : ℤ) by simp)
          obtain ⟨rfl, rest⟩ := List.cons.inj (buffered.symm.trans more)
          have run : Wrap.myRead fd w = (.one c, ⟨update w.files fd d, b'⟩) := by
            simp only [Wrap.myRead, if_pos empty, again, take]
          refine h.next run ?_ sound' filled
          rw [reader, ← rest]
          simp only [Reader.get, again]
        · have run : Wrap.myRead fd w = (.minusOne, ⟨update w.files fd d,
              { w.static with readCnt := -1, filledFrom := fd }⟩) := by
            simp only [Wrap.myRead, if_pos empty, again]
          have negative : (-1 : ℤ) ≤ 0 := by decide
          refine h.next run ?_ (h.sound.of_empty rfl rfl negative) rfl
          rw [reader, buffered_of_le negative]
          simp only [Reader.get, again]
  · have own : w.static.filledFrom = fd := h.owns.resolve_left empty
    obtain ⟨c, b', take, more, sound, filled⟩ := h.sound.take (Int.not_le.1 empty)
    have run : Wrap.myRead fd w = (.one c, ⟨update w.files fd (w.files fd), b'⟩) := by
      simp only [Wrap.myRead, if_neg empty, take, update_eq_self]
    refine h.next run ?_ sound (filled.trans own)
    simp only [World.reader, if_pos own, more, Reader.get]

theorem Refines.readline {fd : ℕ} {rs : ℕ → Reader} {w : World} {r : Reader}
    (h : Refines fd rs w r) (maxlen : BitVec 64) :
    (readline fd maxlen w).1 = (r.readline maxlen).1 ∧
      Refines fd rs (readline fd maxlen w).2 (r.readline maxlen).2 :=
  readlineLoop_sim (fun _ _ h => h.myRead) (rounds maxlen) 1 [] h

theorem refines_reader {fd : ℕ} {w : World} (sound : w.static.Sound) (owns : w.Owns fd) :
    Refines fd w.reader w (w.reader fd) :=
  ⟨sound, owns, (update_eq_self _ _).symm⟩

/-- A call of `Readline` that finds no bytes of another descriptor, or reads none. -/
def World.Undisturbed (w : World) (fd : ℕ) (maxlen : BitVec 64) : Prop :=
  w.Owns fd ∨ maxlen.toInt ≤ 1

instance (w : World) (fd : ℕ) (maxlen : BitVec 64) : Decidable (w.Undisturbed fd maxlen) :=
  inferInstanceAs (Decidable (_ ∨ _))

theorem readline_refines {fd : ℕ} {maxlen : BitVec 64} {w : World} (sound : w.static.Sound)
    (ok : w.Undisturbed fd maxlen) :
    (readline fd maxlen w).1 = ((w.reader fd).readline maxlen).1 ∧
      (readline fd maxlen w).2.static.Sound ∧
      (readline fd maxlen w).2.reader = update w.reader fd ((w.reader fd).readline maxlen).2 := by
  rcases ok with owns | short
  · obtain ⟨result, refines⟩ := (refines_reader sound owns).readline maxlen
    exact ⟨result, refines.sound, refines.reader⟩
  · have none : rounds maxlen = 0 := Int.toNat_of_nonpos (by omega)
    rw [Wrap.readline, Reader.readline, none]
    exact ⟨rfl, sound, (update_eq_self _ _).symm⟩

/-! ## Calls on several descriptors -/

structure Call where
  fd : ℕ
  maxlen : BitVec 64

/-- The descriptor and the result of each of a list of calls. -/
def World.calls : List Call → World → List (ℕ × Result)
  | [], _ => []
  | c :: cs, w =>
      (c.fd, (readline c.fd c.maxlen w).1) :: World.calls cs (readline c.fd c.maxlen w).2

/-- Every call of the list is undisturbed when its turn comes. -/
def World.Separate : List Call → World → Prop
  | [], _ => True
  | c :: cs, w => w.Undisturbed c.fd c.maxlen ∧ (readline c.fd c.maxlen w).2.Separate cs

instance decidableSeparate : ∀ cs w, Decidable (World.Separate cs w)
  | [], _ => isTrue trivial
  | c :: cs, w =>
      haveI := decidableSeparate cs (readline c.fd c.maxlen w).2
      inferInstanceAs (Decidable (w.Undisturbed c.fd c.maxlen ∧
        (readline c.fd c.maxlen w).2.Separate cs))

/-- The same calls on readers. -/
def readerCalls : List Call → (ℕ → Reader) → List (ℕ × Result)
  | [], _ => []
  | c :: cs, rs =>
      (c.fd, ((rs c.fd).readline c.maxlen).1) ::
        readerCalls cs (update rs c.fd ((rs c.fd).readline c.maxlen).2)

/-- Readers do not disturb each other. -/
theorem readerCalls_filter (cs : List Call) (fd : ℕ) {rs rs' : ℕ → Reader} (h : rs fd = rs' fd) :
    (readerCalls cs rs).filter (·.1 = fd) = readerCalls (cs.filter (·.fd = fd)) rs' := by
  induction cs generalizing rs rs' with
  | nil => rfl
  | cons c cs ih =>
      by_cases e : c.fd = fd
      · subst e
        rw [List.filter_cons_of_pos (by simp), readerCalls, readerCalls,
          List.filter_cons_of_pos (by simp), h]
        exact congrArg _ (ih (by rw [update_self, update_self]))
      · rw [List.filter_cons_of_neg (by simpa using e), readerCalls,
          List.filter_cons_of_neg (by simpa using e)]
        exact ih (by rw [update_of_ne (Ne.symm e), h])

theorem calls_eq_readerCalls {cs : List Call} {w : World} (sound : w.static.Sound)
    (separate : w.Separate cs) : w.calls cs = readerCalls cs w.reader := by
  induction cs generalizing w with
  | nil => rfl
  | cons c cs ih =>
      obtain ⟨result, sound', reader⟩ := readline_refines sound separate.1
      rw [World.calls, readerCalls, result, ih sound' separate.2, reader]

/-- Calls on one descriptor find only its own bytes. -/
theorem separate_of_owns {cs : List Call} {fd : ℕ} {w : World} (h : ∀ c ∈ cs, c.fd = fd)
    (sound : w.static.Sound) (owns : w.Owns fd) : w.Separate cs := by
  induction cs generalizing w with
  | nil => trivial
  | cons c cs ih =>
      obtain rfl := h c List.mem_cons_self
      have refines := ((refines_reader sound owns).readline c.maxlen).2
      have later := ih (fun d hd => h d (List.mem_cons_of_mem _ hd)) refines.sound refines.owns
      exact ⟨Or.inl owns, later⟩

theorem world_sound (files : ℕ → Desc) : (world files).static.Sound :=
  ⟨List.length_replicate, Nat.zero_le _⟩

/-- From the start, where every call is undisturbed, the results on each descriptor are those of its
own calls alone. -/
theorem calls_filter_of_separate {files : ℕ → Desc} {cs : List Call}
    (separate : (world files).Separate cs) (fd : ℕ) :
    ((world files).calls cs).filter (·.1 = fd) =
      (world files).calls (cs.filter (·.fd = fd)) := by
  have sound := world_sound files
  have alone : (world files).Separate (cs.filter (·.fd = fd)) :=
    separate_of_owns (fun c hc => by simpa using (List.mem_filter.1 hc).2) sound
      (Or.inl (Int.le_refl 0))
  rw [calls_eq_readerCalls sound separate, calls_eq_readerCalls sound alone]
  exact readerCalls_filter cs fd rfl

/-- Two lines wait on descriptor 3 and one on 4. -/
def twoFiles : ℕ → Desc
  | 3 => ⟨[97, 10, 98, 10], []⟩
  | 4 => ⟨[99, 10], []⟩
  | _ => ⟨[], []⟩

/-- The second call gets a line that was read ahead for the first. -/
theorem calls_filter_ne_twoFiles :
    ((world twoFiles).calls [⟨3, 80⟩, ⟨4, 80⟩]).filter (·.1 = 4) = [(4, ⟨2, [98, 10, 0]⟩)] ∧
      ((world twoFiles).calls [⟨3, 80⟩, ⟨4, 80⟩]).filter (·.1 = 4) ≠
        (world twoFiles).calls ([⟨3, 80⟩, ⟨4, 80⟩].filter (·.fd = 4)) := by decide

/-- Both lines of descriptor 3 are read before 4 is. -/
theorem calls_filter_twoFiles : (world twoFiles).Separate [⟨3, 80⟩, ⟨3, 80⟩, ⟨4, 80⟩] ∧
    ((world twoFiles).calls [⟨3, 80⟩, ⟨3, 80⟩, ⟨4, 80⟩]).filter (·.1 = 4) =
      (world twoFiles).calls ([⟨3, 80⟩, ⟨3, 80⟩, ⟨4, 80⟩].filter (·.fd = 4)) := by
  have separate : (world twoFiles).Separate [⟨3, 80⟩, ⟨3, 80⟩, ⟨4, 80⟩] := by decide
  exact ⟨separate, calls_filter_of_separate separate 4⟩

/-! ## Calls on one descriptor -/

/-- `SSIZE_MAX` -/
def ssizeMax : ℕ := 9223372036854775807

theorem rounds_eq {maxlen : BitVec 64} (pos : 1 ≤ maxlen.toNat) (small : maxlen.toNat ≤ ssizeMax) :
    rounds maxlen = maxlen.toNat - 1 := by
  have : maxlen.toInt = maxlen.toNat := by
    unfold ssizeMax at small
    exact BitVec.toInt_eq_toNat_of_lt (by omega)
  rw [rounds, this]
  omega

def readlines (fd : ℕ) (maxlens : List (BitVec 64)) (w : World) : List Result :=
  (w.calls (maxlens.map (⟨fd, ·⟩))).map Prod.snd

/-- Each call stores the longest line of what is left of the stream, and a NUL. -/
inductive Delivers : List UInt8 → List (BitVec 64) → List Result → Prop
  | nil {rest : List UInt8} : Delivers rest [] []
  | cons {line rest : List UInt8} {maxlen : BitVec 64} {maxlens : List (BitVec 64)} {r : Result}
      {rs : List Result}
      (longest : Text.IsLongestLine newline (maxlen.toNat - 1) (line ++ rest) line)
      (stored : r.stored = line ++ [0]) (more : Delivers rest maxlens rs) :
      Delivers (line ++ rest) (maxlen :: maxlens) (r :: rs)

theorem Delivers.flatten {rest : List UInt8} {maxlens : List (BitVec 64)} {rs : List Result}
    (h : Delivers rest maxlens rs) : (rs.map fun r => r.stored.dropLast).flatten <+: rest := by
  induction h with
  | nil => exact List.nil_prefix
  | cons longest stored more ih => simpa [stored] using ih

theorem Refines.delivers {fd : ℕ} {rs : ℕ → Reader} {w : World} {r : Reader}
    (h : Refines fd rs w r) (quiet : r.desc.Quiet) {maxlens : List (BitVec 64)}
    (bounds : ∀ m ∈ maxlens, 1 ≤ m.toNat ∧ m.toNat ≤ ssizeMax) :
    Delivers r.rest maxlens (readlines fd maxlens w) := by
  induction maxlens generalizing w r with
  | nil => exact .nil
  | cons m maxlens ih =>
      obtain ⟨pos, small⟩ := bounds m List.mem_cons_self
      obtain ⟨ret, r', loop, quiet', stream⟩ := Reader.readlineLoop_spec quiet (rounds m) 1 []
      obtain ⟨result, refines⟩ := h.readline m
      rw [Reader.readline, loop] at result refines
      rw [← stream]
      refine .cons ?_ (by rw [result]; rfl)
        (ih refines quiet' fun k hk => bounds k (List.mem_cons_of_mem _ hk))
      rw [stream, Text.isLongestLine_iff, rounds_eq pos small]

/-- However `read` cuts the stream and whenever it is interrupted. -/
theorem readlines_deliver {files : ℕ → Desc} {fd : ℕ} (quiet : (files fd).Quiet)
    {maxlens : List (BitVec 64)} (bounds : ∀ m ∈ maxlens, 1 ≤ m.toNat ∧ m.toNat ≤ ssizeMax) :
    Delivers (files fd).data maxlens (readlines fd maxlens (world files)) ∧
      ((readlines fd maxlens (world files)).map fun r => r.stored.dropLast).flatten <+:
        (files fd).data := by
  have owns : (world files).Owns fd := Or.inl (Int.le_refl 0)
  have start := refines_reader (world_sound files) owns
  have rest : ((world files).reader fd).rest = (files fd).data := by
    simp [World.reader, Reader.rest, world, Static.buffered]
  have delivers := start.delivers quiet bounds
  rw [rest] at delivers
  exact ⟨delivers, delivers.flatten⟩

/-- A descriptor that delivers a line in three pieces, with two interruptions. -/
def cutFile (_ : ℕ) : Desc :=
  ⟨[104, 105, 33, 10, 111, 107], [.short 1, .fail .EINTR, .short 0, .fail .EINTR, .short 2]⟩

theorem readlines_deliver_cutFile :
    readlines 0 [3, 80, 80] (world cutFile) =
        [⟨3, [104, 105, 0]⟩, ⟨2, [33, 10, 0]⟩, ⟨2, [111, 107, 0]⟩] ∧
      Delivers (cutFile 0).data [3, 80, 80] (readlines 0 [3, 80, 80] (world cutFile)) ∧
      ((readlines 0 [3, 80, 80] (world cutFile)).map fun r => r.stored.dropLast).flatten <+:
        (cutFile 0).data := by
  refine ⟨by decide, readlines_deliver (fun errno h => ?_) (by simp [ssizeMax])⟩
  simpa [cutFile] using h

/-- The cast to `ssize_t` makes a `maxlen` of 2^63 negative: nothing is read, though the stream has
a byte. -/
theorem not_delivers_of_negative :
    ¬ ∃ line, Text.IsLongestLine newline ((9223372036854775808 : BitVec 64).toNat - 1) [97] line ∧
      (readline 0 9223372036854775808 (world fun _ => ⟨[97], []⟩)).1.stored = line ++ [0] := by
  rintro ⟨line, longest, stored⟩
  have empty : line = [] := (List.append_left_inj [0]).1 stored.symm
  subst empty
  have better := longest.longest [97] ⟨List.prefix_refl _, by decide, List.not_mem_nil⟩
  exact absurd better (by decide)

end LinuxNote.Wrap
