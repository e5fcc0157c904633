import LinuxNote.Text.Buffer

/-!
# The strings of `TCPsocket.hpp` and `UDPsocket.hpp`

Both `Recv` make a string of an array of `BUFSIZ` bytes, up to its first NUL; an array without NUL
is read on behind its end.  `TCPsocket::Send` passes the length up to the first NUL and does not
look at how many bytes were sent; `UDPsocket::Send` passes the whole string.

`roundTrips_iff` and `recv_iff` say for which strings, counts and segments the other side gets back
what was sent.
-/

namespace LinuxNote.Socket

open Text

/-- As in the `stdio.h` of glibc. -/
def BUFSIZ : ℕ := 8192

/-- The bytes of a `std::string` as `c_str` shows them. -/
def c_str (s : List UInt8) : List UInt8 := s ++ [0]

/-- `char Buf[BUFSIZ] = { 0 }` with what was received. -/
def received (bs : List UInt8) : List UInt8 := overlay bs (List.replicate BUFSIZ 0)

namespace TCPsocket

/-- What `Send` returns, and the bytes that it has sent; `send` accepts some bytes or fails. -/
def Send (buf : List UInt8) : Option ℕ → Bool × List UInt8
  | none => (false, [])
  | some k => (true, (text (c_str buf)).take k)

/-- What `Recv` returns, and `buf` after it: no result where `Buf` has no NUL.  `recv` fails, or
returns bytes, none at the end of the stream. -/
def Recv (r : Option (List UInt8)) (buf : List UInt8) : Option (Bool × List UInt8) :=
  match r with
  | none => some (false, buf)
  | some [] => some (false, buf)
  | some bs => (str (received bs)).map fun s => (true, s)

/-- One `Recv` for each piece of the stream. -/
def Recvs : List (List UInt8) → List UInt8 → Option (List (Bool × List UInt8))
  | [], _ => some []
  | seg :: segs, buf => (Recv (some seg) buf).bind fun r => (Recvs segs r.2).map (r :: ·)

end TCPsocket

/-- The pieces that `recv` can cut a stream into. -/
structure Segments (stream : List UInt8) (segs : List (List UInt8)) : Prop where
  flatten : segs.flatten = stream
  sizes : ∀ seg ∈ segs, 1 ≤ seg.length ∧ seg.length ≤ BUFSIZ

/-- All calls succeed, and their strings are those of `s`. -/
def RoundTrips (s : List UInt8) (segs : List (List UInt8)) (buf : List UInt8) : Prop :=
  ∃ out, TCPsocket.Recvs segs buf = some out ∧ (∀ r ∈ out, r.1 = true) ∧
    (out.map Prod.snd).flatten = s

namespace UDPsocket

variable {α : Type*}

/-- A datagram with the address that it comes from. -/
structure Datagram (α : Type*) where
  source : α
  payload : List UInt8

/-- What `Send` returns, and the datagram; `sendto` sends all `buf.size()` bytes or fails. -/
def Send (source : α) (buf : List UInt8) (ok : Bool) : Bool × Option (Datagram α) :=
  if ok then (true, some ⟨source, (c_str buf).take buf.length⟩) else (false, none)

/-- What `Recv` returns, and `buf` and the peer after it: no result where `Buf` has no NUL.  What
does not fit into `Buf` is cut off. -/
def Recv (d : Option (Datagram α)) (buf : List UInt8) (peer : α) :
    Option (Bool × List UInt8 × α) :=
  match d with
  | none => some (false, buf, peer)
  | some d => (str (received (d.payload.take BUFSIZ))).map fun s => (true, s, d.source)

end UDPsocket

variable {s bs buf : List UInt8} {segs : List (List UInt8)}

theorem c_str_take (s : List UInt8) : (c_str s).take s.length = s := List.take_left

theorem text_c_str (s : List UInt8) : text (c_str s) = text s := text_append_zero s []

/-- The string of the array: there is a NUL behind the bytes, or else among them. -/
theorem str_received (small : bs.length ≤ BUFSIZ) :
    str (received bs) = if bs.length < BUFSIZ ∨ 0 ∈ bs then some (text bs) else none := by
  unfold received
  by_cases room : bs.length < BUFSIZ
  · have zero : (List.replicate BUFSIZ (0 : UInt8)).drop bs.length =
        0 :: List.replicate (BUFSIZ - bs.length - 1) 0 := by
      rw [List.drop_replicate, ← List.replicate_succ]
      congr 1
      omega
    rw [if_pos (Or.inl room), overlay, zero, str_append_zero]
  · have full : (List.replicate BUFSIZ (0 : UInt8)).length ≤ bs.length := by
      rw [List.length_replicate]
      omega
    rw [overlay_eq_left full, str]
    simp only [room, false_or]

/-! ## TCP -/

section Tcp

open TCPsocket

/-- A piece without NUL needs room for one. -/
theorem recv_of_noNul (noNul : 0 ∉ bs) (size : 1 ≤ bs.length ∧ bs.length ≤ BUFSIZ) :
    Recv (some bs) buf = if bs.length < BUFSIZ then some (true, bs) else none := by
  cases bs with
  | nil => exact absurd size.1 (by decide)
  | cons c cs =>
      rw [Recv, str_received size.2, text_eq noNul]
      simp only [noNul, or_false]
      split <;> rfl
      all_goals exact fun h => absurd h (List.cons_ne_nil c cs)

theorem recvs_of_noNul (noNul : ∀ seg ∈ segs, 0 ∉ seg)
    (sizes : ∀ seg ∈ segs, 1 ≤ seg.length ∧ seg.length ≤ BUFSIZ) :
    Recvs segs buf =
      if ∀ seg ∈ segs, seg.length < BUFSIZ then some (segs.map (true, ·)) else none := by
  induction segs generalizing buf with
  | nil => rfl
  | cons seg segs ih =>
      rw [List.forall_mem_cons] at noNul sizes
      simp only [Recvs, recv_of_noNul noNul.1 sizes.1, List.forall_mem_cons]
      by_cases room : seg.length < BUFSIZ
      · rw [if_pos room, Option.bind_some, ih noNul.2 sizes.2]
        by_cases rest : ∀ seg ∈ segs, seg.length < BUFSIZ
        · rw [if_pos rest, if_pos ⟨room, rest⟩]
          rfl
        · rw [if_neg rest, if_neg fun h => rest h.2]
          rfl
      · rw [if_neg room, if_neg fun h => room h.1]
        rfl

/-- The bytes that are sent come back where no piece fills the buffer. -/
theorem roundTrips_iff_of_noNul {stream : List UInt8} (noNul : 0 ∉ stream)
    (cut : Segments stream segs) :
    RoundTrips s segs buf ↔ stream = s ∧ ∀ seg ∈ segs, seg.length < BUFSIZ := by
  have parts : ∀ seg ∈ segs, 0 ∉ seg := fun seg hseg zero =>
    noNul (cut.flatten ▸ List.mem_flatten.2 ⟨seg, hseg, zero⟩)
  have strings : ((segs.map (true, ·)).map Prod.snd).flatten = stream := by
    rw [List.map_map, ← cut.flatten]
    exact congrArg List.flatten (List.map_id segs)
  unfold RoundTrips
  rw [recvs_of_noNul parts cut.sizes]
  by_cases room : ∀ seg ∈ segs, seg.length < BUFSIZ
  · rw [if_pos room]
    constructor
    · rintro ⟨out, eq, -, same⟩
      obtain rfl := Option.some.inj eq
      exact ⟨strings.symm.trans same, room⟩
    · rintro ⟨rfl, -⟩
      exact ⟨_, rfl, by simp, strings⟩
  · rw [if_neg room]
    refine iff_of_false ?_ fun h => room h.2
    rintro ⟨out, none, -⟩
    cases none

/-- What has been sent is the whole string. -/
theorem take_text_iff {k : ℕ} (accepted : k ≤ (text s).length) :
    (text s).take k = s ↔ 0 ∉ s ∧ k = s.length := by
  constructor
  · intro h
    have size := congrArg List.length h
    rw [List.length_take, Nat.min_eq_left accepted] at size
    have all : text s = s := by
      rw [List.take_of_length_le (size ▸ length_text_le s)] at h
      exact h
    exact ⟨text_eq_iff.1 all, size⟩
  · rintro ⟨noNul, rfl⟩
    rw [text_eq noNul, List.take_length]

end Tcp

/-- For every string, every count that `send` accepts and all pieces: the strings that are received
are the one that was sent when it has no NUL, is sent as a whole, and no piece fills the buffer. -/
theorem roundTrips_iff {stream : List UInt8} {k : ℕ} (accepted : k ≤ (text (c_str s)).length)
    (send : TCPsocket.Send s (some k) = (true, stream)) (cut : Segments stream segs) :
    RoundTrips s segs buf ↔
      0 ∉ s ∧ k = s.length ∧ ∀ seg ∈ segs, seg.length < BUFSIZ := by
  obtain rfl : (text (c_str s)).take k = stream := congrArg Prod.snd send
  rw [text_c_str] at accepted cut
  have noNul : 0 ∉ (text s).take k := fun zero => noNul_text s (List.mem_of_mem_take zero)
  rw [roundTrips_iff_of_noNul noNul cut, take_text_iff accepted, and_assoc]

/-- "hello", sent at once and received in two pieces. -/
theorem roundTrips_iff_hello : RoundTrips (bytes "hello") [bytes "he", bytes "llo"] [] :=
  (roundTrips_iff (k := 5) (by decide) rfl ⟨rfl, by decide⟩).2 (by decide)

/-- A string with a NUL: only "a" is sent. -/
theorem not_roundTrips_nul : TCPsocket.Send [97, 0, 98] (some 1) = (true, [97]) ∧
    Segments [97] [[97]] ∧ ¬ RoundTrips [97, 0, 98] [[97]] [] := by
  refine ⟨rfl, ⟨rfl, by decide⟩, ?_⟩
  rintro ⟨out, recvs, -, same⟩
  have one : TCPsocket.Recvs [[97]] [] = some [(true, [97])] := by decide +kernel
  obtain rfl := Option.some.inj (recvs.symm.trans one)
  exact absurd same (by decide)

/-! ## UDP -/

/-- For every string of at most `BUFSIZ` bytes: the datagram gives it back when it has no NUL and
does not fill the buffer. -/
theorem recv_iff {α : Type*} {source peer : α} {ok : Bool} {d : UDPsocket.Datagram α}
    (small : s.length ≤ BUFSIZ) (send : UDPsocket.Send source s ok = (true, some d)) :
    UDPsocket.Recv (some d) buf peer = some (true, s, source) ↔
      0 ∉ s ∧ s.length < BUFSIZ := by
  obtain ⟨-, sent⟩ : ok = true ∧ d = ⟨source, (c_str s).take s.length⟩ := by
    cases ok with
    | true => exact ⟨rfl, (Option.some.inj (congrArg Prod.snd send)).symm⟩
    | false => cases congrArg Prod.fst send
  rw [sent, UDPsocket.Recv]
  dsimp only
  rw [c_str_take, List.take_of_length_le small, str_received small, Option.map_eq_some_iff]
  constructor
  · rintro ⟨t, string, eq⟩
    obtain ⟨nul, rfl⟩ := Option.ite_some_none_eq_some.1 string
    have noNul := text_eq_iff.1 (congrArg (·.2.1) eq)
    exact ⟨noNul, nul.resolve_right noNul⟩
  · rintro ⟨noNul, room⟩
    exact ⟨s, by rw [if_pos (Or.inl room), text_eq noNul], rfl⟩

theorem recv_iff_hello : UDPsocket.Recv (some ⟨9000, bytes "hello"⟩) [] 0 =
    some (true, bytes "hello", 9000) := by
  have send : UDPsocket.Send 9000 (bytes "hello") true = (true, some ⟨9000, bytes "hello"⟩) := rfl
  exact (recv_iff (by decide) send).2 (by decide)

/-- The datagram has all three bytes, and the string that is received only the first. -/
theorem not_recv_nul : UDPsocket.Send 9000 [97, 0, 98] true = (true, some ⟨9000, [97, 0, 98]⟩) ∧
    UDPsocket.Recv (some ⟨9000, [97, 0, 98]⟩) [] 0 = some (true, [97], 9000) ∧
    UDPsocket.Recv (some ⟨9000, [97, 0, 98]⟩) [] 0 ≠ some (true, [97, 0, 98], 9000) := by
  have one : UDPsocket.Recv (some ⟨9000, [97, 0, 98]⟩) [] 0 = some (true, [97], 9000) := by
    decide +kernel
  refine ⟨rfl, one, ?_⟩
  rw [one]
  decide

end LinuxNote.Socket
