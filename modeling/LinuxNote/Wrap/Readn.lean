import LinuxNote.Wrap.Failure
import LinuxNote.Wrap.Mixed

/-!
# `Readn` of `wrap.c`

The function with its machine integers and the caller's memory.  It does what the loop over lists of
`Desc.readn` does (`readnLoop_shows`), and that loop delivers the first `n` bytes of the stream
unless a `read` fails before (`Desc.readnLoop_spec`).
-/

namespace LinuxNote.Wrap

/-- The memory after a `read` that has stored `bs` at `ptr`. -/
def store (buf : ℕ → UInt8) (ptr : ℕ) (bs : List UInt8) : ℕ → UInt8 :=
  fun i => if ptr ≤ i then bs[i - ptr]?.getD (buf i) else buf i

/-- What a call leaves behind; `buf` is the memory from `vptr` on. -/
structure Returned where
  ret : ℤ
  buf : ℕ → UInt8
  desc : Desc

/-- The loop of `Readn`; `ptr` counts from `vptr`. -/
def readnLoop (n nleft : BitVec 64) (ptr : ℕ) (buf : ℕ → UInt8) (d : Desc) : Returned :=
  if _pos : nleft = 0 then ⟨(n - nleft).toInt, buf, d⟩
  else
    match _h : d.read nleft.toNat with
    | (.error .EINTR, d') => readnLoop n nleft ptr buf d'
    | (.error (.other _), d') => ⟨-1, buf, d'⟩
    | (.bytes [], d') => ⟨(n - nleft).toInt, buf, d'⟩
    | (.bytes (c :: bs), d') =>
        let nread := (c :: bs).length
        readnLoop n (nleft - BitVec.ofNat 64 nread) (ptr + nread) (store buf ptr (c :: bs)) d'
termination_by d.script.length + nleft.toNat
decreasing_by
  · rw [(Desc.read_error _h).2, List.length_cons]
    omega
  · have asks : 0 < nleft.toNat := Nat.pos_of_ne_zero fun e => _pos (BitVec.eq_of_toNat_eq e)
    have piece := Desc.read_bytes asks _h
    have := piece.script.length_le
    have bounded := piece.bounded
    rw [List.length_cons] at bounded ⊢
    bv_omega

def readn (n : BitVec 64) (buf : ℕ → UInt8) (d : Desc) : Returned := readnLoop n n 0 buf d

/-- The loop of the source. -/
theorem readnLoop_eq (n nleft : BitVec 64) (ptr : ℕ) (buf : ℕ → UInt8) (d : Desc) :
    readnLoop n nleft ptr buf d =
      if nleft = 0 then ⟨(n - nleft).toInt, buf, d⟩
      else
        match d.read nleft.toNat with
        | (.error .EINTR, d') => readnLoop n nleft ptr buf d'
        | (.error (.other _), d') => ⟨-1, buf, d'⟩
        | (.bytes [], d') => ⟨(n - nleft).toInt, buf, d'⟩
        | (.bytes (c :: bs), d') =>
            readnLoop n (nleft - BitVec.ofNat 64 (c :: bs).length) (ptr + (c :: bs).length)
              (store buf ptr (c :: bs)) d' := by
  rw [readnLoop]
  by_cases zero : nleft = 0
  · rw [dif_pos zero, if_pos zero]
  · rw [dif_neg zero, if_neg zero]
    split <;> simp only [*]

/-! ## The bytes delivered -/

/-- The loop gives up at a failure, and else takes what there is of the bytes wanted. -/
theorem Desc.readnLoop_spec (cap nleft : ℕ) (le : nleft ≤ cap) (stored : List UInt8) (d : Desc) :
    (d.FailsBefore cap nleft → (d.readnLoop nleft stored).1 = none) ∧
      (¬ d.FailsBefore cap nleft → ∃ script, d.readnLoop nleft stored =
        (some (stored ++ d.data.take nleft), ⟨d.data.drop nleft, script⟩)) := by
  induction nleft, stored, d using Desc.readnLoop.induct with
  | case1 stored d =>
      refine ⟨fun h => absurd h Desc.not_failsBefore_zero, fun _ => ⟨d.script, ?_⟩⟩
      rw [Desc.readnLoop_eq, if_pos rfl, List.take_zero, List.append_nil, List.drop_zero]
  | case2 nleft stored d pos d' eq ih =>
      rw [Desc.readnLoop_eq, if_neg pos, eq, Desc.failsBefore_read_eintr eq,
        ← (Desc.read_error eq).1]
      exact ih le
  | case3 nleft stored d pos code d' eq =>
      have fails : d.FailsBefore cap nleft :=
        Desc.failsBefore_read_other (Nat.pos_of_ne_zero pos) eq
      rw [Desc.readnLoop_eq, if_neg pos, eq]
      exact ⟨fun _ => rfl, fun h => absurd fails h⟩
  | case4 nleft stored d pos d' eq =>
      have asks := Nat.pos_of_ne_zero pos
      have piece := Desc.read_bytes asks eq
      have ended := piece.progress rfl
      have empty : d'.data = [] := piece.stream.trans ended
      have drained : d' = ⟨[], d'.script⟩ := by rw [← empty]
      rw [Desc.failsBefore_read_bytes asks (Nat.min_le_left nleft cap) le eq,
        Desc.readnLoop_eq, if_neg pos, eq, ended]
      refine ⟨fun h => absurd rfl h.1, fun _ => ⟨d'.script, ?_⟩⟩
      rw [List.take_nil, List.drop_nil, List.append_nil, ← drained]
  | case5 nleft stored d pos c bs d' eq ih =>
      have asks := Nat.pos_of_ne_zero pos
      have piece := Desc.read_bytes asks eq
      have rest := ih (by omega)
      rw [Desc.failsBefore_read_bytes asks (Nat.min_le_left nleft cap) le eq,
        Desc.readnLoop_eq, if_neg pos, eq, ← piece.stream]
      refine ⟨fun h => rest.1 h.2, fun h => ?_⟩
      obtain ⟨script, loop⟩ := rest.2 fun fails => h ⟨List.cons_ne_nil c bs, fails⟩
      refine ⟨script, loop.trans ?_⟩
      rw [List.take_append, List.take_of_length_le piece.bounded, List.drop_append,
        List.drop_eq_nil_of_le piece.bounded, List.append_assoc, List.nil_append]

/-! ## Refinement -/

theorem store_store (buf : ℕ → UInt8) (as bs : List UInt8) :
    store (store buf 0 as) as.length bs = store buf 0 (as ++ bs) := by
  funext i
  by_cases inside : i < as.length
  · simp [store, inside, Nat.not_le.2 inside, List.getElem?_append_left]
  · have outside : as.length ≤ i := Nat.le_of_not_lt inside
    simp [store, outside, List.getElem?_append_right outside]

/-- The machine shows the result of the loop over lists. -/
def Returned.Shows (buf : ℕ → UInt8) (r : Returned) : Option (List UInt8) × Desc → Prop
  | (none, d) => r.ret = -1 ∧ r.desc = d
  | (some all, d) => r.ret = all.length ∧ r.buf = store buf 0 all ∧ r.desc = d

theorem Returned.Shows.gave_up {buf : ℕ → UInt8} {r : Returned} {p : Option (List UInt8) × Desc}
    (h : r.Shows buf p) (none : p.1 = none) : r.ret = -1 := by
  obtain ⟨all, d⟩ := p
  cases none
  exact h.1

theorem readnLoop_shows {n nleft : BitVec 64} (fits : n.toNat ≤ ssizeMax) (buf : ℕ → UInt8)
    (stored : List UInt8) (d : Desc) (sum : stored.length + nleft.toNat = n.toNat) :
    (readnLoop n nleft stored.length (store buf 0 stored) d).Shows buf
      (d.readnLoop nleft.toNat stored) := by
  have returned : ∀ (all : List UInt8) (left : BitVec 64), all.length + left.toNat = n.toNat →
      (n - left).toInt = all.length := by
    intro all left sum
    unfold ssizeMax at fits
    have : (n - left).toNat = all.length := by bv_omega
    rw [BitVec.toInt_eq_toNat_of_lt (by omega), this]
  generalize k : nleft.toNat = left at sum ⊢
  induction left, stored, d using Desc.readnLoop.induct generalizing nleft with
  | case1 stored d =>
      obtain rfl : nleft = 0 := BitVec.eq_of_toNat_eq k
      rw [readnLoop_eq, if_pos rfl, Desc.readnLoop_eq, if_pos rfl]
      exact ⟨returned stored 0 sum, rfl, rfl⟩
  | case2 left stored d pos d' eq ih =>
      have more : nleft ≠ 0 := fun e => pos (by rw [← k, e]; rfl)
      rw [readnLoop_eq, if_neg more, k, eq, Desc.readnLoop_eq, if_neg pos, eq]
      exact ih k sum
  | case3 left stored d pos code d' eq =>
      have more : nleft ≠ 0 := fun e => pos (by rw [← k, e]; rfl)
      rw [readnLoop_eq, if_neg more, k, eq, Desc.readnLoop_eq, if_neg pos, eq]
      exact ⟨rfl, rfl⟩
  | case4 left stored d pos d' eq =>
      have more : nleft ≠ 0 := fun e => pos (by rw [← k, e]; rfl)
      rw [readnLoop_eq, if_neg more, k, eq, Desc.readnLoop_eq, if_neg pos, eq]
      exact ⟨returned stored nleft (k ▸ sum), rfl, rfl⟩
  | case5 left stored d pos c bs d' eq ih =>
      have more : nleft ≠ 0 := fun e => pos (by rw [← k, e]; rfl)
      have bounded := (Desc.read_bytes (Nat.pos_of_ne_zero pos) eq).bounded
      rw [readnLoop_eq, if_neg more, k, eq, Desc.readnLoop_eq, if_neg pos, eq]
      dsimp only
      have fewer : (nleft - BitVec.ofNat 64 (c :: bs).length).toNat = left - (c :: bs).length := by
        have := nleft.isLt
        bv_omega
      rw [store_store, ← List.length_append]
      refine ih fewer ?_
      rw [List.length_append]
      omega

theorem readn_shows {n : BitVec 64} (fits : n.toNat ≤ ssizeMax) (buf : ℕ → UInt8) (d : Desc) :
    (readn n buf d).Shows buf (d.readn n.toNat) := by
  have clean : store buf 0 [] = buf := by
    funext i
    simp [store]
  have shows := readnLoop_shows fits buf [] d (Nat.zero_add _)
  rwa [clean] at shows

/-- Whatever the script: a failure before the bytes wanted or the end of the stream gives −1, and
else the bytes there are have been stored and consumed, and no others. -/
theorem readn_exact {n : BitVec 64} (fits : n.toNat ≤ ssizeMax) (buf : ℕ → UInt8) (d : Desc) :
    ((readn n buf d).ret = -1 ↔ d.FailsBefore n.toNat n.toNat) ∧
      ((readn n buf d).ret ≠ -1 →
        (readn n buf d).ret = min n.toNat d.data.length ∧
          (∀ i, (readn n buf d).buf i = (d.data.take n.toNat)[i]?.getD (buf i)) ∧
          (readn n buf d).desc.data = d.data.drop n.toNat) := by
  have shows := readn_shows fits buf d
  obtain ⟨gives_up, delivers⟩ := Desc.readnLoop_spec n.toNat n.toNat le_rfl [] d
  by_cases fails : d.FailsBefore n.toNat n.toNat
  · have minusOne := shows.gave_up (gives_up fails)
    exact ⟨iff_of_true minusOne fails, fun h => absurd minusOne h⟩
  · obtain ⟨script, loop⟩ := delivers fails
    rw [Desc.readn, loop, List.nil_append] at shows
    obtain ⟨ret, stored, rest⟩ := shows
    rw [List.length_take] at ret
    rw [ret, stored, rest]
    refine ⟨iff_of_false (by omega) fails, fun _ => ⟨by omega, fun i => ?_, rfl⟩⟩
    rw [store, if_pos (Nat.zero_le i), Nat.sub_zero]

/-- Two pieces, with an interruption between, and then the end of the stream. -/
def shortFile : Desc := ⟨[104, 105, 33], [.short 0, .fail .EINTR, .short 4]⟩

/-- Five bytes are wanted and three come. -/
theorem readn_exact_shortFile : (readn 5 (fun _ => 0) shortFile).ret = 3 ∧
    (readn 5 (fun _ => 0) shortFile).buf 2 = 33 ∧
    (readn 5 (fun _ => 0) shortFile).desc.data = [] := by
  obtain ⟨fails, delivers⟩ :=
    readn_exact (show (5 : BitVec 64).toNat ≤ ssizeMax by decide) (fun _ => 0) shortFile
  have quiet : shortFile.Quiet := fun errno h => by simpa [shortFile] using h
  obtain ⟨ret, stored, rest⟩ := delivers fun h => quiet.not_failsBefore (fails.1 h)
  exact ⟨ret, stored 2, rest⟩

end LinuxNote.Wrap
