import LinuxNote.Wrap.Readline

/-!
# `Writen` of `wrap.c`

A descriptor that is written to is the bytes it has accepted and the script of what the calls of
`write` will do.  When the script is used up, `write` accepts all that is offered.  The loop keeps
`ptr` and `nleft` in step (`writenLoop_sends`): whatever the script, the bytes accepted are those
before `ptr`, each once and in order.
-/

namespace LinuxNote.Wrap

/-- `upTo k` lets a `write` accept at most `k + 1` bytes, `nothing` makes it return 0. -/
inductive Outcome
  | upTo (k : ℕ)
  | nothing
  | fail (errno : Errno)
  deriving DecidableEq

structure Sink where
  accepted : List UInt8
  script : List Outcome
  deriving DecidableEq

/-- How many bytes a `write` has accepted, or the `errno` of the −1. -/
inductive WriteResult
  | count (nwriten : ℕ)
  | error (errno : Errno)
  deriving DecidableEq

/-- `write(fd, ptr, count)`, where `offered` are the `count` bytes at `ptr`. -/
def Sink.write (offered : List UInt8) (d : Sink) : WriteResult × Sink :=
  match d.script with
  | [] => (.count offered.length, ⟨d.accepted ++ offered, []⟩)
  | .upTo k :: script =>
      (.count (min (k + 1) offered.length),
        ⟨d.accepted ++ offered.take (min (k + 1) offered.length), script⟩)
  | .nothing :: script => (.count 0, ⟨d.accepted, script⟩)
  | .fail errno :: script => (.error errno, ⟨d.accepted, script⟩)

/-- The `count` bytes of the memory at `ptr`. -/
def load (buf : ℕ → UInt8) (ptr count : ℕ) : List UInt8 :=
  (List.range' ptr count).map buf

/-- What a call of `Writen` leaves behind; `sent` are the indices of the bytes that `write` has
taken, in the order in which it has. -/
structure Written where
  ret : ℤ
  sent : List ℕ
  desc : Sink
  deriving DecidableEq

theorem Sink.write_script {offered : List UInt8} {d d' : Sink} {r : WriteResult}
    (h : d.write offered = (r, d')) : d'.script = d.script.tail := by
  obtain ⟨accepted, script⟩ := d
  rcases script with _ | ⟨_ | _ | _, script⟩ <;> cases h <;> rfl

/-- What a `write` that takes something does. -/
theorem Sink.write_count {offered : List UInt8} {d d' : Sink} {nwriten : ℕ}
    (h : d.write offered = (.count nwriten, d')) :
    nwriten ≤ offered.length ∧ d'.accepted = d.accepted ++ offered.take nwriten := by
  obtain ⟨accepted, script⟩ := d
  rcases script with _ | ⟨k | _ | errno, script⟩ <;> cases h
  · exact ⟨le_rfl, by rw [List.take_length]⟩
  · exact ⟨Nat.min_le_right _ _, rfl⟩
  · exact ⟨Nat.zero_le _, by rw [List.take_zero, List.append_nil]⟩

theorem Sink.write_error {offered : List UInt8} {d d' : Sink} {errno : Errno}
    (h : d.write offered = (.error errno, d')) :
    d'.accepted = d.accepted ∧ d.script = .fail errno :: d'.script := by
  obtain ⟨accepted, script⟩ := d
  rcases script with _ | ⟨k | _ | _, script⟩ <;> cases h
  exact ⟨rfl, rfl⟩

/-- A `write` to which something is offered only takes nothing when the script says so. -/
theorem Sink.write_zero {offered : List UInt8} {d d' : Sink} (some : offered ≠ [])
    (h : d.write offered = (.count 0, d')) : d.script = .nothing :: d'.script := by
  have := List.length_pos_iff.2 some
  obtain ⟨accepted, script⟩ := d
  rcases script with _ | ⟨k | _ | _, script⟩
  · simp only [write, Prod.mk.injEq, WriteResult.count.injEq] at h
    omega
  · simp only [write, Prod.mk.injEq, WriteResult.count.injEq] at h
    omega
  · cases h
    rfl
  · cases h

theorem length_load (buf : ℕ → UInt8) (ptr count : ℕ) : (load buf ptr count).length = count := by
  simp [load]

theorem load_add (buf : ℕ → UInt8) (ptr m k : ℕ) :
    load buf ptr (m + k) = load buf ptr m ++ load buf (ptr + m) k := by
  rw [load, ← List.range'_append_1, List.map_append, load, load]

theorem take_load (buf : ℕ → UInt8) {ptr k count : ℕ} (le : k ≤ count) :
    (load buf ptr count).take k = load buf ptr k := by
  obtain ⟨more, rfl⟩ := Nat.exists_eq_add_of_le le
  rw [load_add, List.take_left' (length_load buf ptr k)]

/-- The loop of `Writen`; `ptr` counts from `vptr`. -/
def writenLoop (n nleft : BitVec 64) (ptr : ℕ) (buf : ℕ → UInt8) (sent : List ℕ) (d : Sink) :
    Written :=
  if _pos : nleft = 0 then ⟨n.toInt, sent, d⟩
  else
    match _h : d.write (load buf ptr nleft.toNat) with
    | (.error .EINTR, d') => writenLoop n nleft ptr buf sent d'
    | (.error (.other _), d') => ⟨-1, sent, d'⟩
    | (.count 0, d') => ⟨-1, sent, d'⟩
    | (.count (k + 1), d') =>
        let nwriten := k + 1
        writenLoop n (nleft - BitVec.ofNat 64 nwriten) (ptr + nwriten) buf
          (sent ++ List.range' ptr nwriten) d'
termination_by d.script.length + nleft.toNat
decreasing_by
  · rw [(Sink.write_error _h).2, List.length_cons]
    omega
  · have bounded := (Sink.write_count _h).1
    have := congrArg List.length (Sink.write_script _h)
    rw [List.length_tail] at this
    rw [length_load] at bounded
    bv_omega

/-- `Writen(fd, vptr, n)` on a descriptor whose calls of `write` are `script`. -/
def writen (n : BitVec 64) (buf : ℕ → UInt8) (script : List Outcome) : Written :=
  writenLoop n n 0 buf [] ⟨[], script⟩

/-! ## What has been sent -/

/-- The first `m` bytes of the buffer have been sent, each once and in order. -/
structure Sent (buf : ℕ → UInt8) (m : ℕ) (sent : List ℕ) (d : Sink) : Prop where
  indices : sent = List.range m
  accepted : d.accepted = load buf 0 m

section

variable {n nleft : BitVec 64} {buf : ℕ → UInt8} {ptr k : ℕ} {sent : List ℕ} {d d' : Sink}

theorem Sent.error (h : Sent buf ptr sent d) {errno : Errno}
    (hw : d.write (load buf ptr k) = (.error errno, d')) : Sent buf ptr sent d' :=
  ⟨h.indices, (Sink.write_error hw).1.trans h.accepted⟩

/-- `write` has taken the next bytes. -/
theorem Sent.count (h : Sent buf ptr sent d) {nwriten : ℕ}
    (hw : d.write (load buf ptr k) = (.count nwriten, d')) :
    Sent buf (ptr + nwriten) (sent ++ List.range' ptr nwriten) d' := by
  obtain ⟨bounded, accepted⟩ := Sink.write_count hw
  rw [length_load] at bounded
  constructor
  · rw [h.indices, List.range_eq_range', List.range_eq_range']
    simpa using List.range'_append_1 (s := 0) (m := ptr) (n := nwriten)
  · rw [accepted, h.accepted, take_load buf bounded, load_add, Nat.zero_add]

/-- A call that does not make `Writen` give up. -/
def Outcome.GoesOn (o : Outcome) : Prop := (∃ k, o = .upTo k) ∨ o = .fail .EINTR

/-- Of the calls made between `d` and `d'` the last one was not to go on, and only that one. -/
def GaveUp (d d' : Sink) : Prop :=
  ∃ done o, d.script = done ++ o :: d'.script ∧ (∀ e ∈ done, e.GoesOn) ∧ ¬ o.GoesOn

theorem gaveUp_fail {code : ℕ} (h : d.script = .fail (.other code) :: d'.script) : GaveUp d d' := by
  refine ⟨[], _, h, fun e he => absurd he List.not_mem_nil, ?_⟩
  rintro (⟨k, eq⟩ | eq) <;> cases eq

theorem gaveUp_nothing (h : d.script = .nothing :: d'.script) : GaveUp d d' := by
  refine ⟨[], _, h, fun e he => absurd he List.not_mem_nil, ?_⟩
  rintro (⟨k, eq⟩ | eq) <;> cases eq

theorem GaveUp.cons {d₁ : Sink} {o : Outcome} (h : GaveUp d₁ d') (goes : o.GoesOn)
    (script : d.script = o :: d₁.script) : GaveUp d d' := by
  obtain ⟨done, last, eq, before, stops⟩ := h
  refine ⟨o :: done, last, by rw [script, eq, List.cons_append], ?_, stops⟩
  exact List.forall_mem_cons.2 ⟨goes, before⟩

/-- A `write` that takes something goes on, and the script only ends before a call that takes
all. -/
theorem GaveUp.count {d₁ : Sink} {offered : List UInt8} (h : GaveUp d₁ d')
    (hw : d.write offered = (.count (k + 1), d₁)) : GaveUp d d' := by
  have rest := Sink.write_script hw
  obtain ⟨accepted, script⟩ := d
  rcases script with _ | ⟨j | _ | errno, script⟩
  · obtain ⟨done, o, eq, -⟩ := h
    exact absurd (eq.symm.trans rest) (by simp)
  · exact h.cons (Or.inl ⟨j, rfl⟩) (by rw [rest]; rfl)
  · cases hw
  · cases hw

end

/-! ## The loop -/

/-- The loop of the source. -/
theorem writenLoop_eq (n nleft : BitVec 64) (ptr : ℕ) (buf : ℕ → UInt8) (sent : List ℕ) (d : Sink) :
    writenLoop n nleft ptr buf sent d =
      if nleft = 0 then ⟨n.toInt, sent, d⟩
      else
        match d.write (load buf ptr nleft.toNat) with
        | (.error .EINTR, d') => writenLoop n nleft ptr buf sent d'
        | (.error (.other _), d') => ⟨-1, sent, d'⟩
        | (.count 0, d') => ⟨-1, sent, d'⟩
        | (.count (k + 1), d') =>
            writenLoop n (nleft - BitVec.ofNat 64 (k + 1)) (ptr + (k + 1)) buf
              (sent ++ List.range' ptr (k + 1)) d' := by
  rw [writenLoop]
  by_cases zero : nleft = 0
  · rw [dif_pos zero, if_pos zero]
  · rw [dif_neg zero, if_neg zero]
    split <;> simp only [*]

/-- What the loop returns when it is entered on `d`: all has been sent, or it gave up before. -/
def Written.Ends (n : BitVec 64) (buf : ℕ → UInt8) (d : Sink) (r : Written) : Prop :=
  (r.ret = n.toInt ∧ Sent buf n.toNat r.sent r.desc) ∨
    (r.ret = -1 ∧ (∃ m < n.toNat, Sent buf m r.sent r.desc) ∧ GaveUp d r.desc)

theorem writenLoop_sends {n nleft : BitVec 64} {ptr : ℕ} {buf : ℕ → UInt8} {sent : List ℕ}
    {d : Sink} (sum : ptr + nleft.toNat = n.toNat) (h : Sent buf ptr sent d) :
    (writenLoop n nleft ptr buf sent d).Ends n buf d := by
  have more : ∀ left : BitVec 64, left ≠ 0 → 0 < left.toNat := fun left pos =>
    Nat.pos_of_ne_zero fun e => pos (BitVec.eq_of_toNat_eq e)
  induction nleft, ptr, sent, d using writenLoop.induct buf with
  | case1 ptr sent d =>
      rw [writenLoop_eq, if_pos rfl]
      obtain rfl : ptr = n.toNat := sum
      exact Or.inl ⟨rfl, h⟩
  | case2 nleft ptr sent d pos d' eq ih =>
      rw [writenLoop_eq, if_neg pos, eq]
      rcases ih sum (h.error eq) with all | ⟨ret, some, gaveUp⟩
      · exact Or.inl all
      · exact Or.inr ⟨ret, some, gaveUp.cons (Or.inr rfl) (Sink.write_error eq).2⟩
  | case3 nleft ptr sent d pos code d' eq =>
      rw [writenLoop_eq, if_neg pos, eq]
      have := more nleft pos
      exact Or.inr ⟨rfl, ⟨ptr, by omega, h.error eq⟩, gaveUp_fail (Sink.write_error eq).2⟩
  | case4 nleft ptr sent d pos d' eq =>
      rw [writenLoop_eq, if_neg pos, eq]
      have := more nleft pos
      have some : load buf ptr nleft.toNat ≠ [] := by
        rw [← List.length_pos_iff, length_load]
        exact this
      have same : Sent buf ptr sent d' := by simpa using h.count eq
      exact Or.inr ⟨rfl, ⟨ptr, by omega, same⟩, gaveUp_nothing (Sink.write_zero some eq)⟩
  | case5 nleft ptr sent d pos k d' eq nwriten ih =>
      rw [writenLoop_eq, if_neg pos, eq]
      have bounded := (Sink.write_count eq).1
      rw [length_load] at bounded
      have fewer : (nleft - BitVec.ofNat 64 (k + 1)).toNat = nleft.toNat - (k + 1) := by
        have := nleft.isLt
        bv_omega
      rcases ih (by rw [fewer]; omega) (h.count eq) with all | ⟨ret, some, gaveUp⟩
      · exact Or.inl all
      · exact Or.inr ⟨ret, some, gaveUp.count eq⟩

/-- Whatever the script: `Writen` returns `n` exactly when all the bytes have been accepted; it
returns −1 only behind a `write` that returned 0 or failed, not with `EINTR`, and then some of them
have not; and no byte is sent twice or skipped. -/
theorem writen_exact {n : BitVec 64} (fits : n.toNat ≤ ssizeMax) (buf : ℕ → UInt8)
    (script : List Outcome) :
    ((writen n buf script).ret = n.toNat ∨ (writen n buf script).ret = -1) ∧
      ((writen n buf script).ret = n.toNat ↔
        (writen n buf script).desc.accepted = load buf 0 n.toNat) ∧
      ((writen n buf script).ret = -1 →
        GaveUp ⟨[], script⟩ (writen n buf script).desc ∧
          (writen n buf script).desc.accepted <+: load buf 0 n.toNat ∧
          (writen n buf script).desc.accepted ≠ load buf 0 n.toNat) ∧
      ∃ m ≤ n.toNat, (writen n buf script).sent = List.range m ∧
        (writen n buf script).desc.accepted = load buf 0 m := by
  have ret : n.toInt = n.toNat := BitVec.toInt_eq_toNat_of_lt (by unfold ssizeMax at fits; omega)
  have ends : (writen n buf script).Ends n buf ⟨[], script⟩ :=
    writenLoop_sends (Nat.zero_add _) ⟨rfl, rfl⟩
  generalize writen n buf script = r at ends ⊢
  rcases ends with ⟨all, sent⟩ | ⟨minusOne, ⟨m, few, sent⟩, gaveUp⟩
  · rw [all, ret]
    refine ⟨Or.inl rfl, iff_of_true rfl sent.accepted, fun h => absurd h (by omega), ?_⟩
    exact ⟨n.toNat, le_rfl, sent.indices, sent.accepted⟩
  · have short : r.desc.accepted ≠ load buf 0 n.toNat := by
      rw [sent.accepted]
      intro e
      have := congrArg List.length e
      rw [length_load, length_load] at this
      omega
    rw [minusOne]
    refine ⟨Or.inr rfl, iff_of_false (by omega) short, fun _ => ⟨gaveUp, ?_, short⟩, ?_⟩
    · rw [sent.accepted, ← take_load buf few.le]
      exact List.take_prefix _ _
    · exact ⟨m, few.le, sent.indices, sent.accepted⟩

/-- Three bytes in two pieces, with an interruption between. -/
theorem writen_exact_pieces :
    (writen 3 (fun i => UInt8.ofNat i) [.upTo 0, .fail .EINTR, .upTo 4]).ret = 3 := by
  have exact := writen_exact (show (3 : BitVec 64).toNat ≤ ssizeMax by decide)
    (fun i => UInt8.ofNat i) [.upTo 0, .fail .EINTR, .upTo 4]
  refine exact.1.resolve_right fun minusOne => ?_
  obtain ⟨done, o, script, -, stops⟩ := (exact.2.2.1 minusOne).1
  have mem : o ∈ [Outcome.upTo 0, .fail .EINTR, .upTo 4] := by
    rw [show [Outcome.upTo 0, .fail .EINTR, .upTo 4] = done ++ o :: _ from script]
    exact List.mem_append_right _ List.mem_cons_self
  apply stops
  simp only [List.mem_cons, List.not_mem_nil, or_false] at mem
  rcases mem with rfl | rfl | rfl
  · exact Or.inl ⟨0, rfl⟩
  · exact Or.inr rfl
  · exact Or.inl ⟨4, rfl⟩

end LinuxNote.Wrap
