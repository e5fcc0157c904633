import LinuxNote.Wrap.Descriptor

/-!
# When a failing `read` is met

A reader that wants `m` bytes and makes an interrupted `read` again meets the first other failure of
the script if the calls before it bring fewer than `m` bytes and none of them finds the end of the
stream (`Desc.FailsBefore`).  The rules below say how this condition moves with one call.
-/

namespace LinuxNote.Wrap

/-- The most that a call can bring when it asks for `cap` bytes. -/
def Event.served (cap : ℕ) : Event → ℕ
  | .short k => min (k + 1) cap
  | .fail _ => 0

def served (cap : ℕ) : List Event → ℕ
  | [] => 0
  | e :: events => e.served cap + served cap events

/-- A call fails, not with `EINTR`, before `m` bytes have come and before a call has found the end
of the stream. -/
def Desc.FailsBefore (cap m : ℕ) (d : Desc) : Prop :=
  ∃ done code later, d.script = done ++ .fail (.other code) :: later ∧
    min (served cap done) d.data.length < m ∧
    ∀ before k, before ++ [.short k] <+: done → served cap before < d.data.length

@[simp] theorem served_nil (cap : ℕ) : served cap [] = 0 := rfl

@[simp] theorem served_cons (cap : ℕ) (e : Event) (events : List Event) :
    served cap (e :: events) = e.served cap + served cap events := rfl

section

variable {cap count m : ℕ} {data : List UInt8} {script : List Event} {d d' : Desc}
  {bs : List UInt8}

theorem Desc.not_failsBefore_zero : ¬ d.FailsBefore cap 0 := by
  rintro ⟨done, code, later, -, few, -⟩
  exact absurd few (Nat.not_lt_zero _)

theorem Desc.not_failsBefore_nil : ¬ Desc.FailsBefore cap m ⟨data, []⟩ := by
  rintro ⟨done, code, later, eq, -, -⟩
  exact absurd eq (by simp)

theorem Desc.failsBefore_other {code : ℕ} (pos : 0 < m) :
    Desc.FailsBefore cap m ⟨data, .fail (.other code) :: script⟩ := by
  refine ⟨[], code, script, rfl, by simpa using pos, fun before k h => ?_⟩
  simp at h

theorem Desc.Quiet.not_failsBefore (h : d.Quiet) : ¬ d.FailsBefore cap m := by
  rintro ⟨done, code, later, eq, -, -⟩
  have mem : Event.fail (.other code) ∈ d.script := by
    rw [eq]
    exact List.mem_append_right _ List.mem_cons_self
  cases h _ mem

/-- The calls before the next one and those after it. -/
theorem forall_prefix_cons {e : Event} {done : List Event} {P : List Event → Prop} :
    (∀ before k, before ++ [.short k] <+: e :: done → P before) ↔
      ((∃ k, e = .short k) → P []) ∧
        ∀ before k, before ++ [.short k] <+: done → P (e :: before) := by
  constructor
  · intro h
    refine ⟨fun ⟨k, eq⟩ => h [] k ?_, fun before k sub => h (e :: before) k ?_⟩
    · exact eq ▸ ⟨done, rfl⟩
    · exact List.cons_prefix_cons.2 ⟨rfl, sub⟩
  · rintro ⟨first, later⟩ before k sub
    cases before with
    | nil => exact first ⟨k, ((List.cons_prefix_cons.1 sub).1).symm⟩
    | cons e' before =>
        obtain ⟨rfl, rest⟩ := List.cons_prefix_cons.1 sub
        exact later before k rest

theorem Desc.failsBefore_eintr :
    Desc.FailsBefore cap m ⟨data, .fail .EINTR :: script⟩ ↔
      Desc.FailsBefore cap m ⟨data, script⟩ := by
  constructor
  · rintro ⟨done, code, later, eq, few, unended⟩
    obtain ⟨-, eq⟩ | ⟨done, rfl, rfl⟩ := List.cons_eq_append_iff.1 eq
    · cases eq
    · rw [forall_prefix_cons] at unended
      refine ⟨done, code, later, rfl, ?_, fun before k sub => ?_⟩
      · simpa [Event.served] using few
      · simpa [Event.served] using unended.2 before k sub
  · rintro ⟨done, code, later, rfl, few, unended⟩
    refine ⟨.fail .EINTR :: done, code, later, rfl, ?_, forall_prefix_cons.2 ⟨?_, ?_⟩⟩
    · simpa [Event.served] using few
    · rintro ⟨k, eq⟩
      cases eq
    · intro before k sub
      simpa [Event.served] using unended before k sub

/-- A call that asks for the bytes wanted or for `cap`. -/
theorem Desc.failsBefore_short {k : ℕ} (lo : min m cap ≤ count)
    (hi : count ≤ cap) :
    Desc.FailsBefore cap m ⟨data, .short k :: script⟩ ↔
      data ≠ [] ∧ Desc.FailsBefore cap (m - (data.take (min (k + 1) count)).length)
        ⟨data.drop (min (k + 1) count), script⟩ := by
  -- Where the call asks for less than `cap`, it asks for all that is wanted.
  simp only [Desc.FailsBefore, List.length_take, List.length_drop, ← List.length_pos_iff]
  constructor
  · rintro ⟨done, code, later, eq, few, unended⟩
    obtain ⟨-, eq⟩ | ⟨done, rfl, rfl⟩ := List.cons_eq_append_iff.1 eq
    · cases eq
    · rw [forall_prefix_cons] at unended
      rw [served_cons, Event.served] at few
      refine ⟨unended.1 ⟨k, rfl⟩, done, code, later, rfl, by omega, fun before k' sub => ?_⟩
      have := unended.2 before k' sub
      rw [served_cons, Event.served] at this
      omega
  · rintro ⟨some, done, code, later, rfl, few, unended⟩
    refine ⟨.short k :: done, code, later, rfl, ?_, forall_prefix_cons.2 ⟨fun _ => some, ?_⟩⟩
    · rw [served_cons, Event.served]
      omega
    · intro before k' sub
      have := unended before k' sub
      rw [served_cons, Event.served]
      omega

/-! ## One call -/

theorem Desc.failsBefore_read_bytes (asks : 0 < count) (lo : min m cap ≤ count)
    (hi : count ≤ cap) (h : d.read count = (.bytes bs, d')) :
    d.FailsBefore cap m ↔ bs ≠ [] ∧ d'.FailsBefore cap (m - bs.length) := by
  obtain ⟨data, script⟩ := d
  rcases script with _ | ⟨k | errno, script⟩
  · cases h
    exact iff_of_false not_failsBefore_nil fun h => not_failsBefore_nil h.2
  · cases h
    have taken : data.take (min (k + 1) count) ≠ [] ↔ data ≠ [] := by
      rw [Ne, List.take_eq_nil_iff]
      have : min (k + 1) count ≠ 0 := by omega
      simp [this]
    rw [failsBefore_short lo hi, taken]
  · cases h

theorem Desc.failsBefore_read_eintr (h : d.read count = (.error .EINTR, d')) :
    d.FailsBefore cap m ↔ d'.FailsBefore cap m := by
  obtain ⟨data, script⟩ := d
  rcases script with _ | ⟨k | errno, script⟩ <;> cases h
  exact failsBefore_eintr

theorem Desc.failsBefore_read_other {code : ℕ} (pos : 0 < m)
    (h : d.read count = (.error (.other code), d')) : d.FailsBefore cap m := by
  obtain ⟨data, script⟩ := d
  rcases script with _ | ⟨k | errno, script⟩ <;> cases h
  exact failsBefore_other pos

theorem Desc.failsBefore_again_bytes (asks : 0 < cap)
    (h : d.again cap = (.bytes bs, d')) :
    d.FailsBefore cap m ↔ bs ≠ [] ∧ d'.FailsBefore cap (m - bs.length) := by
  obtain ⟨data, script⟩ := d
  induction script with
  | nil => exact failsBefore_read_bytes asks (Nat.min_le_right m cap) le_rfl h
  | cons e script ih =>
      rcases e with k | ⟨_ | code⟩
      · exact failsBefore_read_bytes asks (Nat.min_le_right m cap) le_rfl h
      · rw [failsBefore_eintr]
        exact ih h
      · cases h

theorem Desc.failsBefore_again_error {errno : Errno} (pos : 0 < m)
    (h : d.again cap = (.error errno, d')) : d.FailsBefore cap m := by
  obtain ⟨data, script⟩ := d
  induction script with
  | nil => cases h
  | cons e script ih =>
      rcases e with k | ⟨_ | code⟩
      · cases h
      · rw [failsBefore_eintr]
        exact ih h
      · exact failsBefore_other pos

end

end LinuxNote.Wrap
