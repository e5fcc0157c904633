import LinuxNote.Conc.Table
import LinuxNote.Tcp.Server

/-!
# Descriptors and the size of an `fd_set`

The server once more, where `accept` may return any descriptor that is not open, and with all that
is passed to `FD_SET`, `FD_CLR` and `FD_ISSET` written down.  "too many clients" counts the entries
of `client[]`; how large a descriptor is, nothing tests (`inside_iff_small`).
-/

namespace LinuxNote.Tcp

open Conc

/-- `step`, without a limit on the descriptor of a new connection. -/
def stepAny (listenfd : ℤ) (a : Answer) (s : Server) : Option Server :=
  match s.loc, a with
  | .accept, .accept (.connfd fd) => if 0 ≤ fd ∧ fd ∉ s.opened then some (s.enroll fd) else none
  | _, _ => step listenfd a s

/-- `i` is not `FD_SETSIZE` behind the search for a free entry. -/
def Server.HasRoom (s : Server) : Prop := s.client.findIdx (· < 0) ≠ FD_SETSIZE

instance (s : Server) : Decidable s.HasRoom := inferInstanceAs (Decidable (_ ≠ _))

/-- The descriptors that a step passes to the macros: the listening one and those of the scan to
`FD_ISSET`, a new one to `FD_SET`, a closed one to `FD_CLR`. -/
def passes (listenfd : ℤ) (a : Answer) (s : Server) : List ℤ :=
  match s.loc, a with
  | .select, .select (some _) => [listenfd]
  | .accept, .accept (.connfd fd) => if s.HasRoom then [fd] else []
  | .scan i, .tau =>
      let sockfd := s.client.getD i (-1)
      if i ≤ s.maxi ∧ ¬ sockfd < 0 then [sockfd] else []
  | .close _ sockfd, .close true => [sockfd]
  | _, _ => []

/-- The server with all the descriptors passed so far. -/
structure Tracked where
  server : Server
  passed : List ℤ

/-- Before the loop there is `FD_SET(listenfd, &allset)`. -/
def tracked (listenfd : ℤ) (opened : Finset ℤ) (buf : List UInt8) : Machine Tracked Answer where
  init s := s = ⟨created listenfd opened buf, [listenfd]⟩
  step a s := (stepAny listenfd a s.server).map fun s' =>
    ⟨s', s.passed ++ passes listenfd a s.server⟩

/-- Every descriptor passed has a place in the set. -/
def Tracked.Inside (s : Tracked) : Prop := ∀ fd ∈ s.passed, fd < FD_SETSIZE

/-- A descriptor that gets an entry is small enough. -/
def Small (a : Answer) (s : Tracked) : Prop :=
  match s.server.loc, a with
  | .accept, .accept (.connfd fd) => s.server.HasRoom → fd < FD_SETSIZE
  | _, _ => True

instance (a : Answer) (s : Tracked) : Decidable (Small a s) := by
  unfold Small
  split <;> infer_instance

/-! ## Steps -/

variable {listenfd : ℤ} {s s' : Server} {a : Answer}

theorem Invariant.stepAny (h : Invariant listenfd s) (hs : stepAny listenfd a s = some s') :
    Invariant listenfd s' := by
  unfold Tcp.stepAny at hs
  split at hs
  · obtain ⟨⟨pos, fresh⟩, hs⟩ := Option.ite_none_right_eq_some.1 hs
    obtain rfl := Option.some.inj hs
    exact h.enroll pos fresh
  · exact h.step hs

/-- Only a new connection comes into the set. -/
theorem allset_of_step (hs : step listenfd a s = some s')
    (other : ∀ fd, s.loc = .accept → a ≠ .accept (.connfd fd)) : s'.allset ⊆ s.allset := by
  have kept : s'.allset = s.allset → s'.allset ⊆ s.allset := fun h => h.subset
  unfold step at hs
  split at hs
  · obtain rfl := Option.some.inj hs
    exact kept rfl
  · obtain ⟨-, hs⟩ := Option.ite_none_right_eq_some.1 hs
    obtain rfl := Option.some.inj hs
    exact kept rfl
  · next fd hl => exact absurd rfl (other fd hl)
  · split at hs <;> obtain rfl := Option.some.inj hs <;> exact kept rfl
  · obtain rfl := Option.some.inj hs
    unfold Server.scan
    split <;> exact Finset.Subset.refl _
  · obtain ⟨-, hs⟩ := Option.ite_none_right_eq_some.1 hs
    obtain rfl := Option.some.inj hs
    unfold Server.received
    dsimp only
    split <;> exact Finset.Subset.refl _
  · split at hs <;> obtain rfl := Option.some.inj hs <;> exact kept rfl
  · next ok hl =>
      obtain rfl := Option.some.inj hs
      cases ok with
      | true => exact Finset.erase_subset _ _
      | false => exact kept rfl
  · obtain ⟨-, hs⟩ := Option.ite_none_right_eq_some.1 hs
    obtain rfl := Option.some.inj hs
    exact kept rfl
  · split at hs <;> obtain rfl := Option.some.inj hs <;> exact kept rfl
  · cases hs

/-- All members of `allset` are small. -/
def Server.AllSmall (s : Server) : Prop := ∀ fd ∈ s.allset, fd < FD_SETSIZE

theorem allSmall_enroll (h : s.AllSmall) {fd : ℤ} (small : s.HasRoom → fd < FD_SETSIZE) :
    (s.enroll fd).AllSmall := by
  unfold Server.enroll
  dsimp only
  split
  · exact h
  · next room =>
      intro x hx
      rcases Finset.mem_insert.1 hx with rfl | old
      · exact small room
      · exact h x old

theorem Server.Entry.mem_allset {i : ℕ} {fd : ℤ} (hi : s.Entry i fd)
    (h : Consistent listenfd s) : fd ∈ s.allset := ((h.members fd).1 ⟨i, hi⟩).1

/-- A step passes members of the set, or the descriptor of a new connection. -/
theorem mem_passes (h : Invariant listenfd s) {fd : ℤ} (mem : fd ∈ passes listenfd a s) :
    fd ∈ s.allset ∨ s.loc = .accept ∧ a = .accept (.connfd fd) ∧ s.HasRoom := by
  have here := h.here
  unfold passes at mem
  split at mem
  · obtain rfl := List.mem_singleton.1 mem
    exact Or.inl h.consistent.listen
  · next hl =>
      split at mem
      · next room =>
          obtain rfl := List.mem_singleton.1 mem
          exact Or.inr ⟨hl, rfl, room⟩
      · cases mem
  · next i hl =>
      dsimp only at mem
      split at mem
      · next some =>
          obtain rfl := List.mem_singleton.1 mem
          have entry : s.Entry i (s.client.getD i (-1)) :=
            entry_iff_getD.2 ⟨rfl, not_lt.1 some.2⟩
          exact Or.inl (entry.mem_allset h.consistent)
      · cases mem
  · next i sockfd hl =>
      obtain rfl := List.mem_singleton.1 mem
      rw [hl] at here
      exact Or.inl (Server.Entry.mem_allset here h.consistent)
  · cases mem

/-- What the runs keep whose connections get small descriptors. -/
structure Tracked.Sound (listenfd : ℤ) (s : Tracked) : Prop where
  invariant : Invariant listenfd s.server
  allSmall : s.server.AllSmall
  inside : s.Inside

variable {t t' : Tracked} {opened : Finset ℤ} {buf : List UInt8}

theorem Tracked.Sound.step (h : t.Sound listenfd) (small : Small a t)
    (hs : (tracked listenfd opened buf).step a t = some t') : t'.Sound listenfd := by
  obtain ⟨s', next, rfl⟩ := Option.map_eq_some_iff.1 hs
  refine ⟨h.invariant.stepAny next, ?_, fun fd mem => ?_⟩
  · unfold stepAny at next
    split at next
    · next fd hl =>
        obtain ⟨-, next⟩ := Option.ite_none_right_eq_some.1 next
        obtain rfl := Option.some.inj next
        refine allSmall_enroll h.allSmall ?_
        unfold Small at small
        rw [hl] at small
        exact small
    · next other =>
        intro fd mem
        exact h.allSmall fd (allset_of_step next (fun fd hl ha => other fd hl ha) mem)
  · rcases List.mem_append.1 mem with old | new
    · exact h.inside fd old
    · rcases mem_passes h.invariant new with mem | ⟨hl, rfl, room⟩
      · exact h.allSmall fd mem
      · unfold Small at small
        rw [hl] at small
        exact small room

theorem not_inside (large : ¬ Small a t)
    (hs : (tracked listenfd opened buf).step a t = some t') : ¬ t'.Inside := by
  obtain ⟨s', -, rfl⟩ := Option.map_eq_some_iff.1 hs
  unfold Small at large
  split at large
  · next fd hl =>
      obtain ⟨room, out⟩ := Classical.not_imp.1 large
      intro inside
      refine out (inside fd (List.mem_append_right _ ?_))
      unfold passes
      rw [hl]
      dsimp only
      rw [if_pos room]
      exact List.mem_cons_self
  · exact absurd trivial large

/-- For every run, whatever the kernel answers: all descriptors have a place exactly when that for
listening and those for the connections that get an entry are small. -/
theorem inside_iff_small {listenfd : ℤ} {opened : Finset ℤ} {buf : List UInt8} {as : List Answer}
    {t : Tracked} (h : (tracked listenfd opened buf).run as
      ⟨created listenfd opened buf, [listenfd]⟩ = some t) :
    (tracked listenfd opened buf).Along Tracked.Inside as
        ⟨created listenfd opened buf, [listenfd]⟩ ↔
      listenfd < FD_SETSIZE ∧
        (tracked listenfd opened buf).Meets Small as ⟨created listenfd opened buf, [listenfd]⟩ := by
  have start : listenfd < FD_SETSIZE →
      Tracked.Sound listenfd ⟨created listenfd opened buf, [listenfd]⟩ := by
    intro small
    refine ⟨invariant_created listenfd opened buf, fun fd mem => ?_, fun fd mem => ?_⟩
    · exact (Finset.mem_singleton.1 mem).trans_lt small
    · exact (List.mem_singleton.1 mem).trans_lt small
  by_cases small : listenfd < FD_SETSIZE
  · rw [and_iff_right small]
    exact Machine.along_iff_meets (fun _ h => h.inside) (fun _ _ _ h ok hs => h.step ok hs)
      (fun _ _ _ _ bad hs => not_inside bad hs) (start small) h
  · refine iff_of_false (fun along => small ?_) fun both => small both.1
    exact along.first listenfd List.mem_cons_self

/-- A connection and its end, and another one. -/
def again : List Answer :=
  [.select (some {3}), .accept (.connfd 4), .select (some {4}), .tau, .read (.bytes []),
    .close true, .select (some {3}), .accept (.connfd 4)]

theorem inside_iff_small_again : ∃ t, (tracked 3 {0, 1, 2} []).run again
    ⟨created 3 {0, 1, 2} [], [3]⟩ = some t ∧ t.passed = [3, 3, 4, 3, 4, 4, 3, 4] ∧
      (tracked 3 {0, 1, 2} []).Along Tracked.Inside again ⟨created 3 {0, 1, 2} [], [3]⟩ :=
  ⟨_, rfl, rfl, (inside_iff_small rfl).2 (by decide)⟩

/-! ## Many clients -/

/-- `k` clients are connected, each with the smallest descriptor that was free. -/
structure Filled (k : ℕ) (s : Server) : Prop where
  loc : s.loc = .select
  listen : 3 ∈ s.allset
  maxfd : 3 ≤ s.maxfd
  client : s.client =
    (List.range k).map (fun i : ℕ => (i : ℤ) + 4) ++ List.replicate (FD_SETSIZE - k) (-1)
  opened : ∀ fd, fd ∈ s.opened ↔ 0 ≤ fd ∧ fd < k + 4

theorem Filled.findIdx {k : ℕ} (h : Filled k s) : s.client.findIdx (· < 0) = k := by
  have used : ∀ fd ∈ (List.range k).map (fun i : ℕ => (i : ℤ) + 4), decide (fd < 0) = false := by
    intro fd mem
    obtain ⟨i, -, rfl⟩ := List.mem_map.1 mem
    rw [decide_eq_false_iff_not]
    omega
  rw [h.client, findIdx_append_replicate used (by decide), List.length_map, List.length_range]

/-- Only the listening descriptor is ready. -/
def Server.pending (s : Server) : Server := { s with rset := {3}, nready := 1, loc := .accept }

theorem Filled.select {k : ℕ} (h : Filled k s) :
    stepAny 3 (.select (some {3})) s = some s.pending := by
  have ready : ({3} : Finset ℤ).Nonempty ∧ {3} ⊆ s.allset ∧
      ∀ fd ∈ ({3} : Finset ℤ), fd ≤ s.maxfd :=
    ⟨Finset.singleton_nonempty 3, Finset.singleton_subset_iff.2 h.listen, fun fd mem =>
      (Finset.mem_singleton.1 mem).trans_le h.maxfd⟩
  unfold stepAny step
  rw [h.loc]
  dsimp only
  rw [if_pos ready, if_pos (Finset.mem_singleton_self 3)]
  rfl

theorem Filled.enroll {k : ℕ} (h : Filled k s) (lt : k < FD_SETSIZE) :
    Filled (k + 1) (s.pending.enroll ((k : ℤ) + 4)) := by
  have index : s.pending.client.findIdx (· < 0) = k := h.findIdx
  have front : ((List.range k).map fun i : ℕ => (i : ℤ) + 4).length = k := by
    rw [List.length_map, List.length_range]
  unfold Server.enroll
  dsimp only
  rw [index, if_neg lt.ne]
  refine ⟨rfl, Finset.mem_insert_of_mem h.listen, ?_, ?_, fun fd => ?_⟩
  · show 3 ≤ if (k : ℤ) + 4 > s.maxfd then (k : ℤ) + 4 else s.maxfd
    have := h.maxfd
    omega
  · show s.client.set k ((k : ℤ) + 4) = _
    have room : FD_SETSIZE - k = FD_SETSIZE - (k + 1) + 1 := by omega
    have stored := set_append_replicate ((List.range k).map fun i : ℕ => (i : ℤ) + 4) (-1)
      ((k : ℤ) + 4) (FD_SETSIZE - (k + 1))
    rw [front, ← room] at stored
    rw [h.client, stored, List.range_succ, List.map_append]
    rfl
  · show fd ∈ insert ((k : ℤ) + 4) s.opened ↔ _
    rw [Finset.mem_insert, h.opened]
    omega

/-- The next client gets the next entry and the next descriptor. -/
theorem Filled.connect {k : ℕ} (h : Filled k s) (lt : k < FD_SETSIZE) (passed : List ℤ) :
    (tracked 3 {0, 1, 2} []).run [.select (some {3}), .accept (.connfd (k + 4))] ⟨s, passed⟩ =
      some ⟨s.pending.enroll ((k : ℤ) + 4), passed ++ [3] ++ [(k : ℤ) + 4]⟩ := by
  have fresh : 0 ≤ (k : ℤ) + 4 ∧ (k : ℤ) + 4 ∉ s.pending.opened := by
    refine ⟨by omega, fun mem => ?_⟩
    have := (h.opened _).1 mem
    omega
  have room : s.pending.HasRoom := h.findIdx.trans_ne lt.ne
  have first : passes 3 (.select (some {3})) s = [3] := by
    unfold passes
    rw [h.loc]
  have second : passes 3 (.accept (.connfd ((k : ℤ) + 4))) s.pending = [(k : ℤ) + 4] :=
    if_pos room
  have accept : stepAny 3 (.accept (.connfd ((k : ℤ) + 4))) s.pending =
      some (s.pending.enroll ((k : ℤ) + 4)) := if_pos fresh
  simp only [Machine.run, tracked, h.select, first, accept, second, Option.map_some,
    Option.bind_some]

theorem exists_filled {k : ℕ} (le : k ≤ FD_SETSIZE) :
    ∃ s passed, Filled k s ∧ (tracked 3 {0, 1, 2} []).Reachable ⟨s, passed⟩ := by
  induction k with
  | zero =>
      refine ⟨created 3 {0, 1, 2} [], [3], ⟨rfl, Finset.mem_singleton_self 3, le_rfl, rfl, ?_⟩,
        Machine.Reachable.init rfl⟩
      intro fd
      simp [created]
      omega
  | succ k ih =>
      obtain ⟨s, passed, filled, reachable⟩ := ih (Nat.le_of_succ_le le)
      exact ⟨_, _, filled.enroll le, reachable.run (filled.connect le passed)⟩

/-- 1020 clients have the descriptors 4 to 1023; there is room for four more in `client[]`. -/
theorem not_inside_filled : ∃ t, (tracked 3 {0, 1, 2} []).Reachable t ∧ 1024 ∈ t.passed ∧
    t.server.loc = .select ∧ ¬ t.Inside := by
  obtain ⟨s, passed, filled, reachable⟩ := exists_filled (show 1020 ≤ FD_SETSIZE by decide)
  have lt : 1020 < FD_SETSIZE := by decide
  have mem : (1024 : ℤ) ∈ passed ++ [3] ++ [((1020 : ℕ) : ℤ) + 4] :=
    List.mem_append_right _ List.mem_cons_self
  exact ⟨_, reachable.run (filled.connect lt passed), mem, (filled.enroll lt).loc, fun h =>
    absurd (h 1024 mem) (by decide)⟩

end LinuxNote.Tcp
