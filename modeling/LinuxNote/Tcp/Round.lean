import LinuxNote.Tcp.Server

/-!
# One round of the `select` server

From one `select` to the next the server calls `Accept` when `listenfd` is ready and `Read` once on
every client that is ready, and on nothing else (`servesOnce_of_reachable`).  The scan may end
early: what `nready` counts down are the ready clients from the present entry on (`During`), so when
it comes to 0 none is left.  A connection accepted in the round is not ready and is passed over.
-/

namespace LinuxNote.Tcp

open Conc

/-- The calls of the wrapper functions that wait for a peer. -/
inductive Call
  | accept
  | read (sockfd : ℤ)
  deriving DecidableEq

def Loc.call : Loc → Option Call
  | .accept => some .accept
  | .read _ sockfd => some (.read sockfd)
  | _ => none

/-- The call that a step begins.  A wrapper that is interrupted and tries again stays where it is.
-/
def Server.begins (s s' : Server) : List Call := if s'.loc = s.loc then [] else s'.loc.call.toList

/-- The calls that begin in a run. -/
def calls (listenfd : ℤ) : List Answer → Server → List Call
  | [], _ => []
  | a :: as, s =>
      match step listenfd a s with
      | none => []
      | some s' => s.begins s' ++ calls listenfd as s'

/-- In a round from `s` with the answers `as`, `Accept` and `Read` are called once on what is ready,
and on nothing else. -/
structure ServesOnce (listenfd : ℤ) (s : Server) (ready : Finset ℤ) (as : List Answer)
    (calls : List Call) : Prop where
  nodup : calls.Nodup
  accept : .accept ∈ calls ↔ listenfd ∈ ready
  read : ∀ fd, .read fd ∈ calls ↔ fd ∈ ready ∧ ∃ i, s.Entry i fd
  fresh : ∀ fd, .accept (.connfd fd) ∈ as → .read fd ∉ calls

/-! ## Where a round stands -/

section

variable (listenfd : ℤ) (s₀ : Server) (ready : Finset ℤ)

open Classical in
/-- The ready clients from entry `i` on. -/
noncomputable def pending (i : ℕ) : Finset ℤ := ready.filter fun fd => ∃ j, i ≤ j ∧ s₀.Entry j fd

/-- The round from `s₀` has served the entries below `i` with the calls `c`. -/
structure Reached (i : ℕ) (c : List Call) (s : Server) : Prop where
  rset : s.rset = ready
  nodup : c.Nodup
  accept : .accept ∈ c ↔ listenfd ∈ ready
  read : ∀ fd, .read fd ∈ c ↔ fd ∈ ready ∧ ∃ j < i, s₀.Entry j fd
  rest : ∀ j fd, i ≤ j → fd ∈ ready → (s.Entry j fd ↔ s₀.Entry j fd)

structure Served (c : List Call) : Prop where
  nodup : c.Nodup
  accept : .accept ∈ c ↔ listenfd ∈ ready
  read : ∀ fd, .read fd ∈ c ↔ fd ∈ ready ∧ ∃ j, s₀.Entry j fd

/-- The round from `s₀` has come to `s` with the calls `c`. -/
def During (c : List Call) (s : Server) : Prop :=
  match s.loc with
  | .select => Served listenfd s₀ ready c
  | .accept => c = [.accept] ∧ listenfd ∈ ready ∧ s.rset = ready ∧ s.nready = ready.card ∧
      s.client = s₀.client ∧ s.opened = s₀.opened
  | .scan i => Reached listenfd s₀ ready i c s ∧ s.nready = (pending s₀ ready i).card
  | .read i _ | .close i _ | .write i _ _ =>
      Reached listenfd s₀ ready (i + 1) c s ∧ s.nready = (pending s₀ ready (i + 1)).card + 1
  | .exited => True

end

section

variable {listenfd : ℤ} {s₀ s s' : Server} {ready : Finset ℤ} {i : ℕ} {c : List Call} {fd : ℤ}

theorem mem_pending : fd ∈ pending s₀ ready i ↔ fd ∈ ready ∧ ∃ j, i ≤ j ∧ s₀.Entry j fd := by
  classical
  exact Finset.mem_filter

theorem Reached.frame (h : Reached listenfd s₀ ready i c s) (client : s'.client = s.client)
    (rset : s'.rset = s.rset) : Reached listenfd s₀ ready i c s' := by
  refine ⟨rset.trans h.rset, h.nodup, h.accept, h.read, fun j fd le mem => ?_⟩
  rw [Server.Entry, client]
  exact h.rest j fd le mem

theorem Reached.served (h : Reached listenfd s₀ ready i c s) (none : pending s₀ ready i = ∅) :
    Served listenfd s₀ ready c := by
  refine ⟨h.nodup, h.accept, fun fd => (h.read fd).trans (and_congr_right fun mem => ?_)⟩
  constructor
  · exact fun ⟨j, _, hj⟩ => ⟨j, hj⟩
  · rintro ⟨j, hj⟩
    refine ⟨j, ?_, hj⟩
    by_contra le
    have : fd ∈ pending s₀ ready i := mem_pending.2 ⟨mem, j, not_lt.1 le, hj⟩
    rw [none] at this
    exact absurd this (Finset.notMem_empty fd)

/-- `if (--nready == 0)` -/
theorem Reached.next (h : Reached listenfd s₀ ready i c s)
    (left : s.nready = (pending s₀ ready i).card + 1) :
    During listenfd s₀ ready c (s.next i) := by
  by_cases none : s.nready - 1 = 0
  · have empty : pending s₀ ready i = ∅ := Finset.card_eq_zero.1 (by omega)
    simpa [During, Server.next, none] using h.served empty
  · simp only [During, Server.next, if_neg none]
    exact ⟨h.frame rfl rfl, by omega⟩

/-- Entry `i` is free or its client is not ready. -/
theorem Reached.skip (h : Reached listenfd s₀ ready i c s)
    (idle : ∀ fd ∈ ready, ¬ s₀.Entry i fd) :
    Reached listenfd s₀ ready (i + 1) c s ∧ pending s₀ ready (i + 1) = pending s₀ ready i := by
  refine ⟨⟨h.rset, h.nodup, h.accept, fun fd => (h.read fd).trans (and_congr_right fun mem => ?_),
    fun j fd le => h.rest j fd (by omega)⟩, ?_⟩
  · constructor
    · exact fun ⟨j, lt, hj⟩ => ⟨j, by omega, hj⟩
    · rintro ⟨j, lt, hj⟩
      refine ⟨j, Nat.lt_of_le_of_ne (by omega) ?_, hj⟩
      rintro rfl
      exact idle fd mem hj
  · ext fd
    rw [mem_pending, mem_pending]
    refine and_congr_right fun mem => ?_
    constructor
    · exact fun ⟨j, le, hj⟩ => ⟨j, by omega, hj⟩
    · rintro ⟨j, le, hj⟩
      refine ⟨j, Nat.lt_of_le_of_ne le ?_, hj⟩
      rintro rfl
      exact idle fd mem hj

/-- `Read` is called for entry `i`. -/
theorem Reached.call (h : Reached listenfd s₀ ready i c s) (consistent : Consistent listenfd s₀)
    (mem : fd ∈ ready) (hi : s₀.Entry i fd) :
    Reached listenfd s₀ ready (i + 1) (c ++ [.read fd]) s ∧
      (pending s₀ ready i).card = (pending s₀ ready (i + 1)).card + 1 := by
  have only : ∀ j, s₀.Entry j fd → j = i := fun j hj => consistent.distinct j i fd hj hi
  have first : .read fd ∉ c := by
    rw [h.read]
    rintro ⟨-, j, lt, hj⟩
    exact absurd (only j hj) (Nat.ne_of_lt lt)
  refine ⟨⟨h.rset, ?_, ?_, fun fd' => ?_, fun j fd' le => h.rest j fd' (by omega)⟩, ?_⟩
  · rw [List.nodup_append]
    refine ⟨h.nodup, List.nodup_singleton _, fun x hx y hy => ?_⟩
    rw [List.mem_singleton.1 hy]
    exact fun e => first (e ▸ hx)
  · rw [← h.accept]
    simp
  · rw [List.mem_append, h.read, List.mem_singleton, Call.read.injEq]
    constructor
    · rintro (⟨mem', j, lt, hj⟩ | rfl)
      · exact ⟨mem', j, by omega, hj⟩
      · exact ⟨mem, i, by omega, hi⟩
    · rintro ⟨mem', j, lt, hj⟩
      by_cases e : j = i
      · subst e
        exact Or.inr (Option.some.inj (hj.1.symm.trans hi.1))
      · exact Or.inl ⟨mem', j, by omega, hj⟩
  · have more : pending s₀ ready i = insert fd (pending s₀ ready (i + 1)) := by
      ext fd'
      rw [Finset.mem_insert, mem_pending, mem_pending]
      constructor
      · rintro ⟨mem', j, le, hj⟩
        by_cases e : j = i
        · subst e
          exact Or.inl (Option.some.inj (hj.1.symm.trans hi.1))
        · exact Or.inr ⟨mem', j, by omega, hj⟩
      · rintro (rfl | ⟨mem', j, le, hj⟩)
        · exact ⟨mem, i, le_rfl, hi⟩
        · exact ⟨mem', j, by omega, hj⟩
    rw [more, Finset.card_insert_of_notMem]
    rw [mem_pending]
    rintro ⟨-, j, le, hj⟩
    have := only j hj
    omega

end

/-! ## One step -/

section

variable {listenfd : ℤ} {s₀ s s' : Server} {ready : Finset ℤ} {i : ℕ} {c : List Call} {fd : ℤ}
  {a : Answer}

theorem begins_of_call (h : s'.loc.call = none) : s.begins s' = [] := by
  rw [Server.begins, h]
  exact ite_self []

theorem begins_next : s.begins (s'.next i) = [] := by
  apply begins_of_call
  unfold Server.next
  dsimp only
  split <;> rfl

theorem During.exited (hl : s'.loc = .exited) : During listenfd s₀ ready c s' := by
  rw [During, hl]
  trivial

/-- All ready clients are still to come. -/
theorem pending_zero (consistent : Consistent listenfd s₀) (sub : ready ⊆ s₀.allset) :
    pending s₀ ready 0 = ready.erase listenfd := by
  ext fd
  rw [mem_pending, Finset.mem_erase, and_comm]
  refine and_congr_left fun mem => ?_
  have members := consistent.members fd
  constructor
  · rintro ⟨j, -, hj⟩
    exact (members.1 ⟨j, hj⟩).2
  · intro ne
    obtain ⟨j, hj⟩ := members.2 ⟨sub mem, ne⟩
    exact ⟨j, Nat.zero_le j, hj⟩

theorem During.select (consistent : Consistent listenfd s₀) (sub : ready ⊆ s₀.allset)
    (hl : s₀.loc = .select) (hs : step listenfd (.select (some ready)) s₀ = some s) :
    During listenfd s₀ ready (s₀.begins s) s := by
  simp only [step, hl] at hs
  obtain ⟨-, hs⟩ := Option.ite_none_right_eq_some.1 hs
  obtain rfl := Option.some.inj hs
  by_cases listen : listenfd ∈ ready
  · simp [During, Server.begins, Loc.call, hl, listen]
  · simp only [During, Server.begins, hl, if_neg listen, reduceCtorEq, if_false]
    refine ⟨⟨rfl, List.nodup_nil, by simp [Loc.call, listen], fun fd => by simp [Loc.call],
      fun j fd _ _ => Iff.rfl⟩, ?_⟩
    rw [pending_zero consistent sub, Finset.erase_eq_of_notMem listen]

/-- `Accept` has returned a descriptor. -/
theorem During.enroll (inv : Invariant listenfd s) (consistent : Consistent listenfd s₀)
    (sub : ready ⊆ s₀.allset) (opened : s₀.allset ⊆ s₀.opened) (hl : s.loc = .accept)
    (h : During listenfd s₀ ready c s) (fresh : fd ∉ s.opened) :
    During listenfd s₀ ready (c ++ s.begins (s.enroll fd)) (s.enroll fd) := by
  simp only [During, hl] at h
  obtain ⟨rfl, listen, rset, nready, client, same⟩ := h
  unfold Server.enroll
  dsimp only
  split
  · exact .exited rfl
  · next full =>
      have le : s.client.findIdx (· < 0) ≤ s.client.length := List.findIdx_le_length
      have lt : s.client.findIdx (· < 0) < s.client.length := by
        have := inv.consistent.size
        omega
      rw [begins_next, List.append_nil]
      refine Reached.next ⟨rset, List.nodup_singleton _, by simp [listen], fun fd => by simp,
        fun j fd' _ mem => ?_⟩ ?_
      · have before : s.Entry j fd' ↔ s₀.Entry j fd' := by rw [Server.Entry, client, Server.Entry]
        have other : fd' ≠ fd := fun e => fresh (e ▸ same ▸ opened (sub mem))
        rw [entry_set rfl lt, ← before]
        split
        · next e =>
            -- the entry was free, and the descriptor in it is not ready
            subst e
            exact iff_of_false (fun new => other new.1) (free_findIdx lt fd')
        · exact Iff.rfl
      · have card := Finset.card_erase_add_one listen
        rw [pending_zero consistent sub]
        dsimp only
        omega

theorem During.scan (inv : Invariant listenfd s) (consistent : Consistent listenfd s₀)
    (hl : s.loc = .scan i) (h : During listenfd s₀ ready c s) :
    During listenfd s₀ ready (c ++ s.begins (s.scan i)) (s.scan i) := by
  simp only [During, hl] at h
  obtain ⟨reached, nready⟩ := h
  unfold Server.scan
  dsimp only
  split
  · by_cases idle : s.client.getD i (-1) < 0 ∨ s.client.getD i (-1) ∉ s.rset
    · -- on with the next entry
      simp only [if_pos idle]
      rw [begins_of_call rfl, List.append_nil]
      obtain ⟨reached, same⟩ := reached.skip fun fd mem hi => by
        obtain ⟨rfl, pos⟩ := entry_iff_getD.1 ((reached.rest i fd le_rfl mem).2 hi)
        rcases idle with neg | idle
        · omega
        · exact idle (reached.rset ▸ mem)
      exact ⟨reached.frame rfl rfl, same ▸ nready⟩
    · simp only [if_neg idle]
      simp only [not_or, not_lt, not_not] at idle
      have mem : s.client.getD i (-1) ∈ ready := reached.rset ▸ idle.2
      have hi := (reached.rest i _ le_rfl mem).1 (entry_iff_getD.2 ⟨rfl, idle.1⟩)
      obtain ⟨called, one⟩ := reached.call consistent mem hi
      simp only [Server.begins, hl, reduceCtorEq, if_false]
      exact ⟨called.frame rfl rfl, nready.trans (by omega)⟩
  · next above =>
      rw [begins_of_call rfl, List.append_nil]
      refine reached.served (Finset.eq_empty_of_forall_notMem fun fd mem => ?_)
      obtain ⟨mem, j, le, hj⟩ := mem_pending.1 mem
      have := inv.consistent.maxi j fd ((reached.rest j fd le mem).2 hj)
      omega

/-- `Read` has returned, and the descriptor is written to or closed next. -/
theorem During.received (hl : s.loc = .read i fd) (h : During listenfd s₀ ready c s)
    (bs : List UInt8) :
    During listenfd s₀ ready (c ++ s.begins (s.received i fd bs)) (s.received i fd bs) := by
  simp only [During, hl] at h
  obtain ⟨reached, nready⟩ := h
  unfold Server.received
  dsimp only
  split
  · rw [begins_of_call rfl, List.append_nil]
    exact ⟨reached.frame rfl rfl, nready⟩
  · rw [begins_of_call rfl, List.append_nil]
    exact ⟨reached.frame rfl rfl, nready⟩

/-- Entry `i` has been freed, which the scan does not look at again in this round. -/
theorem During.closed (inv : Invariant listenfd s) (hl : s.loc = .close i fd)
    (h : During listenfd s₀ ready c s) :
    During listenfd s₀ ready (c ++ s.begins (s.closed i fd)) (s.closed i fd) := by
  have here := inv.here
  rw [hl] at here
  have lt : i < s.client.length := (List.getElem?_eq_some_iff.1 here.1).1
  simp only [During, hl] at h
  obtain ⟨reached, nready⟩ := h
  rw [Server.closed, begins_next, List.append_nil]
  refine Reached.next ⟨reached.rset, reached.nodup, reached.accept, reached.read,
    fun j fd le mem => ?_⟩ nready
  rw [entry_set rfl lt, if_neg (by omega)]
  exact reached.rest j fd le mem

/-- One step of the round. -/
theorem During.of_step (inv : Invariant listenfd s) (consistent : Consistent listenfd s₀)
    (sub : ready ⊆ s₀.allset) (opened : s₀.allset ⊆ s₀.opened) (h : During listenfd s₀ ready c s)
    (one : ∀ r, a ≠ .select r) (hs : step listenfd a s = some s') :
    During listenfd s₀ ready (c ++ s.begins s') s' := by
  have again : During listenfd s₀ ready (c ++ s.begins s) s := by
    rwa [Server.begins, if_pos rfl, List.append_nil]
  cases hl : s.loc with
  | select =>
      cases a with
      | select r => exact absurd rfl (one r)
      | _ => simp [step, hl] at hs
  | accept =>
      cases a with
      | accept r =>
          cases r with
          | connfd fd =>
              simp only [step, hl] at hs
              obtain ⟨⟨-, -, fresh⟩, hs⟩ := Option.ite_none_right_eq_some.1 hs
              obtain rfl := Option.some.inj hs
              exact During.enroll inv consistent sub opened hl h fresh
          | error errno =>
              simp only [step, hl] at hs
              split at hs <;> obtain rfl := Option.some.inj hs
              · exact again
              · exact .exited rfl
      | _ => simp [step, hl] at hs
  | scan i =>
      cases a with
      | tau =>
          simp only [step, hl] at hs
          obtain rfl := Option.some.inj hs
          exact During.scan inv consistent hl h
      | _ => simp [step, hl] at hs
  | read i sockfd =>
      cases a with
      | read r =>
          cases r with
          | bytes bs =>
              simp only [step, hl] at hs
              obtain ⟨-, hs⟩ := Option.ite_none_right_eq_some.1 hs
              obtain rfl := Option.some.inj hs
              exact During.received hl h bs
          | error errno =>
              simp only [step, hl] at hs
              split at hs <;> obtain rfl := Option.some.inj hs
              · exact again
              · simp only [During, hl] at h
                obtain ⟨reached, nready⟩ := h
                rw [begins_of_call rfl, List.append_nil]
                exact ⟨reached.frame rfl rfl, nready⟩
      | _ => simp [step, hl] at hs
  | close i sockfd =>
      cases a with
      | close ok =>
          simp only [step, hl] at hs
          obtain rfl := Option.some.inj hs
          cases ok with
          | false => exact .exited rfl
          | true => exact During.closed inv hl h
      | _ => simp [step, hl] at hs
  | write i sockfd n =>
      have busy := h
      simp only [During, hl] at busy
      obtain ⟨reached, nready⟩ := busy
      cases a with
      | write r =>
          cases r with
          | accepted k beyond =>
              simp only [step, hl] at hs
              obtain ⟨-, hs⟩ := Option.ite_none_right_eq_some.1 hs
              obtain rfl := Option.some.inj hs
              rw [begins_next, List.append_nil]
              exact Reached.next (reached.frame rfl rfl) nready
          | error errno =>
              simp only [step, hl] at hs
              split at hs <;> obtain rfl := Option.some.inj hs
              · exact again
              · rw [begins_next, List.append_nil]
                exact reached.next nready
      | _ => simp [step, hl] at hs
  | exited => simp [step, hl] at hs

/-- A connection is only accepted before the scan, and its descriptor was not open. -/
theorem During.fresh (h : During listenfd s₀ ready c s)
    (hs : step listenfd (.accept (.connfd fd)) s = some s') : fd ∉ s₀.opened := by
  cases hl : s.loc with
  | accept =>
      simp only [During, hl] at h
      obtain ⟨-, -, -, -, -, same⟩ := h
      simp only [step, hl] at hs
      obtain ⟨⟨-, -, fresh⟩, -⟩ := Option.ite_none_right_eq_some.1 hs
      exact same ▸ fresh
  | _ => simp [step, hl] at hs

end

/-! ## The round -/

section

variable {listenfd : ℤ} {opened : Finset ℤ} {buf : List UInt8} {s₀ s s' : Server}
  {ready : Finset ℤ} {c : List Call} {as : List Answer}

theorem During.run (inv : Invariant listenfd s) (consistent : Consistent listenfd s₀)
    (sub : ready ⊆ s₀.allset) (open_ : s₀.allset ⊆ s₀.opened) (h : During listenfd s₀ ready c s)
    (one : ∀ r, .select r ∉ as) (run : (server listenfd opened buf).run as s = some s') :
    During listenfd s₀ ready (c ++ calls listenfd as s) s' ∧
      ∀ fd, .accept (.connfd fd) ∈ as → fd ∉ s₀.opened := by
  induction as generalizing s c with
  | nil =>
      obtain rfl : s = s' := by simpa [Machine.run] using run
      rw [calls, List.append_nil]
      exact ⟨h, fun fd mem => absurd mem List.not_mem_nil⟩
  | cons a as ih =>
      obtain ⟨s₁, hs, rest⟩ := Option.bind_eq_some_iff.1 run
      have hs : step listenfd a s = some s₁ := hs
      have first : ∀ r, a ≠ .select r := fun r e => one r (e ▸ List.mem_cons_self)
      have next := h.of_step inv consistent sub open_ first hs
      obtain ⟨later, fresh⟩ := ih (inv.step hs) next
        (fun r mem => one r (List.mem_cons_of_mem a mem)) rest
      rw [calls, hs, ← List.append_assoc]
      refine ⟨later, fun fd mem => ?_⟩
      rcases List.mem_cons.1 mem with rfl | mem
      · exact h.fresh hs
      · exact fresh fd mem

/-- For every state in which the server comes to `select` and every set that `select` may return:
the run up to the next `select`. -/
theorem servesOnce_of_reachable (h : (server listenfd opened buf).Reachable s)
    (hl : s.loc = .select)
    (run : (server listenfd opened buf).run (.select (some ready) :: as) s = some s')
    (one : ∀ r, .select r ∉ as) (back : s'.loc = .select) :
    ServesOnce listenfd s ready as (calls listenfd (.select (some ready) :: as) s) := by
  have inv := invariant_of_reachable h
  obtain ⟨s₁, hs, rest⟩ := Option.bind_eq_some_iff.1 run
  have hs : step listenfd (.select (some ready)) s = some s₁ := hs
  have sub : ready ⊆ s.allset := by
    simp only [step, hl] at hs
    exact (Option.ite_none_right_eq_some.1 hs).1.2.1
  obtain ⟨served, fresh⟩ := (During.select inv.consistent sub hl hs).run (inv.step hs)
    inv.consistent sub inv.opened one rest
  simp only [During, back] at served
  rw [calls, hs]
  refine ⟨served.nodup, served.accept, served.read, fun fd mem called => ?_⟩
  exact fresh fd mem (inv.opened (sub ((served.read fd).1 called).1))

end

/-- Two connections. -/
def twoClients : List Answer :=
  [.select (some {3}), .accept (.connfd 4), .select (some {3}), .accept (.connfd 5)]

/-- All descriptors are ready: a third connection comes, the first one ends, and the second one
sends a byte. -/
def allReady : List Answer :=
  [.accept (.connfd 6), .tau, .read (.bytes []), .close true, .tau, .read (.bytes [97]),
    .write (.accepted 1 [])]

theorem servesOnce_allReady : ∃ s, (server 3 {0, 1, 2} []).Reachable s ∧
    calls 3 (.select (some {3, 4, 5}) :: allReady) s = [.accept, .read 4, .read 5] ∧
    ServesOnce 3 s {3, 4, 5} allReady [.accept, .read 4, .read 5] := by
  have h := Machine.reachable_of_run (M := server 3 {0, 1, 2} []) twoClients rfl rfl
  exact ⟨_, h, rfl, servesOnce_of_reachable h rfl rfl (by simp [allReady]) rfl⟩

end LinuxNote.Tcp
