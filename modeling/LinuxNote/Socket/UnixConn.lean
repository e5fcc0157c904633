import LinuxNote.Conc.Machine
import Mathlib.Data.Int.Notation
import Mathlib.Data.List.Count
import Mathlib.Logic.Function.Basic

/-!
# `cli_conn` and `serv_accept`

A client binds its socket to a name made of its process id and connects.  For each connection the
server looks the name up, takes the owner of the file for the user, and unlinks the name.  A second
call of `cli_conn` unlinks and binds the same name, and does not wait for the server to be done with
the first connection: then one file stands for two connections, and the server finds it for one of
them only.

`Name` is what becomes of one name.  Each connection finds a file exactly as long as a process
unlinks its name when none of its connections is still to be looked up, and binds it when the server
is not about to unlink it (`admits_of_inTurn`).
-/

namespace LinuxNote.UnixConn

open Conc Function

/-- `sprintf(un.sun_path, "%s%05d", CLI_PATH, getpid())` -/
def path (pid : ℕ) : List Char :=
  ['/', 'v', 'a', 'r', '/', 't', 'm', 'p', '/'] ++ (Nat.toDigits 10 pid).leftpad 5 '0'

theorem path_injective : Injective path := by
  apply LeftInverse.injective (g := fun name => Nat.ofDigitChars 10 (name.drop 9) 0)
  intro pid
  simp [path, List.leftpad, Nat.ofDigitChars_append]

/-- What `stat` returns. -/
structure File where
  isSock : Bool
  uid : ℕ

/-- A connection in the queue: the process that made it, and the name its socket is bound to. -/
structure Conn where
  pid : ℕ
  sunPath : List Char

/-- Before the system call of that name, with the descriptor. -/
inductive CliConn
  | idle
  | unlink (fd : ℤ)
  | bind (fd : ℤ)
  | connect (fd : ℤ)

inductive ServAccept
  | idle
  | stat (clifd : ℤ) (c : Conn)
  | unlink (clifd : ℤ) (c : Conn) (uid : ℕ)

/-- A return of `serv_accept` for a connection of `pid`, and what it has stored in `*uidptr`. -/
structure Return where
  pid : ℕ
  rval : ℤ
  uid : Option ℕ
  deriving DecidableEq

/-- The names in the file system, the clients by process id, the queue of the listening socket and
the server; and what `cli_conn` and `serv_accept` have returned so far. -/
structure State where
  files : List Char → Option File
  client : ℕ → CliConn
  queue : List Conn
  server : ServAccept
  connected : List (ℕ × ℤ)
  returned : List Return

/-- A process calls `cli_conn`, and `socket` returns `fd`; it goes on with its next call; `accept`
returns `clifd`; or the server goes on with its next call. -/
inductive Act
  | socket (pid : ℕ) (fd : ℤ)
  | client (pid : ℕ)
  | accept (clifd : ℤ)
  | server

/-- The calls of `cli_conn` behind `socket`, for a user `uid`. -/
def cliConn (uid pid : ℕ) (s : State) : Option State :=
  match s.client pid with
  | .idle => none
  | .unlink fd =>
      some { s with
        files := update s.files (path pid) none
        client := update s.client pid (.bind fd) }
  | .bind fd =>
      match s.files (path pid) with
      | none =>
          some { s with
            files := update s.files (path pid) (some ⟨true, uid⟩)
            client := update s.client pid (.connect fd) }
      | some _ =>
          some { s with
            client := update s.client pid .idle
            connected := s.connected ++ [(pid, -2)] }
  | .connect fd =>
      some { s with
        queue := s.queue ++ [⟨pid, path pid⟩]
        client := update s.client pid .idle
        connected := s.connected ++ [(pid, fd)] }

/-- The calls of `serv_accept` behind `accept`; `uidptr` is not null. -/
def servAccept (s : State) : Option State :=
  match s.server with
  | .idle => none
  | .stat clifd c =>
      match s.files c.sunPath with
      | none => some { s with server := .idle, returned := s.returned ++ [⟨c.pid, -2, none⟩] }
      | some f =>
          if f.isSock then some { s with server := .unlink clifd c f.uid }
          else some { s with server := .idle, returned := s.returned ++ [⟨c.pid, -3, none⟩] }
  | .unlink clifd c uid =>
      some { s with
        files := update s.files c.sunPath none
        server := .idle
        returned := s.returned ++ [⟨c.pid, clifd, some uid⟩] }

/-- A step, where process `pid` belongs to the user `uid pid`. -/
def step (uid : ℕ → ℕ) : Act → State → Option State
  | .socket pid fd, s =>
      match s.client pid with
      | .idle => if 0 ≤ fd then some { s with client := update s.client pid (.unlink fd) } else none
      | _ => none
  | .client pid, s => cliConn (uid pid) pid s
  | .accept clifd, s =>
      match s.server, s.queue with
      | .idle, c :: queue =>
          if 0 ≤ clifd then some { s with queue, server := .stat clifd c } else none
      | _, _ => none
  | .server, s => servAccept s

/-- Nobody has called anything; in the file system there is anything. -/
def start (files : List Char → Option File) : State := ⟨files, fun _ => .idle, [], .idle, [], []⟩

def handshake (uid : ℕ → ℕ) (files : List Char → Option File) : Machine State Act where
  init s := s = start files
  step := step uid

/-- Every `serv_accept` has returned a descriptor and stored the user of the client. -/
def Admits (uid : ℕ → ℕ) (s : State) : Prop :=
  ∀ r ∈ s.returned, 0 ≤ r.rval ∧ r.uid = some (uid r.pid)

/-- The server has looked up a connection of `pid` and is about to unlink its name. -/
def ServAccept.leaving (pid : ℕ) : ServAccept → Bool
  | .unlink _ c _ => c.pid = pid
  | _ => false

/-- The server is about to look up a connection of `pid`. -/
def ServAccept.looking (pid : ℕ) : ServAccept → ℕ
  | .stat _ c => if c.pid = pid then 1 else 0
  | _ => 0

/-- The connections of `pid` that are still to be looked up. -/
def State.waiting (s : State) (pid : ℕ) : ℕ :=
  s.queue.countP (·.pid = pid) + s.server.looking pid

/-- A process unlinks its name when none of its connections is still to be looked up, and binds it
when the server is not about to unlink it. -/
def InTurn : Act → State → Prop
  | .client pid, s =>
      match s.client pid with
      | .unlink _ => s.waiting pid = 0
      | .bind _ => s.server.leaving pid = false
      | _ => True
  | _, _ => True

instance : ∀ (a : Act) (s : State), Decidable (InTurn a s)
  | .client pid, s =>
      match h : s.client pid with
      | .unlink _ => decidable_of_iff (s.waiting pid = 0) (by simp [InTurn, h])
      | .bind _ => decidable_of_iff (s.server.leaving pid = false) (by simp [InTurn, h])
      | .idle | .connect _ => isTrue (by simp [InTurn, h])
  | .socket _ _, _ | .accept _, _ | .server, _ => isTrue trivial

/-- All connections have been taken from the queue and all calls have returned. -/
structure Settled (s : State) : Prop where
  queue : s.queue = []
  server : s.server = .idle
  client : ∀ pid, s.client pid = .idle

/-! ## The life of a name -/

/-- One name: the connections that are still to be looked up by it, whether its process has bound it
and not yet connected, whether there is a file, and whether the server is about to unlink it. -/
@[ext] structure Name where
  waiting : ℕ
  bound : Bool
  file : Bool
  leaving : Bool

namespace Name

/-- Every connection has the file for itself. -/
def Good (n : Name) : Prop := n.waiting + n.bound.toNat ≤ (n.file && !n.leaving).toNat

/-- What can happen to a name, and what it takes to be in turn. -/
inductive Step : Name → Name → Prop → Prop
  | still {ok : Prop} (n : Name) (h : ok) : Step n n ok
  | unlink {ok : Prop} {w : ℕ} {f l : Bool} (h : ok ↔ w = 0) :
      Step ⟨w, false, f, l⟩ ⟨w, false, false, l⟩ ok
  | bind {ok : Prop} {w : ℕ} {l : Bool} (h : ok ↔ l = false) :
      Step ⟨w, false, false, l⟩ ⟨w, true, true, l⟩ ok
  | connect {ok : Prop} {w : ℕ} {f l : Bool} (h : ok) :
      Step ⟨w, true, f, l⟩ ⟨w + 1, false, f, l⟩ ok
  | look {ok : Prop} {w : ℕ} {b : Bool} (h : ok) :
      Step ⟨w + 1, b, true, false⟩ ⟨w, b, true, true⟩ ok
  | leave {ok : Prop} {w : ℕ} {b f : Bool} (h : ok) :
      Step ⟨w, b, f, true⟩ ⟨w, b, false, false⟩ ok

/-- A step in turn keeps it so, and no other step does; and what is lost does not come back. -/
theorem Step.good_iff {n n' : Name} {ok : Prop} (h : n.Step n' ok) : n'.Good ↔ n.Good ∧ ok := by
  cases h with
  | still n h => exact (and_iff_left h).symm
  | @unlink _ w f l h =>
      rw [h]
      simp [Good]
      omega
  | @bind _ w l h =>
      rw [h]
      cases l <;> simp [Good]
  | connect h =>
      rw [and_iff_left h]
      simp [Good]
  | @look _ w b h =>
      rw [and_iff_left h]
      cases b <;> simp [Good]
  | leave h =>
      rw [and_iff_left h]
      simp [Good]

theorem Good.file {n : Name} (h : n.Good) (hw : 0 < n.waiting) : n.file = true := by
  obtain ⟨waiting, bound, file, leaving⟩ := n
  cases file with
  | true => rfl
  | false =>
      simp [Good] at h hw
      omega

end Name

/-- The process has bound its name and not yet connected. -/
def CliConn.bound : CliConn → Bool
  | .connect _ => true
  | _ => false

def State.name (s : State) (pid : ℕ) : Name where
  waiting := s.waiting pid
  bound := (s.client pid).bound
  file := (s.files (path pid)).isSome
  leaving := s.server.leaving pid

/-! ## What a step does to the names -/

/-- What the names, the clients and the server have to do with each other. -/
structure Sound (uid : ℕ → ℕ) (s : State) : Prop where
  queue : ∀ c ∈ s.queue, c.sunPath = path c.pid
  owned : ∀ pid f, 0 < s.waiting pid ∨ (s.client pid).bound →
    s.files (path pid) = some f → f = ⟨true, uid pid⟩
  free : ∀ pid fd, s.client pid = .bind fd → s.files (path pid) = none
  server : match s.server with
    | .idle => True
    | .stat clifd c => 0 ≤ clifd ∧ c.sunPath = path c.pid
    | .unlink clifd c u => 0 ≤ clifd ∧ c.sunPath = path c.pid ∧ u = uid c.pid

/-- A step that finds what it looks for: one name is affected at most, and what is returned is
right. -/
def Proceeds (uid : ℕ → ℕ) (a : Act) (s s' : State) : Prop :=
  (∃ pid, (s.name pid).Step (s'.name pid) (InTurn a s) ∧ ∀ q, q ≠ pid → s'.name q = s.name q) ∧
    (Admits uid s' ↔ Admits uid s)

/-- The server does not find the file. -/
def Misses (s s' : State) : Prop :=
  ∃ clifd c, s.server = .stat clifd c ∧ s.files (path c.pid) = none ∧
    ⟨c.pid, -2, none⟩ ∈ s'.returned

section

variable {uid : ℕ → ℕ} {s s' : State} {a : Act} {pid q : ℕ} {k : CliConn} {f : Option File}

theorem name_eq {w : ℕ} {l : Bool} (client : s.client pid = k) (files : s.files (path pid) = f)
    (waiting : s.waiting pid = w) (leaving : s.server.leaving pid = l) :
    s.name pid = ⟨w, k.bound, f.isSome, l⟩ := by
  rw [State.name, client, files, waiting, leaving]

/-- What a process does to its own name is no business of the others. -/
theorem name_of_ne (ne : q ≠ pid) (client : s'.client = update s.client pid k)
    (files : s'.files = update s.files (path pid) f) (waiting : s'.waiting q = s.waiting q)
    (leaving : s'.server.leaving q = s.server.leaving q) : s'.name q = s.name q := by
  simp [State.name, client, files, waiting, leaving, ne, path_injective.ne ne]

theorem waiting_append (queue : s'.queue = s.queue ++ [⟨pid, path pid⟩])
    (server : s'.server = s.server) (q : ℕ) :
    s'.waiting q = s.waiting q + if pid = q then 1 else 0 := by
  rw [State.waiting, State.waiting, queue, server, List.countP_append, List.countP_singleton]
  simp only [decide_eq_true_eq]
  omega

/-- A step of client `pid`. -/
theorem Sound.client (h : Sound uid s) (client : s'.client = update s.client pid k)
    (files : s'.files = update s.files (path pid) f)
    (queue : ∀ c ∈ s'.queue, c.sunPath = path c.pid) (server : s'.server = s.server)
    (waiting : ∀ q, q ≠ pid → s'.waiting q = s.waiting q)
    (own : ∀ g, 0 < s'.waiting pid ∨ k.bound → f = some g → g = ⟨true, uid pid⟩)
    (free : ∀ fd, k = .bind fd → f = none) : Sound uid s' := by
  refine ⟨queue, fun q g some hg => ?_, fun q fd hq => ?_, ?_⟩
  · rw [files] at hg
    rw [client] at some
    by_cases e : q = pid
    · subst e
      rw [update_self] at hg some
      exact own g some hg
    · rw [waiting q e, update_of_ne e] at some
      rw [update_of_ne (path_injective.ne e)] at hg
      exact h.owned q g some hg
  · rw [files]
    rw [client] at hq
    by_cases e : q = pid
    · subst e
      rw [update_self] at hq ⊢
      exact free fd hq
    · rw [update_of_ne e] at hq
      rw [update_of_ne (path_injective.ne e)]
      exact h.free q fd hq
  · rw [server]
    exact h.server

theorem Sound.cliConn (h : Sound uid s) (hs : cliConn (uid pid) pid s = some s') :
    Sound uid s' ∧ Proceeds uid (.client pid) s s' := by
  unfold UnixConn.cliConn at hs
  cases hk : s.client pid with
  | idle => simp [hk] at hs
  | unlink fd =>
      simp only [hk, Option.some.injEq] at hs
      subst hs
      refine ⟨h.client rfl rfl h.queue rfl (fun _ _ => rfl) (by simp) (by simp),
        ⟨pid, ?_, fun q ne => name_of_ne ne rfl rfl rfl rfl⟩, Iff.rfl⟩
      rw [name_eq hk rfl rfl rfl, name_eq (update_self ..) (update_self ..) rfl rfl]
      exact .unlink (by simp [InTurn, hk])
  | bind fd =>
      have free := h.free pid fd hk
      simp only [hk, free, Option.some.injEq] at hs
      subst hs
      refine ⟨h.client rfl rfl h.queue rfl (fun _ _ => rfl) (by simp) (by simp),
        ⟨pid, ?_, fun q ne => name_of_ne ne rfl rfl rfl rfl⟩, Iff.rfl⟩
      rw [name_eq hk free rfl rfl, name_eq (update_self ..) (update_self ..) rfl rfl]
      exact .bind (by simp [InTurn, hk])
  | connect fd =>
      simp only [hk, Option.some.injEq] at hs
      have more : ∀ q, s'.waiting q = s.waiting q + if pid = q then 1 else 0 :=
        waiting_append (by rw [← hs]) (by rw [← hs])
      have others : ∀ q, q ≠ pid → s'.waiting q = s.waiting q := by
        intro q ne
        rw [more, if_neg ne.symm, Nat.add_zero]
      have bound : (s.client pid).bound := by rw [hk]; rfl
      have queue : ∀ c ∈ s'.queue, c.sunPath = path c.pid := by
        intro c hc
        rw [← hs] at hc
        rcases List.mem_append.1 hc with hc | hc
        · exact h.queue c hc
        · rw [List.mem_singleton.1 hc]
      have same : s'.files = update s.files (path pid) (s.files (path pid)) := by
        rw [← hs, update_eq_self]
      have client : s'.client = update s.client pid .idle := by rw [← hs]
      have server : s'.server = s.server := by rw [← hs]
      refine ⟨h.client client same queue server others ?_ (by simp), ⟨pid, ?_, fun q ne => ?_⟩, ?_⟩
      · exact fun g _ hg => h.owned pid g (Or.inr bound) hg
      · have after : s'.client pid = .idle := by rw [client, update_self]
        have file : s'.files (path pid) = s.files (path pid) := by rw [same, update_self]
        rw [name_eq hk rfl rfl rfl, name_eq after file (more pid) (by rw [server]), if_pos rfl]
        exact .connect (by simp [InTurn, hk])
      · exact name_of_ne ne client same (others q ne) (by rw [server])
      · rw [← hs]
        exact Iff.rfl

theorem Sound.socket (h : Sound uid s) {fd : ℤ} (hk : s.client pid = .idle) :
    Sound uid { s with client := update s.client pid (.unlink fd) } ∧
      Proceeds uid (.socket pid fd) s { s with client := update s.client pid (.unlink fd) } := by
  have same : s.files = update s.files (path pid) (s.files (path pid)) := by rw [update_eq_self]
  refine ⟨h.client rfl same h.queue rfl (fun _ _ => rfl) (fun g some hg => ?_) (by simp),
    ⟨pid, ?_, fun q ne => name_of_ne ne rfl same rfl rfl⟩, Iff.rfl⟩
  · exact h.owned pid g (Or.inl (some.resolve_right (by simp [CliConn.bound]))) hg
  · rw [name_eq hk rfl rfl rfl, name_eq (update_self ..) rfl rfl rfl]
    exact .still _ trivial

/-- A step of the server that leaves the clients alone. -/
theorem Sound.serverStep (h : Sound uid s) (client : s'.client = s.client)
    (files : ∀ q, s'.files (path q) = s.files (path q) ∨ s'.files (path q) = none)
    (queue : s'.queue ⊆ s.queue) (waiting : ∀ q, s'.waiting q ≤ s.waiting q)
    (server : match s'.server with
      | .idle => True
      | .stat clifd c => 0 ≤ clifd ∧ c.sunPath = path c.pid
      | .unlink clifd c u => 0 ≤ clifd ∧ c.sunPath = path c.pid ∧ u = uid c.pid) :
    Sound uid s' := by
  refine ⟨fun c hc => h.queue c (queue hc), fun q g some hg => ?_, fun q fd hq => ?_, server⟩
  · rcases files q with same | none
    · rw [client] at some
      exact h.owned q g (some.imp_left fun pos => Nat.lt_of_lt_of_le pos (waiting q)) (same ▸ hg)
    · rw [none] at hg
      cases hg
  · rcases files q with same | none
    · rw [same]
      exact h.free q fd (client ▸ hq)
    · exact none

theorem Sound.accept (h : Sound uid s) {clifd : ℤ} {c : Conn} {queue : List Conn}
    (hk : s.server = .idle) (hq : s.queue = c :: queue) (pos : 0 ≤ clifd) :
    Sound uid { s with queue, server := .stat clifd c } ∧
      Proceeds uid (.accept clifd) s { s with queue, server := .stat clifd c } := by
  have waiting : ∀ q, { s with queue, server := .stat clifd c }.waiting q = s.waiting q := by
    intro q
    simp [State.waiting, hk, hq, ServAccept.looking, List.countP_cons]
  have name : ∀ q, { s with queue, server := .stat clifd c }.name q = s.name q := by
    intro q
    rw [State.name, waiting, State.name, hk]
    rfl
  refine ⟨h.serverStep rfl (fun _ => Or.inl rfl) ?_ (fun q => Nat.le_of_eq (waiting q)) ?_,
    ⟨c.pid, ?_, fun q _ => name q⟩, Iff.rfl⟩
  · rw [hq]
    exact List.subset_cons_self c queue
  · exact ⟨pos, h.queue c (hq ▸ List.mem_cons_self)⟩
  · rw [name]
    exact .still _ trivial

/-- The lookup finds the file of the client, or none. -/
theorem Sound.stat (h : Sound uid s) {clifd : ℤ} {c : Conn} (hk : s.server = .stat clifd c)
    (hs : servAccept s = some s') : Sound uid s' ∧ (Proceeds uid .server s s' ∨ Misses s s') := by
  have server := h.server
  rw [hk] at server
  obtain ⟨pos, sunPath⟩ := server
  have looking : ∀ q, s.waiting q = s.queue.countP (·.pid = q) + if c.pid = q then 1 else 0 := by
    intro q
    rw [State.waiting, hk]
    rfl
  unfold servAccept at hs
  cases hf : s.files (path c.pid) with
  | none =>
      simp only [hk, sunPath, hf, Option.some.injEq] at hs
      subst hs
      refine ⟨h.serverStep rfl (fun _ => Or.inl rfl) (List.Subset.refl _) (fun q => ?_) trivial, ?_⟩
      · rw [looking q]
        exact Nat.le_add_right _ _
      · exact Or.inr ⟨clifd, c, hk, hf, List.mem_append_right _ (List.mem_singleton_self _)⟩
  | some f =>
      have one := looking c.pid
      rw [if_pos rfl] at one
      obtain rfl : f = ⟨true, uid c.pid⟩ := h.owned c.pid f (Or.inl (by omega)) hf
      simp only [hk, sunPath, hf, if_true, Option.some.injEq] at hs
      subst hs
      refine ⟨h.serverStep rfl (fun _ => Or.inl rfl) (List.Subset.refl _) (fun q => ?_)
        ⟨pos, sunPath, rfl⟩, Or.inl ⟨⟨c.pid, ?_, fun q ne => ?_⟩, Iff.rfl⟩⟩
      · rw [looking q]
        exact Nat.le_add_right _ _
      · have before : s.server.leaving c.pid = false := by rw [hk]; rfl
        have after : (ServAccept.unlink clifd c (uid c.pid)).leaving c.pid = true :=
          decide_eq_true rfl
        rw [name_eq rfl hf one before,
          name_eq (s := { s with server := .unlink clifd c (uid c.pid) }) rfl hf rfl after]
        exact .look trivial
      · rw [State.name, State.name, looking q, if_neg ne.symm, hk]
        simp [State.waiting, ServAccept.looking, ServAccept.leaving, ne.symm]

theorem Sound.leave (h : Sound uid s) {clifd : ℤ} {c : Conn} {u : ℕ}
    (hk : s.server = .unlink clifd c u) (hs : servAccept s = some s') :
    Sound uid s' ∧ Proceeds uid .server s s' := by
  have server := h.server
  rw [hk] at server
  obtain ⟨pos, sunPath, rfl⟩ := server
  have waiting : ∀ q, s.waiting q = s.queue.countP (·.pid = q) := by
    intro q
    rw [State.waiting, hk]
    rfl
  simp only [servAccept, hk, sunPath, Option.some.injEq] at hs
  subst hs
  refine ⟨h.serverStep rfl (fun q => ?_) (List.Subset.refl _) (fun q => ?_) trivial,
    ⟨c.pid, ?_, fun q ne => ?_⟩, ?_⟩
  · by_cases e : q = c.pid
    · rw [e]
      exact Or.inr (update_self ..)
    · exact Or.inl (update_of_ne (path_injective.ne e) _ _)
  · rw [waiting q]
    exact Nat.le_refl _
  · have before : s.server.leaving c.pid = true := by rw [hk]; exact decide_eq_true rfl
    rw [name_eq rfl rfl (waiting c.pid) before, name_eq rfl (update_self ..) rfl rfl]
    exact .leave trivial
  · rw [State.name, State.name, waiting q, hk]
    simp [State.waiting, ServAccept.looking, ServAccept.leaving, ne.symm, path_injective.ne ne]
  · simp [Admits, or_imp, forall_and, pos]

/-- All that a step can do. -/
theorem Sound.step (h : Sound uid s) (hs : step uid a s = some s') :
    Sound uid s' ∧ (Proceeds uid a s s' ∨ Misses s s') := by
  cases a with
  | socket pid fd =>
      cases hk : s.client pid with
      | idle =>
          simp only [UnixConn.step, hk] at hs
          obtain ⟨-, hs⟩ := Option.ite_none_right_eq_some.1 hs
          obtain rfl := Option.some.inj hs
          exact (h.socket hk).imp_right Or.inl
      | _ => simp [UnixConn.step, hk] at hs
  | client pid => exact (h.cliConn hs).imp_right Or.inl
  | accept clifd =>
      cases hk : s.server with
      | idle =>
          cases hq : s.queue with
          | nil => simp [UnixConn.step, hk, hq] at hs
          | cons c queue =>
              simp only [UnixConn.step, hk, hq] at hs
              obtain ⟨pos, hs⟩ := Option.ite_none_right_eq_some.1 hs
              obtain rfl := Option.some.inj hs
              exact (h.accept hk hq pos).imp_right Or.inl
      | _ => simp [UnixConn.step, hk] at hs
  | server =>
      have hs : servAccept s = some s' := hs
      cases hk : s.server with
      | idle => simp [servAccept, hk] at hs
      | stat clifd c => exact h.stat hk hs
      | unlink clifd c u => exact (h.leave hk hs).imp_right Or.inl

/-- Every name is good. -/
def Supplied (s : State) : Prop := ∀ pid, (s.name pid).Good

theorem Proceeds.supplied_iff (h : Proceeds uid a s s') :
    Supplied s' ↔ Supplied s ∧ InTurn a s := by
  obtain ⟨⟨pid, step, others⟩, -⟩ := h
  have here := step.good_iff
  constructor
  · intro good
    refine ⟨fun q => ?_, (here.1 (good pid)).2⟩
    by_cases e : q = pid
    · rw [e]
      exact (here.1 (good pid)).1
    · exact others q e ▸ good q
  · rintro ⟨good, turn⟩ q
    by_cases e : q = pid
    · rw [e]
      exact here.2 ⟨good pid, turn⟩
    · exact others q e ▸ good q

/-- With good names every lookup succeeds. -/
theorem not_misses_of_supplied (good : Supplied s) : ¬ Misses s s' := by
  rintro ⟨clifd, c, hk, none, -⟩
  have some := (good c.pid).file (by simp [State.name, State.waiting, hk, ServAccept.looking])
  simp [State.name, none] at some

theorem not_admits_of_misses (h : Misses s s') : ¬ Admits uid s' := by
  obtain ⟨clifd, c, -, -, mem⟩ := h
  intro admits
  have bad : (0 : ℤ) ≤ -2 := (admits _ mem).1
  exact absurd bad (by decide)

end

/-! ## Runs -/

section

variable {uid : ℕ → ℕ} {files : List Char → Option File} {s s' : State} {a : Act}

theorem sound_start (files : List Char → Option File) : Sound uid (start files) where
  queue c hc := absurd hc List.not_mem_nil
  owned pid f some := by
    simp [start, State.waiting, ServAccept.looking, CliConn.bound] at some
  free pid fd hk := by cases hk
  server := trivial

theorem supplied_of_settled (h : Settled s) : Supplied s := by
  intro pid
  simp [Name.Good, State.name, State.waiting, h.queue, h.server, h.client, ServAccept.looking,
    CliConn.bound]

theorem sound_of_reachable (h : (handshake uid files).Reachable s) : Sound uid s := by
  have key : (handshake uid files).Inductive (Sound uid) := by
    refine ⟨fun s hs => ?_, fun a s s' _ h hs => (h.step hs).1⟩
    obtain rfl : s = start files := hs
    exact sound_start files
  exact key.reachable h

/-- From names that are good, steps in turn keep everything. -/
theorem keeps (h : Sound uid s ∧ Supplied s ∧ Admits uid s) (turn : InTurn a s)
    (hs : step uid a s = some s') : Sound uid s' ∧ Supplied s' ∧ Admits uid s' := by
  obtain ⟨sound, good, admits⟩ := h
  obtain ⟨sound', proceeds | misses⟩ := sound.step hs
  · exact ⟨sound', proceeds.supplied_iff.2 ⟨good, turn⟩, proceeds.2.2 admits⟩
  · exact absurd misses (not_misses_of_supplied good)

/-- What a step out of turn brings about, and no step undoes. -/
theorem spoils (h : Sound uid s) (bad : ¬ Supplied s ∨ ¬ Admits uid s ∨ ¬ InTurn a s)
    (hs : step uid a s = some s') : ¬ Supplied s' ∨ ¬ Admits uid s' := by
  obtain ⟨-, proceeds | misses⟩ := h.step hs
  · rw [proceeds.supplied_iff, proceeds.2]
    tauto
  · exact Or.inr (not_admits_of_misses misses)

/-- In every run whose steps are all in turn, every `serv_accept` admits its client; and in a run at
whose end nothing is left to be done, this is so only if all steps are in turn. -/
theorem admits_of_inTurn {as : List Act}
    (h : (handshake uid files).run as (start files) = some s) :
    ((handshake uid files).Meets InTurn as (start files) →
      (handshake uid files).Along (Admits uid) as (start files)) ∧
    (Settled s →
      ((handshake uid files).Along (Admits uid) as (start files) ↔
        (handshake uid files).Meets InTurn as (start files))) := by
  have init : (handshake uid files).Reachable (start files) := .init rfl
  have nothing : Supplied (start files) := supplied_of_settled ⟨rfl, rfl, fun _ => rfl⟩
  have enough : (handshake uid files).Meets InTurn as (start files) →
      (handshake uid files).Along (Admits uid) as (start files) := by
    refine Machine.along_of_meets (I := fun s => Sound uid s ∧ Supplied s ∧ Admits uid s)
      (fun s h => h.2.2) (fun a s s' h turn hs => keeps h turn hs) ?_
    exact ⟨sound_start files, nothing, fun r hr => absurd hr List.not_mem_nil⟩
  refine ⟨enough, fun settled => ⟨fun along => ?_, enough⟩⟩
  by_contra late
  have spoilt : ¬ Supplied s ∨ ¬ Admits uid s := by
    refine Machine.Reachable.of_not_meets (D := fun s => ¬ Supplied s ∨ ¬ Admits uid s)
      (fun a s s' hr turn hs => ?_) (fun a s s' hr bad hs => ?_) init h late
    · exact spoils (sound_of_reachable hr) (Or.inr (Or.inr turn)) hs
    · exact spoils (sound_of_reachable hr) (bad.imp_right Or.inl) hs
  rcases spoilt with bad | bad
  · exact bad (supplied_of_settled settled)
  · exact bad (along.last h)

end

/-- One process calls `cli_conn` twice, and then the server calls `serv_accept` twice: the second
connection is refused. -/
def twice : List Act :=
  [.socket 1000 3, .client 1000, .client 1000, .client 1000,
    .socket 1000 4, .client 1000, .client 1000, .client 1000,
    .accept 5, .server, .server, .accept 6, .server]

theorem not_admits_twice : ∃ s,
    (handshake id fun _ => none).run twice (start fun _ => none) = some s ∧
    s.connected = [(1000, 3), (1000, 4)] ∧
    s.returned = [⟨1000, 5, some 1000⟩, ⟨1000, -2, none⟩] ∧ ¬ Admits id s := by
  refine ⟨_, rfl, rfl, rfl, fun admits => ?_⟩
  have bad : (0 : ℤ) ≤ -2 := (admits ⟨1000, -2, none⟩ (by decide)).1
  exact absurd bad (by decide)

/-- The same process waits until the server is done with its first connection; another one does not
have to wait. -/
def inTurn : List Act :=
  [.socket 1000 3, .client 1000, .client 1000, .client 1000,
    .socket 1001 3, .client 1001, .client 1001, .client 1001, .accept 5, .server, .server,
    .socket 1000 4, .client 1000, .client 1000, .client 1000,
    .accept 6, .server, .server, .accept 7, .server, .server]

theorem admits_of_inTurn_inTurn : ∃ s,
    (handshake id fun _ => none).run inTurn (start fun _ => none) = some s ∧
    s.returned = [⟨1000, 5, some 1000⟩, ⟨1001, 6, some 1001⟩, ⟨1000, 7, some 1000⟩] ∧
    (handshake id fun _ => none).Along (Admits id) inTurn (start fun _ => none) := by
  have meets : (handshake id fun _ => none).Meets InTurn inTurn (start fun _ => none) := by
    decide +kernel
  exact ⟨_, rfl, rfl, (admits_of_inTurn rfl).1 meets⟩

end LinuxNote.UnixConn
