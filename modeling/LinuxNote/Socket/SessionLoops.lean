import LinuxNote.Conc.Loop
import LinuxNote.Socket.UnixLib
import LinuxNote.Tcp.Server
import LinuxNote.Web.Formats
import LinuxNote.Web.Root
import Mathlib.Data.List.GetD

/-!
# The loops that serve a connection

The children of `main2` in `TCP/server.c` and of `main` in `UNIXDomainSocketIPC/server.c`, and
`server` of `Webserver.c`, a `read` at a time.  They end on `n == 0` and on nothing else: a `read`
that fails gives −1, with which they go on (`exits_iff`).  A file that has no end keeps `server` in
its loop over the file.  What `write` returns, none of them looks at.
-/

namespace LinuxNote.SessionLoops

open Conc Wrap Text

/-- EBADF -/
def EBADF : Errno := .other 9

/-- What the `read`s on a connection return: some results, and from then on the end of file or one
and the same error. -/
structure Session (size : ℕ) where
  results : List ReadResult
  last : ReadResult
  ended : last = .bytes [] ∨ ∃ errno, last = .error errno
  bounded : ∀ bs, .bytes bs ∈ results → bs.length ≤ size

variable {size : ℕ}

def Session.read (s : Session size) (k : ℕ) : ReadResult := s.results.getD k s.last

/-- `read` on a descriptor that may be the failure of another call. -/
def Session.of (connfd : ℤ) (s : Session size) : Session size :=
  if connfd < 0 then ⟨[], .error EBADF, Or.inr ⟨EBADF, rfl⟩, by simp⟩ else s

/-- The connection ends, or a `read` returns 0 before. -/
def Session.Closes (s : Session size) : Prop := s.last = .bytes [] ∨ .bytes [] ∈ s.results

instance (s : Session size) : Decidable s.Closes := inferInstanceAs (Decidable (_ ∨ _))

/-- The buffer of an echo server, and the third arguments of its `write`s. -/
structure Child where
  buf : List UInt8
  counts : List ℕ

/-- `for (i = 0; i < n; i++) buf[i] = toupper(buf[i]);` and `write(connfd, buf, n);` -/
def Child.answer (n : ℤ) (c : Child) : Child where
  buf := (c.buf.take n.toNat).map Tcp.toupper ++ c.buf.drop n.toNat
  counts := c.counts ++ [Tcp.sizeT n]

/-- A round of the loop of an echo server; `Read` makes a `read` again that was interrupted. -/
def echo (again : Bool) (_ : ℕ) (r : ReadResult) (c : Child) : Round Child :=
  match r with
  | .bytes bs =>
      if bs.length = 0 then .left
      else .again (Child.answer bs.length { c with buf := overlay bs c.buf })
  | .error errno => if again ∧ errno = .EINTR then .again c else .again (c.answer (-1))

/-- The child of `main2` in `TCP/server.c`. -/
def main2 : ℕ → ReadResult → Child → Round Child := echo true

/-- The child of `main` in `UNIXDomainSocketIPC/server.c`. -/
def main : ℕ → ReadResult → Child → Round Child := echo false

/-- What `server` finds on the disk: the files, and the names that it never gets through with, as
`open` or a `read` blocks, or as no `read` on the file returns 0 or fails. -/
structure Storage extends Web.Disk where
  endless : List UInt8 → Bool

/-- A round of `server` in `Webserver.c`; stuck behind an overflow, and in the loop over a file that
does not end. -/
def server (disk : ℕ → Storage) (k : ℕ) (r : ReadResult) (l : Web.Locals) : Round Web.Locals :=
  match r with
  | .bytes bs =>
      if bs.length = 0 then .left
      else if (l.openedFor bs).any (disk k).endless then .stuck
      else
        match l.serve (disk k).toDisk bs with
        | some (_, l') => .again l'
        | none => .stuck
  | .error _ => .again l

/-- What `server` can answer without an overflow. -/
def Answerable (d : Web.Disk) : ReadResult → Prop
  | .bytes bs => ¬ Web.IsGet bs ∨
      (Web.url bs).length ≤ 191 ∧ (Web.version bs).length ≤ Web.room (d.found bs)
  | .error _ => True

/-- A request is for a file that ends, or for none. -/
def Storage.Ends (d : Storage) : ReadResult → Prop
  | .bytes bs => Web.IsGet bs → d.endless (Web.fileName bs) = false
  | .error _ => True

/-! ## When a loop ends -/

theorem mem_or_eq_of_read (s : Session size) (k : ℕ) :
    s.read k ∈ s.results ∨ s.read k = s.last := by
  unfold Session.read
  rw [List.getD_eq_getElem?_getD]
  rcases h : s.results[k]? with _ | r
  · exact Or.inr rfl
  · exact Or.inl (List.mem_of_getElem? h)

theorem closes_iff (s : Session size) : s.Closes ↔ ∃ k, s.read k = .bytes [] := by
  constructor
  · rintro (last | mem)
    · refine ⟨s.results.length, ?_⟩
      rw [Session.read, List.getD_eq_default _ _ (Nat.le_refl _), last]
    · obtain ⟨k, lt, eq⟩ := List.getElem_of_mem mem
      exact ⟨k, by rw [Session.read, List.getD_eq_getElem _ _ lt, eq]⟩
  · rintro ⟨k, hk⟩
    rcases mem_or_eq_of_read s k with mem | last
    · exact Or.inr (hk ▸ mem)
    · exact Or.inl (last.symm.trans hk)

theorem echo_exits_iff (again : Bool) (s : Session size) (c : Child) :
    Exits (echo again) s.read c ↔ s.Closes := by
  have ends : Ends (echo again) s.read (fun _ => True) (· = .bytes []) fun _ _ => True := by
    refine ⟨fun k c _ last => ?_, fun k c _ more _ => ?_, fun k c _ _ bad => absurd trivial bad⟩
    · rw [last]
      rfl
    · rcases hr : s.read k with bs | errno
      · have some : bs.length ≠ 0 := fun h => more (by rw [hr, List.length_eq_zero_iff.1 h])
        exact ⟨_, if_neg some, trivial⟩
      · unfold echo
        dsimp only
        split <;> exact ⟨_, rfl, trivial⟩
  rw [ends.exits_iff_exists trivial, closes_iff]
  exact exists_congr fun k => and_iff_left fun _ _ _ => trivial

/-- Only a request that is answered changes the arrays, and it keeps their sizes. -/
theorem serve_of_answerable {d : Web.Disk} {l : Web.Locals} (sized : l.Sized) {bs : List UInt8}
    (some : bs ≠ []) (small : bs.length ≤ Web.MAXLINE) :
    (Answerable d (.bytes bs) → ∃ r l', l.serve d bs = Option.some (r, l') ∧ l'.Sized) ∧
      (¬ Answerable d (.bytes bs) → l.serve d bs = none) := by
  have fits := Web.serve_iff sized d ⟨bs, some, small⟩
  rw [Web.fits_iff] at fits
  constructor
  · intro ok
    obtain ⟨⟨r, l'⟩, serve⟩ := Option.ne_none_iff_exists'.1 (fits.2 ok)
    exact ⟨r, l', serve, sized.serve small serve⟩
  · intro bad
    exact not_not.1 fun h => bad (fits.1 h)

theorem length_le_of_read (s : Session size) (k : ℕ) (bs : List UInt8)
    (hk : s.read k = .bytes bs) : bs.length ≤ size := by
  rcases mem_or_eq_of_read s k with mem | last
  · exact s.bounded bs (hk ▸ mem)
  · rcases s.ended with eof | ⟨errno, error⟩
    · obtain rfl := ReadResult.bytes.inj (hk.symm.trans (last.trans eof))
      exact Nat.zero_le _
    · cases hk.symm.trans (last.trans error)

section

variable {disk : ℕ → Storage} {k : ℕ} {r : ReadResult} {l : Web.Locals}

theorem server_bytes {bs : List UInt8} (some : bs ≠ [])
    (ends : ¬ (l.openedFor bs).any (disk k).endless) :
    server disk k (.bytes bs) l =
      match l.serve (disk k).toDisk bs with
      | .some (_, l') => .again l'
      | none => .stuck := by
  unfold server
  dsimp only
  rw [if_neg fun h => some (List.length_eq_zero_iff.1 h), if_neg ends]

/-- A request whose path fits is for an endless file, or for none that the server opens. -/
theorem any_endless_iff (d : Storage) (sized : l.Sized) {bs : List UInt8} (some : bs ≠ [])
    (small : bs.length ≤ Web.MAXLINE) : (l.openedFor bs).any d.endless ↔
      Web.IsGet bs ∧ (Web.url bs).length ≤ 191 ∧ d.endless (Web.fileName bs) := by
  by_cases get : Web.IsGet bs
  · have opened := Web.opened_of_length sized (r := ⟨bs, some, small⟩) get
    rw [opened]
    by_cases fits : (Web.url bs).length ≤ 191
    · simp [fits, get]
    · simp [fits]
  · simp [Web.Locals.openedFor, get]

theorem server_again (sized : l.Sized) (small : ∀ bs, r = .bytes bs → bs.length ≤ Web.MAXLINE)
    (more : r ≠ .bytes []) (ok : Answerable (disk k).toDisk r ∧ (disk k).Ends r) :
    ∃ l', server disk k r l = .again l' ∧ l'.Sized := by
  cases r with
  | bytes bs =>
      have some : bs ≠ [] := fun h => more (congrArg _ h)
      obtain ⟨r, l', serve, sized'⟩ := (serve_of_answerable sized some (small bs rfl)).1 ok.1
      have ends : ¬ (l.openedFor bs).any (disk k).endless := by
        rw [any_endless_iff _ sized some (small bs rfl)]
        rintro ⟨get, -, endless⟩
        rw [ok.2 get] at endless
        cases endless
      exact ⟨l', by rw [server_bytes some ends, serve], sized'⟩
  | error errno => exact ⟨l, rfl, sized⟩

theorem server_stuck (sized : l.Sized) (small : ∀ bs, r = .bytes bs → bs.length ≤ Web.MAXLINE)
    (more : r ≠ .bytes []) (bad : ¬ (Answerable (disk k).toDisk r ∧ (disk k).Ends r)) :
    server disk k r l = .stuck := by
  cases r with
  | bytes bs =>
      have some : bs ≠ [] := fun h => more (congrArg _ h)
      by_cases ends : (l.openedFor bs).any (disk k).endless
      · unfold server
        dsimp only
        rw [if_neg fun h => some (List.length_eq_zero_iff.1 h), if_pos ends]
      · have overflow : ¬ Answerable (disk k).toDisk (.bytes bs) := by
          intro ok
          refine bad ⟨ok, fun get => ?_⟩
          rw [any_endless_iff _ sized some (small bs rfl)] at ends
          have fits := (ok.resolve_left (not_not_intro get)).1
          exact Bool.eq_false_iff.2 fun endless => ends ⟨get, fits, endless⟩
        rw [server_bytes some ends, (serve_of_answerable sized some (small bs rfl)).2 overflow]
  | error errno => exact absurd ⟨trivial, trivial⟩ bad

end

theorem server_exits_iff (disk : ℕ → Storage) (s : Session Web.MAXLINE) (l : Web.Locals)
    (sized : l.Sized) : Exits (server disk) s.read l ↔
      ∃ k, s.read k = .bytes [] ∧ ∀ j < k, s.read j ≠ .bytes [] →
        Answerable (disk j).toDisk (s.read j) ∧ (disk j).Ends (s.read j) := by
  have ends : Ends (server disk) s.read Web.Locals.Sized (· = .bytes [])
      fun k r => Answerable (disk k).toDisk r ∧ (disk k).Ends r := by
    refine ⟨fun k l _ last => ?_, fun k l sized => ?_, fun k l sized => ?_⟩
    · rw [last]
      rfl
    · exact server_again sized (length_le_of_read s k)
    · exact server_stuck sized (length_le_of_read s k)
  exact ends.exits_iff_exists sized

/-- For every session, whatever the arrays hold and whatever is on the disk: the loops end exactly
when a `read` returns 0, and `server` has answered the requests before, for files that end. -/
theorem exits_iff (s : Session Tcp.MAXLINE) (c : Child) (t : Session Web.MAXLINE)
    (disk : ℕ → Storage) (l : Web.Locals) (sized : l.Sized) :
    (Exits main2 s.read c ↔ s.Closes) ∧ (Exits main s.read c ↔ s.Closes) ∧
      (Exits (server disk) t.read l ↔ ∃ k, t.read k = .bytes [] ∧ ∀ j < k, t.read j ≠ .bytes [] →
        Answerable (disk j).toDisk (t.read j) ∧ (disk j).Ends (t.read j)) :=
  ⟨echo_exits_iff true s c, echo_exits_iff false s c, server_exits_iff disk t l sized⟩

/-- "hi", and the end of file. -/
def hello : Session Tcp.MAXLINE := ⟨[.bytes (bytes "hi")], .bytes [], Or.inl rfl, by simp; decide⟩

/-- "GET / HTTP/1.1\r\n\r\n", an error, and the end of file. -/
def request : Session Web.MAXLINE :=
  ⟨[.bytes Web.getRoot.bytes, .error .EINTR], .bytes [], Or.inl rfl, by simp; decide⟩

/-- The buffer of a new child. -/
def child : Child := ⟨List.replicate Tcp.MAXLINE 0, []⟩

/-- An empty disk, but for a device that can be read for ever. -/
def device (_ : ℕ) : Storage where
  toDisk := Web.Disk.of fun _ => none
  endless name := name = bytes "/var/tmp/../../dev/zero"

theorem exits_iff_hello : Exits main2 hello.read child ∧ Exits main hello.read child ∧
    Exits (server device) request.read (Web.fresh 0) := by
  obtain ⟨tcp, unix, web⟩ := exits_iff hello child request device _ (Web.sized_fresh 0)
  refine ⟨tcp.2 (by decide), unix.2 (by decide), web.2 ⟨2, rfl, fun j lt _ => ?_⟩⟩
  rcases j with _ | _ | j
  · exact ⟨Or.inr (by decide +kernel), fun _ => by decide +kernel⟩
  · exact ⟨trivial, trivial⟩
  · omega

/-- A `serv_accept` that a signal has interrupted. -/
def interrupted : UnixLib.AcceptAnswers := ⟨.error .EINTR, .ok (), .ok (), .ok ()⟩

/-- Every `read` fails with EIO. -/
def broken (size : ℕ) : Session size := ⟨[], .error (.other 5), Or.inr ⟨_, rfl⟩, by simp⟩

/-- The child has no connection and does not end; and no loop ends where the connection breaks. -/
theorem not_exits_broken :
    (∃ s, UnixLib.servAccept interrupted UnixLib.shell = some (-1, s) ∧
      ¬ Exits main (hello.of (-1)).read child) ∧
    ¬ Exits main2 (broken Tcp.MAXLINE).read child ∧
      ¬ Exits (server device) (broken Web.MAXLINE).read (Web.fresh 0) := by
  refine ⟨⟨_, rfl, fun h => ?_⟩, fun h => ?_, fun h => ?_⟩
  · exact absurd ((echo_exits_iff false _ _).1 h) (by decide)
  · exact absurd ((echo_exits_iff true _ _).1 h) (by decide)
  · obtain ⟨k, eof, -⟩ := (server_exits_iff device _ _ (Web.sized_fresh 0)).1 h
    exact absurd ((closes_iff _).2 ⟨k, eof⟩) (by decide)

end LinuxNote.SessionLoops
