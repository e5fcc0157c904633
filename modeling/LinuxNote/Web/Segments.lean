import LinuxNote.Web.Client
import Mathlib.Data.List.Forall2

/-!
# The Web server and the cuts of its input

`server` takes the bytes of every `read` for a request of its own.  What the requests of a
connection are cut into therefore decides what is answered.

`answered_of_clean`: two runs answer a list of requests alike when each of their reads is part of
one request, the first part has the words of the request, and the other parts show in no reply.
-/

namespace LinuxNote.Web

open Text

/-- The rounds of the loop of `server`, a read each: the replies and the arrays after them. -/
def Locals.serveAll (d : Disk) : List Request → Locals → Option (List Reply × Locals)
  | [], l => some ([], l)
  | r :: rs, l => (l.serve d r.bytes).bind fun x =>
      (x.2.serveAll d rs).map fun y => (x.1.toList ++ y.1, y.2)

/-- A reply with the text for the request. -/
structure Answers (d : Disk) (r : Request) (reply : Reply) : Prop where
  text : Client.texts (Client.body reply) = Client.replyText d r.bytes
  fin : reply.fin = Client.FIN

/-- Both lists of reads get the same replies, one for each request. -/
def Answered (d : Disk) (l : Locals) (requests reads reads' : List Request) : Prop :=
  ∃ out m m', l.serveAll d reads = some (out, m) ∧ l.serveAll d reads' = some (out, m') ∧
    List.Forall₂ (Answers d) requests out

/-- The bytes of a list of reads. -/
def joined (reads : List Request) : List UInt8 := reads.flatMap Request.bytes

/-- Where the header and its NUL end. -/
def headEnd (d : Disk) (r : Request) : ℕ := (heading (d.found r.bytes) r.bytes).length + 1

/-- A request in parts: the words are in the first, the others are taken for no request, and a
header hides what the first part does not bring. -/
structure Parts (d : Disk) (r p : Request) (qs : List Request) : Prop where
  bytes : joined (p :: qs) = r.bytes
  get : IsGet p.bytes
  path : pathWord p.bytes = pathWord r.bytes
  version : versionWord p.bytes = versionWord r.bytes
  rest : ∀ q ∈ qs, ¬ IsGet q.bytes
  hidden : qs = [] ∨ r.bytes.length ≤ headEnd d r
  fits : Fits (d.found r.bytes) r.bytes

/-- The parts of each request; what follows the first is also hidden by the next header. -/
def Clean (d : Disk) : List Request → List (List Request) → Prop
  | [], [] => True
  | r :: rs, (p :: qs) :: segs => Parts d r p qs ∧
      (∀ next ∈ rs.head?, ∀ q ∈ qs, q.bytes.length ≤ headEnd d next) ∧ Clean d rs segs
  | _, _ => False

section Segments

variable {d : Disk} {l l' : Locals} {r p : Request} {qs : List Request}

theorem heading_congr (path : pathWord p.bytes = pathWord r.bytes)
    (version : versionWord p.bytes = versionWord r.bytes) :
    heading (d.found p.bytes) p.bytes = heading (d.found r.bytes) r.bytes ∧
      fileName p.bytes = fileName r.bytes := by
  have name : fileName p.bytes = fileName r.bytes := by rw [fileName, fileName, url, url, path]
  have words : Web.version p.bytes = Web.version r.bytes := by
    rw [Web.version, Web.version, version]
  exact ⟨by rw [heading, heading, Disk.found, Disk.found, name, words], name⟩

/-- Behind the header, a request and its first part leave the same. -/
theorem Parts.drop (h : Parts d r p qs)
    (agree : l.buf.drop (headEnd d r) = l'.buf.drop (headEnd d r)) :
    (overlay p.bytes l.buf).drop (headEnd d r) = (overlay r.bytes l'.buf).drop (headEnd d r) := by
  have bytes : p.bytes ++ joined qs = r.bytes := h.bytes
  rcases h.hidden with rfl | short
  · have same : p.bytes = r.bytes := (List.append_nil _).symm.trans bytes
    rw [same]
    exact drop_overlay_congr agree
  · have sum := congrArg List.length bytes
    rw [List.length_append] at sum
    rw [drop_overlay (by omega), drop_overlay short, agree]

theorem Parts.reply_eq (h : Parts d r p qs)
    (agree : l.buf.drop (headEnd d r) = l'.buf.drop (headEnd d r)) :
    overlay (heading (d.found p.bytes) p.bytes ++ [0])
        (overlay (pathWord p.bytes ++ [0]) (overlay p.bytes l.buf)) =
      overlay (heading (d.found r.bytes) r.bytes ++ [0])
        (overlay (pathWord r.bytes ++ [0]) (overlay r.bytes l'.buf)) := by
  rw [(heading_congr h.path h.version).1, h.path]
  apply overlay_congr
  rw [List.length_append]
  exact drop_overlay_congr (h.drop agree)

/-- The first part is answered as the request is. -/
theorem Parts.serve (h : Parts d r p qs) (sized : l.Sized) (sized' : l'.Sized)
    (get : IsGet r.bytes) (agree : l.buf.drop (headEnd d r) = l'.buf.drop (headEnd d r)) :
    ∃ reply m m', l.serve d p.bytes = some (some reply, m) ∧
      l'.serve d r.bytes = some (some reply, m') ∧ Answers d r reply ∧
      m.Sized ∧ m'.Sized ∧ m.buf = m'.buf := by
  obtain ⟨head, name⟩ := heading_congr (d := d) h.path h.version
  have fits : Fits (d.found p.bytes) p.bytes := by
    have := h.fits
    rwa [Fits, ← head, ← name] at this
  obtain ⟨m, sizedM, buf, serve⟩ := serve_of_fits sized h.get p.bounded fits
  obtain ⟨m', sizedM', buf', serve'⟩ := serve_of_fits sized' get r.bounded h.fits
  have first := h.reply_eq agree
  have reply : replyTo d p.bytes l.buf = replyTo d r.bytes l'.buf := by
    rw [replyTo, replyTo, answerTo, answerTo, name, first]
  have left : m.buf = m'.buf := by
    rw [buf, buf', leftover, leftover, name, first]
  refine ⟨_, m, m', serve, reply ▸ serve', ⟨?_, ?_⟩, sizedM, sizedM', left⟩
  · rw [reply]
    exact Client.texts_body d _ _
  · unfold replyTo answerTo
    cases d.chunks (fileName p.bytes) <;> rfl

/-- The other parts get no reply, and are in no place behind the next header. -/
theorem serveAll_append (sized : l.Sized) (rest : ∀ q ∈ qs, ¬ IsGet q.bytes)
    (more : List Request) :
    ∃ m : Locals, m.Sized ∧ l.serveAll d (qs ++ more) = m.serveAll d more ∧
      ∀ n, (∀ q ∈ qs, q.bytes.length ≤ n) → m.buf.drop n = l.buf.drop n := by
  induction qs generalizing l with
  | nil => exact ⟨l, sized, rfl, fun _ _ => rfl⟩
  | cons q qs ih =>
      rw [List.forall_mem_cons] at rest
      have serve := serve_of_not_isGet (d := d) (l := l) rest.1
      obtain ⟨m, sized', run, hidden⟩ := ih (sized.serve q.bounded serve) rest.2
      refine ⟨m, sized', ?_, ?_⟩
      · rw [List.cons_append, Locals.serveAll, serve, Option.bind_some, run]
        exact Option.map_id'
      · intro n small
        rw [List.forall_mem_cons] at small
        rw [hidden n small.2]
        exact drop_overlay small.1

/-- A run over the parts, and the run over the whole requests. -/
theorem serveAll_of_clean {requests : List Request} (gets : ∀ r ∈ requests, IsGet r.bytes)
    {segs : List (List Request)} (clean : Clean d requests segs) (sized : l.Sized)
    (sized' : l'.Sized)
    (agree : ∀ r ∈ requests.head?, l.buf.drop (headEnd d r) = l'.buf.drop (headEnd d r)) :
    ∃ out m m', l.serveAll d segs.flatten = some (out, m) ∧
      l'.serveAll d requests = some (out, m') ∧ List.Forall₂ (Answers d) requests out := by
  induction requests generalizing segs l l' with
  | nil =>
      cases segs with
      | nil => exact ⟨[], l, l', rfl, rfl, .nil⟩
      | cons seg segs => exact False.elim clean
  | cons r rs ih =>
      rw [List.forall_mem_cons] at gets
      cases segs with
      | nil => exact False.elim clean
      | cons seg segs =>
          cases seg with
          | nil => exact False.elim clean
          | cons p qs =>
              obtain ⟨parts, hidden, clean⟩ := clean
              obtain ⟨reply, m, m', serve, serve', answers, sizedM, sizedM', buf⟩ :=
                parts.serve sized sized' gets.1 (agree r rfl)
              obtain ⟨m₁, sized₁, run, drop⟩ :=
                serveAll_append (d := d) sizedM parts.rest segs.flatten
              have agree' : ∀ next ∈ rs.head?,
                  m₁.buf.drop (headEnd d next) = m'.buf.drop (headEnd d next) := fun next hn => by
                rw [drop _ (hidden next hn), buf]
              obtain ⟨out, n, n', rest, rest', all⟩ := ih gets.2 clean sized₁ sizedM' agree'
              refine ⟨reply :: out, n, n', ?_, ?_, .cons answers all⟩
              · rw [List.flatten_cons, List.cons_append, Locals.serveAll, serve, Option.bind_some,
                  run, rest]
                rfl
              · rw [Locals.serveAll, serve', Option.bind_some, rest']
                rfl

end Segments

/-- For every list of requests, cut in two ways: where the cuts are clean the runs write the same,
and answer each request in its turn. -/
theorem answered_of_clean {d : Disk} {l : Locals} (sized : l.Sized) {requests : List Request}
    (gets : ∀ r ∈ requests, IsGet r.bytes) {segs segs' : List (List Request)}
    (clean : Clean d requests segs) (clean' : Clean d requests segs') :
    Answered d l requests segs.flatten segs'.flatten := by
  obtain ⟨out, m, n, run, whole, all⟩ :=
    serveAll_of_clean gets clean sized sized fun _ _ => rfl
  obtain ⟨out', m', n', run', whole', -⟩ :=
    serveAll_of_clean gets clean' sized sized fun _ _ => rfl
  obtain ⟨rfl, -⟩ := Prod.mk.inj (Option.some.inj (whole.symm.trans whole'))
  exact ⟨out, m, m', run, run', all⟩

/-- The last two bytes of `getRoot`. -/
def emptyLine : Request where
  bytes := bytes "\r\n"
  nonempty := by decide
  bounded := by decide

/-- `getRoot` without them. -/
def getLine : Request where
  bytes := bytes "GET / HTTP/1.1\r\n"
  nonempty := by decide
  bounded := by decide

theorem parts_getLine : Parts (Disk.of fun _ => none) getRoot getLine [emptyLine] where
  bytes := by decide
  get := by decide
  path := by decide
  version := by decide
  rest := by decide
  hidden := by decide +kernel
  fits := by decide +kernel

theorem parts_getRoot : Parts (Disk.of fun _ => none) getRoot getRoot [] where
  bytes := by decide
  get := by decide
  path := rfl
  version := rfl
  rest := by decide
  hidden := Or.inl rfl
  fits := by decide +kernel

/-- Two requests, the first in two reads or in one. -/
theorem answered_of_clean_getLine : Answered (Disk.of fun _ => none) (fresh 0) [getRoot, getRoot]
    [getLine, emptyLine, getRoot] [getRoot, getRoot] := by
  have cut : Clean (Disk.of fun _ => none) [getRoot, getRoot] [[getLine, emptyLine], [getRoot]] :=
    ⟨parts_getLine, by decide +kernel, parts_getRoot, by decide, trivial⟩
  have whole : Clean (Disk.of fun _ => none) [getRoot, getRoot] [[getRoot], [getRoot]] :=
    ⟨parts_getRoot, by decide, parts_getRoot, by decide, trivial⟩
  have gets : ∀ r ∈ [getRoot, getRoot], IsGet r.bytes := by decide
  have answered := answered_of_clean (sized_fresh 0) gets cut whole
  exact answered

/-- Two requests in one read. -/
def together : Request where
  bytes := getRoot.bytes ++ getRoot.bytes
  nonempty := by decide
  bounded := by decide

/-- The second is not answered. -/
theorem not_answered_together : getRoot.bytes = Client.request (bytes "/") ∧
    joined [getRoot, getRoot] = joined [together] ∧
    ¬ Answered (Disk.of fun _ => none) (fresh 0) [getRoot, getRoot] [getRoot, getRoot]
      [together] := by
  refine ⟨by decide, by decide, ?_⟩
  rintro ⟨out, m, m', -, run, all⟩
  have one : ((fresh 0).serveAll (Disk.of fun _ => none) [together]).map (·.1.length) = some 1 := by
    decide +kernel
  rw [run, Option.map_some, ← all.length_eq] at one
  exact absurd one (by decide)

end LinuxNote.Web
