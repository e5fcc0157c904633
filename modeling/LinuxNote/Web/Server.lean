import LinuxNote.Shell.CString
import LinuxNote.Text.Buffer
import Mathlib.Data.List.Flatten

/-!
# The Web server of `Webserver.c`

`server` reads a request into `buf`, splits it in place, makes the header in `buf` again and writes
the whole array, whatever is behind the NUL; the text for a missing file likewise.  So the reply
shows what earlier requests, or the stack, have left in `buf`.

`determined_iff` says for which requests it does not: those that fill `buf`, and those whose header
does.
-/

namespace LinuxNote.Web

open Text

def MAXLINE : ℕ := 200

def WEB_PATH : List UInt8 := bytes "/var/tmp"

/-- The local arrays of `server`. -/
structure Locals where
  path : List UInt8
  http : List UInt8
  buf : List UInt8
  contentType : List UInt8

/-- What `open` and the `read`s on the file deliver: no file, or its pieces. -/
structure Disk where
  chunks : List UInt8 → Option (List (List UInt8))
  valid : ∀ name cs, chunks name = some cs → ∀ c ∈ cs, c ≠ [] ∧ c.length ≤ MAXLINE

def Disk.contents (d : Disk) (name : List UInt8) : Option (List UInt8) :=
  (d.chunks name).map List.flatten

/-- What one `read(connfd, buf, MAXLINE)` can deliver. -/
structure Request where
  bytes : List UInt8
  nonempty : bytes ≠ []
  bounded : bytes.length ≤ MAXLINE

/-- What follows the header: the pieces of the file, or the array with the text for none. -/
inductive Page
  | file (chunks : List (List UInt8))
  | missing (buf : List UInt8)

/-- The writes for one request: two or more. -/
structure Reply where
  header : List UInt8
  page : Page
  fin : List UInt8

def Page.sent : Page → List UInt8
  | .file chunks => chunks.flatten
  | .missing buf => buf

def Reply.sent (r : Reply) : List UInt8 := r.header ++ r.page.sent ++ r.fin

/-- The request line is split in place: the path to the start of `buf`, the version to `http`. -/
def Locals.parse (n : ℕ) (l : Locals) : Locals :=
  let i := skipWhile (· = 32) l.buf (n - 3) 3
  let (i, j, buf) := moveWhile (· ≠ 32) (n - i) i 0 l.buf
  let buf := buf.set j 0
  let i := skipWhile (· = 32) buf (n - i) i
  let (j, http) := copyWhile (fun c => !Shell.isspace c) buf (n - i) i 0 l.http
  { l with buf, http := http.set j 0 }

/-- The name of the file. -/
def target (url : List UInt8) : List UInt8 :=
  if url = bytes "/" then WEB_PATH ++ bytes "/index.html" else WEB_PATH ++ url

/-- The type by what `strstr` finds in the name. -/
def mime (name : List UInt8) : List UInt8 :=
  if bytes "jpg" <:+: name then bytes "image/jpg"
  else if bytes "png" <:+: name then bytes "image/png"
  else bytes "text/html"

def header (version status type : List UInt8) : List UInt8 :=
  version ++ status ++ bytes "\r\nContent-Type: " ++ type ++ bytes "\r\n\r\n"

def notFound : List UInt8 := bytes "<html><body>request file not found</body></html>\r\n"

/-- From `strcmp` on: no result where a `sprintf` overflows its array. -/
def Locals.answer (d : Disk) (l : Locals) : Option (Reply × Locals) := do
  let url ← str l.buf
  let path ← sprintf (target url) l.path
  let name ← str path
  let contentType ← sprintf (mime name) l.contentType
  let version ← str l.http
  let type ← str contentType
  match d.chunks name with
  | some chunks =>
      let first ← sprintf (header version (bytes " 200 OK") type) l.buf
      let last ← sprintf (bytes "FIN\n") (chunks.foldl (fun buf c => overlay c buf) first)
      let fin ← str last
      some (⟨first, .file chunks, fin⟩, { l with path, contentType, buf := last })
  | none =>
      let first ← sprintf (header version (bytes " 404 Not Found") type) l.buf
      let second ← sprintf notFound first
      let last ← sprintf (bytes "FIN\n") second
      let fin ← str last
      some (⟨first, .missing second, fin⟩, { l with path, contentType, buf := last })

/-- `n > 2 && buf[0] == 'G' && buf[1] == 'E' && buf[2] == 'T'` -/
def IsGet (request : List UInt8) : Prop := request.take 3 = bytes "GET"

instance (request : List UInt8) : Decidable (IsGet request) := inferInstanceAs (Decidable (_ = _))

/-- One round of the loop of `server`. -/
def Locals.serve (d : Disk) (request : List UInt8) (l : Locals) : Option (Option Reply × Locals) :=
  let l := { l with buf := overlay request l.buf }
  if IsGet request then
    ((l.parse request.length).answer d).map fun r => (some r.1, r.2)
  else some (none, l)

/-- The bytes written to the connection for a request. -/
def sent : Option Reply → List UInt8
  | some r => r.sent
  | none => []

/-- The arrays after the earlier requests on the connection, each with what was on the disk. -/
def Locals.after : List (Disk × Request) → Locals → Option Locals
  | [], l => some l
  | (d, r) :: past, l => (l.serve d r.bytes).bind fun r => r.2.after past

/-- All arrays have `MAXLINE` bytes. -/
structure Locals.Sized (l : Locals) : Prop where
  path : l.path.length = MAXLINE
  http : l.http.length = MAXLINE
  buf : l.buf.length = MAXLINE
  contentType : l.contentType.length = MAXLINE

/-- Any two runs that receive the request and see the same files write the same. -/
def Determined (contents : List UInt8 → Option (List UInt8)) (r : Request) : Prop :=
  ∀ (l l' m m' : Locals) (past past' : List (Disk × Request)) (d d' : Disk), l.Sized → l'.Sized →
    l.after past = some m → l'.after past' = some m' →
    d.contents = contents → d'.contents = contents →
    ∃ out, (m.serve d r.bytes).map (fun x => sent x.1) = some out ∧
      (m'.serve d' r.bytes).map (fun x => sent x.1) = some out

/-! ## The parser -/

/-- The word after `GET`. -/
def pathWord (request : List UInt8) : List UInt8 :=
  ((request.drop 3).dropWhile (· = 32)).takeWhile (· ≠ 32)

/-- The word after that. -/
def versionWord (request : List UInt8) : List UInt8 :=
  ((((request.drop 3).dropWhile (· = 32)).dropWhile (· ≠ 32)).dropWhile (· = 32)).takeWhile
    fun c => !Shell.isspace c

section Parse

variable {request : List UInt8} {l : Locals}

theorem length_of_isGet (get : IsGet request) : 3 ≤ request.length := by
  have := congrArg List.length get
  rw [List.length_take, show (bytes "GET").length = 3 from rfl] at this
  omega

theorem length_pathWord (get : IsGet request) :
    (pathWord request ++ [0]).length ≤ request.length := by
  have := length_of_isGet get
  have words : (pathWord request).length ≤ (request.drop 3).length :=
    ((List.takeWhile_sublist _).trans (List.dropWhile_sublist _)).length_le
  rw [List.length_append, List.length_singleton]
  rw [List.length_drop] at words
  omega

theorem length_versionWord (get : IsGet request) :
    (versionWord request ++ [0]).length ≤ request.length := by
  have := length_of_isGet get
  have words : (versionWord request).length ≤ (request.drop 3).length :=
    ((List.takeWhile_sublist _).trans ((List.dropWhile_sublist _).trans
      ((List.dropWhile_sublist _).trans (List.dropWhile_sublist _)))).length_le
  rw [List.length_append, List.length_singleton]
  rw [List.length_drop] at words
  omega

/-- The words are cut out of the request, and nothing else changes. -/
theorem parse_eq (get : IsGet request) (small : request.length ≤ l.buf.length)
    (room : request.length ≤ l.http.length) :
    Locals.parse request.length { l with buf := overlay request l.buf } =
      { l with
        buf := overlay (pathWord request ++ [0]) (overlay request l.buf)
        http := overlay (versionWord request ++ [0]) l.http } := by
  have three := length_of_isGet get
  have start : Ahead (overlay request l.buf) request.length 3 (request.drop 3) := by
    refine ⟨?_, ?_⟩
    · rw [overlay, List.take_left]
    · rw [List.length_drop]
      omega
  have path := length_pathWord get
  have version := length_versionWord get
  rw [List.length_append, List.length_singleton] at path version
  have size : (overlay request l.buf).length = l.buf.length := length_overlay small
  obtain ⟨index, ahead⟩ := start.skipWhile (p := (· = 32))
  unfold Locals.parse
  dsimp only
  generalize skipWhile (· = 32) (overlay request l.buf) (request.length - 3) 3 = i at *
  rw [ahead.moveWord (by omega)]
  have behind : (pathWord request ++ [0]).length ≤ i + (pathWord request).length := by
    rw [List.length_append, List.length_singleton]
    omega
  have rest := (ahead.drop (· ≠ 32)).overlay behind
  dsimp only
  rw [← pathWord, overlay_set (by omega)]
  have ahead := rest.skipWhile (p := (· = 32)) |>.2
  rw [← pathWord] at ahead
  have fits := ahead.count
  rw [ahead.copyWord (by omega)]
  dsimp only
  rw [← versionWord, overlay_set (by omega)]

end Parse

/-! ## The reply -/

def url (request : List UInt8) : List UInt8 := text (pathWord request)

def version (request : List UInt8) : List UInt8 := text (versionWord request)

def status (found : Bool) : List UInt8 := if found then bytes " 200 OK" else bytes " 404 Not Found"

/-- The name that the server opens. -/
def fileName (request : List UInt8) : List UInt8 := target (url request)

/-- The text of the header. -/
def heading (found : Bool) (request : List UInt8) : List UInt8 :=
  header (version request) (status found) (mime (fileName request))

def Disk.found (d : Disk) (request : List UInt8) : Bool := (d.chunks (fileName request)).isSome

/-- Name and header fit in their arrays. -/
def Fits (found : Bool) (request : List UInt8) : Prop :=
  (fileName request).length < MAXLINE ∧ (heading found request).length < MAXLINE

instance (found : Bool) (request : List UInt8) : Decidable (Fits found request) :=
  inferInstanceAs (Decidable (_ ∧ _))

section Reply

variable {d : Disk} {request : List UInt8} {l : Locals}

theorem sprintf_of_lt {s buf : List UInt8} (h : s.length < buf.length) :
    sprintf s buf = some (overlay (s ++ [0]) buf) := if_pos h

theorem length_foldl_overlay {chunks : List (List UInt8)} {buf : List UInt8}
    (h : ∀ c ∈ chunks, c.length ≤ buf.length) :
    (chunks.foldl (fun buf c => overlay c buf) buf).length = buf.length := by
  induction chunks generalizing buf with
  | nil => rfl
  | cons c chunks ih =>
      rw [List.forall_mem_cons] at h
      have size := length_overlay h.1
      rw [List.foldl_cons, ih (size ▸ h.2), size]

theorem mime_cases (name : List UInt8) :
    mime name = bytes "image/jpg" ∨ mime name = bytes "image/png" ∨
      mime name = bytes "text/html" := by
  unfold mime
  split
  · exact Or.inl rfl
  · split
    · exact Or.inr (Or.inl rfl)
    · exact Or.inr (Or.inr rfl)

theorem length_mime (name : List UInt8) : (mime name).length = 9 := by
  rcases mime_cases name with h | h | h <;> rw [h] <;> rfl

theorem text_mime (name : List UInt8) : text (mime name) = mime name := by
  rcases mime_cases name with h | h | h <;> rw [h] <;> rfl

theorem text_fileName (request : List UInt8) : text (fileName request) = fileName request := by
  apply text_eq
  unfold fileName target
  split
  · decide
  · intro mem
    rcases List.mem_append.1 mem with mem | mem
    · exact absurd mem (by decide)
    · exact noNul_text _ mem

theorem header_of_found (request : List UInt8) :
    header (version request) (bytes " 200 OK") (mime (fileName request)) = heading true request :=
  rfl

theorem header_of_missing (request : List UInt8) :
    header (version request) (bytes " 404 Not Found") (mime (fileName request)) =
      heading false request := rfl

/-- What `FIN` is written over does not matter. -/
theorem sprintf_fin {buf : List UInt8} (size : buf.length = MAXLINE) :
    sprintf (bytes "FIN\n") buf = some (overlay (bytes "FIN\n" ++ [0]) buf) ∧
      (overlay (bytes "FIN\n" ++ [0]) buf).length = MAXLINE ∧
      str (overlay (bytes "FIN\n" ++ [0]) buf) = some (bytes "FIN\n") := by
  have small : (bytes "FIN\n").length < buf.length := by
    rw [size]
    decide
  have print := sprintf_of_lt small
  exact ⟨print, (length_of_sprintf print).trans size, str_overlay _ _⟩

/-- What the server answers once the words are in place. -/
def answerTo (d : Disk) (request buf : List UInt8) : Reply :=
  let first := overlay (heading (d.found request) request ++ [0]) buf
  match d.chunks (fileName request) with
  | some chunks => ⟨first, .file chunks, bytes "FIN\n"⟩
  | none => ⟨first, .missing (overlay (notFound ++ [0]) first), bytes "FIN\n"⟩

/-- What `buf` holds after an answer. -/
def leftover (d : Disk) (request buf : List UInt8) : List UInt8 :=
  let first := overlay (heading (d.found request) request ++ [0]) buf
  overlay (bytes "FIN\n" ++ [0]) (match d.chunks (fileName request) with
    | some chunks => chunks.foldl (fun buf c => overlay c buf) first
    | none => overlay (notFound ++ [0]) first)

theorem Locals.Sized.name (sized : l.Sized) (fits : (fileName request).length < MAXLINE) :
    sprintf (target (url request)) l.path = some (overlay (fileName request ++ [0]) l.path) :=
  sprintf_of_lt (fits.trans_eq sized.path.symm)

theorem Locals.Sized.type (sized : l.Sized) (name : List UInt8) :
    sprintf (mime name) l.contentType = some (overlay (mime name ++ [0]) l.contentType) := by
  apply sprintf_of_lt
  rw [length_mime, sized.contentType]
  decide

section Answer

variable (sized : l.Sized) (buf : str l.buf = some (url request))
variable (http : str l.http = some (version request))

include sized buf http

theorem answer_of_fits (fits : Fits (d.found request) request) :
    ∃ l', l'.Sized ∧ l'.buf = leftover d request l.buf ∧
      l.answer d = some (answerTo d request l.buf, l') := by
  obtain ⟨name, head⟩ := fits
  have path := sized.name name
  have type := sized.type (fileName request)
  have first : sprintf (heading (d.found request) request) l.buf =
      some (overlay (heading (d.found request) request ++ [0]) l.buf) :=
    sprintf_of_lt (head.trans_eq sized.buf.symm)
  have size := (length_of_sprintf first).trans sized.buf
  have arrays : ∀ {b : List UInt8}, b.length = MAXLINE → Locals.Sized
      ⟨overlay (fileName request ++ [0]) l.path, l.http, b,
        overlay (mime (fileName request) ++ [0]) l.contentType⟩ := fun hb =>
    ⟨(length_of_sprintf path).trans sized.path, sized.http, hb,
      (length_of_sprintf type).trans sized.contentType⟩
  unfold answerTo leftover
  unfold Disk.found at *
  simp only [Locals.answer, buf, http, path, type, str_overlay, text_fileName, text_mime,
    Option.bind_eq_bind, Option.bind_some]
  cases hd : d.chunks (fileName request) with
  | some chunks =>
      rw [hd, Option.isSome_some] at first size
      have pieces : ∀ c ∈ chunks, c.length ≤ MAXLINE := fun c hc => (d.valid _ _ hd c hc).2
      obtain ⟨fin, size', text⟩ := sprintf_fin
        ((length_foldl_overlay (size.symm ▸ pieces)).trans size)
      refine ⟨_, arrays size', rfl, ?_⟩
      simp only [header_of_found, Option.isSome_some, first, fin, text, Option.bind_some]
  | none =>
      rw [hd, Option.isSome_none] at first size
      have small : notFound.length < MAXLINE := by decide
      have second := sprintf_of_lt (size.symm ▸ small)
      obtain ⟨fin, size', text⟩ := sprintf_fin ((length_of_sprintf second).trans size)
      refine ⟨_, arrays size', rfl, ?_⟩
      simp only [header_of_missing, Option.isSome_none, first, second, fin, text, Option.bind_some]

theorem answer_of_not_fits (large : ¬ Fits (d.found request) request) : l.answer d = none := by
  by_cases name : (fileName request).length < MAXLINE
  · have head : ¬ (heading (d.found request) request).length < l.buf.length := fun h =>
      large ⟨name, h.trans_eq sized.buf⟩
    have first : sprintf (heading (d.found request) request) l.buf = none := if_neg head
    unfold Disk.found at first
    simp only [Locals.answer, buf, http, sized.name name, sized.type, str_overlay, text_fileName,
      text_mime, Option.bind_eq_bind, Option.bind_some]
    cases hd : d.chunks (fileName request) with
    | some chunks =>
        rw [hd, Option.isSome_some] at first
        simp only [header_of_found, first, Option.bind_none]
    | none =>
        rw [hd, Option.isSome_none] at first
        simp only [header_of_missing, first, Option.bind_none]
  · have path : sprintf (target (url request)) l.path = none :=
      if_neg fun h => name (h.trans_eq sized.path)
    simp only [Locals.answer, buf, path, Option.bind_eq_bind, Option.bind_some, Option.bind_none]

end Answer

/-- What the server writes for a request when `buf` holds `old`. -/
def replyTo (d : Disk) (request old : List UInt8) : Reply :=
  answerTo d request (overlay (pathWord request ++ [0]) (overlay request old))

theorem serve_of_not_isGet (get : ¬ IsGet request) :
    l.serve d request = some (none, { l with buf := overlay request l.buf }) := if_neg get

theorem Locals.Sized.parsed (sized : l.Sized) (get : IsGet request)
    (bounded : request.length ≤ MAXLINE) :
    (Locals.parse request.length { l with buf := overlay request l.buf }).Sized ∧
      (Locals.parse request.length { l with buf := overlay request l.buf }).buf =
        overlay (pathWord request ++ [0]) (overlay request l.buf) ∧
      str (Locals.parse request.length { l with buf := overlay request l.buf }).http =
        some (version request) := by
  have small := bounded.trans_eq sized.buf.symm
  have room := bounded.trans_eq sized.http.symm
  rw [parse_eq get small room]
  have size : (overlay request l.buf).length = l.buf.length := length_overlay small
  refine ⟨⟨sized.path, ?_, ?_, sized.contentType⟩, rfl, str_overlay _ _⟩
  · exact (length_overlay ((length_versionWord get).trans room)).trans sized.http
  · exact (length_overlay ((length_pathWord get).trans (small.trans_eq size.symm))).trans
      (size.trans sized.buf)

theorem serve_of_fits (sized : l.Sized) (get : IsGet request) (bounded : request.length ≤ MAXLINE)
    (fits : Fits (d.found request) request) :
    ∃ l', l'.Sized ∧
      l'.buf = leftover d request (overlay (pathWord request ++ [0]) (overlay request l.buf)) ∧
      l.serve d request = some (some (replyTo d request l.buf), l') := by
  obtain ⟨parsed, buf, http⟩ := sized.parsed get bounded
  obtain ⟨l', sized', left, answer⟩ :=
    answer_of_fits parsed (by rw [buf]; exact str_overlay _ _) http fits
  rw [buf] at left answer
  refine ⟨l', sized', left, ?_⟩
  simp only [Locals.serve, if_pos get, answer]
  rfl

theorem serve_of_not_fits (sized : l.Sized) (get : IsGet request)
    (bounded : request.length ≤ MAXLINE) (large : ¬ Fits (d.found request) request) :
    l.serve d request = none := by
  obtain ⟨parsed, buf, http⟩ := sized.parsed get bounded
  have answer := answer_of_not_fits parsed (by rw [buf]; exact str_overlay _ _) http large
  simp only [Locals.serve, if_pos get, answer]
  rfl

/-- Every request leaves arrays of the same size. -/
theorem Locals.Sized.serve (sized : l.Sized) (bounded : request.length ≤ MAXLINE) {l' : Locals}
    {r : Option Reply} (h : l.serve d request = some (r, l')) : l'.Sized := by
  by_cases get : IsGet request
  · by_cases fits : Fits (d.found request) request
    · obtain ⟨l'', sized', -, serve⟩ := serve_of_fits sized get bounded fits
      rw [serve] at h
      obtain ⟨-, rfl⟩ := Prod.mk.inj (Option.some.inj h)
      exact sized'
    · rw [serve_of_not_fits sized get bounded fits] at h
      cases h
  · rw [serve_of_not_isGet get] at h
    obtain ⟨-, rfl⟩ := Prod.mk.inj (Option.some.inj h)
    have len := length_overlay (bounded.trans_eq sized.buf.symm)
    exact ⟨sized.path, sized.http, len.trans sized.buf, sized.contentType⟩

theorem Locals.Sized.after {past : List (Disk × Request)} (sized : l.Sized) {m : Locals}
    (h : l.after past = some m) : m.Sized := by
  induction past generalizing l with
  | nil =>
      obtain rfl := Option.some.inj h
      exact sized
  | cons p past ih =>
      obtain ⟨⟨r, l'⟩, serve, rest⟩ := Option.bind_eq_some_iff.1 h
      exact ih (sized.serve p.2.bounded serve) rest

end Reply

/-! ## Leftovers -/

/-- The longest version that fits into the header. -/
def room (found : Bool) : ℕ := if found then 163 else 156

theorem length_heading (found : Bool) (request : List UInt8) :
    (heading found request).length + room found = (version request).length + 199 := by
  unfold heading header
  simp only [List.length_append, length_mime]
  cases found
  · show _ + 14 + 16 + 9 + 4 + 156 = _
    omega
  · show _ + 7 + 16 + 9 + 4 + 163 = _
    omega

theorem length_fileName_iff {request : List UInt8} :
    (fileName request).length < MAXLINE ↔ (url request).length ≤ 191 := by
  unfold fileName target MAXLINE
  split
  · next h =>
      rw [h]
      decide
  · rw [List.length_append, show WEB_PATH.length = 8 from rfl]
    omega

theorem fits_iff {found : Bool} {request : List UInt8} : Fits found request ↔
    (url request).length ≤ 191 ∧ (version request).length ≤ room found := by
  have head := length_heading found request
  unfold Fits
  rw [length_fileName_iff]
  unfold MAXLINE
  omega

section Leftovers

variable {d : Disk} {request old : List UInt8}

/-- The bytes of a reply, from its first array and the contents of the file. -/
theorem sent_answerTo (d : Disk) (request buf : List UInt8) :
    (answerTo d request buf).sent =
      overlay (heading (d.found request) request ++ [0]) buf ++
        ((d.contents (fileName request)).getD
          (overlay (notFound ++ [0]) (overlay (heading (d.found request) request ++ [0]) buf))) ++
        bytes "FIN\n" := by
  unfold answerTo Disk.contents
  cases d.chunks (fileName request) <;> rfl

theorem length_cut (get : IsGet request) (bounded : request.length ≤ MAXLINE)
    (h : old.length = MAXLINE) :
    (overlay (pathWord request ++ [0]) (overlay request old)).length = MAXLINE := by
  have len : (overlay request old).length = MAXLINE :=
    (length_overlay (bounded.trans_eq h.symm)).trans h
  exact (length_overlay ((length_pathWord get).trans (bounded.trans_eq len.symm))).trans len

/-- A full request, or a full header, leaves nothing of the old array. -/
theorem first_eq {old' : List UInt8} {found : Bool} (h : old.length = MAXLINE)
    (h' : old'.length = MAXLINE) (get : IsGet request) (bounded : request.length ≤ MAXLINE)
    (full : request.length = MAXLINE ∨ (heading found request).length = MAXLINE - 1) :
    overlay (heading found request ++ [0])
        (overlay (pathWord request ++ [0]) (overlay request old)) =
      overlay (heading found request ++ [0])
        (overlay (pathWord request ++ [0]) (overlay request old')) := by
  rcases full with full | full
  · rw [overlay_eq_left (h.trans full.symm).le, overlay_eq_left (h'.trans full.symm).le]
  · have all : (heading found request ++ [0]).length = MAXLINE := by
      rw [List.length_append, full]
      rfl
    rw [overlay_eq_left ((length_cut get bounded h).trans all.symm).le,
      overlay_eq_left ((length_cut get bounded h').trans all.symm).le]

/-- Otherwise the last byte of the first array is the old one. -/
theorem getElem?_sent (get : IsGet request) (short : request.length < MAXLINE)
    (head : (heading (d.found request) request).length < MAXLINE - 1) (h : old.length = MAXLINE) :
    (replyTo d request old).sent[MAXLINE - 1]? = old[MAXLINE - 1]? := by
  have word := length_pathWord get
  have inHead : (heading (d.found request) request ++ [0]).length ≤ MAXLINE - 1 := by
    rw [List.length_append]
    exact head
  have size : (overlay (heading (d.found request) request ++ [0])
      (overlay (pathWord request ++ [0]) (overlay request old))).length = MAXLINE := by
    have cut := length_cut get short.le h
    rw [length_overlay (by omega), cut]
  rw [replyTo, sent_answerTo, List.append_assoc,
    List.getElem?_append_left (by rw [size]; decide), getElem?_overlay inHead,
    getElem?_overlay (by omega), getElem?_overlay (by omega)]

/-- A disk with the given files, read a byte at a time. -/
def Disk.of (contents : List UInt8 → Option (List UInt8)) : Disk where
  chunks name := (contents name).map fun c => c.map fun b => [b]
  valid := by
    rintro name cs h c hc
    obtain ⟨whole, -, rfl⟩ := Option.map_eq_some_iff.1 h
    obtain ⟨b, -, rfl⟩ := List.mem_map.1 hc
    exact ⟨List.cons_ne_nil b [], show 1 ≤ MAXLINE by decide⟩

theorem contents_of (contents : List UInt8 → Option (List UInt8)) :
    (Disk.of contents).contents = contents := by
  funext name
  simp only [Disk.contents, Disk.of, Option.map_map]
  cases contents name with
  | none => rfl
  | some c => simp [← List.flatMap_def]

end Leftovers

/-- The arrays of a new process, with the last byte of `buf` as the stack has it. -/
def fresh (last : UInt8) : Locals :=
  let zeros := List.replicate MAXLINE 0
  ⟨zeros, zeros, List.replicate (MAXLINE - 1) 0 ++ [last], zeros⟩

theorem sized_fresh (last : UInt8) : (fresh last).Sized := ⟨rfl, rfl, rfl, rfl⟩

section Determined

variable {contents : List UInt8 → Option (List UInt8)} {r : Request}

/-- What the header says about the file for a request. -/
def foundIn (contents : List UInt8 → Option (List UInt8)) (request : List UInt8) : Bool :=
  (contents (fileName request)).isSome

theorem found_of_contents {d : Disk} (h : d.contents = contents) (request : List UInt8) :
    d.found request = foundIn contents request := by
  simp [foundIn, ← h, Disk.contents, Disk.found]

/-- Name and header fit, and the request or the header fills `buf`. -/
def Covers (contents : List UInt8 → Option (List UInt8)) (request : List UInt8) : Prop :=
  (url request).length ≤ 191 ∧
    (version request).length ≤ room (foundIn contents request) ∧
    (request.length = MAXLINE ∨ (version request).length = room (foundIn contents request))

/-- Two new connections. -/
theorem Determined.sent_eq (h : Determined contents r) {l l' : Locals} (sized : l.Sized)
    (sized' : l'.Sized) :
    ∃ out, (l.serve (Disk.of contents) r.bytes).map (fun x => sent x.1) = some out ∧
      (l'.serve (Disk.of contents) r.bytes).map (fun x => sent x.1) = some out :=
  have files := contents_of contents
  h l l' l l' [] [] _ _ sized sized' rfl rfl files files

theorem Determined.fits (h : Determined contents r) (get : IsGet r.bytes) :
    Fits (foundIn contents r.bytes) r.bytes := by
  by_contra large
  rw [← found_of_contents (contents_of contents)] at large
  obtain ⟨out, first, -⟩ := h.sent_eq (sized_fresh 0) (sized_fresh 0)
  rw [serve_of_not_fits (sized_fresh 0) get r.bounded large] at first
  cases first

theorem Determined.full (h : Determined contents r) (get : IsGet r.bytes) :
    r.bytes.length = MAXLINE ∨
      (heading (foundIn contents r.bytes) r.bytes).length = MAXLINE - 1 := by
  have fits := h.fits get
  rw [← found_of_contents (contents_of contents)] at fits ⊢
  by_contra short
  rw [not_or] at short
  have bounded := r.bounded
  have head := fits.2
  -- the last byte of `buf` gets to the client
  have last : ∀ (b : UInt8) (out : List UInt8),
      ((fresh b).serve (Disk.of contents) r.bytes).map (fun x => sent x.1) = some out →
        out[MAXLINE - 1]? = some b := by
    intro b out hout
    obtain ⟨l', -, -, serve⟩ := serve_of_fits (sized_fresh b) get bounded fits
    rw [serve, Option.map_some, Option.some.injEq] at hout
    rw [← hout]
    exact getElem?_sent get (by omega) (by omega) (sized_fresh b).buf
  obtain ⟨out, zero, one⟩ := h.sent_eq (sized_fresh 0) (sized_fresh 1)
  have same := (last 0 out zero).symm.trans (last 1 out one)
  exact absurd same (by decide)

theorem determined_of_not_isGet (get : ¬ IsGet r.bytes) : Determined contents r := by
  intro l l' m m' past past' d d' _ _ _ _ _ _
  rw [serve_of_not_isGet get, serve_of_not_isGet get]
  exact ⟨[], rfl, rfl⟩

theorem determined_of_fits (get : IsGet r.bytes) (fits : Fits (foundIn contents r.bytes) r.bytes)
    (full : r.bytes.length = MAXLINE ∨
      (heading (foundIn contents r.bytes) r.bytes).length = MAXLINE - 1) :
    Determined contents r := by
  intro l l' m m' past past' d d' sized sized' after after' files files'
  have found := found_of_contents files r.bytes
  have found' := found_of_contents files' r.bytes
  have sized := sized.after after
  have sized' := sized'.after after'
  obtain ⟨_, -, -, serve⟩ := serve_of_fits sized get r.bounded (found ▸ fits)
  obtain ⟨_, -, -, serve'⟩ := serve_of_fits sized' get r.bounded (found' ▸ fits)
  refine ⟨_, congrArg (Option.map _) serve, (congrArg (Option.map _) serve').trans ?_⟩
  simp only [Option.map_some, Option.some.injEq, sent, replyTo, sent_answerTo]
  rw [files, files', found, found', first_eq sized.buf sized'.buf get r.bounded full]

end Determined

/-- For all files and every request, whatever came before it: the reply is determined exactly when
it shows nothing of the old `buf`. -/
theorem determined_iff (contents : List UInt8 → Option (List UInt8)) (r : Request) :
    Determined contents r ↔ ¬ IsGet r.bytes ∨ Covers contents r.bytes := by
  have head := length_heading (foundIn contents r.bytes) r.bytes
  have last : (heading (foundIn contents r.bytes) r.bytes).length = MAXLINE - 1 ↔
      (version r.bytes).length = room (foundIn contents r.bytes) := by
    unfold MAXLINE
    omega
  unfold Covers
  rw [← and_assoc, ← fits_iff, ← last]
  constructor
  · intro h
    by_cases get : IsGet r.bytes
    · exact Or.inr ⟨h.fits get, h.full get⟩
    · exact Or.inl get
  · rintro (get | ⟨fits, full⟩)
    · exact determined_of_not_isGet get
    · by_cases get : IsGet r.bytes
      · exact determined_of_fits get fits full
      · exact determined_of_not_isGet get

/-- "GET / HTTP/1.1\r\n\r\n" -/
def getRoot : Request where
  bytes := bytes "GET / HTTP/1.1\r\n\r\n"
  nonempty := by decide
  bounded := by decide

/-- No file: the last byte of the header's array is what the stack has left there. -/
theorem not_determined_getRoot : ¬ Determined (fun _ => none) getRoot := by
  intro h
  obtain ⟨out, zero, one⟩ := h.sent_eq (sized_fresh 0) (sized_fresh 1)
  have differ : ((fresh 0).serve (Disk.of fun _ => none) getRoot.bytes).map (fun x => sent x.1) ≠
      ((fresh 1).serve (Disk.of fun _ => none) getRoot.bytes).map (fun x => sent x.1) := by
    decide +kernel
  exact differ (zero.trans one.symm)

end LinuxNote.Web
