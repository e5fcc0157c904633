import LinuxNote.Conc.Machine
import LinuxNote.Web.Server

/-!
# The client of `Webclient.c` and the server

The client sends a request, which the server reads in one piece, and prints what it reads, as
strings, up to "FIN\n".  The kernel cuts the stream of the server into reads of any length.  The
tags in the stream say what its bytes belong to; no step looks at them.

`decoded_of_whole`: in every run whose reads are clean, header and contents are printed, and nothing
is left unread.
-/

namespace LinuxNote.Web.Client

open Conc Text

/-- Text to print, what lies behind it in an array, or the closing line. -/
inductive Part
  | text
  | padding
  | fin
  deriving DecidableEq

def tag (p : Part) (bs : List UInt8) : List (Part × UInt8) := bs.map (p, ·)

/-- A whole array that holds a text. -/
def array (buf : List UInt8) : List (Part × UInt8) :=
  tag .text (text buf) ++ tag .padding (buf.drop (text buf).length)

def pageStream : Page → List (Part × UInt8)
  | .file chunks => tag .text chunks.flatten
  | .missing buf => array buf

/-- The bytes of a reply, tagged. -/
def stream (r : Reply) : List (Part × UInt8) :=
  array r.header ++ pageStream r.page ++ tag .fin r.fin

def FIN : List UInt8 := bytes "FIN\n"

/-- What the client writes. -/
def request (input : List UInt8) : List UInt8 := bytes "GET " ++ input ++ bytes " HTTP/1.1\r\n\r\n"

/-- What is to be printed: the header, and the file or the text for a missing one. -/
def replyText (d : Disk) (request : List UInt8) : List UInt8 :=
  heading (d.found request) request ++ (d.contents (fileName request)).getD notFound

/-- `overrun` is behind an access outside an array. -/
inductive Loc
  | prompt
  | reading
  | overrun
  deriving DecidableEq

/-- The arrays of the server, the buffer of the client, the bytes in transit, and for the last
request what has been printed and what should be. -/
structure Session where
  server : Locals
  buf : List UInt8
  transit : List (Part × UInt8)
  printed : List UInt8
  wanted : List UInt8
  loc : Loc

/-- A line from the terminal, for which the server sees a disk; or a read of `k` bytes. -/
inductive Act
  | fgets (input : List UInt8) (d : Disk)
  | read (k : ℕ)

/-- What `fgets` and the NUL over its last byte leave. -/
def IsLine (input : List UInt8) : Prop := 0 ∉ input ∧ 10 ∉ input ∧ input.length ≤ MAXLINE - 2

instance (input : List UInt8) : Decidable (IsLine input) := inferInstanceAs (Decidable (_ ∧ _ ∧ _))

/-- A `read` can deliver `k` of the bytes in transit. -/
def Delivers (k : ℕ) (transit : List (Part × UInt8)) : Prop :=
  0 < k ∧ k ≤ MAXLINE ∧ k ≤ transit.length

instance (k : ℕ) (transit : List (Part × UInt8)) : Decidable (Delivers k transit) :=
  inferInstanceAs (Decidable (_ ∧ _ ∧ _))

/-- The request is sent, and the server replies. -/
def Session.ask (input : List UInt8) (d : Disk) (s : Session) : Option Session := do
  let buf ← sprintf (request input) (List.replicate MAXLINE 0)
  let line ← str buf
  let (reply, server) ← s.server.serve d line
  some { server, buf
         transit := s.transit ++ (reply.map stream).getD []
         printed := []
         wanted := replyText d line
         loc := .reading }

/-- One round of the loop of `main`: `strstr` looks for the closing line. -/
def Session.receive (k : ℕ) (s : Session) : Option Session := do
  let buf := overlay ((s.transit.take k).map Prod.snd) s.buf
  let line ← str buf
  match line.dropInfix? FIN with
  | some (before, _) =>
      some { s with
        buf := buf.set before.length 0
        transit := s.transit.drop k
        printed := s.printed ++ before
        loc := .prompt }
  | none =>
      some { s with
        buf := List.replicate MAXLINE 0
        transit := s.transit.drop k
        printed := s.printed ++ line }

def step : Act → Session → Option Session
  | .fgets input d, s =>
      if s.loc = .prompt ∧ IsLine input then
        -- else "please input /..." is printed
        if input.head? = some 47 then some ((s.ask input d).getD { s with loc := .overrun })
        else some s
      else none
  | .read k, s =>
      if s.loc = .reading ∧ Delivers k s.transit then
        some ((s.receive k).getD { s with loc := .overrun })
      else none

/-- A new connection, with the arrays as the stacks have them. -/
def created (server : Locals) (buf : List UInt8) : Session := ⟨server, buf, [], [], [], .prompt⟩

def session (server : Locals) (buf : List UInt8) : Machine Session Act where
  init s := s = created server buf
  step := step

/-- No access outside an array; at the prompt all is printed and nothing unread; and before that
there is something to read. -/
structure Decoded (s : Session) : Prop where
  inside : s.loc ≠ .overrun
  atPrompt : s.loc = .prompt → s.printed = s.wanted ∧ s.transit = []
  whileReading : s.loc = .reading → s.printed <+: s.wanted ∧ s.transit ≠ []

/-! ## Clean reads -/

/-- The text that a read begins with. -/
def shown (seg : List (Part × UInt8)) : List UInt8 := (seg.takeWhile (·.1 = .text)).map Prod.snd

def behind (seg : List (Part × UInt8)) : List (Part × UInt8) := seg.dropWhile (·.1 = .text)

/-- Text without NUL and without "FIN\n", and then a NUL that the buffer still has, or padding from
its NUL on, or the closing line with room for a NUL. -/
def Clean (buf : List UInt8) (seg : List (Part × UInt8)) : Prop :=
  0 ∉ shown seg ∧ ¬ FIN <:+: shown seg ∧
    (behind seg = [] ∧ buf[seg.length]? = some 0 ∨
      ((behind seg).head? = some (.padding, 0) ∧ ∀ b ∈ behind seg, b.1 = .padding) ∨
      behind seg = tag .fin FIN ∧ seg.length < MAXLINE)

/-- The request fits in the buffer of the client, name and header fit in those of the server, and
reads are clean. -/
def Whole (a : Act) (s : Session) : Prop :=
  match a with
  | .fgets input d => input.head? = some 47 →
      (request input).length < MAXLINE ∧ Fits (d.found (request input)) (request input)
  | .read k => Clean s.buf (s.transit.take k)

instance (a : Act) (s : Session) : Decidable (Whole a s) := by
  unfold Whole Clean
  haveI (l : List (Part × UInt8)) : Decidable (∀ b ∈ l, b.1 = Part.padding) :=
    List.decidableBAll _ l
  cases a <;> infer_instance

/-! ## Tagged bytes -/

/-- The bytes of a stream that are text. -/
def texts (seg : List (Part × UInt8)) : List UInt8 := (seg.filter (·.1 = .text)).map Prod.snd

/-- The stream up to the closing line. -/
def body (r : Reply) : List (Part × UInt8) := array r.header ++ pageStream r.page

def NoFin (seg : List (Part × UInt8)) : Prop := ∀ b ∈ seg, b.1 ≠ .fin

theorem map_snd_tag (p : Part) (bs : List UInt8) : (tag p bs).map Prod.snd = bs := by
  simp [tag, Function.comp_def]

theorem fst_of_mem_tag {p : Part} {bs : List UInt8} {b : Part × UInt8} (h : b ∈ tag p bs) :
    b.1 = p := by
  obtain ⟨c, -, rfl⟩ := List.mem_map.1 h
  rfl

theorem map_snd_array (buf : List UInt8) : (array buf).map Prod.snd = buf := by
  rw [array, List.map_append, map_snd_tag, map_snd_tag]
  exact List.prefix_iff_eq_append.1 (List.takeWhile_prefix _)

/-- The tags do not change what is sent. -/
theorem map_snd_stream (r : Reply) : (stream r).map Prod.snd = r.sent := by
  rw [stream, List.map_append, List.map_append, map_snd_array, map_snd_tag, Reply.sent]
  cases r.page with
  | file chunks => rw [pageStream, map_snd_tag, Page.sent]
  | missing buf => rw [pageStream, map_snd_array, Page.sent]

theorem texts_append (seg seg' : List (Part × UInt8)) :
    texts (seg ++ seg') = texts seg ++ texts seg' := by
  rw [texts, List.filter_append, List.map_append]
  rfl

theorem texts_tag_text (bs : List UInt8) : texts (tag .text bs) = bs := by
  rw [texts, List.filter_eq_self.2 fun b hb => by simpa using fst_of_mem_tag hb, map_snd_tag]

theorem texts_eq_nil {seg : List (Part × UInt8)} (h : ∀ b ∈ seg, b.1 ≠ .text) : texts seg = [] := by
  rw [texts, List.filter_eq_nil_iff.2 fun b hb => by simpa using h b hb]
  rfl

theorem texts_array (buf : List UInt8) : texts (array buf) = text buf := by
  rw [array, texts_append, texts_tag_text, texts_eq_nil, List.append_nil]
  intro b hb
  rw [fst_of_mem_tag hb]
  decide

theorem noFin_tag {p : Part} (h : p ≠ .fin) (bs : List UInt8) : NoFin (tag p bs) :=
  fun _ hb => (fst_of_mem_tag hb).trans_ne h

theorem NoFin.append {seg seg' : List (Part × UInt8)} (h : NoFin seg) (h' : NoFin seg') :
    NoFin (seg ++ seg') := List.forall_mem_append.2 ⟨h, h'⟩

theorem noFin_array (buf : List UInt8) : NoFin (array buf) :=
  (noFin_tag (by decide) _).append (noFin_tag (by decide) _)

theorem noFin_body (r : Reply) : NoFin (body r) := by
  refine (noFin_array _).append ?_
  cases r.page with
  | file chunks => exact noFin_tag (by decide) _
  | missing buf => exact noFin_array _

theorem noNul_heading (found : Bool) (request : List UInt8) : 0 ∉ heading found request := by
  have status : 0 ∉ status found := by cases found <;> decide
  have type : 0 ∉ mime (fileName request) := by
    rw [← text_mime]
    exact noNul_text _
  unfold heading header
  simp only [List.mem_append, not_or]
  exact ⟨⟨⟨⟨noNul_text _, status⟩, by decide⟩, type⟩, by decide⟩

theorem texts_body (d : Disk) (request old : List UInt8) :
    texts (body (replyTo d request old)) = replyText d request := by
  have head := noNul_heading (d.found request) request
  have page : 0 ∉ notFound := by decide
  unfold replyTo answerTo body replyText Disk.contents
  cases d.chunks (fileName request) with
  | some chunks =>
      rw [texts_append, texts_array, text_overlay head]
      exact congrArg (_ ++ ·) (texts_tag_text _)
  | none =>
      rw [texts_append, texts_array, text_overlay head]
      exact congrArg (_ ++ ·) ((texts_array _).trans (text_overlay page _))

theorem stream_replyTo (d : Disk) (request old : List UInt8) :
    stream (replyTo d request old) = body (replyTo d request old) ++ tag .fin FIN := by
  unfold replyTo answerTo
  cases d.chunks (fileName request) <;> rfl

section Segments

variable {rest seg after : List (Part × UInt8)}

/-- A read that does not reach the closing line. -/
theorem exists_rest (h : rest ++ tag .fin FIN = seg ++ after) (no : NoFin seg) :
    ∃ rest', rest = seg ++ rest' ∧ after = rest' ++ tag .fin FIN := by
  rcases List.append_eq_append_iff.1 h with ⟨more, eq, fin⟩ | ⟨rest', eq, eq'⟩
  · cases more with
    | nil => exact ⟨[], by simpa using eq.symm, fin.symm⟩
    | cons b more =>
        have isFin : b.1 = .fin := fst_of_mem_tag (fin ▸ List.mem_append_left _ List.mem_cons_self)
        exact absurd isFin (no b (eq ▸ List.mem_append_right _ List.mem_cons_self))
  · exact ⟨rest', eq, eq'⟩

/-- A read that ends with it leaves nothing. -/
theorem rest_eq {x : List UInt8} (h : rest ++ tag .fin FIN = tag .text x ++ tag .fin FIN ++ after)
    (no : NoFin rest) : rest = tag .text x ∧ after = [] := by
  rw [List.append_assoc] at h
  obtain ⟨rest', rfl, eq⟩ := exists_rest h (noFin_tag (by decide) x)
  cases rest' with
  | nil => exact ⟨List.append_nil _, List.append_right_eq_self.1 eq⟩
  | cons b rest' =>
      obtain ⟨rfl, -⟩ := List.cons.inj eq
      exact absurd rfl (no (.fin, 70) (List.mem_append_right _ List.mem_cons_self))

theorem shown_append_behind (seg : List (Part × UInt8)) :
    tag .text (shown seg) ++ behind seg = seg := by
  have same : tag .text (shown seg) = seg.takeWhile (·.1 = .text) := by
    rw [tag, shown, List.map_map]
    refine (List.map_congr_left fun b hb => ?_).trans (List.map_id _)
    have isText : b.1 = .text := by simpa using List.mem_takeWhile_imp hb
    exact Prod.ext isText.symm rfl
  rw [same]
  exact List.takeWhile_append_dropWhile

end Segments

/-! ## Steps -/

section Receive

variable {buf : List UInt8} {seg : List (Part × UInt8)}

/-- The bytes that a read stores. -/
theorem map_snd_eq (seg : List (Part × UInt8)) :
    seg.map Prod.snd = shown seg ++ (behind seg).map Prod.snd := by
  nth_rewrite 1 [← shown_append_behind seg]
  rw [List.map_append, map_snd_tag]

/-- Text that ends at a NUL, of the buffer or of the padding. -/
theorem str_overlay_of_text (noNul : 0 ∉ shown seg)
    (h : behind seg = [] ∧ buf[seg.length]? = some 0 ∨ (behind seg).head? = some (.padding, 0)) :
    str (overlay (seg.map Prod.snd) buf) = some (shown seg) := by
  have bytes := map_snd_eq seg
  rcases h with ⟨none, zero⟩ | padding
  · rw [none, List.map_nil, List.append_nil] at bytes
    obtain ⟨lt, zero⟩ := List.getElem?_eq_some_iff.1 zero
    have rest : buf.drop seg.length = 0 :: buf.drop (seg.length + 1) :=
      zero ▸ List.drop_eq_getElem_cons lt
    rw [overlay, List.length_map, rest, bytes]
    exact str_append noNul _
  · obtain ⟨more, eq⟩ := List.head?_eq_some_iff.1 padding
    rw [eq, List.map_cons] at bytes
    rw [overlay, List.length_map, bytes, List.append_assoc, List.cons_append]
    exact str_append noNul _

/-- Only the text of such a read counts. -/
theorem texts_of_padding (h : ∀ b ∈ behind seg, b.1 = .padding) :
    NoFin seg ∧ texts seg = shown seg := by
  have noFin : NoFin (behind seg) := fun b hb => (h b hb).trans_ne (by decide)
  have none : texts (behind seg) = [] := texts_eq_nil fun b hb => (h b hb).trans_ne (by decide)
  constructor
  · rw [← shown_append_behind seg]
    exact (noFin_tag (by decide) _).append noFin
  · nth_rewrite 1 [← shown_append_behind seg]
    rw [texts_append, texts_tag_text, none, List.append_nil]

/-- The closing line is found where it is, and not earlier. -/
theorem str_overlay_of_fin (noNul : 0 ∉ shown seg) (noFin : ¬ FIN <:+: shown seg)
    (h : behind seg = tag .fin FIN) (zero : 0 ∈ buf.drop seg.length) :
    ∃ line rest, str (overlay (seg.map Prod.snd) buf) = some line ∧
      line.dropInfix? FIN = some (shown seg, rest) := by
  have bytes := map_snd_eq seg
  rw [h, map_snd_tag] at bytes
  have clean : 0 ∉ shown seg ++ FIN := by
    rw [List.mem_append, not_or]
    exact ⟨noNul, by decide⟩
  refine ⟨_, text (buf.drop seg.length), ?_, dropInfix?_append (by decide) noFin _⟩
  rw [overlay, List.length_map, bytes, str, if_pos (List.mem_append_right _ zero),
    text_append clean]

end Receive

section Steps

variable {s s' : Session} {input : List UInt8} {d : Disk} {a : Act} {k : ℕ}

/-- What is in transit ends with the closing line, and its text is what is still to be printed; the
last byte of the buffer is NUL. -/
structure Pending (s : Session) : Prop where
  rest : ∃ rest, s.transit = rest ++ tag .fin FIN ∧ NoFin rest ∧ s.printed ++ texts rest = s.wanted
  last : s.buf[MAXLINE - 1]? = some 0

structure Sound (s : Session) : Prop where
  server : s.server.Sized
  inside : s.loc ≠ .overrun
  atPrompt : s.loc = .prompt → s.printed = s.wanted ∧ s.transit = []
  whileReading : s.loc = .reading → Pending s

theorem Sound.decoded (h : Sound s) : Decoded s where
  inside := h.inside
  atPrompt := h.atPrompt
  whileReading reading := by
    obtain ⟨rest, eq, -, wanted⟩ := (h.whileReading reading).rest
    refine ⟨⟨_, wanted⟩, ?_⟩
    rw [eq]
    exact List.append_ne_nil_of_right_ne_nil _ (by decide)

theorem isGet_request (input : List UInt8) : IsGet (request input) := rfl

theorem ask_of_fits (sized : s.server.Sized) (noNul : 0 ∉ input)
    (small : (request input).length < MAXLINE)
    (fits : Fits (d.found (request input)) (request input)) :
    ∃ server, server.Sized ∧ s.ask input d = some
      { server
        buf := overlay (request input ++ [0]) (List.replicate MAXLINE 0)
        transit := s.transit ++ stream (replyTo d (request input) s.server.buf)
        printed := []
        wanted := replyText d (request input)
        loc := .reading } := by
  have clean : 0 ∉ request input := by
    unfold request
    simp only [List.mem_append, not_or]
    exact ⟨⟨by decide, noNul⟩, by decide⟩
  have print : sprintf (request input) (List.replicate MAXLINE 0) = _ :=
    sprintf_of_lt (by rwa [List.length_replicate])
  obtain ⟨server, sized', -, serve⟩ := serve_of_fits sized (isGet_request input) small.le fits
  refine ⟨server, sized', ?_⟩
  simp only [Session.ask, print, str_overlay, text_eq clean, serve, Option.bind_eq_bind,
    Option.bind_some, Option.map_some, Option.getD_some]

theorem Sound.ask (h : Sound s) (prompt : s.loc = .prompt) (noNul : 0 ∉ input)
    (small : (request input).length < MAXLINE)
    (fits : Fits (d.found (request input)) (request input)) :
    ∃ s', s.ask input d = some s' ∧ Sound s' := by
  obtain ⟨server, sized, ask⟩ := ask_of_fits (s := s) h.server noNul small fits
  refine ⟨_, ask, sized, by simp, by simp, fun _ => ⟨?_, ?_⟩⟩
  · rw [(h.atPrompt prompt).2, List.nil_append, stream_replyTo]
    exact ⟨_, rfl, noFin_body _, texts_body d _ _⟩
  · have inside : (request input).length < (List.replicate MAXLINE (0 : UInt8)).length := by
      rwa [List.length_replicate]
    show (overlay (request input ++ [0]) (List.replicate MAXLINE 0))[MAXLINE - 1]? = some 0
    rw [← overlay_set inside, List.getElem?_set]
    split
    · refine if_pos ?_
      rw [length_overlay inside.le, List.length_replicate]
      exact small
    · rw [getElem?_overlay (Nat.le_sub_one_of_lt small)]
      decide

theorem receive_of_text {line : List UInt8}
    (h : str (overlay ((s.transit.take k).map Prod.snd) s.buf) = some line)
    (no : line.dropInfix? FIN = none) :
    s.receive k = some { s with
      buf := List.replicate MAXLINE 0
      transit := s.transit.drop k
      printed := s.printed ++ line } := by
  simp only [Session.receive, h, no, Option.bind_eq_bind, Option.bind_some]

theorem receive_of_mark {line before rest : List UInt8}
    (h : str (overlay ((s.transit.take k).map Prod.snd) s.buf) = some line)
    (mark : line.dropInfix? FIN = some (before, rest)) :
    s.receive k = some { s with
      buf := (overlay ((s.transit.take k).map Prod.snd) s.buf).set before.length 0
      transit := s.transit.drop k
      printed := s.printed ++ before
      loc := .prompt } := by
  simp only [Session.receive, h, mark, Option.bind_eq_bind, Option.bind_some]

theorem Sound.receive (h : Sound s) (reading : s.loc = .reading)
    (clean : Clean s.buf (s.transit.take k)) : ∃ s', s.receive k = some s' ∧ Sound s' := by
  obtain ⟨⟨rest, transit, noFin, wanted⟩, last⟩ := h.whileReading reading
  obtain ⟨noNul, noMark, after⟩ := clean
  have split : rest ++ tag .fin FIN = s.transit.take k ++ s.transit.drop k := by
    rw [List.take_append_drop, transit]
  rcases or_assoc.2 after with more | ⟨fin, room⟩
  · -- the text is printed, and the rest is still to come
    have line := str_overlay_of_text noNul (more.imp_right And.left)
    have padding : ∀ b ∈ behind (s.transit.take k), b.1 = .padding := by
      rcases more with ⟨none, -⟩ | ⟨-, padding⟩
      · rw [none]
        exact fun b hb => absurd hb List.not_mem_nil
      · exact padding
    obtain ⟨no, text⟩ := texts_of_padding padding
    obtain ⟨rest', rfl, drop⟩ := exists_rest split no
    refine ⟨_, receive_of_text line (dropInfix?_eq_none noMark), h.server, h.inside, ?_, ?_⟩
    · exact fun prompt => absurd (reading.symm.trans prompt) (by decide)
    · refine fun _ => ⟨⟨rest', drop, fun b hb => noFin b (List.mem_append_right _ hb), ?_⟩, rfl⟩
      rw [texts_append, text, ← List.append_assoc] at wanted
      exact wanted
  · -- the closing line ends the reply
    have zero : 0 ∈ s.buf.drop (s.transit.take k).length := by
      apply List.mem_of_getElem? (i := MAXLINE - 1 - (s.transit.take k).length)
      rw [List.getElem?_drop, Nat.add_sub_cancel' (Nat.le_sub_one_of_lt room), last]
    obtain ⟨line, behind, hline, mark⟩ := str_overlay_of_fin noNul noMark fin zero
    rw [← shown_append_behind (s.transit.take k), fin] at split
    obtain ⟨rfl, drop⟩ := rest_eq split noFin
    rw [texts_tag_text] at wanted
    exact ⟨_, receive_of_mark hline mark, h.server, by simp, fun _ => ⟨wanted, drop⟩, by simp⟩

theorem Sound.step (h : Sound s) (ok : Whole a s) (hs : Client.step a s = some s') : Sound s' := by
  cases a with
  | fgets input d =>
      obtain ⟨⟨prompt, isLine⟩, hs⟩ := Option.ite_none_right_eq_some.1 hs
      split at hs
      · next slash =>
          obtain ⟨small, fits⟩ := ok slash
          obtain ⟨s₁, ask, sound⟩ := h.ask prompt isLine.1 small fits
          rw [ask, Option.getD_some, Option.some.injEq] at hs
          exact hs ▸ sound
      · obtain rfl := Option.some.inj hs
        exact h
  | read k =>
      obtain ⟨⟨reading, -⟩, hs⟩ := Option.ite_none_right_eq_some.1 hs
      obtain ⟨s₁, receive, sound⟩ := h.receive reading ok
      rw [receive, Option.getD_some, Option.some.injEq] at hs
      exact hs ▸ sound

end Steps

/-- For every input, disk and way to cut the stream, in every run whose steps are whole: what is
printed for a request is the header and the contents, and nothing is left unread at the prompt. -/
theorem decoded_of_whole {server : Locals} (sized : server.Sized) {buf : List UInt8}
    {as : List Act} {s : Session} (h : (session server buf).run as (created server buf) = some s)
    (whole : (session server buf).Meets Whole as (created server buf)) : Decoded s := by
  have sound : Sound (created server buf) := ⟨sized, by simp [created], fun _ => ⟨rfl, rfl⟩,
    by simp [created]⟩
  exact (Machine.invariant_of_meets (fun a s s' h ok hs => h.step ok hs) sound h whole).decoded

/-- "GET /" for a file with "hi\n", read in two pieces, the second with the closing line. -/
def getHi : List Act :=
  [.fgets [47] (Disk.of fun _ => some [104, 105, 10]), .read 200, .read 2, .read 5]

theorem decoded_of_whole_getHi : ∃ s,
    (session (fresh 0) []).run getHi (created (fresh 0) []) = some s ∧ s.loc = .prompt ∧
      Decoded s := by
  have prompt : ((session (fresh 0) []).run getHi (created (fresh 0) [])).map Session.loc =
      some .prompt := by decide +kernel
  obtain ⟨s, run, loc⟩ := Option.map_eq_some_iff.1 prompt
  exact ⟨s, run, loc, decoded_of_whole (sized_fresh 0) run (by decide +kernel)⟩

/-- "GET /" without files, and a first read of ten bytes. -/
def tenBytes : List Act :=
  [.fgets [47] (Disk.of fun _ => none), .read 10, .read 190, .read 200, .read 4]

/-- The rest of the request, "/1.1\r\n\r\n", is printed behind them. -/
theorem not_decoded_tenBytes : ∃ s, (session (fresh 0) []).Reachable s ∧ s.loc = .prompt ∧
    s.printed = bytes "HTTP/1.1 4" ++ bytes "/1.1\r\n\r\n" ++
      bytes "04 Not Found\r\nContent-Type: text/html\r\n\r\n" ++ notFound ∧ ¬ Decoded s := by
  have final : ((session (fresh 0) []).run tenBytes (created (fresh 0) [])).map
      (fun s => (s.loc, s.printed, s.wanted)) = some (.prompt,
        bytes "HTTP/1.1 4" ++ bytes "/1.1\r\n\r\n" ++
          bytes "04 Not Found\r\nContent-Type: text/html\r\n\r\n" ++ notFound,
        bytes "HTTP/1.1 404 Not Found\r\nContent-Type: text/html\r\n\r\n" ++ notFound) := by
    decide +kernel
  obtain ⟨s, run, eq⟩ := Option.map_eq_some_iff.1 final
  simp only [Prod.mk.injEq] at eq
  obtain ⟨loc, printed, wanted⟩ := eq
  refine ⟨s, Machine.reachable_of_run tenBytes rfl run, loc, printed, fun h => ?_⟩
  have same := (h.atPrompt loc).1
  rw [printed, wanted] at same
  exact absurd same (by decide +kernel)

end LinuxNote.Web.Client
