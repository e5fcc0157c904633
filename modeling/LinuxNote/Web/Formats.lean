import LinuxNote.Web.Client

/-!
# The arrays of the Web programs

Every `sprintf` of `Webserver.c` and `Webclient.c` goes into an array of `MAXLINE` bytes, and no
length is tested.  `fit_iff` says for which requests and which lines all of them fit.
-/

namespace LinuxNote.Web

open Text

theorem sprintf_eq_none_iff {s buf : List UInt8} :
    sprintf s buf = none ↔ ¬ s.length < buf.length := by
  rw [sprintf, ite_eq_right_iff]
  exact ⟨fun h lt => Option.some_ne_none _ (h lt), fun h lt => absurd lt h⟩

/-- What `fgets(input, MAXLINE, stdin)` can store before its NUL. -/
structure Line where
  bytes : List UInt8
  nonempty : bytes ≠ []
  bounded : bytes.length ≤ MAXLINE - 1
  single : 10 ∉ bytes.dropLast

namespace Line

/-- The string after `input[strlen(input) - 1] = '\0'`. -/
def input (t : Line) : List UInt8 := (text t.bytes).dropLast

/-- The line is taken for a path: `input[0] == '/'`. -/
def IsPath (t : Line) : Prop := t.input.head? = some 47

instance (t : Line) : Decidable t.IsPath := inferInstanceAs (Decidable (_ = _))

/-- One round of the loop of `Webclient.c` up to the `write`: nothing to send, or `buf`; no result
where the request overflows it. -/
def compose (t : Line) : Option (Option (List UInt8)) :=
  if t.IsPath then (sprintf (Client.request t.input) (List.replicate MAXLINE 0)).map some
  else some none

theorem length_request (input : List UInt8) :
    (Client.request input).length = input.length + 17 := by
  unfold Client.request
  simp only [List.length_append]
  show 4 + _ + 13 = _
  omega

theorem compose_iff (t : Line) : t.compose ≠ none ↔ ¬ t.IsPath ∨ t.input.length ≤ 182 := by
  unfold compose
  by_cases path : t.IsPath
  · have room : (Client.request t.input).length < (List.replicate MAXLINE (0 : UInt8)).length ↔
        t.input.length ≤ 182 := by
      rw [length_request, List.length_replicate]
      unfold MAXLINE
      omega
    rw [if_pos path, Ne, Option.map_eq_none_iff, sprintf_eq_none_iff, not_not, room,
      or_iff_right (not_not_intro path)]
  · rw [if_neg path]
    exact iff_of_true (Option.some_ne_none _) (Or.inl path)

end Line

theorem serve_iff {l : Locals} (sized : l.Sized) (d : Disk) (r : Request) :
    l.serve d r.bytes ≠ none ↔ ¬ IsGet r.bytes ∨ Fits (d.found r.bytes) r.bytes := by
  by_cases get : IsGet r.bytes
  · by_cases fits : Fits (d.found r.bytes) r.bytes
    · obtain ⟨l', -, -, serve⟩ := serve_of_fits sized get r.bounded fits
      rw [serve]
      exact iff_of_true (Option.some_ne_none _) (Or.inr fits)
    · have overflow := serve_of_not_fits sized get r.bounded fits
      refine iff_of_false (fun h => h overflow) ?_
      rintro (other | other)
      · exact other get
      · exact fits other
  · rw [serve_of_not_isGet get]
    exact iff_of_true (Option.some_ne_none _) (Or.inl get)

/-- For every request, whatever the arrays hold, and for every line: nothing overflows exactly when
URL, version and path are short. -/
theorem fit_iff (l : Locals) (sized : l.Sized) (d : Disk) (r : Request) (t : Line) :
    (l.serve d r.bytes ≠ none ↔ ¬ IsGet r.bytes ∨
        (url r.bytes).length ≤ 191 ∧ (version r.bytes).length ≤ room (d.found r.bytes)) ∧
      (t.compose ≠ none ↔ ¬ t.IsPath ∨ t.input.length ≤ 182) := by
  rw [← fits_iff]
  exact ⟨serve_iff sized d r, t.compose_iff⟩

/-- The first 200 bytes of a request for a long URL. -/
def longUrl : Request where
  bytes := bytes "GET /" ++ List.replicate 195 97
  nonempty := by decide
  bounded := by decide +kernel

/-- A path of 190 bytes. -/
def longLine : Line where
  bytes := 47 :: List.replicate 189 97 ++ [10]
  nonempty := by decide
  bounded := by decide +kernel
  single := by decide

/-- "/a\n" -/
def shortLine : Line where
  bytes := bytes "/a\n"
  nonempty := by decide
  bounded := by decide
  single := by decide

/-- A short request and a short line. -/
theorem fit_iff_getRoot :
    (fresh 0).serve (Disk.of fun _ => none) getRoot.bytes ≠ none ∧ shortLine.compose ≠ none := by
  obtain ⟨server, client⟩ :=
    fit_iff (fresh 0) (sized_fresh 0) (Disk.of fun _ => none) getRoot shortLine
  exact ⟨server.2 (Or.inr (by decide +kernel)), client.2 (Or.inr (by decide))⟩

/-- Both overflow: the path in the server, the request in the client. -/
theorem not_fit_long :
    ¬ ((∀ l : Locals, l.Sized → ∀ (d : Disk) (r : Request), l.serve d r.bytes ≠ none) ∧
      ∀ t : Line, t.compose ≠ none) ∧
    (fresh 0).serve (Disk.of fun _ => none) longUrl.bytes = none ∧ longLine.compose = none := by
  have long : ¬ Fits ((Disk.of fun _ => none).found longUrl.bytes) longUrl.bytes := by
    rw [fits_iff]
    exact fun h => absurd h.1 (by decide +kernel)
  have server : (fresh 0).serve (Disk.of fun _ => none) longUrl.bytes = none :=
    serve_of_not_fits (sized_fresh 0) (by decide) longUrl.bounded long
  exact ⟨fun h => h.1 _ (sized_fresh 0) _ longUrl server, server, by decide +kernel⟩

end LinuxNote.Web
