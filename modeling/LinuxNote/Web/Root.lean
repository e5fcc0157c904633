import LinuxNote.Text.Path
import LinuxNote.Web.Server

/-!
# The document root of `Webserver.c`

`server` puts the name of the request behind `WEB_PATH`, without a separator, and opens the result.
`inTree_iff_inside` says which names stay in the tree below `WEB_PATH`: not those with too many
`..`, and not those that make another name out of its last component.
-/

namespace LinuxNote.Web

open Text

/-- From `strcmp` to `open`: the path that is opened. -/
def Locals.opened (l : Locals) : Option (List UInt8) := do
  let url ← str l.buf
  let path ← sprintf (target url) l.path
  str path

/-- The path that is opened for a request. -/
def Locals.openedFor (request : List UInt8) (l : Locals) : Option (List UInt8) :=
  if IsGet request then
    (Locals.parse request.length { l with buf := overlay request l.buf }).opened
  else none

/-- The directory that a path leads to, or its file lies in, is below the root. -/
def InTree (path : List UInt8) : Prop := follow [] (moves WEB_PATH) <+: follow [] (moves path)

instance (path : List UInt8) : Decidable (InTree path) := inferInstanceAs (Decidable (_ <+: _))

/-- From `WEB_PATH`: never above it, or back in again. -/
def FromRoot (r : Route (List UInt8)) : Prop :=
  r.ups = 0 ∨ r.ups = 1 ∧ [bytes "tmp"] <+: r.names ∨
    2 ≤ r.ups ∧ [bytes "var", bytes "tmp"] <+: r.names

/-- From the directory above `WEB_PATH`. -/
def FromParent (r : Route (List UInt8)) : Prop :=
  r.ups = 0 ∧ [bytes "tmp"] <+: r.names ∨ 1 ≤ r.ups ∧ [bytes "var", bytes "tmp"] <+: r.names

/-- A name that begins with a slash is followed from `WEB_PATH` on, another one is glued to the last
component of `WEB_PATH`. -/
def Inside : List UInt8 → Prop
  | [] => True
  | c :: name =>
      if c = slash then FromRoot (route (moves name))
      else FromParent (route (moves (bytes "tmp" ++ c :: name)))

instance (r : Route (List UInt8)) : Decidable (FromRoot r) :=
  inferInstanceAs (Decidable (_ ∨ _ ∨ _))

instance (r : Route (List UInt8)) : Decidable (FromParent r) :=
  inferInstanceAs (Decidable (_ ∨ _))

instance : DecidablePred Inside
  | [] => isTrue trivial
  | c :: name => inferInstanceAs (Decidable (if c = slash then FromRoot (route (moves name))
      else FromParent (route (moves (bytes "tmp" ++ c :: name)))))

/-! ## What is opened -/

section Opened

variable {l : Locals} {d d' : Disk} {r : Request} {name : List UInt8}

/-- The server looks at no other file. -/
theorem answer_eq_of_opened (h : l.opened = some name) (same : d.chunks name = d'.chunks name) :
    l.answer d = l.answer d' := by
  simp only [Locals.opened, Option.bind_eq_bind, Option.bind_eq_some_iff] at h
  obtain ⟨url, hurl, path, hpath, hname⟩ := h
  simp only [Locals.answer, hurl, hpath, hname, Option.bind_eq_bind, Option.bind_some, same]

theorem serve_eq_of_opened (h : l.openedFor r.bytes = some name)
    (same : d.chunks name = d'.chunks name) : l.serve d r.bytes = l.serve d' r.bytes := by
  obtain ⟨get, opened⟩ := Option.ite_none_right_eq_some.1 h
  rw [Locals.serve, Locals.serve, if_pos get, if_pos get, answer_eq_of_opened opened same]

theorem opened_of_length (sized : l.Sized) (get : IsGet r.bytes) :
    l.openedFor r.bytes =
      if (url r.bytes).length ≤ 191 then some (fileName r.bytes) else none := by
  obtain ⟨parsed, buf, -⟩ := sized.parsed get r.bounded
  have hurl : str (Locals.parse r.bytes.length { l with buf := overlay r.bytes l.buf }).buf =
      some (url r.bytes) := by
    rw [buf]
    exact str_overlay _ _
  rw [Locals.openedFor, if_pos get]
  split
  · next fits =>
      have path := parsed.name (length_fileName_iff.2 fits)
      simp only [Locals.opened, hurl, path, Option.bind_eq_bind, Option.bind_some, str_overlay,
        text_fileName]
  · next large =>
      have path : sprintf (target (url r.bytes)) (Locals.parse r.bytes.length
          { l with buf := overlay r.bytes l.buf }).path = none :=
        if_neg fun h => large (length_fileName_iff.1 (h.trans_eq parsed.path))
      simp only [Locals.opened, hurl, path, Option.bind_eq_bind, Option.bind_some, Option.bind_none]

end Opened

/-! ## Where it leads -/

section InTree

variable {r : Route (List UInt8)} {u : List UInt8}

theorem root_eq : follow [] (moves WEB_PATH) = [bytes "var", bytes "tmp"] := by decide +kernel

theorem fromRoot_iff :
    [bytes "var", bytes "tmp"] <+: r.dest [bytes "var", bytes "tmp"] ↔ FromRoot r := by
  obtain ⟨ups, names⟩ := r
  unfold FromRoot Route.dest
  match ups with
  | 0 => simp
  | 1 => simp
  | n + 2 => simp

theorem fromParent_iff : [bytes "var", bytes "tmp"] <+: r.dest [bytes "var"] ↔ FromParent r := by
  obtain ⟨ups, names⟩ := r
  unfold FromParent Route.dest
  match ups with
  | 0 => simp
  | n + 1 => simp

theorem inTree_append (u : List UInt8) : InTree (WEB_PATH ++ u) ↔ Inside u := by
  unfold InTree
  cases u with
  | nil =>
      rw [List.append_nil]
      exact iff_of_true (List.prefix_refl _) trivial
  | cons c name =>
      by_cases h : c = slash
      · rw [Inside, if_pos h, h, moves_append, follow_append, root_eq, follow_eq, fromRoot_iff]
      · -- the last component of the root and the name are one component
        have glued : WEB_PATH ++ c :: name = bytes "/var" ++ slash :: (bytes "tmp" ++ c :: name) :=
          rfl
        have parent : follow [] (moves (bytes "/var")) = [bytes "var"] := by decide +kernel
        rw [Inside, if_neg h, root_eq, glued, moves_append, follow_append, parent, follow_eq,
          fromParent_iff]

theorem inTree_target (u : List UInt8) : InTree (target u) ↔ Inside u := by
  unfold target
  split
  · next h =>
      subst h
      decide +kernel
  · exact inTree_append u

end InTree

/-- For every request: a path is opened, and it is in the tree, exactly when the name is not too
long and stays inside. -/
theorem inTree_iff_inside {l : Locals} (sized : l.Sized) {r : Request} (get : IsGet r.bytes) :
    (∃ path, l.openedFor r.bytes = some path ∧ InTree path) ↔
      (url r.bytes).length ≤ 191 ∧ Inside (url r.bytes) := by
  rw [opened_of_length sized get, ← inTree_target]
  split
  · next fits => simp [fits, fileName]
  · next large => simp [large]

/-- "GET /a/../b HTTP/1.1\r\n\r\n" -/
def getInside : Request where
  bytes := bytes "GET /a/../b HTTP/1.1\r\n\r\n"
  nonempty := by decide
  bounded := by decide

theorem inTree_iff_inside_getInside :
    ∃ path, (fresh 0).openedFor getInside.bytes = some path ∧ InTree path :=
  (inTree_iff_inside (sized_fresh 0) (by decide)).2 (by decide +kernel)

/-- "GET /../../etc/passwd HTTP/1.1\r\n\r\n" -/
def getPasswd : Request where
  bytes := bytes "GET /../../etc/passwd HTTP/1.1\r\n\r\n"
  nonempty := by decide
  bounded := by decide

/-- "/var/tmp/../../etc/passwd" is opened. -/
theorem not_inTree_getPasswd : IsGet getPasswd.bytes ∧
    (fresh 0).openedFor getPasswd.bytes = some (bytes "/var/tmp/../../etc/passwd") ∧
    follow [] (moves (bytes "/var/tmp/../../etc/passwd")) = [bytes "etc", bytes "passwd"] ∧
    ¬ InTree (bytes "/var/tmp/../../etc/passwd") := by
  refine ⟨by decide, ?_, ?_, ?_⟩ <;> decide +kernel

end LinuxNote.Web
