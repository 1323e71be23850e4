import ContentTypes.Files.FilePath
import ContentTypes.Proofs.Text.CodePoint
import Mathlib.Algebra.GroupWithZero.Nat

/-!
# Paths and their texts

A path is read from a text by its slashes. The names that come of it are proper: none is empty or a dot, and
none has a slash in it. A path of proper names below the root is read back from its text
(`FilePath.ofText_display`), and the text of a path has bytes exactly if all its names have
(`FilePath.encodeFault?_display`).
-/

set_option autoImplicit false

namespace ContentTypes.FilePath

/-- Whether a name is one that a text can have between its slashes. -/
def IsProper (name : String) : Prop := isName name.toList = true ∧ '/' ∉ name.toList

/-! ## Names of a text -/

theorem notMem_of_mem_splitSlashes {text part : List Char} (h : part ∈ splitSlashes text) : '/' ∉ part := by
  induction text generalizing part with
  | nil =>
      rw [splitSlashes, List.mem_singleton] at h
      simp [h]
  | cons c rest ih =>
      rw [splitSlashes] at h
      by_cases hc : c = '/'
      · rw [if_pos hc, List.mem_cons] at h
        rcases h with rfl | h
        · exact List.not_mem_nil
        · exact ih h
      · rw [if_neg hc] at h
        have hcons {part : List Char} (hpart : '/' ∉ part) : '/' ∉ c :: part := by
          simp [hpart, Ne.symm hc]
        cases hparts : splitSlashes rest with
        | nil =>
            rw [hparts, List.mem_singleton] at h
            exact h ▸ hcons List.not_mem_nil
        | cons first parts =>
            rw [hparts] at ih
            simp only [hparts, List.mem_cons] at h
            rcases h with rfl | h
            · exact hcons (ih List.mem_cons_self)
            · exact ih (List.mem_cons_of_mem _ h)

theorem isProper_of_mem_ofText {text name : String} (h : name ∈ (ofText text).names) : IsProper name := by
  obtain ⟨part, hpart, rfl⟩ := List.mem_map.mp h
  obtain ⟨hpart, hname⟩ := List.mem_filter.mp hpart
  rw [IsProper, String.toList_ofList]
  exact ⟨hname, notMem_of_mem_splitSlashes hpart⟩

/-! ## The text of names -/

theorem splitSlashes_of_notMem {part : List Char} (h : '/' ∉ part) : splitSlashes part = [part] := by
  induction part with
  | nil => rfl
  | cons c part ih =>
      obtain ⟨hc, hpart⟩ : '/' ≠ c ∧ '/' ∉ part := by simpa [not_or] using h
      rw [splitSlashes, if_neg (Ne.symm hc), ih hpart]

/-- A part without slashes ends at the slash behind it. -/
theorem splitSlashes_append {part : List Char} (h : '/' ∉ part) (rest : List Char) :
    splitSlashes (part ++ '/' :: rest) = part :: splitSlashes rest := by
  induction part with
  | nil => rw [List.nil_append, splitSlashes, if_pos rfl]
  | cons c part ih =>
      obtain ⟨hc, hpart⟩ : '/' ≠ c ∧ '/' ∉ part := by simpa [not_or] using h
      rw [List.cons_append, splitSlashes, if_neg (Ne.symm hc), ih hpart]

theorem toList_intercalate_slash (name name' : String) (names : List String) :
    (String.intercalate "/" (name :: name' :: names)).toList =
      name.toList ++ '/' :: (String.intercalate "/" (name' :: names)).toList := by
  rw [String.intercalate_cons_cons]
  simp

theorem splitSlashes_intercalate {name : String} {names : List String}
    (h : ∀ n ∈ name :: names, '/' ∉ n.toList) :
    splitSlashes (String.intercalate "/" (name :: names)).toList = (name :: names).map String.toList := by
  induction names generalizing name with
  | nil =>
      rw [String.intercalate_singleton]
      exact splitSlashes_of_notMem (h name (List.mem_singleton_self name))
  | cons name' names ih =>
      obtain ⟨hname, hnames⟩ := List.forall_mem_cons.mp h
      rw [toList_intercalate_slash, splitSlashes_append hname, ih hnames]
      rfl

/-- Names that are put together behind a slash start with no other one. -/
theorem rootOf_intercalate {names : List String} (h : ∀ name ∈ names, IsProper name) :
    rootOf ('/' :: (String.intercalate "/" names).toList) = .root := by
  have hfirst : (String.intercalate "/" names).toList.takeWhile (· = '/') = [] := by
    cases names with
    | nil => rfl
    | cons name names =>
        -- a proper name is not empty, and its first character is no slash
        obtain ⟨hname, hslash⟩ := h name List.mem_cons_self
        cases hchars : name.toList with
        | nil =>
            rw [hchars] at hname
            cases hname
        | cons c rest =>
            rw [hchars, List.mem_cons, not_or] at hslash
            have hc : ¬c = '/' := Ne.symm hslash.1
            cases names with
            | nil => simp [String.intercalate_singleton, hchars, hc]
            | cons name' names => simp [String.intercalate_cons_cons, hchars, hc]
  rw [rootOf, List.takeWhile_cons_of_pos (by decide), hfirst]
  rfl

/-! ## Names that have bytes -/

/-- Whether a name can be one of a file, but for its length: it has bytes and no null character. -/
structure IsUsable (name : String) : Prop where
  encodable : Text.encodeFault? name = none
  noNull : hasNull name = false

theorem encodeFault?_intercalate (names : List String) :
    Text.encodeFault? (String.intercalate "/" names) = none ↔
      ∀ name ∈ names, Text.encodeFault? name = none := by
  induction names with
  | nil => exact iff_of_true rfl (List.forall_mem_nil _)
  | cons name names ih =>
      cases names with
      | nil => rw [String.intercalate_singleton, List.forall_mem_singleton]
      | cons name' names =>
          rw [Text.encodeFault?_of_append_cons (by decide) (by decide)
            (toList_intercalate_slash name name' names), ih]
          simp only [List.forall_mem_cons]

/-- The text of a path has bytes exactly if all its names have. -/
theorem encodeFault?_display (p : FilePath) :
    Text.encodeFault? p.display = none ↔ ∀ name ∈ p.names, Text.encodeFault? name = none := by
  obtain ⟨start, names⟩ := p
  have hslash (text : String) : Text.encodeFault? ("/" ++ text) = none ↔ Text.encodeFault? text = none := by
    have hcut : ("/" ++ text).toList = "".toList ++ '/' :: text.toList := by simp
    rw [Text.encodeFault?_of_append_cons (by decide) (by decide) hcut]
    exact and_iff_right rfl
  rw [← encodeFault?_intercalate]
  cases start with
  | current =>
      cases names with
      | nil => exact iff_of_true rfl rfl
      | cons name names => simp [display, PathRoot.text]
  | root => exact hslash _
  | doubleRoot =>
      have hdouble : (⟨.doubleRoot, names⟩ : FilePath).display =
          "/" ++ ("/" ++ String.intercalate "/" names) := by
        rw [← String.append_assoc]
        rfl
      rw [hdouble, hslash, hslash]

theorem size_intercalate {names : List String} (h : names ≠ []) :
    Text.size (String.intercalate "/" names) + 1 = (names.map fun name => Text.size name + 1).sum := by
  induction names with
  | nil => exact absurd rfl h
  | cons name names ih =>
      cases names with
      | nil => simp
      | cons name' names =>
          rw [Text.size_of_append_cons (by decide) (by decide) (toList_intercalate_slash name name' names),
            List.map_cons, List.sum_cons, ← ih nofun]
          show Text.size name + (1 + _) + 1 = _
          omega

/-- The size of the text of a relative path: that of each of its names with a slash, but for the last slash. -/
theorem size_display {p : FilePath} (hroot : p.root = .current) (h : p.names ≠ []) :
    Text.size p.display + 1 = (p.names.map fun name => Text.size name + 1).sum := by
  obtain ⟨start, names⟩ := p
  cases hroot
  rw [← size_intercalate h]
  cases names with
  | nil => exact absurd rfl h
  | cons name names => simp [display, PathRoot.text]

/-! ## Paths read back -/

/-- **A path of proper names below the root is read from its text.** -/
theorem ofText_display {names : List String} (h : ∀ name ∈ names, IsProper name) :
    ofText (⟨.root, names⟩ : FilePath).display = ⟨.root, names⟩ := by
  have htext : (⟨.root, names⟩ : FilePath).display.toList =
      '/' :: (String.intercalate "/" names).toList := by
    simp [display, PathRoot.text]
  rw [ofText, htext, rootOf_intercalate h, splitSlashes, if_pos rfl]
  -- the part in front of the first slash is empty, and the only one that is no name
  congr 1
  cases names with
  | nil => rfl
  | cons name names =>
      have hparts : ((name :: names).map String.toList).filter isName = (name :: names).map String.toList := by
        rw [List.filter_eq_self]
        exact List.forall_mem_map.mpr fun n hn => (h n hn).1
      rw [splitSlashes_intercalate fun n hn => (h n hn).2, List.filter_cons_of_neg (by decide), hparts,
        List.map_map]
      simp [Function.comp_def, String.ofList_toList]

end ContentTypes.FilePath
