import ContentTypes.Proofs.Schema.Form
import ContentTypes.Proofs.Value.Reordered
import ContentTypes.TypeScript.Module

/-!
# Settings and the objects they are taken from

Settings that can be converted are given back by the object that they are converted to. An object of settings
is read by names: each setting has the value that stands under its name, or else its initial value, in
whatever order the members stand (`Settings.setAll_eq_given`).

Members that name no setting are passed over, but for four names that mean something else
(`Settings.reserved`). With one of these an object that could be converted no longer can be.
-/

set_option autoImplicit false

namespace ContentTypes

/-! ## Names of settings -/

/-- The value that sets a mode. -/
def ModeSetting.value : ModeSetting → Value
  | .known mode => .str mode.name
  | .other v => v

/-- The settings of an output by name. -/
def OutputSettings.named : List (String × (OutputSettings → Value)) :=
  [("target_dir", fun o => o.targetDir), ("file_name", fun o => o.fileName),
    ("artifacts_dir", fun o => o.artifactsDir), ("mode", fun o => o.mode.value),
    ("validate_before_write", fun o => o.validateBeforeWrite), ("atomic_write", fun o => o.atomicWrite)]

/-! ## Outputs by name -/

/-- What is found under each name is all that sets an output. -/
theorem OutputSettings.ofMembers_congr {members members' : Members}
    (h : ∀ name, members.lookup name = members'.lookup name) : ofMembers members = ofMembers members' := by
  simp only [ofMembers, h]

theorem ModeSetting.value_of_ofValue {v : Value} {mode : ModeSetting} (h : ofValue v = .ok mode) :
    mode.value = v := by
  unfold ofValue at h
  split at h
  · rename_i name
    split at h
    · rename_i mode' hname
      cases h
      have hfound := List.find?_some hname
      rw [value, beq_iff_eq.mp hfound]
    · cases h
  · cases h
    rfl

/-- Each setting of an output has the value under its name, or its initial value. -/
theorem OutputSettings.named_of_ofMembers {members : Members} {o : OutputSettings}
    (h : ofMembers members = .ok o) :
    ∀ e ∈ named, e.2 o = (members.lookup e.1).getD (e.2 initial) := by
  unfold ofMembers at h
  cases hlookup : members.lookup "mode" with
  | none =>
      rw [hlookup] at h
      cases h
      simp [named, hlookup]
  | some v =>
      rw [hlookup] at h
      obtain ⟨mode, hmode, h⟩ := bind_eq_ok_iff.mp h
      cases h
      simp [named, hlookup, ModeSetting.value_of_ofValue hmode]

namespace Settings

/-- The settings apart from the output by name. -/
def named : List (String × (Settings → Value)) :=
  [("add_generation_comment", fun s => s.addGenerationComment),
    ("markdown_import_module", fun s => s.markdownImportModule),
    ("global_interface_prefix", fun s => s.globalInterfacePrefix),
    ("generate_schema_json", fun s => s.generateSchemaJson)]

/-- The names of all settings. -/
def allNames : List String := named.map (·.1) ++ ["output"]

/-- The names that are those of no setting and not passed over either. -/
def reserved : List String := ["to_dict", "__dict__", "__class__", "__weakref__"]

/-- Whether there are settings for the output, with a mode that has a name, and nothing stands in place of
the conversion. -/
def Convertible (s : Settings) : Prop :=
  s.conversion = none ∧ ∃ output mode, s.output = .settings output ∧ output.mode = .known mode

variable {s s' : Settings} {members members' : Members} {name : String} {v : Value}

/-- The settings that can be converted are given back by what they are converted to. -/
theorem Convertible.ofValue_toValue (h : s.Convertible) :
    ∃ v, s.toValue = .ok v ∧ ofValue v = .ok s := by
  obtain ⟨hconversion, output, mode, houtput, hmode⟩ := h
  obtain ⟨_, _, _, _, _, _⟩ := s
  obtain ⟨_, _, _, _, _, _⟩ := output
  cases hconversion
  cases houtput
  cases hmode
  refine ⟨_, rfl, ?_⟩
  cases mode <;> rfl

theorem convertible_of_toValue (h : s.toValue = .ok v) : s.Convertible := by
  obtain ⟨_, _, _, _, output, conversion⟩ := s
  cases conversion with
  | some w => cases h
  | none =>
      cases output with
      | other w => cases h
      | missing => cases h
      | settings o =>
          obtain ⟨_, _, _, mode, _, _⟩ := o
          cases mode with
          | other w => cases h
          | known mode => exact ⟨rfl, _, mode, rfl, rfl⟩

/-! ## Settings by name -/

/-- The output once members set it, by the value under its name. -/
def givenOutput (output : Output) (members : Members) : Except SettingsError Output :=
  match members.lookup "output" with
  | some v => output.set v
  | none => .ok output

/-- The settings once members set them, each by the value under its name. -/
def given (s : Settings) (members : Members) : Except SettingsError Settings :=
  (givenOutput s.output members).map fun output =>
    { s with
      addGenerationComment :=
        (members.lookup "add_generation_comment").getD s.addGenerationComment
      markdownImportModule :=
        (members.lookup "markdown_import_module").getD s.markdownImportModule
      globalInterfacePrefix :=
        (members.lookup "global_interface_prefix").getD s.globalInterfacePrefix
      generateSchemaJson := (members.lookup "generate_schema_json").getD s.generateSchemaJson
      output := output }

/-- Members that name settings, each once, set them in any order. -/
theorem setAll_eq_given (hkeys : (members.map (·.1)).Nodup) (hnames : members.map (·.1) ⊆ allNames) :
    s.setAll members = s.given members := by
  induction members generalizing s with
  | nil => rfl
  | cons member members ih =>
      obtain ⟨name, v⟩ := member
      rw [List.map_cons, List.nodup_cons] at hkeys
      rw [List.map_cons, List.cons_subset] at hnames
      have hrest : members.lookup name = none := by
        rw [List.lookup_eq_none_iff]
        intro m hm
        have hne : name ≠ m.1 := fun heq => hkeys.1 (List.mem_map.mpr ⟨m, hm, heq.symm⟩)
        simpa using hne
      have hstep (s' : Settings) : s'.setAll members = s'.given members := ih hkeys.2 hnames.2
      have hname := hnames.1
      simp only [allNames, named, List.map_cons, List.map_nil, List.cons_append, List.nil_append,
        List.mem_cons, List.not_mem_nil, or_false] at hname
      simp only [setAll, hstep]
      rcases hname with rfl | rfl | rfl | rfl | rfl
      case inr.inr.inr.inr =>
        cases hset : s.output.set v with
        | error e => simp [set, given, givenOutput, hset, bind, Except.bind, Except.map]
        | ok output =>
            simp [set, given, givenOutput, hrest, hset, List.lookup_cons, bind, Except.bind, Except.map]
      all_goals simp [set, given, givenOutput, hrest, List.lookup_cons, bind, Except.bind]

/-- The members of the output in an object of settings. -/
def outputMembers (members : Members) : Members :=
  match members.lookup "output" with
  | some (.obj output) => output
  | _ => []

/-- Whether each setting has the value that stands under its name, and its initial value where there is
none. -/
structure Follows (s : Settings) (members : Members) : Prop where
  plain : ∀ e ∈ named, e.2 s = (members.lookup e.1).getD (e.2 initial)
  output : ∃ o, s.output = .settings o ∧
    ∀ e ∈ OutputSettings.named, e.2 o = ((outputMembers members).lookup e.1).getD (e.2 .initial)

theorem follows_of_given (h : initial.given members = .ok s) (hs : s.Convertible) : s.Follows members := by
  obtain ⟨output, houtput, rfl⟩ := map_eq_ok_iff.mp h
  refine ⟨by simp [named], ?_⟩
  obtain ⟨-, o, -, rfl, -⟩ := hs
  refine ⟨o, rfl, ?_⟩
  unfold givenOutput at houtput
  unfold outputMembers
  cases hlookup : members.lookup "output" with
  | none =>
      rw [hlookup] at houtput
      cases houtput
      exact fun _ _ => rfl
  | some v =>
      rw [hlookup] at houtput
      cases v with
      | obj output =>
          obtain ⟨o', ho', heq⟩ := map_eq_ok_iff.mp houtput
          cases heq
          exact OutputSettings.named_of_ofMembers ho'
      | _ => cases houtput

/-- Whether members differ in nothing but their order and the order of those of the output. -/
inductive Rearranged (members members' : Members) : Prop where
  | order (h : members.Perm members')
  | output {rest output output' : Members} (hperm : output.Perm output')
      (h : members.Perm (("output", .obj output) :: rest))
      (h' : members'.Perm (("output", .obj output') :: rest))

theorem given_congr (h : ∀ name, members.lookup name = members'.lookup name) :
    s.given members = s.given members' := by
  simp only [given, givenOutput, h]

theorem Rearranged.keys_perm (h : Rearranged members members') :
    (members.map (·.1)).Perm (members'.map (·.1)) := by
  cases h with
  | order h => exact h.map (·.1)
  | output hperm h h' => exact (h.map (·.1)).trans (h'.map (·.1)).symm

/-- Members that differ in their order set the same. -/
theorem Rearranged.given_eq (h : Rearranged members members') (hkeyed : (Value.obj members).WellKeyed) :
    s.given members = s.given members' := by
  have hkeys : (members.map (·.1)).Nodup := hkeyed.1
  have hkeys' : (members'.map (·.1)).Nodup := h.keys_perm.nodup_iff.mp hkeys
  cases h with
  | order h => exact given_congr (lookup_eq_of_perm hkeys h)
  | @output rest output output' hperm h h' =>
      have hmem : ("output", Value.obj output) ∈ members := h.mem_iff.mpr List.mem_cons_self
      have houtput : (Value.obj output).WellKeyed := wellKeyedMembers_iff.mp hkeyed.2 _ hmem
      have hset : OutputSettings.ofMembers output = OutputSettings.ofMembers output' :=
        OutputSettings.ofMembers_congr (lookup_eq_of_perm houtput.1 hperm)
      calc s.given members = s.given (("output", .obj output) :: rest) :=
            given_congr (lookup_eq_of_perm hkeys h)
        _ = s.given (("output", .obj output') :: rest) := by
            simp [given, givenOutput, List.lookup_cons, Output.set, hset]
        _ = s.given members' := (given_congr (lookup_eq_of_perm hkeys' h')).symm

/-- **Settings survive the conversion to an object.** All settings that have an output with a mode are
converted, and the object gives them back. An object that names settings, each once, gives those that it
names their values and all others, those of the output among them, their initial values, whatever the order
of its members and of those of its output; and if the settings that it gives can be converted, they too are
given back. -/
theorem ofValue_of_toValue :
    (∀ s : Settings, s.Convertible → ∃ v, s.toValue = .ok v ∧ ofValue v = .ok s) ∧
      ∀ (members : Members) (s : Settings) (v : Value), (Value.obj members).WellKeyed →
        members.map (·.1) ⊆ allNames → ofValue (.obj members) = .ok s → s.toValue = .ok v →
        ofValue v = .ok s ∧ s.Follows members ∧
          ∀ members', Rearranged members members' → ofValue (.obj members') = .ok s := by
  refine ⟨fun s h => h.ofValue_toValue, ?_⟩
  intro members s v hkeyed hnames hs hv
  have hconvertible := convertible_of_toValue hv
  have hgiven : initial.given members = .ok s := by
    rw [← setAll_eq_given hkeyed.1 hnames]
    exact hs
  refine ⟨?_, follows_of_given hgiven hconvertible, fun members' h => ?_⟩
  · obtain ⟨w, hw, hback⟩ := hconvertible.ofValue_toValue
    cases hv.symm.trans hw
    exact hback
  · have hkeys' := h.keys_perm.nodup_iff.mp hkeyed.1
    have hnames' := List.Subset.trans h.keys_perm.symm.subset hnames
    show initial.setAll members' = _
    rw [setAll_eq_given hkeys' hnames', ← h.given_eq hkeyed, hgiven]

/-! ### Settings of a site -/

/-- Settings against the order of their names, a false value and a null among them, with an output that sets
its mode. -/
def siteMembers : Members :=
  [("output", .obj [("mode", .str "error"), ("atomic_write", .null)]),
    ("generate_schema_json", .int 0), ("global_interface_prefix", .str "Site")]

/-- The output of `siteMembers`. -/
def siteOutput : OutputSettings :=
  { OutputSettings.initial with mode := .known .refuse, atomicWrite := .null }

/-- The settings of `siteMembers`. -/
def siteSettings : Settings :=
  { initial with
    generateSchemaJson := .int 0
    globalInterfacePrefix := .str "Site"
    output := .settings siteOutput }

theorem ofValue_of_toValue_siteSettings :
    (Value.obj siteMembers).WellKeyed ∧ siteMembers.map (·.1) ⊆ allNames ∧
      ofValue (.obj siteMembers) = .ok siteSettings ∧ ∃ v, siteSettings.toValue = .ok v ∧
        ofValue v = .ok siteSettings ∧ siteSettings.Follows siteMembers ∧
        ofValue (.obj [("global_interface_prefix", .str "Site"), ("generate_schema_json", .int 0),
          ("output", .obj [("atomic_write", .null), ("mode", .str "error")])]) = .ok siteSettings := by
  have hkeyed : (Value.obj siteMembers).WellKeyed :=
    ⟨by decide, ⟨by decide, trivial, trivial, trivial⟩, trivial, trivial, trivial⟩
  have hnames : siteMembers.map (·.1) ⊆ allNames := by decide
  have hof : ofValue (.obj siteMembers) = .ok siteSettings := rfl
  obtain ⟨hconvertible, hmembers⟩ := ofValue_of_toValue
  obtain ⟨v, hv, -⟩ := hconvertible siteSettings ⟨rfl, siteOutput, .refuse, rfl, rfl⟩
  obtain ⟨hback, hfollows, horder⟩ := hmembers siteMembers siteSettings v hkeyed hnames hof hv
  have hreverse := List.reverse_perm (("output", Value.obj [("atomic_write", .null), ("mode", .str "error")]) ::
    siteMembers.tail)
  exact ⟨hkeyed, hnames, hof, v, hv, hback, hfollows,
    horder _ (.output (.swap ..) (.refl _) hreverse)⟩

/-! ## Members that name no setting -/

/-- A member that names nothing is passed over. -/
theorem set_of_notMem (hname : name ∉ allNames) (hreserved : name ∉ reserved) :
    s.set name v = .ok s := by
  unfold set
  split
  all_goals first | rfl | simp [allNames, named, reserved] at hname hreserved

/-- Setting a member that is passed over leaves the settings as they are. -/
theorem setAll_set_of_notMem (hname : name ∉ allNames) (hreserved : name ∉ reserved) :
    s.setAll (Members.set members name v) = s.setAll members := by
  have hset (s : Settings) (w : Value) : s.set name w = .ok s := set_of_notMem hname hreserved
  induction members generalizing s with
  | nil =>
      show (s.set name v >>= fun s' => .ok s') = _
      rw [hset]
      rfl
  | cons member members ih =>
      obtain ⟨key, w⟩ := member
      rw [Members.set, KeyedList.upsert]
      by_cases hkey : (key == name) = true
      · rw [if_pos hkey, setAll, setAll, beq_iff_eq.mp hkey, hset, hset]
      · rw [if_neg hkey, setAll, setAll]
        cases s.set key w with
        | error e => rfl
        | ok s' => exact ih

theorem setAll_append : s.setAll (members ++ members') = (do (← s.setAll members).setAll members') := by
  induction members generalizing s with
  | nil => rfl
  | cons member members ih =>
      obtain ⟨key, w⟩ := member
      rw [List.cons_append, setAll, setAll]
      cases s.set key w with
      | error e => rfl
      | ok s' => exact ih

/-- A member under a new name is set behind all others. -/
theorem ofValue_set_of_fresh (hfresh : members.lookup name = none) :
    ofValue (.obj (Members.set members name v)) = (do (← ofValue (.obj members)).set name v) := by
  have hkeys : ∀ m ∈ members, (m.1 == name) = false := by
    intro m hm
    have hne : name ≠ m.1 := by simpa using List.lookup_eq_none_iff.mp hfresh m hm
    exact beq_eq_false_iff_ne.mpr hne.symm
  show initial.setAll (Members.set members name v) = (do (← initial.setAll members).set name v)
  rw [Members.set, KeyedList.upsert_of_fresh v hkeys, setAll_append]
  refine bind_congr fun s => ?_
  show (s.set name v >>= fun s' => .ok s') = s.set name v
  cases s.set name v <;> rfl

/-- What a reserved name sets cannot be converted. -/
theorem not_convertible_of_set (hname : name ∈ reserved) (h : s.set name v = .ok s') :
    ¬s'.Convertible := by
  rintro ⟨hconversion, output, mode, houtput, -⟩
  simp only [reserved, List.mem_cons, List.not_mem_nil, or_false] at hname
  rcases hname with rfl | rfl | rfl | rfl
  · cases h
    cases hconversion
  · cases v with
    | obj table =>
        -- the output of a table is what stands there, and so not settings
        cases h
        unfold ofTable at houtput
        split at houtput <;> cases houtput
    | _ => cases h
  · cases h
  · cases h

/-- **Members that name no setting are passed over, but for four names.** Setting a member that has none of
these names leaves all settings as they are, and so what they are converted to, the module that they give and
the path of it. A new member with one of them makes it impossible to take the settings or to convert them;
one that replaces the conversion changes nothing else. -/
theorem ofValue_set_unnamed (members : Members) (v : Value) (hname : name ∉ allNames) :
    (name ∉ reserved → ofValue (.obj (Members.set members name v)) = ofValue (.obj members)) ∧
      (name ∈ reserved → members.lookup name = none → ∀ s,
        ofValue (.obj (Members.set members name v)) = .ok s → ∀ w, s.toValue ≠ .ok w) ∧
      (name = "to_dict" → members.lookup name = none → ∀ s, ofValue (.obj members) = .ok s →
        ∃ s', ofValue (.obj (Members.set members name v)) = .ok s' ∧ s'.targetPath = s.targetPath ∧
          ∀ schema, TypeScript.moduleText s' schema = TypeScript.moduleText s schema) := by
  refine ⟨fun hreserved => setAll_set_of_notMem hname hreserved, ?_, ?_⟩
  · intro hreserved hfresh s hs w hw
    rw [ofValue_set_of_fresh hfresh] at hs
    obtain ⟨s', -, hset⟩ := bind_eq_ok_iff.mp hs
    exact not_convertible_of_set hreserved hset (convertible_of_toValue hw)
  · rintro rfl hfresh s hs
    refine ⟨{ s with conversion := some v }, ?_, rfl, fun _ => rfl⟩
    rw [ofValue_set_of_fresh hfresh, hs]
    rfl

theorem ofValue_set_unnamed_siteMembers :
    "unknown_key" ∉ allNames ∧ "unknown_key" ∉ reserved ∧ "__dict__" ∉ allNames ∧ "__dict__" ∈ reserved ∧
      ofValue (.obj (Members.set siteMembers "unknown_key" (.int 42))) = .ok siteSettings ∧
      ∀ s, ofValue (.obj (Members.set siteMembers "__dict__" (.obj siteMembers))) = .ok s →
        ∀ w, s.toValue ≠ .ok w := by
  have hunknown : "unknown_key" ∉ allNames := by decide
  have hunknown' : "unknown_key" ∉ reserved := by decide
  have htable : "__dict__" ∉ allNames := by decide
  have htable' : "__dict__" ∈ reserved := by decide
  exact ⟨hunknown, hunknown', htable, htable', (ofValue_set_unnamed _ _ hunknown).1 hunknown',
    (ofValue_set_unnamed _ _ htable).2.1 htable' rfl⟩

/-- The initial settings can be converted, and with a member that replaces the conversion no longer. -/
theorem toValue_of_replaced_conversion :
    "to_dict" ∉ allNames ∧ ofValue (.obj []) = .ok initial ∧ (∃ w, initial.toValue = .ok w) ∧
      ∃ s, ofValue (.obj (Members.set [] "to_dict" (.int 1))) = .ok s ∧
        s.toValue = .error (.conversionReplaced .int) :=
  ⟨by decide, rfl, ⟨_, rfl⟩, _, rfl, rfl⟩

end Settings

end ContentTypes
