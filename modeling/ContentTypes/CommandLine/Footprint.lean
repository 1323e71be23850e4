import ContentTypes.CommandLine.Command

/-!
# The footprint of a run

A run only looks at the files its paths lead to, and at the directories on the way there. The
functions here name those places, so that a caller who holds files elsewhere can fill in a file tree
with what is there before the run and carry over what has changed after it.
-/

set_option autoImplicit false

namespace ContentTypes.CommandLine

/-- The places that names lead through, from a place on. -/
def placesFrom (here : Location) : List String → List Location
  | [] => []
  | name :: rest =>
      let next := if name = FilePath.upName then here.dropLast else here ++ [name]
      next :: placesFrom next rest

/-- The places on the way to a place, and the place itself. -/
def ancestry (place : Location) : List Location := placesFrom [] place

/-- The places that a path leads through. -/
def footprint (t : FileTree) (p : FilePath) : List Location :=
  ancestry (t.start p) ++ placesFrom (t.start p) p.names

/-- The paths that arguments give. -/
def inputPaths (args : List String) : List FilePath :=
  match readArguments args with
  | .error _ => []
  | .ok a => (a.others ++ [a.value? .config, a.value? .outputDir].filterMap id).map FilePath.ofText

/-- The places to look at before the request of the arguments is known. -/
def inputPlaces (t : FileTree) (args : List String) : List Location :=
  (inputPaths args).flatMap fun p => footprint t p ++ ancestry (absolute t p)

/-- The paths that settings name for the output. -/
def outputPaths (settings : Settings) : List FilePath :=
  let module := settings.targetPath.toOption.toList
  let schema :=
    match (settings.output.get "artifacts_dir").toOption with
    | some output => (FilePath.ofValue output.artifactsDir).toOption.toList
    | none => []
  module ++ schema.map fun directory => directory.child schemaFileName

/-- The places to look at once the files that the arguments name are known. -/
def outputPlaces (t : FileTree) (args : List String) : List Location :=
  match request t args with
  | .ok (.invocation i) =>
      match i.settings t with
      | .ok settings => (outputPaths settings).flatMap (footprint t)
      | .error _ => []
  | _ => []

/-- The entries of a tree that another tree lacks or has with other content. -/
def changedEntries (before after : FileTree) : List (Location × Entry) :=
  after.entries.filter fun (place, entry) => before.get? place != some entry

end ContentTypes.CommandLine
