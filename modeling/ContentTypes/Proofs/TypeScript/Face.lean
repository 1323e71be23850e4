import ContentTypes.Proofs.KeyedList
import ContentTypes.Proofs.Schema.Form
import ContentTypes.Proofs.Sorting.Renaming
import ContentTypes.TypeScript.Module

/-!
# What a module shows of its definitions

A module looks at a definition in two ways only: it puts the definitions in the order of their names, and
writes their declarations. So it is a function of these two, the face of a definition (`moduleText_eq`), and
definitions with the same faces have the same module, whatever else is in them.
-/

set_option autoImplicit false

namespace ContentTypes.TypeScript

/-- What a module shows of a definition: its name, and its declaration or why it has none. -/
abbrev Face := Value × Except RenderError Declaration

/-- What a module shows of a definition that is named and declared in this way. -/
def face {α : Type} (nameOf : α → Value) (declaration : α → Except RenderError Declaration) (d : α) :
    Face :=
  (nameOf d, declaration d)

/-- What a module shows of a kind of document. -/
abbrev documentFace : Document → Face := face (fun d => d.name) documentDeclaration

/-- What a module shows of a kind of object. -/
abbrev objectFace : Definition → Face := face (fun d => d.name) objectDeclaration

/-- The module of definitions of which only what shows is known. -/
def moduleOfFaces (settings : Settings) (documents objects : List Face) : Except RenderError String := do
  let documents ← sortByName Prod.fst documents
  let objects ← sortByName Prod.fst objects
  let documents ← documents.mapM Prod.snd
  let objects ← objects.mapM Prod.snd
  let sections ← sections settings documents objects
  return String.intercalate "\n\n" sections ++ "\n"

/-- Definitions that are replaced by others with the same names are put in the same order. -/
theorem sortByName_map {α β : Type} {nameOf : α → Value} {nameOf' : β → Value} (f : α → β)
    (h : ∀ d, nameOf' (f d) = nameOf d) (definitions : List α) :
    sortByName nameOf' (definitions.map f) = (sortByName nameOf definitions).map (List.map f) := by
  have hrenames : Sorting.Renames f id
      (fun d e => nameBefore (nameOf d) (nameOf e)) fun x y => nameBefore (nameOf' x) (nameOf' y) := by
    intro d e
    show nameBefore (nameOf' (f d)) (nameOf' (f e)) =
      Sorting.renamed id id (nameBefore (nameOf d) (nameOf e))
    rw [h, h]
    cases nameBefore (nameOf d) (nameOf e) <;> rfl
  have hsort := Sorting.sort_map hrenames definitions
  rw [sortByName, sortByName, hsort]
  cases Sorting.sort (fun d e => nameBefore (nameOf d) (nameOf e)) definitions <;> rfl

section Faces

variable {α : Type} {nameOf : α → Value} {declaration : α → Except RenderError Declaration}

theorem sortByName_faces (definitions : List α) :
    sortByName Prod.fst (definitions.map (face nameOf declaration)) =
      (sortByName nameOf definitions).map (List.map (face nameOf declaration)) :=
  sortByName_map (face nameOf declaration) (fun _ => rfl) definitions

/-- What shows of merged definitions is what shows of the definitions, merged. -/
theorem faces_merge (definitions : List α) :
    (KeyedList.merge Value.sameKey (keyedBy nameOf definitions)).map
        (fun e => face nameOf declaration e.2) =
      (KeyedList.merge Value.sameKey
        (keyedBy Prod.fst (definitions.map (face nameOf declaration)))).map (·.2) := by
  have hkeyed : keyedBy Prod.fst (definitions.map (face nameOf declaration)) =
      (keyedBy nameOf definitions).map (Prod.map id (face nameOf declaration)) := by
    simp [keyedBy, face]
  -- the faces are merged like the definitions, since merging looks at names only
  calc _ = ((KeyedList.merge Value.sameKey (keyedBy nameOf definitions)).map
            (Prod.map id (face nameOf declaration))).map (·.2) := by
        rw [List.map_map]
        rfl
    _ = _ := by rw [hkeyed, KeyedList.merge_map]

end Faces

/-- A module shows of its definitions what they show alone. -/
theorem moduleText_eq (settings : Settings) (schema : Schema) :
    moduleText settings schema = moduleOfFaces settings
      (schema.documents.map fun e => documentFace e.2) (schema.objects.map fun e => objectFace e.2) := by
  have hdocuments : sortByName Prod.fst (schema.documents.map fun e => documentFace e.2) =
      (sortByName (fun d : Document => d.name) (schema.documents.map (·.2))).map
        (List.map documentFace) := by
    rw [← sortByName_faces, List.map_map]
    rfl
  have hobjects : sortByName Prod.fst (schema.objects.map fun e => objectFace e.2) =
      (sortByName (fun d : Definition => d.name) (schema.objects.map (·.2))).map
        (List.map objectFace) := by
    rw [← sortByName_faces, List.map_map]
    rfl
  rw [moduleText, moduleOfFaces, sortedDefinitions, hdocuments, hobjects]
  cases hsort : sortByName (fun d : Document => d.name) (schema.documents.map (·.2)) with
  | error e => rfl
  | ok documents =>
      cases hsort' : sortByName (fun d : Definition => d.name) (schema.objects.map (·.2)) with
      | error e => rfl
      | ok objects =>
          simp only [Except.map, bind, Except.bind, pure, Except.pure, List.mapM_map]
          rfl

end ContentTypes.TypeScript
