import ContentTypes.Schema.Basic

/-!
# Fields at any depth

A field may be a record, or list records, and these have fields of their own. `Within f fields` says that
a field is among some fields or in a record below them; what holds of all of these is taken apart along the
list and the types (`forall_within_cons`, `forall_within_append`).
-/

set_option autoImplicit false

namespace ContentTypes

/-- The items that the type of a field lists. -/
def FieldType.items : FieldType → List ItemType
  | .list (some item) => [item]
  | .polymorphicList items => items
  | _ => []

/-- The fields of an item that is a record. -/
def ItemType.fields : ItemType → List Field
  | .inlineObject fields => fields
  | _ => []

/-- The fields of the records in the type of a field: of the record that it is, or of those it lists. -/
def FieldType.fields : FieldType → List Field
  | .inlineObject fields => fields
  | type => type.items.flatMap ItemType.fields

/-- `Within f fields`: a field is one of the fields, or a field of a record below one of them. -/
inductive Within (f : Field) : List Field → Prop where
  | here {fields : List Field} (h : f ∈ fields) : Within f fields
  | deeper {fields : List Field} {g : Field} (hg : g ∈ fields) (h : Within f g.type.fields) :
      Within f fields

theorem within_nil (f : Field) : ¬Within f [] := by
  rintro (h | ⟨h, -⟩) <;> cases h

theorem within_append {f : Field} {fields fields' : List Field} :
    Within f (fields ++ fields') ↔ Within f fields ∨ Within f fields' := by
  constructor
  · rintro (h | ⟨h, hf⟩)
    · exact (List.mem_append.mp h).imp .here .here
    · exact (List.mem_append.mp h).imp (.deeper · hf) (.deeper · hf)
  · rintro ((h | ⟨h, hf⟩) | (h | ⟨h, hf⟩))
    · exact .here (List.mem_append_left _ h)
    · exact .deeper (List.mem_append_left _ h) hf
    · exact .here (List.mem_append_right _ h)
    · exact .deeper (List.mem_append_right _ h) hf

theorem within_singleton {f g : Field} : Within f [g] ↔ f = g ∨ Within f g.type.fields := by
  constructor
  · rintro (h | ⟨h, hf⟩)
    · exact .inl (List.mem_singleton.mp h)
    · exact .inr (List.mem_singleton.mp h ▸ hf)
  · rintro (rfl | h)
    · exact .here (List.mem_singleton_self f)
    · exact .deeper (List.mem_singleton_self g) h

section Everywhere

variable {p : Field → Prop} {fields fields' : List Field}

theorem forall_within_nil : ∀ f, Within f [] → p f := fun f h => absurd h (within_nil f)

theorem forall_within_append :
    (∀ f, Within f (fields ++ fields') → p f) ↔
      (∀ f, Within f fields → p f) ∧ ∀ f, Within f fields' → p f := by
  simp only [within_append, or_imp, forall_and]

/-- What holds of a field and the fields after it at any depth holds of the field, of those below it, and
of the others. -/
theorem forall_within_cons {field : Field} :
    (∀ f, Within f (field :: fields) → p f) ↔
      (p field ∧ ∀ f, Within f field.type.fields → p f) ∧ ∀ f, Within f fields → p f := by
  have hsingleton : (∀ f, Within f [field] → p f) ↔ p field ∧ ∀ f, Within f field.type.fields → p f := by
    simp only [within_singleton, or_imp, forall_and, forall_eq]
  rw [← hsingleton, ← forall_within_append, List.singleton_append]

end Everywhere

end ContentTypes
