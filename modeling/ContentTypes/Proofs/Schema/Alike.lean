import ContentTypes.Proofs.Json.RoundTrip
import ContentTypes.Proofs.Schema.Grammar
import ContentTypes.Schema.ToValue

/-!
# Values up to their numbers

In a file the numbers of a schema may come back as others, as a floating-point number is printed as a
decimal. Two values are `Alike` if they differ in nothing else. Then one of them is a schema if the other one
is, since no rule of the loader asks for a number.
-/

set_option autoImplicit false

namespace ContentTypes

mutual

/-- Whether two values differ in nothing but floating-point numbers. -/
inductive Alike : Value → Value → Prop where
  | scalar {v : Value} (h : v.isScalar = true) : Alike v v
  | float (x y : Floating) : Alike (.float x) (.float y)
  | arr {items items' : List Value} (h : AlikeItems items items') : Alike (.arr items) (.arr items')
  | obj {members members' : Members} (h : AlikeMembers members members') :
      Alike (.obj members) (.obj members')

/-- The same for the items of lists. -/
inductive AlikeItems : List Value → List Value → Prop where
  | nil : AlikeItems [] []
  | cons {v w : Value} {items items' : List Value} (h : Alike v w) (hitems : AlikeItems items items') :
      AlikeItems (v :: items) (w :: items')

/-- The same for the members of objects, which have the same names. -/
inductive AlikeMembers : Members → Members → Prop where
  | nil : AlikeMembers [] []
  | cons {key : String} {v w : Value} {members members' : Members} (h : Alike v w)
      (hmembers : AlikeMembers members members') : AlikeMembers ((key, v) :: members) ((key, w) :: members')

end

mutual

theorem Alike.symm {v w : Value} : Alike v w → Alike w v
  | .scalar h => .scalar h
  | .float x y => .float y x
  | .arr h => .arr h.symm
  | .obj h => .obj h.symm

theorem AlikeItems.symm {items items' : List Value} : AlikeItems items items' → AlikeItems items' items
  | .nil => .nil
  | .cons h hitems => .cons h.symm hitems.symm

theorem AlikeMembers.symm {members members' : Members} :
    AlikeMembers members members' → AlikeMembers members' members
  | .nil => .nil
  | .cons h hmembers => .cons h.symm hmembers.symm

end

mutual

/-- What is read of a value differs from it in floating-point numbers only. -/
theorem alike_reread : ∀ v : Value, Alike v (Json.reread v)
  | .null | .bool _ | .int _ | .str _ => .scalar rfl
  | .float _ => .float _ _
  | .arr items => .arr (alikeItems_reread items)
  | .obj members => .obj (alikeMembers_reread members)

theorem alikeItems_reread : ∀ items : List Value, AlikeItems items (Json.rereadItems items)
  | [] => .nil
  | v :: items => .cons (alike_reread v) (alikeItems_reread items)

theorem alikeMembers_reread : ∀ members : Members, AlikeMembers members (Json.rereadMembers members)
  | [] => .nil
  | (_, v) :: members => .cons (alike_reread v) (alikeMembers_reread members)

end

section Alike

variable {v w : Value} {members members' : Members} {name : String}

theorem Alike.isScalar_eq (h : Alike v w) : v.isScalar = w.isScalar := by
  cases h <;> rfl

theorem Alike.eq_str {s : String} (h : Alike (.str s) w) : w = .str s := by
  cases h
  rfl

theorem Alike.ne_str {s : String} (h : Alike v w) (hne : v ≠ .str s) : w ≠ .str s := by
  rintro rfl
  exact hne h.symm.eq_str

theorem AlikeMembers.lookup_eq_none (h : AlikeMembers members members')
    (hnone : members.lookup name = none) : members'.lookup name = none := by
  induction members generalizing members' with
  | nil =>
      cases h
      rfl
  | cons m members ih =>
      cases h with
      | cons h hmembers =>
          rw [List.lookup_cons] at hnone ⊢
          split at hnone
          · cases hnone
          · exact ih hmembers hnone

/-- Under a name there are values that are alike. -/
theorem AlikeMembers.lookup_eq_some (h : AlikeMembers members members')
    (hv : members.lookup name = some v) : ∃ w, members'.lookup name = some w ∧ Alike v w := by
  induction members generalizing members' with
  | nil => cases hv
  | cons m members ih =>
      cases h with
      | cons h hmembers =>
          rw [List.lookup_cons] at hv ⊢
          split at hv
          · cases hv
            exact ⟨_, rfl, h⟩
          · exact ih hmembers hv

theorem AlikeMembers.lookup_str {s : String} (h : AlikeMembers members members')
    (hs : members.lookup name = some (.str s)) : members'.lookup name = some (.str s) := by
  obtain ⟨w, hw, halike⟩ := h.lookup_eq_some hs
  rw [hw, halike.eq_str]

theorem AlikeMembers.memberItems {items : List Value} (h : AlikeMembers members members')
    (hitems : MemberItems members name items) :
    ∃ items', MemberItems members' name items' ∧ AlikeItems items items' := by
  cases hitems with
  | missing hnone => exact ⟨[], .missing (h.lookup_eq_none hnone), .nil⟩
  | list hlist =>
      obtain ⟨w, hw, halike⟩ := h.lookup_eq_some hlist
      cases halike with
      | scalar hscalar => cases hscalar
      | arr halike => exact ⟨_, .list hw, halike⟩

theorem AlikeMembers.isScalar_nameOfEntry (key : String) (h : AlikeMembers members members') :
    (nameOfEntry key members).isScalar = (nameOfEntry key members').isScalar := by
  unfold nameOfEntry
  cases hname : members.lookup "name" with
  | none => rw [h.lookup_eq_none hname]
  | some v =>
      obtain ⟨w, hname', halike⟩ := h.lookup_eq_some hname
      rw [hname']
      exact halike.isScalar_eq

theorem AlikeItems.exists_of_mem {items items' : List Value} (h : AlikeItems items items') :
    ∀ w ∈ items', ∃ v ∈ items, Alike v w := by
  induction items generalizing items' with
  | nil =>
      cases h
      exact List.forall_mem_nil _
  | cons v items ih =>
      cases h with
      | cons h hitems =>
          refine List.forall_mem_cons.mpr ⟨⟨v, List.mem_cons_self, h⟩, fun w hw => ?_⟩
          obtain ⟨v', hv', halike⟩ := ih hitems w hw
          exact ⟨v', List.mem_cons_of_mem _ hv', halike⟩

theorem AlikeMembers.exists_of_mem (h : AlikeMembers members members') :
    ∀ m' ∈ members', ∃ v, (m'.1, v) ∈ members ∧ Alike v m'.2 := by
  induction members generalizing members' with
  | nil =>
      cases h
      exact List.forall_mem_nil _
  | cons m members ih =>
      cases h with
      | @cons key v w _ members' h hmembers =>
          refine List.forall_mem_cons.mpr ⟨⟨v, List.mem_cons_self, h⟩, fun m' hm' => ?_⟩
          obtain ⟨v', hv', halike⟩ := ih hmembers m' hm'
          exact ⟨v', List.mem_cons_of_mem _ hv', halike⟩

end Alike

/-! ## Fields and items -/

-- The recursion is over the proof that the first value is one; the second has its clause.
mutual

/-- What is like a field is a field. -/
theorem IsField.of_alike {raw raw' : Value} : IsField raw → Alike raw raw' → IsField raw'
  | .inlineObject hname hkind hraws hfields, .obj h => by
      obtain ⟨name, hname, -⟩ := h.lookup_eq_some hname
      obtain ⟨raws, hraws, halike⟩ := h.memberItems hraws
      exact .inlineObject hname (h.lookup_str hkind) hraws (hfields.of_alike halike)
  | .enumeration hname hkind hoptions, .obj h => by
      obtain ⟨name, hname, -⟩ := h.lookup_eq_some hname
      obtain ⟨options, hoptions, -⟩ := h.memberItems hoptions
      exact .enumeration hname (h.lookup_str hkind) hoptions
  | .list hname hkind hof hitem, .obj h => by
      obtain ⟨name, hname, -⟩ := h.lookup_eq_some hname
      obtain ⟨raw, hof, halike⟩ := h.lookup_eq_some hof
      exact .list hname (h.lookup_str hkind) hof (hitem.of_alike halike)
  | .polymorphicList hname hkind hraws hitems, .obj h => by
      obtain ⟨name, hname, -⟩ := h.lookup_eq_some hname
      obtain ⟨raws, hraws, halike⟩ := h.memberItems hraws
      exact .polymorphicList hname (h.lookup_str hkind) hraws (hitems.of_alike halike)
  | .other hname hkind hscalar hother, .obj h => by
      obtain ⟨name, hname, -⟩ := h.lookup_eq_some hname
      obtain ⟨kind, hkind, halike⟩ := h.lookup_eq_some hkind
      exact .other hname hkind (halike.isScalar_eq ▸ hscalar) fun s hs => halike.ne_str (hother s hs)

theorem IsFields.of_alike {raws raws' : List Value} : IsFields raws → AlikeItems raws raws' → IsFields raws'
  | .nil, .nil => .nil
  | .cons hfield hfields, .cons h hitems => .cons (hfield.of_alike h) (hfields.of_alike hitems)

theorem IsItem.of_alike {raw raw' : Value} : IsItem raw → Alike raw raw' → IsItem raw'
  | .inlineObject hkind hraws hfields, .obj h => by
      obtain ⟨raws, hraws, halike⟩ := h.memberItems hraws
      exact .inlineObject (h.lookup_str hkind) hraws (hfields.of_alike halike)
  | .enumeration hkind hoptions, .obj h => by
      obtain ⟨options, hoptions, -⟩ := h.memberItems hoptions
      exact .enumeration (h.lookup_str hkind) hoptions
  | .other hkind hscalar hother, .obj h => by
      obtain ⟨kind, hkind, halike⟩ := h.lookup_eq_some hkind
      exact .other hkind (halike.isScalar_eq ▸ hscalar) fun s hs => halike.ne_str (hother s hs)

theorem IsItems.of_alike {raws raws' : List Value} : IsItems raws → AlikeItems raws raws' → IsItems raws'
  | .nil, .nil => .nil
  | .cons hitem hitems, .cons h hrest => .cons (hitem.of_alike h) (hitems.of_alike hrest)

end

/-! ## Definitions and schemas -/

theorem IsComputed.of_alike {raw raw' : Value} : IsComputed raw → Alike raw raw' → IsComputed raw'
  | .computed hname htype, .obj h => by
      obtain ⟨name, hname, -⟩ := h.lookup_eq_some hname
      obtain ⟨type, htype, -⟩ := h.lookup_eq_some htype
      exact .computed hname htype

theorem IsObject.of_alike {key : String} {raw raw' : Value} :
    IsObject key raw → Alike raw raw' → IsObject key raw'
  | .object hraws hfields hname, .obj h => by
      obtain ⟨raws, hraws, halike⟩ := h.memberItems hraws
      exact .object hraws (hfields.of_alike halike) (h.isScalar_nameOfEntry key ▸ hname)

theorem IsDocument.of_alike {key : String} {raw raw' : Value} :
    IsDocument key raw → Alike raw raw' → IsDocument key raw'
  | .document hraws hfields hraws' hcomputed hname, .obj h => by
      obtain ⟨raws, hraws, halike⟩ := h.memberItems hraws
      obtain ⟨raws', hraws', halike'⟩ := h.memberItems hraws'
      refine .document hraws (hfields.of_alike halike) hraws' (fun raw' hraw' => ?_)
        (h.isScalar_nameOfEntry key ▸ hname)
      obtain ⟨raw, hraw, h⟩ := halike'.exists_of_mem raw' hraw'
      exact (hcomputed raw hraw).of_alike h

/-- A schema is made of its two maps. -/
theorem isSchema_maps_iff {documents objects : Members} :
    IsSchema (.obj [("documentDefMap", .obj documents), ("objectDefMap", .obj objects)]) ↔
      (∀ e ∈ documents, IsDocument e.1 e.2) ∧ ∀ e ∈ objects, IsObject e.1 e.2 := by
  constructor
  · -- the maps that the clause speaks of are those that stand there
    rintro ⟨hentries, hdocuments, hentries', hobjects⟩
    obtain rfl := hentries.eq_of_lookup rfl
    obtain rfl := hentries'.eq_of_lookup rfl
    exact ⟨hdocuments, hobjects⟩
  · rintro ⟨hdocuments, hobjects⟩
    exact .schema (.object rfl) hdocuments (.object rfl) hobjects

/-- What is read of a schema that was written is a schema if what was written is one. -/
theorem isSchema_reread_toValue_iff {schema : Schema} :
    IsSchema (Json.reread schema.toValue) ↔ IsSchema schema.toValue := by
  have hiff {documents documents' objects objects' : Members}
      (hdocuments : AlikeMembers documents documents') (hobjects : AlikeMembers objects objects') :
      IsSchema (.obj [("documentDefMap", .obj documents), ("objectDefMap", .obj objects)]) →
        IsSchema (.obj [("documentDefMap", .obj documents'), ("objectDefMap", .obj objects')]) := by
    rw [isSchema_maps_iff, isSchema_maps_iff]
    rintro ⟨h, h'⟩
    constructor
    · intro e he
      obtain ⟨v, hv, halike⟩ := hdocuments.exists_of_mem e he
      exact (h _ hv).of_alike halike
    · intro e he
      obtain ⟨v, hv, halike⟩ := hobjects.exists_of_mem e he
      exact (h' _ hv).of_alike halike
  exact ⟨hiff (alikeMembers_reread _).symm (alikeMembers_reread _).symm,
    hiff (alikeMembers_reread _) (alikeMembers_reread _)⟩

end ContentTypes
