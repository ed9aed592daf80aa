import GraphQL.Proofs.Schema.References

/-!
The types of a schema that accept a written type.

They are found by going along what is written, and looking up one list after another. What is found are all
types at whose places the written one can stand, and the tightest of them come first.
-/

namespace GraphQL

namespace TypeId

variable {t : TypeId}

lemma nullable_eq (h : t.isNonNull = false) : t.nullable = t := by
  cases t
  cases h
  rfl

lemma nonNull_eq (h : t.isNonNull = true) : t.nonNull = t := by
  cases t
  cases h
  rfl

end TypeId

namespace Schema

variable {s s' : Schema} {ds : List SchemaDocument} {id : Nat} {t u e f location candidate : TypeId}
  {ref : TypeRef}

/-! ### Places and types with the same layer around them -/

lemma accepts_self (hr : s.registry.WellFormed) (t : TypeId) : s.accepts t t = true := by
  induction t using TypeRegistry.typeInduction hr with
  | single t hsingle =>
    have hsingle : s.element? t = none := hsingle
    rw [accepts_eq hr, acceptsLayer, hsingle]
    simp
  | list t e he ih =>
    have he : s.element? t = some e := he
    rw [accepts_eq hr, acceptsLayer, he]
    simpa using ih

/-- Null is not let through. -/
lemma accepts_eq_false (hr : s.registry.WellFormed) (hlocation : location.isNonNull = true)
    (hcandidate : candidate.isNonNull = false) : s.accepts location candidate = false := by
  rw [accepts_eq hr, acceptsLayer, hlocation, hcandidate]
  rfl

lemma accepts_list (hr : s.registry.WellFormed) (he : s.element? location = some e)
    (hf : s.element? candidate = some f) (hnull : location.isNonNull = false) :
    s.accepts location candidate = s.accepts e f := by
  rw [accepts_eq hr, acceptsLayer, he, hf, hnull]
  rfl

/-- A mark on both sides does not matter. -/
lemma accepts_marked (hr : s.registry.WellFormed) (hnull : location.isNonNull = false) (candidate : TypeId) :
    s.accepts location.nonNull candidate.nonNull = s.accepts location candidate := by
  rw [accepts_nonNull hr, TypeId.nullable_nonNull, TypeId.nullable_eq hnull]

/-! ### What is found -/

lemma typeId?_spec {name : String} (h : s.typeId? name = some t) :
    s.registry.Has t ∧ t.isNonNull = false ∧ s.element? t = none := by
  have hnamed : s.registry.named? name = some t := by
    unfold typeId? at h
    split at h
    · exact h
    · cases h
  obtain ⟨hhas, hnull, -⟩ := TypeRegistry.find?_spec hnamed
  exact ⟨hhas, hnull, TypeRegistry.element?_named hnamed⟩

lemma isNonNull_of_mem (h : ref.isNonNull = false) (ht : t ∈ s.typesAccepting ref) : t.isNonNull = false := by
  cases ref with
  | named n => exact (typeId?_spec (Option.mem_toList.mp ht)).2.1
  | list ref p =>
    obtain ⟨e, -, hlist⟩ := List.mem_filterMap.mp ht
    exact (TypeRegistry.find?_spec hlist).2.1
  | nonNull ref p => cases h

/-- A type that takes null stands for itself and for the type with a mark. -/
lemma mem_marked_iff {ts : List TypeId} (h : ∀ t ∈ ts, t.isNonNull = false) :
    t ∈ ts.map (·.nonNull) ++ ts ↔ t.nullable ∈ ts := by
  rw [List.mem_append, List.mem_map]
  constructor
  · rintro (⟨u, hu, rfl⟩ | ht)
    · rwa [TypeId.nullable_nonNull, TypeId.nullable_eq (h u hu)]
    · rwa [TypeId.nullable_eq (h t ht)]
  · intro ht
    cases hmark : t.isNonNull with
    | false => exact .inr (TypeId.nullable_eq hmark ▸ ht)
    | true => exact .inl ⟨t.nullable, ht, TypeId.nonNull_eq hmark⟩

/-- **Exactness**: the types found are those of the schema that accept the written type. -/
lemma mem_typesAccepting_iff (hr : s.registry.WellFormed) (href : ref.MarksOnce) :
    t ∈ s.typesAccepting ref ↔ s.registry.Has t ∧ s.acceptsRef t ref = true := by
  induction href generalizing t with
  | @named n =>
    rw [typesAccepting, Option.mem_toList, acceptsRef]
    constructor
    · intro h
      obtain ⟨hhas, hnull, hsingle⟩ := typeId?_spec h
      simp [hhas, hnull, isList, hsingle, Option.mem_def.mp h]
    · rintro ⟨-, haccepts⟩
      simp only [Bool.and_eq_true, beq_iff_eq] at haccepts
      exact haccepts.2
  | @list ref p _ ih =>
    rw [typesAccepting, List.mem_filterMap, acceptsRef]
    constructor
    · rintro ⟨e, he, hlist⟩
      obtain ⟨hhas, hnull, -⟩ := TypeRegistry.find?_spec hlist
      have helement : s.element? t = some e := TypeRegistry.element?_listOf? hlist
      rw [hnull, helement]
      exact ⟨hhas, (ih.mp he).2⟩
    · rintro ⟨hhas, haccepts⟩
      rw [Bool.and_eq_true, Bool.not_eq_true'] at haccepts
      obtain ⟨hnull, haccepts⟩ := haccepts
      split at haccepts
      · rename_i e he
        have helement := TypeRegistry.element_slot_lt hr he
        refine ⟨e, ih.mpr ⟨helement.1, haccepts⟩, ?_⟩
        rw [TypeRegistry.listOf?, TypeRegistry.find?_of_shape? hr (TypeRegistry.shape?_of_element? he),
          TypeId.nullable_eq hnull]
      · cases haccepts
  | @nonNull ref p _ once ih =>
    rw [typesAccepting, mem_marked_iff fun t ht => isNonNull_of_mem once ht, ih, acceptsRef]
    rfl

/-- **Order**: no type that is found stands where one in front of it is wanted. -/
lemma typesAccepting_pairwise (hr : s.registry.WellFormed) (href : ref.MarksOnce) :
    (s.typesAccepting ref).Pairwise fun earlier later => s.accepts earlier later = false := by
  induction href with
  | @named n => exact Option.pairwise_toList
  | @list ref p _ ih =>
    rw [typesAccepting, List.pairwise_filterMap]
    refine ih.imp fun {e f} hapart l hl c hc => ?_
    have hnull := (TypeRegistry.find?_spec hl).2.1
    rwa [accepts_list hr (TypeRegistry.element?_listOf? hl) (TypeRegistry.element?_listOf? hc) hnull]
  | @nonNull ref p _ once ih =>
    have hnull : ∀ t ∈ s.typesAccepting ref, t.isNonNull = false := fun t ht => isNonNull_of_mem once ht
    rw [typesAccepting, List.pairwise_append, List.pairwise_map]
    refine ⟨ih.imp_of_mem fun hl _ hapart => ?_, ih, fun l hl c hc => ?_⟩
    · rwa [accepts_marked hr (hnull _ hl)]
    -- Types with a mark stand in front of those without, and do not let null through.
    · obtain ⟨t, -, rfl⟩ := List.mem_map.mp hl
      exact accepts_eq_false hr rfl (hnull c hc)

/-- **The types that accept a written type** are those of the schema at whose places it can stand, each of them
once. None of them is tighter than one in front of it, so that the type as it is written comes first, if the
schema has it. -/
theorem typesAccepting_exact (hds : ∀ d ∈ ds, ∃ file text, SchemaDocument.load file text = .ok d)
    (h : build ds id = .ok s) (hlists : s.WithLists s') (href : ref.MarksOnce) :
    (s'.typesAccepting ref).Nodup ∧
    (∀ t, t ∈ s'.typesAccepting ref ↔ s'.registry.Has t ∧ s'.acceptsRef t ref = true) ∧
    ((s'.typesAccepting ref).Pairwise fun earlier later => s'.accepts earlier later = false) ∧
    ∀ t, s'.typeOfRef? ref = some t → (s'.typesAccepting ref).head? = some t := by
  have hr' := (hlists.registry (build_wellFormed hds h).registry).1
  have hordered := typesAccepting_pairwise hr' href
  refine ⟨hordered.imp fun {t u} hapart heq => ?_, fun t => mem_typesAccepting_iff hr' href, hordered,
    fun t ht => typesAccepting_head? ht⟩
  rw [heq, accepts_self hr'] at hapart
  cases hapart

/-- Grids whose rows can be left out in the one argument, and whose numbers can be in the other one. -/
def gridsText : String := "type Query \x7b f(rows: [[Int]!], layers: [[[Int!]]]): Int \x7d"

def gridsChars : { chars : List Char // gridsText.toList = chars } := ⟨_, String.toList_ofList⟩

def gridsQuery : List Char := "query ($r: [[Int!]!], $v: [[[Int!]!]]) \x7b f(rows: $r, layers: $v) \x7d".toList

def gridsQueryChars : { chars : List Char // gridsQuery = chars } := ⟨_, String.toList_ofList⟩

/-- A row of numbers. -/
def rowType : TypeRef := .nonNull (.list (.nonNull (.named ⟨"Int", .start⟩) .start) .start) .start

/-- With one mark less there are two types for a row, neither of which is tighter than the other. -/
theorem typesAccepting_exact_of_rows : ∃ d s row, SchemaDocument.load none gridsText = .ok d ∧
    build [d] 0 = .ok s ∧ rowType.MarksOnce ∧ s.typeOfRef? rowType = some row ∧
    (s.typesAccepting rowType).map s.typeName = ["[Int!]!", "[Int]!", "[Int!]", "[Int]"] ∧
    (s.typesAccepting rowType).Nodup ∧
    (∀ t, t ∈ s.typesAccepting rowType ↔ s.registry.Has t ∧ s.acceptsRef t rowType = true) ∧
    ((s.typesAccepting rowType).Pairwise fun earlier later => s.accepts earlier later = false) ∧
    (s.typesAccepting rowType).head? = some row := by
  have hrun : (Sample.readChars? gridsChars.1 gridsQueryChars.1).any (fun (s, _) =>
      (s.typeOfRef? rowType).isSome &&
        (s.typesAccepting rowType).map s.typeName == ["[Int!]!", "[Int]!", "[Int!]", "[Int]"]) = true := by
    decide +kernel
  obtain ⟨s, _, hs, -, hcheck⟩ := Sample.exists_of_chars gridsChars.2 gridsQueryChars.2 hrun
  obtain ⟨d, hload, hbuild⟩ := ofText_eq_ok.mp hs
  simp only [Bool.and_eq_true, Option.isSome_iff_exists, beq_iff_eq] at hcheck
  obtain ⟨⟨row, hrow⟩, hnames⟩ := hcheck
  have hmarks : rowType.MarksOnce := .nonNull (.list (.nonNull .named rfl)) rfl
  obtain ⟨hnodup, hexact, hordered, hfirst⟩ :=
    typesAccepting_exact (List.forall_mem_singleton.mpr ⟨none, _, hload⟩) hbuild .refl hmarks
  exact ⟨d, s, row, hload, hbuild, hmarks, hrow, hnames, hnodup, hexact, hordered, hfirst row hrow⟩

end Schema

end GraphQL
