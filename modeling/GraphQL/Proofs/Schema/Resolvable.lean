import GraphQL.Proofs.Grouping
import GraphQL.Proofs.Schema.Faultless
import GraphQL.Proofs.Schema.Written

/-!
Documents that resolve.

Documents resolve without faults exactly if the names of their types are told apart, there is a type to
query, and each definition obeys the rules that all of them make together. In which order the
definitions are written, and in which documents, does not count for that.
-/

namespace GraphQL

/-! ### Names of types -/

namespace TypeNames

variable {names : TypeNames} {d : SchemaDocument}

lemma register_ok {t : TypeDefinition} (hn : names.WellFormed) (hadmits : Admits d t)
    (hnew : t.name.text ∉ names.kinds.map (·.1)) : ∃ names', names.register d t = .ok names' := by
  have hlookup : names.origins.lookup t.name.text = none := by
    refine List.lookup_eq_none_iff.mpr fun p hp => ?_
    rw [bne_iff_ne]
    rintro heq
    exact hnew (hn.origins ▸ List.mem_map.mpr ⟨p, hp, heq.symm⟩)
  have hname : (t.name.isReserved && !d.isBuiltin) = false := by
    rcases hadmits.1 with h | h <;> simp [h]
  unfold register
  simp only [hname, hadmits.2, hlookup, Option.isSome_none, Bool.false_eq_true, if_false]
  exact ⟨_, rfl⟩

lemma registerTypes_ok {ts : List TypeDefinition} (hn : names.WellFormed)
    (hadmits : ∀ t ∈ ts, Admits d t)
    (hnodup : (names.kinds.map (·.1) ++ ts.map (·.name.text)).Nodup) :
    ∃ names', ts.foldlM (fun names t => names.register d t) names = .ok names' := by
  induction ts generalizing names with
  | nil => exact ⟨names, rfl⟩
  | cons t ts ih =>
    obtain ⟨hfirst, hadmits⟩ := List.forall_mem_cons.mp hadmits
    obtain ⟨names₁, h₁⟩ := register_ok hn hfirst fun hmem =>
      (List.nodup_append.mp hnodup).2.2 _ hmem _ List.mem_cons_self rfl
    obtain ⟨hn₁, -, hkinds⟩ := register_wellFormed hn h₁
    obtain ⟨names', h'⟩ := ih hn₁ hadmits (by simpa [hkinds] using hnodup)
    exact ⟨names', by rw [List.foldlM_cons]; exact bind_eq_ok.mpr ⟨names₁, h₁, h'⟩⟩

lemma registerAll_ok {ds : List SchemaDocument} (hn : names.WellFormed)
    (hadmits : ∀ d ∈ ds, ∀ t ∈ d.types, Admits d t)
    (hnodup : (names.kinds.map (·.1) ++ (ds.flatMap (·.types)).map (·.name.text)).Nodup) :
    ∃ names', names.registerAll ds = .ok names' := by
  unfold registerAll
  induction ds generalizing names with
  | nil => exact ⟨names, rfl⟩
  | cons d ds ih =>
    obtain ⟨hfirst, hadmits⟩ := List.forall_mem_cons.mp hadmits
    rw [List.flatMap_cons, List.map_append, ← List.append_assoc] at hnodup
    obtain ⟨names₁, h₁⟩ := registerTypes_ok hn hfirst (List.nodup_append.mp hnodup).1
    obtain ⟨hn₁, -, hkinds⟩ := registerTypes_wellFormed hn h₁
    obtain ⟨names', h'⟩ := ih hn₁ hadmits (by simpa [hkinds, Function.comp_def] using hnodup)
    exact ⟨names', by rw [List.foldlM_cons]; exact bind_eq_ok.mpr ⟨names₁, h₁, h'⟩⟩

end TypeNames

/-! ### Rules that documents make -/

namespace SchemaDocument

/-- The kinds of all types, by their names. -/
def kinds (ds : List SchemaDocument) : List (String × NamedTypeKind) :=
  BuiltinScalar.all.map (fun b => (b.name, .scalar))
    ++ (ds.flatMap (·.types)).map fun t => (t.name.text, t.body.kind)

/-- What definitions in a document, one of our own or not, are judged by. -/
def rules (ds : List SchemaDocument) (isBuiltin : Bool) : DefinitionRules where
  allowsReserved := isBuiltin
  kind? name := (kinds ds).lookup name
  locations? name :=
    ((Builtin.directives (Builtin.registry 0)).map fun spec => (spec.name, spec.locations)).lookup name

/-- Documents obey if their types have names of their own that may be given, one of them is there to
query, and each definition obeys. -/
structure Obey (ds : List SchemaDocument) : Prop where
  names : ∀ d ∈ ds, ∀ t ∈ d.types, TypeNames.Admits d t
  distinct : ((kinds ds).map (·.1)).Nodup
  query : (kinds ds).lookup "Query" = some .object
  types : ∀ d ∈ ds, ∀ t ∈ d.types, t.Obeys (rules ds d.isBuiltin)

end SchemaDocument

namespace Schema

open Resolution

variable {names : TypeNames} {ds : List SchemaDocument} {id : ℕ}

/-- Documents are worked out without faults exactly if each of their definitions obeys. -/
lemma resolveDocuments_passes {directives : List DirectiveSpec} {st : ResolutionState}
    (hst : ∀ d, Ready ⟨d, directives, names.kinds⟩ st) :
    ((ds.mapM (resolveDocument names directives)).run st).2.errors = [] ↔ st.errors = [] ∧
      ∀ d ∈ ds, ∀ t ∈ d.types, t.Obeys (ResolutionContext.rules ⟨d, directives, names.kinds⟩) := by
  induction ds generalizing st with
  | nil => exact (and_iff_left (by simp)).symm
  | cons d ds ih =>
    obtain ⟨hready, hd⟩ := Passes.mapM (fun t _ => type_passes t) st (hst d)
    rw [List.mapM_cons, List.forall_mem_cons, ← and_assoc, ← hd]
    exact ih fun d' => ⟨hready.wellFormed, hready.known⟩

/-- What is registered in the end. -/
lemma registerAll_kinds (h : (TypeNames.builtin id).registerAll ds = .ok names) :
    names.WellFormed ∧ names.kinds = SchemaDocument.kinds ds :=
  have ⟨hwf, _, hkinds⟩ := TypeNames.registerAll_wellFormed (TypeNames.builtin_wellFormed id) h
  ⟨hwf, hkinds⟩

lemma resolveDocuments_faultless (h : (TypeNames.builtin id).registerAll ds = .ok names) :
    ((ds.mapM (resolveDocument names (Builtin.directives names.registry))).run
        ⟨names.registry, [], []⟩).2.errors = [] ↔
      ∀ d ∈ ds, ∀ t ∈ d.types, t.Obeys (SchemaDocument.rules ds d.isBuiltin) := by
  obtain ⟨hwf, hkinds⟩ := registerAll_kinds h
  have hrules (d : SchemaDocument) :
      ResolutionContext.rules ⟨d, Builtin.directives names.registry, names.kinds⟩
        = SchemaDocument.rules ds d.isBuiltin := by
    rw [hkinds]
    rfl
  simp only [resolveDocuments_passes (ready_of_wellFormed hwf), hrules, true_and]

/-- **Documents that resolve**: documents resolve without faults exactly if they obey, together with the
types of introspection. -/
theorem resolve_faultless_iff : (∃ s st, resolve ds id = .ok (s, st) ∧ st.errors = []) ↔
    SchemaDocument.Obey (.introspection :: ds) := by
  constructor
  · rintro ⟨s, st, hr, hst⟩
    obtain ⟨names, query, types, hnames, hquery, hrun, -⟩ := resolve_eq_ok hr
    obtain ⟨hwf, hkinds⟩ := registerAll_kinds hnames
    refine ⟨TypeNames.registerAll_admits hnames, hkinds ▸ hwf.nodup, ?_, ?_⟩
    · unfold objectRoot? at hquery
      split at hquery
      · rwa [← hkinds]
      · simp at hquery
    · rw [← resolveDocuments_faultless hnames, hrun]
      exact hst
  · intro h
    have hsome : ds.all (·.types.isEmpty) = false := by
      refine Bool.eq_false_of_not_eq_true fun hall => ?_
      have hnone : ds.flatMap (·.types) = [] := by simpa using hall
      have hquery := h.query
      rw [SchemaDocument.kinds, List.flatMap_cons, hnone] at hquery
      revert hquery
      decide
    obtain ⟨names, hnames⟩ := TypeNames.registerAll_ok (TypeNames.builtin_wellFormed id) h.names (by
      simpa [SchemaDocument.kinds, TypeNames.builtin, Function.comp_def] using h.distinct)
    obtain ⟨hwf, hkinds⟩ := registerAll_kinds hnames
    have hquery : names.kinds.lookup "Query" = some .object := hkinds ▸ h.query
    obtain ⟨query, hslot⟩ := Option.isSome_iff_exists.mp
      (hwf.known _ (List.mem_map.mpr ⟨_, (mem_iff_lookup hwf.nodup).mpr hquery, rfl⟩))
    have hroot : objectRoot? names "Query" = some query := by
      rw [objectRoot?, if_pos hquery, hslot]
    have hfaultless := (resolveDocuments_faultless hnames).mpr h.types
    generalize hrun : StateT.run _ _ = run at hfaultless
    unfold resolve
    rw [hsome, if_neg Bool.false_ne_true]
    simp only [hnames, hroot, hrun, bind, Except.bind]
    exact ⟨_, _, rfl, hfaultless⟩

end Schema

/-! ### Definitions in another order -/

namespace SchemaDocument

variable {ds ds' : List SchemaDocument}

/-- Documents hold the same definitions, in any order and each in any of them. -/
def Rearranged (ds ds' : List SchemaDocument) : Prop :=
  ((ds.flatMap (·.types)).map TypeDefinition.unplaced).Perm
    ((ds'.flatMap (·.types)).map TypeDefinition.unplaced)

namespace Rearranged

lemma symm (h : Rearranged ds ds') : Rearranged ds' ds := List.Perm.symm h

lemma exists_same (h : Rearranged ds ds') {t : TypeDefinition} (ht : t ∈ ds.flatMap (·.types)) :
    ∃ t' ∈ ds'.flatMap (·.types), t.unplaced = t'.unplaced := by
  obtain ⟨t', ht', heq⟩ := List.mem_map.mp (h.mem_iff.mp (List.mem_map.mpr ⟨t, ht, rfl⟩))
  exact ⟨t', ht', heq.symm⟩

/-- What does not depend on places is the same for all definitions. -/
lemma map {α : Type} {f : TypeDefinition → α} (h : Rearranged ds ds') (hf : ∀ t, f t.unplaced = f t) :
    ((ds.flatMap (·.types)).map f).Perm ((ds'.flatMap (·.types)).map f) := by
  have hperm := List.Perm.map f h
  simpa only [List.map_map, Function.comp_def, hf] using hperm

lemma kinds (h : Rearranged ds ds') :
    (kinds (.introspection :: ds)).Perm (kinds (.introspection :: ds')) := by
  have hkind (t : TypeDefinition) : t.unplaced.body.kind = t.body.kind := by
    obtain ⟨description, name, directives, body, pos⟩ := t
    cases body <;> rfl
  unfold SchemaDocument.kinds
  simp only [List.flatMap_cons, List.map_append]
  exact ((h.map fun t => Prod.ext rfl (hkind t)).append_left _).append_left _

/-- Whether documents obey does not depend on how they are arranged. -/
lemma obey (h : Rearranged ds ds') (hd : ∀ d ∈ ds, d.isBuiltin = false)
    (hd' : ∀ d ∈ ds', d.isBuiltin = false) (hobey : Obey (.introspection :: ds)) :
    Obey (.introspection :: ds') := by
  have hrules (isBuiltin : Bool) :
      rules (.introspection :: ds) isBuiltin = rules (.introspection :: ds') isBuiltin :=
    DefinitionRules.mk.injEq .. ▸
      ⟨rfl, funext fun name => lookup_perm hobey.distinct h.kinds name, rfl⟩
  -- Each definition is one of the others as well, apart from its places.
  have hsame {d : SchemaDocument} (hmem : d ∈ ds') {t : TypeDefinition} (ht : t ∈ d.types) :
      ∃ e ∈ ds, ∃ u ∈ e.types, u.unplaced = t.unplaced ∧ e.isBuiltin = d.isBuiltin := by
    obtain ⟨u, hu, heq⟩ := h.symm.exists_same (List.mem_flatMap.mpr ⟨d, hmem, ht⟩)
    obtain ⟨e, he, hu⟩ := List.mem_flatMap.mp hu
    exact ⟨e, he, u, hu, heq.symm, (hd e he).trans (hd' d hmem).symm⟩
  refine ⟨?_, (h.kinds.map _).nodup_iff.mp hobey.distinct,
    (lookup_perm hobey.distinct h.kinds _).symm.trans hobey.query, ?_⟩
  · refine List.forall_mem_cons.mpr ⟨hobey.names _ List.mem_cons_self, fun d hmem t ht => ?_⟩
    obtain ⟨e, he, u, hu, heq, hbuiltin⟩ := hsame hmem ht
    have hname : u.name.text = t.name.text := (congrArg (fun t : TypeDefinition => t.name.text) heq :)
    have hadmits := hobey.names e (List.mem_cons_of_mem _ he) u hu
    unfold TypeNames.Admits Name.isReserved at hadmits ⊢
    rwa [← hname, ← hbuiltin]
  · refine List.forall_mem_cons.mpr ⟨fun t ht => ?_, fun d hmem t ht => ?_⟩
    · rw [← hrules]
      exact hobey.types _ List.mem_cons_self t ht
    · obtain ⟨e, he, u, hu, heq, hbuiltin⟩ := hsame hmem ht
      rw [← TypeDefinition.obeys_unplaced, ← heq, TypeDefinition.obeys_unplaced, ← hrules, ← hbuiltin]
      exact hobey.types e (List.mem_cons_of_mem _ he) u hu

end Rearranged

end SchemaDocument

end GraphQL
