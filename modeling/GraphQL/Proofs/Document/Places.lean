import Mathlib.Data.List.Forall2
import GraphQL.Proofs.Document.Parts
import GraphQL.Token

/-!
What a document says about places.

Names, fields, selection sets, fragments in selections and values each stand at a token, and what
stands in a list is written in its order. The places of a tree list all of these in the order in which
they are written, so that two things that stand at tokens behind each other are not the same.
-/

namespace GraphQL

/-! ### What stands at a token -/

/-- The token is the name. -/
def Name.StandsAt (n : Name) (t : Token) : Prop := t = ⟨.name, n.text, n.pos⟩

namespace Literal

/-- The token is the value, or what the value starts with. A malformed string stands for some text. -/
def StartsWith : Literal → Token → Prop
  | null _, t => t.kind = .name ∧ t.text = "null"
  | var _ _, t => t.kind = .dollar
  | scalar .int text _, t => t.kind = .int ∧ t.text = text
  | scalar .float text _, t => t.kind = .float ∧ t.text = text
  | scalar .string text _, t =>
    t.kind.isString = true ∧ ∀ cooked, StringLiteral.cook t.text = .ok cooked → text = cooked
  | scalar .boolean text _, t => t.kind = .name ∧ t.text = text ∧ (text = "true" ∨ text = "false")
  | scalar .enum text _, t => t.kind = .name ∧ t.text = text
  | list _ _, t => t.kind = .bracketOpen
  | object _ _, t => t.kind = .braceOpen

end Literal

/-- A part of a tree that is known by its place. -/
inductive Node where
  | field (field : Field)
  | selectionSet (selectionSet : SelectionSet)
  | spread (spread : FragmentSpread)
  | inline (fragment : InlineFragment)
  | value (value : Literal)

namespace Node

def pos : Node → Pos
  | field f => f.pos
  | selectionSet s => s.pos
  | spread s => s.pos
  | inline i => i.pos
  | value v => v.pos

/-- The token is what the part starts with. A field starts with its alias, or else with its name. -/
def StartsWith : Node → Token → Prop
  | field f, t => t.kind = .name ∧ t.text = f.responseKey
  | selectionSet _, t => t.kind = .braceOpen
  | spread _, t | inline _, t => t.kind = .ellipsis
  | value v, t => v.StartsWith t

def StandsAt (n : Node) (t : Token) : Prop := t.start = n.pos ∧ n.StartsWith t

end Node

/-! ### Places of a tree -/

/-- All names and parts of a tree, and for each list in it the places of what stands there. -/
structure Places where
  names : List Name
  nodes : List Node
  rows : List (List Pos)

namespace Places

/-- The places of trees that are written one behind another. -/
def join (ps : List Places) : Places :=
  ⟨ps.flatMap (·.names), ps.flatMap (·.nodes), ps.flatMap (·.rows)⟩

def ofName (n : Name) : Places := ⟨[n], [], []⟩

def ofNode (n : Node) : Places := ⟨[], [n], []⟩

def ofRow (ps : List Pos) : Places := ⟨[], [], [ps]⟩

def ofOption {α : Type} (places : α → Places) (a? : Option α) : Places := join (a?.toList.map places)

/-- The places of trees that stand in a list. -/
def ofList {α : Type} (pos : α → Pos) (places : α → Places) (as : List α) : Places :=
  join (ofRow (as.map pos) :: as.map places)

end Places

open Places

namespace Literal

mutual

def places : Literal → Places
  | list items p => join [ofNode (.value (.list items p)), join (ofRow (items.map pos) :: placesOfItems items)]
  | object fields p =>
    join [ofNode (.value (.object fields p)), join (ofRow (fields.map (·.1.pos)) :: placesOfFields fields)]
  | null p => ofNode (.value (.null p))
  | var name p => ofNode (.value (.var name p))
  | scalar kind text p => ofNode (.value (.scalar kind text p))

def placesOfItems : List Literal → List Places
  | [] => []
  | v :: vs => v.places :: placesOfItems vs

def placesOfFields : List (Name × Literal) → List Places
  | [] => []
  | (n, v) :: fs => join [ofName n, v.places] :: placesOfFields fs

end

/-- The places of a value behind its name and a colon. -/
def placesOfField (f : Name × Literal) : Places := join [ofName f.1, f.2.places]

lemma placesOfItems_eq (vs : List Literal) : placesOfItems vs = vs.map places := by
  induction vs with
  | nil => rfl
  | cons v vs ih => rw [placesOfItems, ih, List.map_cons]

lemma placesOfFields_eq (fs : List (Name × Literal)) : placesOfFields fs = fs.map placesOfField := by
  induction fs with
  | nil => rfl
  | cons f fs ih =>
    obtain ⟨n, v⟩ := f
    rw [placesOfFields, ih, List.map_cons, placesOfField]

lemma places_list (items : List Literal) (p : Pos) :
    (list items p).places = join [ofNode (.value (.list items p)), ofList pos places items] := by
  rw [places, placesOfItems_eq, ofList]

lemma places_object (fields : List (Name × Literal)) (p : Pos) : (object fields p).places =
    join [ofNode (.value (.object fields p)), ofList (·.1.pos) placesOfField fields] := by
  rw [places, placesOfFields_eq, ofList]

end Literal

def TypeRef.places (t : TypeRef) : Places := ofName t.innermost

def Argument.places (a : Argument) : Places := join [ofName a.name, a.value.places]

def Argument.placesOfAll (args : List Argument) : Places := ofList pos places args

def Directive.places (d : Directive) : Places := join [ofName d.name, Argument.placesOfAll d.arguments]

def Directive.placesOfAll (ds : List Directive) : Places := ofList (·.pos) places ds

/-- The names that a field starts with. -/
def Field.heading (f : Field) : Places := ⟨f.alias?.toList ++ [f.name], [.field f], []⟩

def Field.places (f : Field) : Places :=
  join [f.heading, Argument.placesOfAll f.arguments, Directive.placesOfAll f.directives]

mutual

def Selection.places : Selection → Places
  | .field f none => f.places
  | .field f (some below) => join [f.places, below.places]
  | .spread s => join [ofNode (.spread s), ofName s.name, Directive.placesOfAll s.directives]
  | .inline i below =>
    join [ofNode (.inline i), ofOption ofName i.typeCondition, Directive.placesOfAll i.directives,
      below.places]

def SelectionSet.places : SelectionSet → Places
  | .mk selections p =>
    join [ofNode (.selectionSet (.mk selections p)),
      join (ofRow (selections.map (·.pos)) :: placesOfSelections selections)]

def placesOfSelections : List Selection → List Places
  | [] => []
  | s :: ss => s.places :: placesOfSelections ss

end

lemma placesOfSelections_eq (ss : List Selection) : placesOfSelections ss = ss.map (·.places) := by
  induction ss with
  | nil => rfl
  | cons s ss ih => rw [placesOfSelections, ih, List.map_cons]

lemma SelectionSet.places_mk (selections : List Selection) (p : Pos) : (mk selections p).places =
    join [ofNode (.selectionSet (.mk selections p)), ofList (·.pos) (·.places) selections] := by
  rw [places, placesOfSelections_eq, ofList]

def VariableDefinition.places (d : VariableDefinition) : Places :=
  join [ofName d.name, d.type.places, ofOption (·.places) d.default?, Directive.placesOfAll d.directives]

def OperationDefinition.places (op : OperationDefinition) : Places :=
  join [ofOption ofName op.name, ofList (·.pos) (·.places) op.variableDefinitions,
    Directive.placesOfAll op.directives, op.selectionSet.places]

def FragmentDefinition.places (f : FragmentDefinition) : Places :=
  join [ofName f.name, ofName f.typeCondition, Directive.placesOfAll f.directives, f.selectionSet.places]

def InputDefinition.places (d : InputDefinition) : Places :=
  join [ofName d.name, d.type.places, ofOption (·.places) d.default?, Directive.placesOfAll d.directives]

def FieldDefinition.places (d : FieldDefinition) : Places :=
  join [ofName d.name, ofList (·.pos) (·.places) d.arguments, d.type.places,
    Directive.placesOfAll d.directives]

def EnumValueDefinition.places (d : EnumValueDefinition) : Places :=
  join [ofName d.name, Directive.placesOfAll d.directives]

def TypeBody.places : TypeBody → Places
  | .scalar => join []
  | .object fields => ofList (·.pos) (·.places) fields
  | .enum values => ofList (·.pos) (·.places) values
  | .input fields => ofList (·.pos) (·.places) fields

def TypeDefinition.places (d : TypeDefinition) : Places :=
  join [ofName d.name, Directive.placesOfAll d.directives, d.body.places]

def Definition.places : Definition → Places
  | .operation op => op.places
  | .fragment f => f.places
  | .type t => t.places

def Document.places (d : Document) : Places := ofList (·.pos) (·.places) d.definitions

/-! ### Places at tokens -/

namespace Places

/-- The names and parts stand at these tokens, in their order, and so does what stands in a list. -/
structure IsIn (p : Places) (ts : List Token) : Prop where
  names : List.SublistForall₂ Name.StandsAt p.names ts
  nodes : List.SublistForall₂ Node.StandsAt p.nodes ts
  rows : ∀ row ∈ p.rows, row.Sublist (ts.map (·.start))

lemma sublistForall₂_append {α β : Type} {R : α → β → Prop} {as as' : List α} {bs bs' : List β}
    (h : List.SublistForall₂ R as bs) (h' : List.SublistForall₂ R as' bs') :
    List.SublistForall₂ R (as ++ as') (bs ++ bs') := by
  obtain ⟨cs, hcs, hsub⟩ := List.sublistForall₂_iff.mp h
  obtain ⟨cs', hcs', hsub'⟩ := List.sublistForall₂_iff.mp h'
  exact List.sublistForall₂_iff.mpr ⟨cs ++ cs', List.rel_append hcs hcs', hsub.append hsub'⟩

lemma exists_of_sublistForall₂ {α β : Type} {R : α → β → Prop} {as : List α} {bs : List β}
    (h : List.SublistForall₂ R as bs) : ∀ a ∈ as, ∃ b ∈ bs, R a b := by
  induction h with
  | nil => simp
  | cons hab _ ih =>
    refine List.forall_mem_cons.mpr ⟨⟨_, List.mem_cons_self, hab⟩, fun a ha => ?_⟩
    obtain ⟨b, hb, hR⟩ := ih a ha
    exact ⟨b, List.mem_cons_of_mem _ hb, hR⟩
  | cons_right _ ih =>
    intro a ha
    obtain ⟨b, hb, hR⟩ := ih a ha
    exact ⟨b, List.mem_cons_of_mem _ hb, hR⟩

namespace IsIn

variable {p : Places} {ps : List Places} {ts us : List Token}

lemma nil : (join []).IsIn [] := ⟨.nil, .nil, by simp [join]⟩

lemma cons (h : p.IsIn ts) (hs : (join ps).IsIn us) : (join (p :: ps)).IsIn (ts ++ us) where
  names := sublistForall₂_append h.names hs.names
  nodes := sublistForall₂_append h.nodes hs.nodes
  rows row hrow := by
    rw [List.map_append]
    rcases List.mem_append.mp hrow with hrow | hrow
    · exact (h.rows row hrow).trans (List.sublist_append_left _ _)
    · exact (hs.rows row hrow).trans (List.sublist_append_right _ _)

/-- More tokens do not matter. -/
lemma of_sublist (h : p.IsIn ts) (hs : ts.Sublist us) : p.IsIn us where
  names := by
    obtain ⟨vs, hvs, hsub⟩ := List.sublistForall₂_iff.mp h.names
    exact List.sublistForall₂_iff.mpr ⟨vs, hvs, hsub.trans hs⟩
  nodes := by
    obtain ⟨vs, hvs, hsub⟩ := List.sublistForall₂_iff.mp h.nodes
    exact List.sublistForall₂_iff.mpr ⟨vs, hvs, hsub.trans hs⟩
  rows row hrow := (h.rows row hrow).trans (hs.map _)

lemma skip (ts : List Token) (h : p.IsIn us) : p.IsIn (ts ++ us) :=
  h.of_sublist (List.sublist_append_right _ _)

lemma ofRow {row : List Pos} (h : row.Sublist (ts.map (·.start))) (hs : (join ps).IsIn ts) :
    (join (Places.ofRow row :: ps)).IsIn ts where
  names := hs.names
  nodes := hs.nodes
  rows := List.forall_mem_cons.mpr ⟨h, hs.rows⟩

lemma ofName {n : Name} {t : Token} (h : n.StandsAt t) : (Places.ofName n).IsIn [t] :=
  ⟨.cons h .nil, .nil, by simp [Places.ofName]⟩

lemma ofNode {n : Node} {t : Token} (h : n.StandsAt t) : (Places.ofNode n).IsIn [t] :=
  ⟨.nil, .cons h .nil, by simp [Places.ofNode]⟩

/-- A part that starts with a token, in front of all else that it holds. -/
lemma opened {n : Node} {t : Token} (h : n.StandsAt t) (hp : p.IsIn ts) :
    (join [Places.ofNode n, p]).IsIn (t :: ts) := by
  rw [← List.append_nil ts]
  exact (ofNode h).cons (hp.cons nil)

lemma ofOption {α : Type} {places : α → Places} {a? : Option α} (h : ∀ a ∈ a?, (places a).IsIn ts) :
    (Places.ofOption places a?).IsIn ts := by
  cases a? with
  | none => exact nil.of_sublist (List.nil_sublist _)
  | some a => exact ((h a rfl).cons nil).of_sublist (by simp)

lemma names_mem (h : p.IsIn ts) {n : Name} (hn : n ∈ p.names) : ∃ t ∈ ts, n.StandsAt t :=
  exists_of_sublistForall₂ h.names n hn

lemma nodes_mem (h : p.IsIn ts) {n : Node} (hn : n ∈ p.nodes) : ∃ t ∈ ts, n.StandsAt t :=
  exists_of_sublistForall₂ h.nodes n hn

lemma nodes_sublist (h : p.IsIn ts) : (p.nodes.map (·.pos)).Sublist (ts.map (·.start)) := by
  obtain ⟨us, hus, hsub⟩ := List.sublistForall₂_iff.mp h.nodes
  have hpos : p.nodes.map (·.pos) = us.map (·.start) := by
    clear hsub
    generalize p.nodes = nodes at hus
    induction hus with
    | nil => rfl
    | cons hn _ ih => rw [List.map_cons, List.map_cons, hn.1, ih]
  rw [hpos]
  exact hsub.map _

end IsIn

end Places

/-! ### Parts by their places -/

namespace Places

variable {p : Places} {ps : List Places}

lemma nodes_join_cons : (join (p :: ps)).nodes = p.nodes ++ (join ps).nodes := List.flatMap_cons ..

lemma nodes_sublist_join (hp : p ∈ ps) : p.nodes.Sublist (join ps).nodes :=
  List.sublist_flatten_of_mem (List.mem_map_of_mem hp)

/-- Each part stands at some token. -/
def Known (p : Places) : Prop := ∀ n ∈ p.nodes, ∃ t, n.StandsAt t

lemma IsIn.known {ts : List Token} (h : p.IsIn ts) : p.Known := fun _ hn =>
  have ⟨t, _, hn⟩ := h.nodes_mem hn
  ⟨t, hn⟩

lemma Known.member (h : (join ps).Known) (hp : p ∈ ps) : p.Known :=
  fun n hn => h n (List.mem_flatMap.mpr ⟨p, hp, hn⟩)

lemma Known.ofList {α : Type} {pos : α → Pos} {places : α → Places} {as : List α}
    (h : (ofList pos places as).Known) {a : α} (ha : a ∈ as) : (places a).Known :=
  h.member (List.mem_cons_of_mem _ (List.mem_map_of_mem ha))

end Places

lemma Literal.isProper_of_known (v : Literal) (h : v.places.Known) : v.IsProper := by
  induction v using Literal.induct with
  | null p => exact .null p
  | var name p => exact .var name p
  | scalar kind text p =>
    refine .scalar p fun hk => ?_
    subst hk
    rw [places] at h
    obtain ⟨t, -, -, -, htext⟩ := h _ List.mem_cons_self
    exact htext
  | list items p ih =>
    rw [places_list] at h
    have hitems : (ofList pos places items).Known := h.member (by simp)
    exact .list p fun v hv => ih v hv (hitems.ofList hv)
  | object fields p ih =>
    rw [places_object] at h
    have hfields : (ofList (·.1.pos) placesOfField fields).Known := h.member (by simp)
    exact .object p fun f hf => ih f hf ((hfields.ofList hf).member (by simp))

lemma Field.isProper_of_known {f : Field} (h : f.places.Known) : ∀ a ∈ f.arguments, a.value.IsProper := by
  intro a ha
  have harguments : (Argument.placesOfAll f.arguments).Known := h.member (by simp)
  exact a.value.isProper_of_known ((harguments.ofList ha).member (by simp))

mutual

/-- The parts of a selection are some of those that its places list, in their order. -/
lemma Selection.parts_sublist : ∀ s : Selection,
    (s.parts.map (·.pos)).Sublist (s.places.nodes.map (·.pos))
  | .field f none => by
    rw [Selection.parts, Selection.places, Field.places, nodes_join_cons]
    exact (List.nil_sublist _).cons_cons f.pos
  | .field f (some below) => by
    have hlast : below.places.nodes.Sublist (join [below.places]).nodes := nodes_sublist_join (by simp)
    have hbelow := below.parts_sublist.trans (hlast.map _)
    rw [Selection.parts, Selection.places, Field.places, nodes_join_cons, nodes_join_cons, List.map_append]
    exact .append ((List.nil_sublist _).cons_cons f.pos) hbelow
  | .spread s => by
    rw [Selection.parts]
    exact List.nil_sublist _
  | .inline i below => by
    rw [Selection.parts, Selection.places]
    exact below.parts_sublist.trans ((nodes_sublist_join (by simp)).map _)

lemma SelectionSet.parts_sublist : ∀ ss : SelectionSet,
    (ss.parts.map (·.pos)).Sublist (ss.places.nodes.map (·.pos))
  | .mk selections p => by
    have hall := parts_sublist_of_all selections
    rw [SelectionSet.parts, SelectionSet.places, nodes_join_cons, nodes_join_cons]
    exact (hall.trans (List.Sublist.map _ (List.sublist_append_left _ _))).cons_cons p

lemma parts_sublist_of_all : ∀ ss : List Selection,
    ((partsOfAll ss).map (·.pos)).Sublist ((join (placesOfSelections ss)).nodes.map (·.pos))
  | [] => by simp [partsOfAll]
  | s :: ss => by
    rw [partsOfAll, placesOfSelections, nodes_join_cons, List.map_append, List.map_append]
    exact s.parts_sublist.append (parts_sublist_of_all ss)

end

mutual

lemma Selection.isProper_of_known : ∀ s : Selection, s.places.Known → ∀ q ∈ s.parts, q.IsProper
  | .field f none, h => by
    rw [Selection.parts, List.forall_mem_singleton]
    exact Field.isProper_of_known h
  | .field f (some below), h => by
    rw [Selection.places] at h
    rw [Selection.parts, List.forall_mem_cons]
    exact ⟨Field.isProper_of_known (h.member (by simp)), below.isProper_of_known (h.member (by simp))⟩
  | .spread s, _ => by simp [Selection.parts]
  | .inline i below, h => by
    rw [Selection.places] at h
    rw [Selection.parts]
    exact below.isProper_of_known (h.member (by simp))

lemma SelectionSet.isProper_of_known : ∀ ss : SelectionSet, ss.places.Known → ∀ q ∈ ss.parts, q.IsProper
  | .mk selections p, h => by
    rw [SelectionSet.places] at h
    rw [SelectionSet.parts, List.forall_mem_cons]
    have hall : (join (ofRow (selections.map (·.pos)) :: placesOfSelections selections)).Known :=
      h.member (by simp)
    exact ⟨trivial, isProper_of_all_known selections fun p hp => hall.member (List.mem_cons_of_mem _ hp)⟩

lemma isProper_of_all_known : ∀ ss : List Selection, (∀ p ∈ placesOfSelections ss, p.Known) →
    ∀ q ∈ partsOfAll ss, q.IsProper
  | [], _ => by simp [partsOfAll]
  | s :: ss, h => by
    rw [placesOfSelections, List.forall_mem_cons] at h
    rw [partsOfAll, List.forall_mem_append]
    exact ⟨s.isProper_of_known h.1, isProper_of_all_known ss h.2⟩

end

namespace Definition

lemma parts_sublist (d : Definition) : (d.parts.map (·.pos)).Sublist (d.places.nodes.map (·.pos)) := by
  cases d with
  | operation op => exact op.selectionSet.parts_sublist.trans ((nodes_sublist_join (by simp)).map _)
  | fragment f => exact f.selectionSet.parts_sublist.trans ((nodes_sublist_join (by simp)).map _)
  | type t => exact List.nil_sublist _

lemma default_isProper {o : Option Literal} (h : (ofOption Literal.places o).Known) : ∀ v ∈ o, v.IsProper :=
  fun v hv => v.isProper_of_known (h.member (List.mem_map_of_mem (Option.mem_toList.mpr hv)))

lemma defaults_isProper {ds : List InputDefinition} (h : (ofList (·.pos) (·.places) ds).Known) :
    ∀ v ∈ ds.filterMap (·.default?), v.IsProper := by
  intro v hv
  obtain ⟨d, hd, hv⟩ := List.mem_filterMap.mp hv
  have hplaces : d.places.Known := h.ofList hd
  exact default_isProper (hplaces.member (by simp)) v hv

lemma isProper_of_known {d : Definition} (h : d.places.Known) : d.IsProper := by
  cases d with
  | operation op =>
    refine ⟨op.selectionSet.isProper_of_known (h.member (by simp)), fun v hv => ?_⟩
    obtain ⟨e, he, hv⟩ := List.mem_filterMap.mp hv
    have hvariables : (ofList (·.pos) (·.places) op.variableDefinitions).Known := h.member (by simp)
    have hplaces : e.places.Known := hvariables.ofList he
    exact default_isProper (hplaces.member (by simp)) v hv
  | fragment f => exact f.selectionSet.isProper_of_known (h.member (by simp))
  | type t =>
    have hbody : t.body.places.Known := h.member (by simp)
    intro v hv
    generalize t.body = body at hbody hv
    cases body with
    | scalar => cases hv
    | enum values => cases hv
    | input fields => exact defaults_isProper hbody v hv
    | object fields =>
      obtain ⟨f, hf, hv⟩ := List.mem_flatMap.mp hv
      have hfield : f.places.Known := hbody.ofList hf
      exact defaults_isProper (hfield.member (by simp)) v hv

end Definition

lemma Document.parts_sublist (d : Document) : (d.parts.map (·.pos)).Sublist (d.places.nodes.map (·.pos)) := by
  have hall : ∀ es : List Definition, ((es.flatMap (·.parts)).map (·.pos)).Sublist
      ((join (es.map (·.places))).nodes.map (·.pos)) := by
    intro es
    induction es with
    | nil => exact List.nil_sublist _
    | cons e es ih =>
      rw [List.flatMap_cons, List.map_append, List.map_cons, nodes_join_cons, List.map_append]
      exact e.parts_sublist.append ih
  rw [Document.places, ofList, nodes_join_cons]
  exact hall d.definitions

end GraphQL
