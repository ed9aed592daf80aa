import GraphQL.Proofs.Document.Places
import GraphQL.Proofs.Parser.Reads

/-!
Places of what was parsed.

What a rule makes stands at tokens that the rule read, in their order. A token is never read twice, so
what stands at a token is known by its place, whatever else is wrong with the source.
-/

namespace GraphQL

namespace Parse

open Places

variable {α β : Type} {rest : List Token}

/-- What was made stands at the tokens that were read. -/
def Locates (p : Parse α) (places : α → Places) : Prop :=
  ∀ rest, Reads p rest fun read a => (places a).IsIn read

/-- As a member of a list, it stands at one of them itself. -/
def Sited (pos : α → Pos) (places : α → Places) (read : List Token) (a : α) : Prop :=
  (places a).IsIn read ∧ pos a ∈ read.map (·.start)

def Sites (p : Parse α) (pos : α → Pos) (places : α → Places) : Prop :=
  ∀ rest, Reads p rest (Sited pos places)

section

variable {pos : α → Pos} {places : α → Places} {p : Parse α}

lemma Locates.makes (h : Locates p places) : Makes p fun _ => True := fun rest => (h rest).mono fun _ _ _ => trivial

lemma Sites.locates (h : Sites p pos places) : Locates p places :=
  fun rest => (h rest).mono fun _ _ ha => ha.1

lemma InTurn.row {read : List Token} {as : List α} (h : InTurn (Sited pos places) read as) :
    (as.map pos).Sublist (read.map (·.start)) := by
  induction h with
  | nil => exact List.nil_sublist _
  | cons skipped ha _ ih =>
    rw [List.map_append, List.map_append]
    exact ((List.singleton_sublist.mpr ha.2).append ih).trans (List.sublist_append_right _ _)

lemma InTurn.located {read : List Token} {as : List α} (h : InTurn (Sited pos places) read as) :
    (ofList pos places as).IsIn read := by
  refine .ofRow h.row ?_
  induction h with
  | nil read => exact IsIn.nil.of_sublist (List.nil_sublist read)
  | cons skipped ha _ ih => exact .skip _ (.cons ha.1 ih)

lemma group_locates (hp : Sites p pos places) (c : Construct) :
    Reads (group c p) rest fun read out => ∃ opening behind, read = opening :: behind ∧
      opening.kind = c.opening ∧ out.2 = opening.start ∧ (ofList pos places out.1).IsIn behind := by
  refine (group_reads c rest fun tokens _ => hp tokens).mono fun read out hout => ?_
  obtain ⟨opening, behind, hread, hkind, hpos, hturn⟩ := hout
  exact ⟨opening, behind, hread, hkind, hpos, hturn.located⟩

lemma optionalGroup_locates (hp : Sites p pos places) (c : Construct) :
    Locates (optionalGroup c p) (ofList pos places) := by
  refine fun rest => .neutral_bind (.nextIs _) fun next => .ite (fun _ => ?_) fun _ => .pure ?_
  · refine (group_locates hp c).bind fun out read rest' _ hout => .pure ?_
    obtain ⟨opening, behind, rfl, -, -, hplaces⟩ := hout
    exact hplaces.of_sublist (by simp)
  · exact .ofRow (by simp) .nil

end

/-! ### Values and types -/

lemma expectName_locates (what : String) :
    Reads (expectName what) rest fun read n => ∃ t, read = [t] ∧ n.StandsAt t :=
  (expectName_reads what).mono fun _ _ ⟨t, hread, hk, hn⟩ => ⟨t, hread, by rw [Name.StandsAt, hn, ← hk]⟩

lemma literalOfName_standsAt {t : Token} (hk : t.kind = .name) :
    (Node.value (literalOfName t)).StandsAt t := by
  unfold literalOfName
  split
  · exact ⟨rfl, hk, ‹_›⟩
  · exact ⟨rfl, hk, rfl, .inl ‹_›⟩
  · exact ⟨rfl, hk, rfl, .inr ‹_›⟩
  · exact ⟨rfl, hk, rfl⟩

/-- A value that is one token, or of which the first one is known. -/
lemma sited_of_node {v : Literal} {t : Token} {read : List Token} (hplaces : v.places = ofNode (.value v))
    (h : (Node.value v).StandsAt t) : Sited Literal.pos Literal.places (t :: read) v := by
  refine ⟨?_, ?_⟩
  · rw [hplaces]
    exact (IsIn.ofNode h).of_sublist (by simp)
  · exact List.mem_map.mpr ⟨t, List.mem_cons_self, h.1⟩

lemma cook_reads (t : Token) : Reads (cook t) rest fun read text =>
    read = [] ∧ ∀ cooked, StringLiteral.cook t.text = .ok cooked → text = cooked := by
  unfold cook
  split
  · rename_i text hcook
    exact .pure ⟨rfl, fun cooked h => Except.ok.inj (hcook.symm.trans h)⟩
  · rename_i e hcook
    refine .neutral_bind (.report _) fun _ => .pure ⟨rfl, fun cooked h => ?_⟩
    rw [hcook] at h
    cases h

lemma namedValue_sites {what : String} {value : Parse Literal} (hv : Locates value Literal.places) :
    Sites (namedValue what value) (·.1.pos) Literal.placesOfField := by
  intro rest
  refine (expectName_locates what).bind fun name read₁ rest₁ _ hname => ?_
  refine ((Makes.expect .colon).discard rest₁).bind fun _ read₂ rest₂ _ _ => ?_
  refine (hv rest₂).bind fun v read₃ rest₃ _ hv => .pure ?_
  obtain ⟨t, rfl, hname⟩ := hname
  refine ⟨.cons (.ofName hname) (.skip _ (.cons hv .nil)), ?_⟩
  rw [Name.StandsAt] at hname
  simp [hname]

lemma variableReference_sites (place : Option ConstantPlace) {t : Token} {tokens : List Token}
    (hk : t.kind = .dollar) :
    Reads (variableReference place t) (t :: tokens) (Sited Literal.pos Literal.places) := by
  refine .advance_bind ((Makes.expectName _ tokens).bind fun name read rest' _ _ => ?_)
  have hsited (more : List Token) : Sited Literal.pos Literal.places (t :: more) (.var name.text t.start) :=
    sited_of_node (by rw [Literal.places]) ⟨rfl, hk⟩
  cases place with
  | none => exact .pure (hsited _)
  | some place => exact .neutral_bind (.report _) fun _ => .pure (hsited _)

lemma valueWithin_sites (place : Option ConstantPlace) (levels : Nat) :
    Sites (valueWithin place levels) Literal.pos Literal.places := by
  induction levels with
  | zero => exact fun _ => .tooDeep
  | succ levels ih =>
    intro rest
    rw [valueWithin]
    refine .nested (.peek_bind ?_)
    cases rest with
    | nil => exact .unexpected _
    | cons t tokens =>
      dsimp only [List.head?_cons]
      have hstring (hk : t.kind.isString = true) : Reads (do
          advance
          return Literal.scalar .string (← cook t) t.start) (t :: tokens) (Sited Literal.pos Literal.places) := by
        refine .advance_bind ((cook_reads t).bind fun text read rest' _ htext => .pure ?_)
        exact sited_of_node (by rw [Literal.places]) ⟨rfl, hk, htext.2⟩
      split
      · exact variableReference_sites place ‹_›
      · exact .advance_bind (.pure (sited_of_node (by rw [Literal.places]) ⟨rfl, ‹_›, rfl⟩))
      · exact .advance_bind (.pure (sited_of_node (by rw [Literal.places]) ⟨rfl, ‹_›, rfl⟩))
      · rename_i hk
        exact hstring (by rw [hk]; rfl)
      · rename_i hk
        exact hstring (by rw [hk]; rfl)
      · rename_i hk
        have hplaces : (literalOfName t).places = ofNode (.value (literalOfName t)) := by
          unfold literalOfName
          split <;> rw [Literal.places]
        exact .advance_bind (.pure (sited_of_node hplaces (literalOfName_standsAt hk)))
      · refine (group_locates ih _).bind fun out read rest' _ hout => .pure ?_
        obtain ⟨items, p⟩ := out
        obtain ⟨opening, behind, rfl, hkind, rfl, hitems⟩ := hout
        refine ⟨?_, by simp [Literal.pos]⟩
        dsimp only
        rw [Literal.places_list, List.append_nil]
        exact .opened ⟨rfl, hkind⟩ hitems
      · refine (group_locates (namedValue_sites ih.locates) _).bind fun out read rest' _ hout => .pure ?_
        obtain ⟨fields, p⟩ := out
        obtain ⟨opening, behind, rfl, hkind, rfl, hfields⟩ := hout
        refine ⟨?_, by simp [Literal.pos]⟩
        dsimp only
        rw [Literal.places_object, List.append_nil]
        exact .opened ⟨rfl, hkind⟩ hfields
      · exact .unexpected _

lemma value_sites (place : Option ConstantPlace) : Sites (value place) Literal.pos Literal.places :=
  fun rest => .neutral_bind .limits fun _ => valueWithin_sites place _ rest

lemma requiredMark_reads (p : Pos) (t : TypeRef) :
    Reads (requiredMark p t) rest fun _ u => u.innermost = t.innermost := by
  refine .neutral_bind (.nextIs _) fun next => .ite (fun _ => ?_) fun _ => .pure rfl
  exact (Makes.advance rest).bind fun _ _ rest' _ _ => .pure rfl

lemma typeRefWithin_locates (levels : Nat) : Locates (typeRefWithin levels) TypeRef.places := by
  have hmark {p : Pos} {t : TypeRef} {read : List Token} (ht : t.places.IsIn read) (rest : List Token) :
      Reads (requiredMark p t) rest fun more u => u.places.IsIn (read ++ more) := by
    refine (requiredMark_reads p t).mono fun more u hu => ?_
    rw [TypeRef.places, hu]
    exact ht.of_sublist (by simp)
  induction levels with
  | zero => exact fun _ => .tooDeep
  | succ levels ih =>
    intro rest
    rw [typeRefWithin]
    refine .nested (.neutral_bind .here fun start => .neutral_bind (.nextIs _) fun next => ?_)
    refine .ite (fun _ => ?_) fun _ => ?_
    · refine (Makes.expect _ rest).bind fun opening read rest' _ _ => ?_
      refine .neutral_bind (.openDelimiter _) fun _ => ?_
      have helement : Locates (do
          let t ← typeRefWithin levels
          discard <| expect .bracketClose
          return t) TypeRef.places := fun rest =>
        (ih rest).bind fun t read rest' _ ht => ((Makes.expect _).discard rest').bind
          fun _ more _ _ _ => .pure (ht.of_sublist (by simp))
      refine (helement rest').attempt.bind fun element more rest'' _ ht => ?_
      refine .neutral_bind .closeDelimiter fun _ => ?_
      cases element with
      | none => exact .fail
      | some t =>
        have hlist : (TypeRef.list t opening.start).places.IsIn (read ++ more) := (ht t rfl).skip read
        exact (hmark hlist rest'').mono fun _ _ h => by rwa [← List.append_assoc]
    · refine (expectName_locates _).bind fun name read rest' _ hname => ?_
      obtain ⟨t, rfl, hname⟩ := hname
      have hnamed : (TypeRef.named name).places.IsIn [t] := .ofName hname
      exact hmark hnamed rest'

lemma typeRef_locates : Locates typeRef TypeRef.places :=
  fun rest => .neutral_bind .limits fun _ => typeRefWithin_locates _ rest

/-! ### Arguments and directives -/

lemma argument_sites (place : Option ConstantPlace) :
    Sites (argument place) Argument.pos Argument.places := by
  refine fun rest => (namedValue_sites (value_sites place).locates rest).bind fun f read rest' _ hf => .pure ?_
  rw [List.append_nil]
  exact hf

lemma arguments_locates (c : Construct) (place : Option ConstantPlace) :
    Locates (arguments c place) Argument.placesOfAll := optionalGroup_locates (argument_sites place) c

lemma directive_sites (place : Option ConstantPlace) :
    Sites (directive place) (·.pos) Directive.places := by
  intro rest
  refine (expect_reads _).bind fun mark read rest₁ _ hmark => ?_
  refine (expectName_locates _).bind fun name read₁ rest₂ _ hname => ?_
  refine (arguments_locates _ _ rest₂).bind fun args read₂ rest₃ _ hargs => .pure ?_
  obtain ⟨rfl, -⟩ := hmark
  obtain ⟨t, rfl, hname⟩ := hname
  exact ⟨.skip [mark] (.cons (.ofName hname) (.cons hargs .nil)), by simp⟩

lemma directivesFrom_reads (place : Option ConstantPlace) (steps : Nat) (before : List Directive) :
    Reads (directivesFrom place steps before) rest fun read out =>
      MoreMembers (Sited (·.pos) Directive.places) before read out := by
  induction steps generalizing before rest with
  | zero => exact .pure (.nil before _)
  | succ steps ih =>
    rw [directivesFrom]
    refine .neutral_bind (.nextIs _) fun next => .ite (fun _ => ?_) fun _ => .pure (.nil before _)
    refine (directive_sites place rest).bind fun d read rest' _ hd => ?_
    exact (ih (d :: before)).mono fun more out h => h.cons hd

lemma directives_locates (place : Option ConstantPlace) : Locates (directives place) Directive.placesOfAll := by
  refine fun rest => .neutral_bind .limits fun _ => (directivesFrom_reads _ _ _).mono fun read out hout => ?_
  obtain ⟨ds, rfl, hturn⟩ := hout
  exact hturn.located

/-! ### Selections -/

lemma aliased_locates {first : Name} {t : Token} (h : first.StandsAt t) :
    Reads (field.aliased first) rest fun read names => ∀ args dirs,
      (Field.mk names.1 names.2 args dirs first.pos).heading.IsIn (t :: read) := by
  have hfirst : first.pos = t.start ∧ t.kind = .name ∧ t.text = first.text := by
    rw [Name.StandsAt] at h
    simp [h]
  obtain ⟨hpos, hkind, htext⟩ := hfirst
  have hfield (names : List Name) {f : Field} {read : List Token} (hf : f.pos = first.pos)
      (hkey : f.responseKey = first.text) (hnames : List.SublistForall₂ Name.StandsAt names (t :: read)) :
      Places.IsIn ⟨names, [.field f], []⟩ (t :: read) :=
    ⟨hnames, .cons ⟨(hf.trans hpos).symm, hkind, htext.trans hkey.symm⟩ .nil, by simp⟩
  refine .neutral_bind (.nextIs _) fun next => .ite (fun _ => ?_) fun _ => .pure fun args dirs => ?_
  · refine (Makes.advance rest).bind fun _ read rest' _ _ => ?_
    refine (expectName_locates _).bind fun name more rest'' _ hname => .pure fun args dirs => ?_
    obtain ⟨u, rfl, hname⟩ := hname
    refine hfield _ rfl rfl (.cons h ?_)
    exact sublistForall₂_append .nil (.cons hname .nil)
  · exact hfield _ rfl rfl (.cons h .nil)

variable {selectionSet : Parse SelectionSet}

lemma field_sites (hs : Locates selectionSet (·.places)) : Sites (field selectionSet) (·.pos) (·.places) := by
  intro rest
  refine (expectName_locates _).bind fun first read₀ rest₀ _ hread => ?_
  obtain ⟨t, rfl, hfirst⟩ := hread
  refine (aliased_locates hfirst).bind fun names read₁ rest₁ _ hnames => ?_
  refine (arguments_locates _ _ rest₁).bind fun args read₂ rest₂ _ hargs => ?_
  refine (directives_locates _ rest₂).bind fun dirs read₃ rest₃ _ hdirs => ?_
  have hpos (more : List Token) : first.pos ∈ ([t] ++ more).map (·.start) := by
    rw [Name.StandsAt] at hfirst
    simp [hfirst]
  have hfield := IsIn.cons (hnames args dirs) (.cons hargs (.cons hdirs .nil))
  refine .neutral_bind (.nextIs _) fun next => .ite (fun _ => ?_) fun _ => .pure ⟨?_, hpos _⟩
  · refine (hs rest₃).bind fun below read₄ rest₄ _ hbelow => .pure ⟨?_, hpos _⟩
    simpa [Selection.places, Field.places] using hfield.cons (hbelow.cons .nil)
  · exact hfield

lemma inlineFragment_reads (hs : Locates selectionSet (·.places)) {points : Token} (hk : points.kind = .ellipsis)
    {condition : Option Name} {read : List Token} (hcondition : (ofOption ofName condition).IsIn read) :
    Reads (fragmentSelection.inlineFragment selectionSet points.start condition) rest fun more s =>
      Sited (·.pos) (·.places) (points :: (read ++ more)) s := by
  refine (directives_locates _ rest).bind fun dirs read₁ rest₁ _ hdirs => ?_
  refine (hs rest₁).bind fun below read₂ rest₂ _ hbelow => .pure ⟨?_, by simp [Selection.pos]⟩
  have hpoints : (Node.inline ⟨condition, dirs, points.start⟩).StandsAt points := ⟨rfl, hk⟩
  exact (IsIn.ofNode hpoints).cons (hcondition.cons (hdirs.cons (hbelow.cons .nil)))

lemma fragmentSelection_sites (hs : Locates selectionSet (·.places)) :
    Sites (fragmentSelection selectionSet) (·.pos) (·.places) := by
  refine fun rest => (expect_reads _).bind fun points read rest₁ _ hpoints => .peek_bind ?_
  obtain ⟨rfl, hk⟩ := hpoints
  have hnone : (ofOption ofName none).IsIn [] := IsIn.nil
  cases rest₁ with
  | nil => exact inlineFragment_reads hs hk hnone
  | cons t tokens =>
    refine .ite (fun _ => .advance_bind ?_) fun _ => .ite (fun hname => .advance_bind ?_) fun _ => ?_
    · refine (expectName_locates _).bind fun condition read' rest₂ _ hcondition => ?_
      obtain ⟨u, rfl, hcondition⟩ := hcondition
      have hsome : (ofOption ofName (some condition)).IsIn [t, u] :=
        .ofOption fun n hn => Option.some.inj hn ▸ (IsIn.ofName hcondition).skip [t]
      exact inlineFragment_reads hs hk hsome
    · refine (directives_locates _ tokens).bind fun dirs read' rest₂ _ hdirs => .pure ⟨?_, by simp [Selection.pos]⟩
      have hspread : (Node.spread ⟨⟨t.text, t.start⟩, dirs, points.start⟩).StandsAt points := ⟨rfl, hk⟩
      have ht : (Name.mk t.text t.start).StandsAt t := by rw [Name.StandsAt, ← hname]
      exact (IsIn.ofNode hspread).cons ((IsIn.ofName ht).cons (hdirs.cons .nil))
    · exact inlineFragment_reads hs hk hnone

lemma selection_sites (hs : Locates selectionSet (·.places)) :
    Sites (selection selectionSet) (·.pos) (·.places) := by
  refine fun rest => .peek_bind ?_
  cases rest with
  | nil => exact .unexpected _
  | cons t tokens =>
    dsimp only [List.head?_cons]
    split
    · exact fragmentSelection_sites hs _
    · exact field_sites hs _
    · exact .unexpected _

lemma selectionSetWithin_sites (levels : Nat) :
    Sites (selectionSetWithin levels) (·.pos) (·.places) := by
  induction levels with
  | zero => exact fun _ => .tooDeep
  | succ levels ih =>
    refine fun rest => .nested ((group_locates (selection_sites ih.locates) _).bind
      fun out read rest' _ hout => .pure ?_)
    obtain ⟨selections, p⟩ := out
    obtain ⟨opening, behind, rfl, hkind, rfl, hselections⟩ := hout
    refine ⟨?_, by simp [SelectionSet.pos]⟩
    dsimp only
    rw [SelectionSet.places_mk, List.append_nil]
    exact .opened ⟨rfl, hkind⟩ hselections

lemma selectionSet_sites : Sites Parse.selectionSet (·.pos) (·.places) :=
  fun rest => .neutral_bind .limits fun _ => selectionSetWithin_sites _ rest

/-! ### Operations and fragments -/

/-- It stands where the first of the tokens stands that were read. -/
def Starts (p : Pos) (pos : α → Pos) (places : α → Places) (read : List Token) (a : α) : Prop :=
  (places a).IsIn read ∧ pos a = p ∧ read ≠ []

lemma Starts.sited {pos : α → Pos} {places : α → Places} {p : Pos} {read behind : List Token} {a : α}
    (h : Starts p pos places read a) (hread : rest = read ++ behind)
    (hp : ∀ t ∈ rest.head?, p = t.start) : Sited pos places read a := by
  obtain ⟨hplaces, hpos, hne⟩ := h
  obtain ⟨t, more, rfl⟩ := List.exists_cons_of_ne_nil hne
  refine ⟨hplaces, List.mem_map.mpr ⟨t, List.mem_cons_self, ?_⟩⟩
  rw [hpos, hp t (by rw [hread]; rfl)]

lemma here_run {f : Pos → Parse α} {env : ParseLimits} {st : ParseState} :
    (here >>= f) env st = f (st.rest.head?.elim env.endPos (·.start)) env st := by
  obtain ⟨rest, _, _, _, _, _⟩ := st
  cases rest <;> rfl

lemma here_bind {f : Pos → Parse α} {pos : α → Pos} {places : α → Places}
    (hf : ∀ p, Reads (f p) rest (Starts p pos places)) : Reads (here >>= f) rest (Sited pos places) := by
  intro env st hst
  rw [here_run]
  obtain ⟨read, hread, ha⟩ := hf (st.rest.head?.elim env.endPos (·.start)) env st hst
  refine ⟨read, hread, fun a hmade => (ha a hmade).sited hread fun t ht => ?_⟩
  rw [hst, ht, Option.elim_some]

lemma shorthandOperation_sites : Sites shorthandOperation (·.pos) (·.places) := by
  refine fun rest => here_bind fun p => (selectionSet_sites rest).bind fun below read rest' _ hbelow => .pure ?_
  obtain ⟨hplaces, hpos⟩ := hbelow
  refine ⟨?_, rfl, ?_⟩
  · have hnone : (ofOption ofName none).IsIn [] := IsIn.nil
    have hempty {α : Type} (pos : α → Pos) (places : α → Places) : (ofList pos places []).IsIn [] :=
      .ofRow (by simp) .nil
    exact hnone.cons ((hempty _ _).cons ((hempty _ _).cons (hplaces.cons .nil)))
  · rintro hnil
    simp [List.append_eq_nil_iff.mp hnil] at hpos

lemma defaultValue_locates (place : ConstantPlace) :
    Locates (defaultValue place) (ofOption Literal.places) := by
  refine fun rest => .neutral_bind (.nextIs _) fun next => .ite (fun _ => ?_) fun _ => .pure IsIn.nil
  refine (Makes.advance rest).bind fun _ read rest' _ _ => ?_
  refine (value_sites _ rest').bind fun v more rest'' _ hv => .pure ?_
  exact .skip _ (.ofOption fun w hw => Option.some.inj hw ▸ (hv.1.of_sublist (by simp)))

lemma variableDefinition_sites : Sites variableDefinition (·.pos) (·.places) := by
  intro rest
  refine (expect_reads _).bind fun dollar read rest₁ _ hdollar => ?_
  refine (expectName_locates _).bind fun name read₁ rest₂ _ hname => ?_
  refine ((Makes.expect _).discard rest₂).bind fun _ read₂ rest₃ _ _ => ?_
  refine (typeRef_locates rest₃).bind fun type read₃ rest₄ _ htype => ?_
  refine (defaultValue_locates _ rest₄).bind fun default? read₄ rest₅ _ hdefault => ?_
  refine (directives_locates _ rest₅).bind fun dirs read₅ rest₆ _ hdirs => .pure ?_
  obtain ⟨rfl, -⟩ := hdollar
  obtain ⟨t, rfl, hname⟩ := hname
  have hbehind := IsIn.skip read₂ (htype.cons (hdefault.cons (hdirs.cons .nil)))
  exact ⟨.skip [dollar] (.cons (.ofName hname) hbehind), by simp⟩

lemma operationName_locates : Locates operationName (ofOption ofName) := by
  refine fun rest => .neutral_bind (.nextIs _) fun next => .ite (fun _ => ?_) fun _ => .pure IsIn.nil
  refine (expectName_locates _).bind fun name read rest' _ hname => .pure ?_
  obtain ⟨t, rfl, hname⟩ := hname
  exact .ofOption fun n hn => Option.some.inj hn ▸ .ofName hname

lemma operationDefinition_sites (type : OperationType) :
    Sites (operationDefinition type) (·.pos) (·.places) := by
  intro rest
  refine (expectKeyword_reads _).bind fun keyword read rest₁ _ hkeyword => ?_
  refine (operationName_locates rest₁).bind fun name read₁ rest₂ _ hname => ?_
  refine (optionalGroup_locates variableDefinition_sites _ rest₂).bind fun ds read₂ rest₃ _ hds => ?_
  refine (directives_locates _ rest₃).bind fun dirs read₃ rest₄ _ hdirs => ?_
  refine (selectionSet_sites rest₄).bind fun below read₄ rest₅ _ hbelow => .pure ?_
  obtain rfl := hkeyword
  exact ⟨.skip [keyword] (hname.cons (hds.cons (hdirs.cons (hbelow.1.cons .nil)))), by simp⟩

lemma fragmentDefinition_sites : Sites fragmentDefinition (·.pos) (·.places) := by
  intro rest
  refine (expectKeyword_reads _).bind fun keyword read rest₁ _ hkeyword => ?_
  refine (expectName_locates _).bind fun name read₁ rest₂ _ hname => ?_
  refine (fun hbody => .ite (fun _ => .neutral_bind (.report _) fun _ => hbody) fun _ => hbody) ?_
  refine ((Makes.expectKeyword _).discard rest₂).bind fun _ read₂ rest₃ _ _ => ?_
  refine (expectName_locates _).bind fun condition read₃ rest₄ _ hcondition => ?_
  refine (directives_locates _ rest₄).bind fun dirs read₄ rest₅ _ hdirs => ?_
  refine (selectionSet_sites rest₅).bind fun below read₅ rest₆ _ hbelow => .pure ?_
  obtain rfl := hkeyword
  obtain ⟨t, rfl, hname⟩ := hname
  obtain ⟨u, rfl, hcondition⟩ := hcondition
  have hbehind := IsIn.skip read₂ ((IsIn.ofName hcondition).cons (hdirs.cons (hbelow.1.cons .nil)))
  exact ⟨.skip [keyword] (.cons (.ofName hname) hbehind), by simp⟩

/-! ### Type definitions -/

lemma description_makes : Makes description fun _ => True := by
  refine .anywhere .peek fun t => ?_
  cases t with
  | none => exact .pure trivial
  | some t =>
    refine .ite (fun _ => ?_) fun _ => .pure trivial
    exact Makes.advance.bind fun _ _ => .anywhere (.cook t) fun _ => .pure trivial

lemma inputDefinition_sites : Sites inputDefinition (·.pos) (·.places) := by
  refine fun rest => here_bind fun p => ?_
  refine (description_makes rest).bind fun desc read rest₁ _ _ => ?_
  refine (expectName_locates _).bind fun name read₁ rest₂ _ hname => ?_
  refine ((Makes.expect _).discard rest₂).bind fun _ read₂ rest₃ _ _ => ?_
  refine (typeRef_locates rest₃).bind fun type read₃ rest₄ _ htype => ?_
  refine (defaultValue_locates _ rest₄).bind fun default? read₄ rest₅ _ hdefault => ?_
  refine (directives_locates _ rest₅).bind fun dirs read₅ rest₆ _ hdirs => .pure ?_
  obtain ⟨t, rfl, hname⟩ := hname
  have hbehind := IsIn.skip read₂ (htype.cons (hdefault.cons (hdirs.cons .nil)))
  exact ⟨.skip read (.cons (.ofName hname) hbehind), rfl, by simp⟩

lemma fieldDefinition_sites : Sites fieldDefinition (·.pos) (·.places) := by
  refine fun rest => here_bind fun p => ?_
  refine (description_makes rest).bind fun desc read rest₁ _ _ => ?_
  refine (expectName_locates _).bind fun name read₁ rest₂ _ hname => ?_
  refine (optionalGroup_locates inputDefinition_sites _ rest₂).bind fun args read₂ rest₃ _ hargs => ?_
  refine ((Makes.expect _).discard rest₃).bind fun _ read₃ rest₄ _ _ => ?_
  refine (typeRef_locates rest₄).bind fun type read₄ rest₅ _ htype => ?_
  refine (directives_locates _ rest₅).bind fun dirs read₅ rest₆ _ hdirs => .pure ?_
  obtain ⟨t, rfl, hname⟩ := hname
  have hbehind := IsIn.skip read₃ (htype.cons (hdirs.cons .nil))
  exact ⟨.skip read (.cons (.ofName hname) (hargs.cons hbehind)), rfl, by simp⟩

lemma enumValueDefinition_sites : Sites enumValueDefinition (·.pos) (·.places) := by
  refine fun rest => here_bind fun p => ?_
  refine (description_makes rest).bind fun desc read rest₁ _ _ => ?_
  refine (expectName_locates _).bind fun name read₁ rest₂ _ hname => ?_
  refine (fun hbody => .ite (fun _ => .neutral_bind (.report _) fun _ => hbody) fun _ => hbody) ?_
  refine (directives_locates _ rest₂).bind fun dirs read₂ rest₃ _ hdirs => .pure ?_
  obtain ⟨t, rfl, hname⟩ := hname
  exact ⟨.skip read (.cons (.ofName hname) (hdirs.cons .nil)), rfl, by simp⟩

/-- A type with what stands behind its name. -/
lemma typeDefinition_located {desc : Option String} {p : Pos} {name : Name} {dirs : List Directive}
    {body : TypeBody} {keyword : Token} {read₁ read₂ read₃ : List Token}
    (hname : ∃ t, read₁ = [t] ∧ name.StandsAt t) (hdirs : (Directive.placesOfAll dirs).IsIn read₂)
    (hbody : body.places.IsIn read₃) :
    (TypeDefinition.mk desc name dirs body p).places.IsIn (keyword :: (read₁ ++ (read₂ ++ read₃))) := by
  obtain ⟨t, rfl, hname⟩ := hname
  have hall := IsIn.cons (.ofName hname) (hdirs.cons (hbody.cons .nil))
  rw [List.append_nil] at hall
  exact hall.skip [keyword]

lemma implementsClause_makes : Makes implementsClause fun _ => True := by
  intro rest
  refine .peek_bind ?_
  cases rest with
  | nil => exact .pure trivial
  | cons t tokens =>
    refine .ite (fun _ => .advance_bind (.neutral_bind (.report _) fun _ => ?_)) fun _ => .pure trivial
    refine .remaining_bind ?_
    obtain ⟨read, hread⟩ := List.dropWhile_suffix (l := tokens)
      fun t => t.kind = .name || (t.kind = .unknown && t.text == "&")
    exact (Reads.continueAt hread.symm).mono fun _ _ _ => trivial

/-- A word that starts no type is put back. -/
lemma stepBack_run {α : Type} {f : Unit → Parse α} {env : ParseLimits} {st : ParseState} {t : Token}
    {ts : List Token} (h : st.rest = t :: ts) :
    (advance >>= fun _ => stepBack t >>= f) env st = f () env st := by
  cases st
  cases h
  rfl

lemma typeDefinition_starts (desc : Option String) (p : Pos) :
    Reads (typeDefinition desc p) rest (Starts p (·.pos) (·.places)) := by
  refine .peek_bind ?_
  cases rest with
  | nil => exact .fail
  | cons keyword tokens =>
    dsimp only [List.head?_cons]
    by_cases hword : isTypeKeyword keyword.text = true
    · refine .advance_bind ?_
      split
      · refine (expectName_locates _).bind fun name read₁ rest₁ _ hname => ?_
        refine (directives_locates _ rest₁).bind fun dirs read₂ rest₂ _ hdirs => .pure ⟨?_, rfl, by simp⟩
        exact typeDefinition_located hname hdirs .nil
      · refine (expectName_locates _).bind fun name read₁ rest₁ _ hname => ?_
        refine (implementsClause_makes rest₁).bind fun _ read rest₂ _ _ => ?_
        refine (directives_locates _ rest₂).bind fun dirs read₂ rest₃ _ hdirs => ?_
        refine (optionalGroup_locates fieldDefinition_sites _ rest₃).bind
          fun fields read₃ rest₄ _ hfields => .pure ⟨?_, rfl, by simp⟩
        have hbody : (TypeBody.object fields).places.IsIn read₃ := hfields
        rw [List.append_nil, ← List.append_assoc read]
        exact typeDefinition_located hname (hdirs.skip read) hbody
      · refine (expectName_locates _).bind fun name read₁ rest₁ _ hname => ?_
        refine (directives_locates _ rest₁).bind fun dirs read₂ rest₂ _ hdirs => ?_
        refine (optionalGroup_locates enumValueDefinition_sites _ rest₂).bind
          fun values read₃ rest₃ _ hvalues => .pure ⟨?_, rfl, by simp⟩
        rw [List.append_nil]
        exact typeDefinition_located hname hdirs hvalues
      · refine (expectName_locates _).bind fun name read₁ rest₁ _ hname => ?_
        refine (directives_locates _ rest₁).bind fun dirs read₂ rest₂ _ hdirs => ?_
        refine (optionalGroup_locates inputDefinition_sites _ rest₂).bind
          fun fields read₃ rest₃ _ hfields => .pure ⟨?_, rfl, by simp⟩
        rw [List.append_nil]
        exact typeDefinition_located hname hdirs hfields
      · exact absurd hword (by simp_all [isTypeKeyword])
    · refine .of_run (q := unexpected "a type definition") (fun env st hst => ?_) (.unexpected _)
      split
      all_goals first | exact stepBack_run hst | exact absurd (by simp_all [isTypeKeyword]) hword

/-! ### Documents -/

/-- In front of the token that it stands at, a definition is read, if it is not one that is skipped. -/
lemma typeDefinition_some (desc : Option String) (p : Pos) :
    Reads (do
      let d ← typeDefinition desc p
      return some (.type d)) rest fun read o => ∀ d ∈ o, Starts p Definition.pos (·.places) read d := by
  refine (typeDefinition_starts desc p).bind fun d read rest' _ hd => .pure fun e he => ?_
  obtain rfl := Option.some.inj he
  rw [List.append_nil]
  exact hd

lemma unsupportedDefinition_makes (keyword : Token) :
    Makes (unsupportedDefinition keyword) fun _ => True := by
  have hskip : Makes (do continueAt (behindUnsupported 0 (← remaining))) fun _ => True := by
    intro rest
    refine .remaining_bind ?_
    obtain ⟨read, hread⟩ := behindUnsupported_suffix 0 rest
    exact (Reads.continueAt hread.symm).mono fun _ _ _ => trivial
  refine Makes.advance.bind fun _ _ => .anywhere (.report _) fun _ => ?_
  exact .ite (fun _ => Makes.advance.bind fun _ _ => hskip) fun _ => hskip

lemma unsupportedDefinition_none (keyword : Token) {Q : List Token → Definition → Prop} :
    Reads (do
      unsupportedDefinition keyword
      return none) rest fun read o => ∀ d ∈ o, Q read d :=
  (unsupportedDefinition_makes keyword rest).bind fun _ _ _ _ _ => .pure fun _ hd => nomatch hd

lemma described_starts (p : Pos) : Reads (do
    let desc ← description
    match ← peek with
    | some next =>
      if next.kind = .name && isTypeKeyword next.text then
        let d ← typeDefinition desc p
        return some (.type d)
      else if next.kind = .name && isUnsupportedKeyword next.text then
        unsupportedDefinition next
        return none
      else unexpected "a type definition after description"
    | none => unexpected "a type definition after description") rest
    fun read o => ∀ d ∈ o, Starts p Definition.pos (·.places) read d := by
  refine (description_makes rest).bind fun desc read rest' _ _ => .neutral_bind .peek fun t => ?_
  cases t with
  | none => exact .unexpected _
  | some next =>
    refine .ite (fun _ => ?_) fun _ => .ite (fun _ => ?_) fun _ => .unexpected _
    · refine (typeDefinition_some desc p).mono fun more o ho d hd => ?_
      obtain ⟨hplaces, hpos, hne⟩ := ho d hd
      exact ⟨hplaces.skip read, hpos, by simp [hne]⟩
    · exact unsupportedDefinition_none next

lemma definition_sited (rest : List Token) :
    Reads definition rest fun read o => ∀ d ∈ o, Sited Definition.pos (·.places) read d := by
  refine .peek_bind ?_
  cases rest with
  | nil => exact .fail
  | cons t tokens =>
    dsimp only [List.head?_cons]
    have hstarts {p : Parse (Option Definition)}
        (hp : Reads p (t :: tokens) fun read o => ∀ d ∈ o, Starts t.start Definition.pos (·.places) read d) :
        Reads p (t :: tokens) fun read o => ∀ d ∈ o, Sited Definition.pos (·.places) read d := by
      intro env st hst
      obtain ⟨read, hread, ho⟩ := hp env st hst
      refine ⟨read, hread, fun o hmade d hd => (ho o hmade d hd).sited hread fun u hu => ?_⟩
      exact congrArg Token.start (Option.some.inj hu)
    have hsome {α : Type} {p : Parse α} {pos : α → Pos} {places : α → Places} {make : α → Definition}
        (hp : Sites p pos places) (hpos : ∀ a, (make a).pos = pos a)
        (hplaces : ∀ a, (make a).places = places a) : Reads (do
          let a ← p
          return some (make a)) (t :: tokens)
        fun read o => ∀ d ∈ o, Sited Definition.pos (·.places) read d := by
      refine (hp _).bind fun a read rest' _ ha => .pure fun d hd => ?_
      obtain rfl := Option.some.inj hd
      rw [List.append_nil, Sited, hpos, hplaces]
      exact ha
    split
    · exact hsome shorthandOperation_sites (fun _ => rfl) fun _ => rfl
    · exact hstarts (described_starts t.start)
    · exact hstarts (described_starts t.start)
    · split
      · exact hsome (operationDefinition_sites _) (fun _ => rfl) fun _ => rfl
      · refine .ite (fun _ => ?_) fun _ => .ite (fun _ => ?_) fun _ => .ite (fun _ => ?_) fun _ => ?_
        · exact hsome fragmentDefinition_sites (fun _ => rfl) fun _ => rfl
        · exact hstarts (typeDefinition_some none t.start)
        · exact unsupportedDefinition_none t
        · exact .unexpected _
    · exact .unexpected _

lemma recoverDefinition_makes (before : List Token) :
    Makes (recoverDefinition before) fun _ => True := by
  have hskip : Makes (do
      continueAt (nextDefinition (← remaining))
      recoverDefinition.dropDelimiters) fun _ => True := by
    intro rest
    refine .remaining_bind ?_
    obtain ⟨read, hread⟩ := nextDefinition_suffix rest
    refine (Reads.continueAt hread.symm).bind fun _ _ rest' _ _ => ?_
    exact Makes.neutral (fun _ _ => rfl) rest'
  refine .anywhere (fun _ _ => rfl) fun rest => .ite (fun _ => ?_) fun _ => hskip
  exact Makes.advance.bind fun _ _ => hskip

/-- Definitions are read one behind another, with what is skipped between them. -/
lemma definitions_reads {S : List Token → Definition → Prop}
    (hdefinition : ∀ rest, Reads definition rest fun read o => ∀ d ∈ o, S read d) (steps : Nat)
    (before : List Definition) (rest : List Token) :
    Reads (definitions steps before) rest fun read out => MoreMembers S before read out := by
  induction steps generalizing before rest with
  | zero => exact .pure (.nil before _)
  | succ steps ih =>
    rw [definitions]
    refine .remaining_bind (.neutral_bind .isAborted fun aborted => ?_)
    refine .ite (fun _ => .pure (.nil before _)) fun _ => ?_
    refine (hdefinition rest).attempt.bind fun o read rest' _ ho => ?_
    cases o with
    | none =>
      refine (recoverDefinition_makes _ rest').bind fun _ read' rest'' _ _ => ?_
      exact (ih before rest'').mono fun more out h => (h.skip _).skip _
    | some d =>
      cases d with
      | none => exact (ih before rest').mono fun more out h => h.skip _
      | some d => exact (ih (d :: before) rest').mono fun more out h => h.cons (ho (some d) rfl d rfl)

end Parse

end GraphQL
