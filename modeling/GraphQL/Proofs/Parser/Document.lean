import GraphQL.Proofs.Parser.Places
import GraphQL.Proofs.Parser.Respaced
import GraphQL.Proofs.Token.Cut

/-!
What a parsed document is made of.

Every name, every part and every value of a document stands at a token of its own, and its literals
are the tokens that were read. Errors stand at tokens too, or at the end.
-/

namespace GraphQL

namespace Document

open Parse Places

variable {o : ParseOptions} {source : List Char}

lemma places_isIn {d : Document} (h : (parseWith o source).document? = some d) :
    d.places.IsIn (Token.lex source) := by
  by_cases hsize : byteLength source ≤ o.maxSize
  · obtain ⟨read, hread, hout⟩ := definitions_reads definition_sited ((Token.lex source).length + 1) []
      (Token.lex source) (limitsOf o source) (.start (Token.lex source)) rfl
    rw [parseWith_eq hsize, resultOf] at h
    split at h
    · cases h
    · obtain rfl := Option.some.inj h
      have hplaced : (Document.mk ((Parse.definitions ((Token.lex source).length + 1) []
          (limitsOf o source) (.start (Token.lex source))).1.getD [])).places.IsIn read := by
        generalize (Parse.definitions _ [] (limitsOf o source) _).1 = made at hout
        cases made with
        | none => exact IsIn.of_sublist (.ofRow (by simp) .nil) (List.nil_sublist _)
        | some definitions =>
          obtain ⟨more, rfl, hturn⟩ := hout definitions rfl
          exact hturn.located
      exact hplaced.of_sublist (hread ▸ List.sublist_append_left read _)
  · rw [parseWith, if_pos (Nat.lt_of_not_le hsize)] at h
    cases h

/-- **What parsing makes**: the parts of a document stand at its tokens, in their order, and its
literals come from the text. -/
theorem parse_spec {source : List Char} {d : Document} {errors : List ParseError}
    (h : parse source = ⟨some d, errors⟩) :
    (d.parts.map (·.pos)).Sublist ((Token.lex source).map (·.start)) ∧
      byteLength source ≤ ParseOptions.default.maxSize ∧ ∀ e ∈ d.definitions, e.IsProper := by
  have hd : (parseWith .default source).document? = some d := congrArg ParseResult.document? h
  have hin := places_isIn hd
  refine ⟨d.parts_sublist.trans hin.nodes_sublist, ?_, fun e he => ?_⟩
  · by_contra hsize
    rw [parseWith, if_pos (Nat.lt_of_not_le hsize)] at hd
    cases hd
  · have hdefinitions : (ofList (·.pos) (·.places) d.definitions).Known := hin.known
    have hplaces : e.places.Known := hdefinitions.ofList he
    exact Definition.isProper_of_known hplaces

/-- No two parts of a parsed document stand at the same place. -/
theorem parse_parts_nodup {source : List Char} {d : Document} {errors : List ParseError}
    (h : parse source = ⟨some d, errors⟩) : (d.parts.map (·.pos)).Nodup := by
  obtain ⟨hsub, hsize, -⟩ := parse_spec h
  refine (Token.lex_starts_nodup source (hsize.trans ?_)).sublist hsub
  decide

/-- The values in a parsed document come from its text. -/
lemma parse_isProper {source : List Char} {d : Document} {errors : List ParseError}
    (h : parse source = ⟨some d, errors⟩) : (∀ q ∈ d.parts, q.IsProper) ∧
      ∀ op ∈ d.operations, ∀ e ∈ op.variableDefinitions, ∀ v, e.default? = some v → v.IsProper := by
  obtain ⟨-, -, hproper⟩ := parse_spec h
  constructor
  · intro q hq
    obtain ⟨e, he, hq⟩ := List.mem_flatMap.mp hq
    have hdefinition := hproper e he
    cases e with
    | operation op => exact hdefinition.1 q hq
    | fragment f => exact hdefinition q hq
    | type t => simp [Definition.parts] at hq
  · intro op hop e he v hv
    obtain ⟨definition, hmem, hdefinition⟩ := List.mem_filterMap.mp hop
    cases definition with
    | operation op' =>
      obtain rfl := Option.some.inj hdefinition
      exact (hproper _ hmem).2 v (List.mem_filterMap.mpr ⟨e, he, hv⟩)
    | fragment f => simp [Definition.operation?] at hdefinition
    | type t => simp [Definition.operation?] at hdefinition

end Document

/-! ### Errors -/

/-- A token of the source starts here, or the source ends here. -/
def IsBoundary (source : List Char) (p : Pos) : Prop :=
  p.offset = byteLength source ∨ ∃ t ∈ Token.lex source, t.start = p

instance (source : List Char) (p : Pos) : Decidable (IsBoundary source p) :=
  inferInstanceAs (Decidable (_ ∨ _))

namespace Relocation

variable {o : ParseOptions} {source : List Char}

/-- Moves all places but those of tokens and of the end. A reading never knows, so it finds none of
those that are moved. -/
def disturb (source : List Char) (p : Pos) : Pos :=
  if IsBoundary source p then p else ⟨byteLength source + p.offset + 1⟩

lemma disturb_of_boundary {p : Pos} (h : IsBoundary source p) : disturb source p = p := if_pos h

lemma isBoundary_of_disturb {p : Pos} (h : disturb source p = p) : IsBoundary source p := by
  by_contra hnot
  rw [disturb, if_neg hnot] at h
  have hoffset := congrArg Pos.offset h
  dsimp only at hoffset
  omega

lemma disturb_end (hplaces : byteLength source ≤ Pos.maxOffset) (p : Pos) :
    disturb source p = .ofOffset (byteLength source) ↔ p = .ofOffset (byteLength source) := by
  rw [ofOffset_byteLength hplaces]
  constructor
  · intro h
    by_cases hp : IsBoundary source p
    · rwa [disturb_of_boundary hp] at h
    · rw [disturb, if_neg hp] at h
      have hoffset := Pos.mk.inj h
      omega
  · rintro rfl
    exact disturb_of_boundary (.inl rfl)

/-- The same reading with other places disturbed. -/
def disturbed (o : ParseOptions) (source : List Char) (hplaces : byteLength source ≤ Pos.maxOffset) :
    Relocation :=
  { respaced o source source hplaces with
    move := disturb source
    endPos := disturb_end hplaces
    spans _ _ _ _ := trivial }

lemma lex_disturbed : Token.lex source = (Token.lex source).map (Token.relocate (disturb source)) := by
  refine (List.map_id _).symm.trans (List.map_congr_left fun t ht => ?_)
  rw [Token.relocate, disturb_of_boundary (.inr ⟨t, ht, rfl⟩)]
  rfl

/-- An error that a disturbed reading reports in the same place. -/
lemma isBoundary_of_error {hplaces : byteLength source ≤ Pos.maxOffset} {e : ParseError}
    (h : (disturbed o source hplaces).Error e e) :
    IsBoundary source e.pos ∧ ∀ n ∈ e.notes, ∀ p ∈ n.pos, IsBoundary source p := by
  refine ⟨isBoundary_of_disturb h.pos.symm, fun n hn p hp => ?_⟩
  have hnotes : e.notes.map (Note.relocate (disturb source)) = e.notes.map id := by
    rw [List.map_id]
    exact (e.cause.relocate_notes _).symm.trans (congrArg ParseErrorCause.notes h.cause.symm)
  have hpos : n.pos.map (disturb source) = n.pos :=
    congrArg Note.pos (List.map_inj_left.mp hnotes n hn)
  rw [Option.mem_def.mp hp, Option.map_some] at hpos
  exact isBoundary_of_disturb (Option.some.inj hpos)

end Relocation

namespace Document

open Parse ParseState

variable {o : ParseOptions} {source : List Char}

lemma error_isBoundary (hsize : byteLength source ≤ o.maxSize) (hplaces : byteLength source ≤ Pos.maxOffset)
    {e : ParseError} (he : e ∈ (parseWith o source).errors) :
    IsBoundary source e.pos ∧ ∀ n ∈ e.notes, ∀ p ∈ n.pos, IsBoundary source p := by
  let r : Relocation := .disturbed o source hplaces
  have hstate : r.State (.start (Token.lex source)) (.start (Token.lex source)) :=
    ⟨⟨Relocation.lex_disturbed, fun _ _ => trivial⟩, Nat.le_refl _, Nat.le_refl _, .nil, rfl, rfl, rfl, .none⟩
  have hread : Simulates.Behind r [] ([] : List Definition).reverse ([] : List Definition).reverse := rfl
  have hlevels : (ParseState.start (Token.lex source)).depth + o.maxDepth = r.env.maxDepth := Nat.zero_add _
  have hsame := (Simulates.definitions hread hstate hlevels (Nat.lt_succ_self _) (Nat.lt_succ_self _)).state
  suffices herror : r.Error e e from Relocation.isBoundary_of_error herror
  rw [parseWith_eq hsize, resultOf] at he
  split at he
  · rename_i e' haborted
    obtain rfl := List.mem_singleton.mp he
    have hrel : Option.Rel r.Error (some e) (some e) := haborted ▸ hsame.aborted
    cases hrel with
    | some h => exact h
  · have herrors := (Relocation.errors_iff rfl).mp hsame.errors
    exact List.forall₂_same.mp herrors e (List.mem_reverse.mp he)

/-! ### Places in the source -/

/-- What stands in a document is where the document says. No two fields stand at the same place, and no
two selection sets, as parts stand behind each other. -/
structure IsPlacedIn (d : Document) (source : List Char) : Prop where
  /-- A name is spelled at its place. -/
  names : ∀ n ∈ d.places.names, ∃ t ∈ Token.lex source, n.StandsAt t ∧ t.IsSliceOf source
  /-- A part stands at the token that it starts with. -/
  nodes : ∀ n ∈ d.places.nodes, ∃ t ∈ Token.lex source,
    n.StandsAt t ∧ t.kind.Spells t.text.toList ∧ t.IsSliceOf source
  apart : d.places.nodes.Pairwise fun m n => m.pos.offset < n.pos.offset
  /-- What stands in a list is written in its order. -/
  rows : ∀ row ∈ d.places.rows, row.Pairwise fun p q => p.offset < q.offset

/-- **Places are faithful.** What is read of a source, whatever is wrong with it, stands where it says,
and all that is said about the source is said about a token or about its end. -/
theorem parseWith_places (o : ParseOptions) (source : List Char) (hplaces : byteLength source ≤ Pos.maxOffset) :
    (∀ d ∈ (parseWith o source).document?, d.IsPlacedIn source) ∧
      ∀ e ∈ (parseWith o source).errors, (∀ size limit, e.cause ≠ .documentTooLarge size limit) →
        IsBoundary source e.pos ∧ ∀ n ∈ e.notes, ∀ p ∈ n.pos, IsBoundary source p := by
  constructor
  · intro d hd
    have hin : d.places.IsIn (Token.lex source) := places_isIn hd
    have hcut : Token.IsCut 0 source (Token.lex source) := Token.lexFrom_isCut 0 source (by omega)
    have hstarts : ((Token.lex source).map (·.start)).Pairwise fun p q => p.offset < q.offset := by
      have hoffsets := (Token.lexFrom_starts 0 source (by omega)).2
      rw [List.pairwise_map] at hoffsets ⊢
      exact hoffsets
    refine ⟨fun n hn => ?_, fun n hn => ?_, ?_, fun row hrow => hstarts.sublist (hin.rows row hrow)⟩
    · obtain ⟨t, ht, hn⟩ := hin.names_mem hn
      exact ⟨t, ht, hn, (Token.IsCut.member [] hcut ht).2.2⟩
    · obtain ⟨t, ht, hn⟩ := hin.nodes_mem hn
      exact ⟨t, ht, hn, (Token.IsCut.member [] hcut ht).2⟩
    · have hpositions := hstarts.sublist hin.nodes_sublist
      rwa [List.pairwise_map] at hpositions
  · intro e he hcause
    by_cases hsize : byteLength source ≤ o.maxSize
    · exact error_isBoundary hsize hplaces he
    · rw [parseWith, if_pos (Nat.lt_of_not_le hsize)] at he
      obtain rfl := List.mem_singleton.mp he
      exact absurd rfl (hcause _ _)

/-- A field whose arguments leave a list open, in front of an inline fragment. -/
def unclosedList : List Char := "\x7b a: b(c: $x, d: [1 ) ... on T \x7b e \x7d \x7d".toList

/-- The theorem at a source of which most is read, with an error that points at the list left open. -/
theorem parseWith_places_of_unclosedList :
    byteLength unclosedList ≤ Pos.maxOffset ∧
      (parseWith .default unclosedList).errors = [⟨⟨20⟩, 1, .unclosedDelimiter ⟨.listValue, ⟨17⟩⟩⟩] ∧
      IsBoundary unclosedList ⟨20⟩ ∧ IsBoundary unclosedList ⟨17⟩ ∧
      ∃ d, (parseWith .default unclosedList).document? = some d ∧ d.IsPlacedIn unclosedList ∧
        d.places.names.map (·.text) = ["a", "b", "c", "T", "e"] ∧
        d.places.nodes.map (·.pos.offset) = [0, 2, 10, 22, 31, 33] := by
  have hplaces : byteLength unclosedList ≤ Pos.maxOffset := by decide +kernel
  have herrors : (parseWith .default unclosedList).errors =
      [⟨⟨20⟩, 1, .unclosedDelimiter ⟨.listValue, ⟨17⟩⟩⟩] := by decide +kernel
  have hread : (parseWith .default unclosedList).document?.any (fun d =>
      d.places.names.map (·.text) = ["a", "b", "c", "T", "e"] ∧
        d.places.nodes.map (·.pos.offset) = [0, 2, 10, 22, 31, 33]) = true := by decide +kernel
  obtain ⟨hdocument, hboundaries⟩ := parseWith_places .default unclosedList hplaces
  obtain ⟨hpos, hnotes⟩ := hboundaries _ (herrors ▸ List.mem_singleton_self _) (by simp)
  obtain ⟨d, hd, hlisted⟩ := (Option.any_eq_true _ _).mp hread
  exact ⟨hplaces, herrors, hpos, hnotes _ List.mem_cons_self _ rfl, d, hd, hdocument d hd,
    of_decide_eq_true hlisted⟩

end Document

end GraphQL
