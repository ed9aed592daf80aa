import GraphQL.Proofs.Parser.Total
import GraphQL.Proofs.Token.Cut

/-!
Ignored text says nothing.

Two sources with the same tokens differ in the blanks, line ends, commas, byte order marks and comments
between them, and so in the places of their tokens. Each token of one has a counterpart in the other, and
the end of one is no more the place of a token than the end of the other is. So both are read in the same
way, and nothing but places tells apart what is made of them.
-/

namespace GraphQL

/-! ### Places of one text in the other -/

namespace Pos

/-- Takes the first place of each pair to the second, and every other place to `other`. -/
def carry (other : Pos) : List (Pos × Pos) → Pos → Pos
  | [], _ => other
  | (p, q) :: pairs, x => if x = p then q else carry other pairs x

variable {other p q x : Pos} {pairs : List (Pos × Pos)}

lemma carry_self : carry other ((p, q) :: pairs) p = q := if_pos rfl

lemma carry_of_ne (h : x ≠ p) : carry other ((p, q) :: pairs) x = carry other pairs x := if_neg h

/-- What is not a second place is the place for all others. -/
lemma carry_mem (other x : Pos) (pairs : List (Pos × Pos)) :
    carry other pairs x = other ∨ ∃ p, (p, carry other pairs x) ∈ pairs := by
  induction pairs with
  | nil => exact .inl rfl
  | cons pair pairs ih =>
    obtain ⟨p, q⟩ := pair
    by_cases heq : x = p
    · subst heq
      exact .inr ⟨x, by rw [carry_self]; exact List.mem_cons_self⟩
    · rw [carry_of_ne heq]
      exact ih.imp_right fun ⟨p', h⟩ => ⟨p', List.mem_cons_of_mem _ h⟩

end Pos

namespace Token

/-- The same kinds and texts in the same order. -/
def SameTokens (ts ts' : List Token) : Prop :=
  ts.map (fun t => (t.kind, t.text)) = ts'.map fun t => (t.kind, t.text)

instance (ts ts' : List Token) : Decidable (SameTokens ts ts') :=
  inferInstanceAs (Decidable (ts.map (fun t => (t.kind, t.text)) = ts'.map fun t => (t.kind, t.text)))

/-- The places of two lists of tokens side by side. -/
def places (ts ts' : List Token) : List (Pos × Pos) := (ts.map (·.start)).zip (ts'.map (·.start))

/-- To relocate tokens it is enough to know where to put their own places. -/
lemma map_relocate_congr {move move' : Pos → Pos} {ts : List Token} (h : ∀ t ∈ ts, move t.start = move' t.start) :
    ts.map (relocate move) = ts.map (relocate move') :=
  List.map_congr_left fun t ht => congrArg (Token.mk t.kind t.text) (h t ht)

/-- Tokens with the same kinds and texts are the same tokens in other places. -/
lemma eq_map_relocate {ts ts' : List Token} (h : SameTokens ts ts') (hnodup : (ts.map (·.start)).Nodup) (other : Pos) :
    ts' = ts.map (relocate (Pos.carry other (places ts ts'))) := by
  induction ts generalizing ts' with
  | nil => exact (List.map_eq_nil_iff.mp h.symm)
  | cons t ts ih =>
    cases ts' with
    | nil => exact absurd h (List.cons_ne_nil _ _)
    | cons t' ts' =>
      obtain ⟨hhead, htail⟩ := List.cons.inj h
      obtain ⟨hkind, htext⟩ := Prod.mk.inj hhead
      obtain ⟨hnew, hnodup⟩ := List.nodup_cons.mp hnodup
      have hmoved : ∀ u ∈ ts, Pos.carry other (places ts ts') u.start =
          Pos.carry other (places (t :: ts) (t' :: ts')) u.start := fun u hu =>
        (Pos.carry_of_ne fun heq => hnew (List.mem_map.mpr ⟨u, hu, heq⟩)).symm
      rw [List.map_cons, ← map_relocate_congr hmoved, ← ih htail hnodup]
      refine congrArg (· :: ts') ?_
      have hstart : Pos.carry other (places (t :: ts) (t' :: ts')) t.start = t'.start := Pos.carry_self
      rw [relocate, hstart, hkind, htext]

/-- Tokens stand in front of the end. -/
lemma start_lt {S : List Char} (hplaces : byteLength S ≤ Pos.maxOffset) {t : Token} (ht : t ∈ lex S) :
    t.start.offset < byteLength S := by
  have hcut : IsCut 0 S (lex S) := lexFrom_isCut 0 S (by omega)
  obtain ⟨hne, -, front, behind, hS, hstart⟩ := IsCut.member [] hcut ht
  have hlength := congrArg byteLength hS
  rw [List.nil_append, byteLength_append, byteLength_append] at hlength
  have hpos := byteLength_pos hne
  omega

end Token

namespace Relocation

variable {o : ParseOptions} {S S' : List Char}

/-- Where the tokens of one text stand in the other, and where its end is. -/
def respacing (S S' : List Char) : Pos → Pos :=
  Pos.carry ⟨byteLength S' + 1⟩
    ((.ofOffset (byteLength S), .ofOffset (byteLength S')) :: Token.places (Token.lex S) (Token.lex S'))

lemma ofOffset_byteLength (hplaces : byteLength S ≤ Pos.maxOffset) : Pos.ofOffset (byteLength S) = ⟨byteLength S⟩ :=
  congrArg Pos.mk (Nat.min_eq_left hplaces)

lemma respacing_end (hplaces' : byteLength S' ≤ Pos.maxOffset) (p : Pos) :
    respacing S S' p = .ofOffset (byteLength S') ↔ p = .ofOffset (byteLength S) := by
  refine ⟨fun h => ?_, fun h => h ▸ Pos.carry_self⟩
  by_contra hne
  rw [respacing, Pos.carry_of_ne hne] at h
  rcases Pos.carry_mem ⟨byteLength S' + 1⟩ p (Token.places (Token.lex S) (Token.lex S')) with hother | ⟨q, hq⟩
  · rw [hother, ofOffset_byteLength hplaces'] at h
    exact absurd (Pos.mk.inj h) (Nat.succ_ne_self _)
  · rw [h] at hq
    obtain ⟨t, ht, hstart⟩ := List.mem_map.mp (List.of_mem_zip hq).2
    have hlt := Token.start_lt hplaces' ht
    rw [hstart, ofOffset_byteLength hplaces'] at hlt
    exact Nat.lt_irrefl _ hlt

/-- A reading of the same tokens in another text. -/
def respaced (o : ParseOptions) (S S' : List Char) (hplaces' : byteLength S' ≤ Pos.maxOffset) : Relocation where
  env := Document.limitsOf o S
  env' := Document.limitsOf o S'
  move := respacing S S'
  extent _ _ := True
  known _ := True
  maxDepth := rfl
  endPos := respacing_end hplaces'
  extent_refl _ := trivial
  spans _ _ _ _ := trivial

lemma lex_respaced (hplaces : byteLength S ≤ Pos.maxOffset) (h : Token.SameTokens (Token.lex S) (Token.lex S')) :
    Token.lex S' = (Token.lex S).map (Token.relocate (respacing S S')) := by
  have hmoved : ∀ t ∈ Token.lex S, Pos.carry ⟨byteLength S' + 1⟩ (Token.places (Token.lex S) (Token.lex S')) t.start =
      respacing S S' t.start := fun t ht => by
    refine (Pos.carry_of_ne fun heq => ?_).symm
    have hlt := Token.start_lt hplaces ht
    rw [heq, ofOffset_byteLength hplaces] at hlt
    exact Nat.lt_irrefl _ hlt
  rw [← Token.map_relocate_congr hmoved]
  exact Token.eq_map_relocate h (Token.lex_starts_nodup S hplaces) _

end Relocation

/-! ### What is left without places -/

namespace ParseErrorCause

lemma relocate_relocate {f g : Pos → Pos} (c : ParseErrorCause) : (c.relocate f).relocate g = c.relocate (g ∘ f) := by
  cases c <;> rfl

end ParseErrorCause

namespace ParseError

/-- An error without its place, and without the length of the text that it is about. -/
def unplaced (e : ParseError) : ParseError := ⟨.start, 0, e.cause.relocate fun _ => .start⟩

lemma message_unplaced (e : ParseError) : e.unplaced.message = e.message := e.cause.relocate_message _

lemma notes_unplaced (e : ParseError) : e.unplaced.notes = e.notes.map (Note.relocate fun _ => .start) :=
  e.cause.relocate_notes _

end ParseError

namespace ParseResult

/-- What was read without its places. -/
def unplaced (r : ParseResult) : ParseResult :=
  ⟨r.document?.map fun d => ⟨d.definitions.map (Definition.relocate fun _ => .start)⟩,
    r.errors.map ParseError.unplaced⟩

variable {r r' : ParseResult}

/-- Without places errors say what they say with them. -/
lemma messages_eq (h : r'.unplaced = r.unplaced) : r'.errors.map (·.message) = r.errors.map (·.message) := by
  have hmessages := congrArg (fun r : ParseResult => r.errors.map (·.message)) h
  simpa only [unplaced, List.map_map, Function.comp_def, ParseError.message_unplaced] using hmessages

lemma notes_eq (h : r'.unplaced = r.unplaced) :
    r'.errors.map (fun e => e.notes.map (Note.relocate fun _ => .start)) =
      r.errors.map fun e => e.notes.map (Note.relocate fun _ => .start) := by
  have hnotes := congrArg (fun r : ParseResult => r.errors.map (·.notes)) h
  simpa only [unplaced, List.map_map, Function.comp_def, ParseError.notes_unplaced] using hnotes

end ParseResult

namespace Document

open Parse ParseState

variable {r : Relocation}

lemma unplaced_of_error {e e' : ParseError} (h : r.Error e e') : e'.unplaced = e.unplaced := by
  unfold ParseError.unplaced
  rw [h.cause, ParseErrorCause.relocate_relocate]
  rfl

lemma unplaced_of_errors {es es' : List ParseError} (h : List.Forall₂ r.Error es es') :
    es'.map ParseError.unplaced = es.map ParseError.unplaced := by
  induction h with
  | nil => rfl
  | cons he _ ih => rw [List.map_cons, List.map_cons, unplaced_of_error he, ih]

/-- Runs that did the same leave the same without places. -/
lemma unplaced_of_sameRun {o : ParseOptions} {S S' : List Char} {hplaces' : byteLength S' ≤ Pos.maxOffset}
    {depth : Nat} {run run' : Option (List Definition) × ParseState}
    (h : SameRun (.respaced o S S' hplaces') (Simulates.Behind (.respaced o S S' hplaces') []) depth run run')
    (hmade : run.1.isSome = true) : (resultOf run').unplaced = (resultOf run).unplaced := by
  obtain ⟨o, st⟩ := run
  obtain ⟨o', st'⟩ := run'
  obtain ⟨hmade', hst, -⟩ := h
  have herrors := unplaced_of_errors ((Relocation.errors_iff rfl).mp hst.errors)
  have haborted := hst.aborted
  dsimp only at hmade hmade' herrors haborted
  unfold resultOf
  dsimp only
  generalize st.aborted = a at haborted
  generalize st'.aborted = a' at haborted
  cases haborted with
  | some he => exact congrArg (ParseResult.mk none [·]) (unplaced_of_error he)
  | none =>
    cases hmade' with
    | none => exact absurd hmade Bool.false_ne_true
    | @some ds ds' hds =>
      have hdefinitions : ds'.map (Definition.relocate fun _ => Pos.start) =
          ds.map (Definition.relocate fun _ => .start) := by
        rw [hds, List.nil_append, map_relocate_relocate Definition.relocate_relocate]
        rfl
      simp only [ParseResult.unplaced, Option.getD_some, Option.map_some, hdefinitions, List.map_reverse, herrors]

/-- **Ignored text is insignificant.** Of two sources whose tokens have the same kinds and texts the same
document is made, but for places, and the same errors are reported, in the same order and with the same
messages and notes. -/
theorem parseWith_respaced (o : ParseOptions) (S S' : List Char) (hsize : byteLength S ≤ o.maxSize)
    (hsize' : byteLength S' ≤ o.maxSize) (hplaces : byteLength S ≤ Pos.maxOffset)
    (hplaces' : byteLength S' ≤ Pos.maxOffset) (h : Token.SameTokens (Token.lex S) (Token.lex S')) :
    (parseWith o S').unplaced = (parseWith o S).unplaced ∧
      (parseWith o S').errors.map (·.message) = (parseWith o S).errors.map (·.message) ∧
      (parseWith o S').errors.map (fun e => e.notes.map (Note.relocate fun _ => .start)) =
        (parseWith o S).errors.map fun e => e.notes.map (Note.relocate fun _ => .start) := by
  suffices hresult : (parseWith o S').unplaced = (parseWith o S).unplaced from
    ⟨hresult, ParseResult.messages_eq hresult, ParseResult.notes_eq hresult⟩
  let r : Relocation := .respaced o S S' hplaces'
  have hlex := Relocation.lex_respaced hplaces h
  have hcount : (Token.lex S').length = (Token.lex S).length := by rw [hlex, List.length_map]
  have hstate : r.State (.start (Token.lex S)) (.start (Token.lex S')) :=
    ⟨⟨hlex, fun _ _ => trivial⟩, Nat.le_refl _, Nat.le_of_eq hcount.symm, .nil, rfl, rfl, rfl, .none⟩
  have hread : Simulates.Behind r [] ([] : List Definition).reverse ([] : List Definition).reverse := rfl
  have hlevels : (ParseState.start (Token.lex S)).depth + o.maxDepth = r.env.maxDepth := Nat.zero_add _
  have hfinished : Finished (limitsOf o S) (.start (Token.lex S))
      (Parse.definitions ((Token.lex S).length + 1) [] (limitsOf o S) (.start (Token.lex S))) :=
    definitions_finished (Nat.le_refl _) (Nat.lt_succ_self _)
  rw [parseWith_eq hsize', parseWith_eq hsize]
  exact unplaced_of_sameRun (Simulates.definitions hread hstate hlevels (Nat.lt_succ_self _)
    (Nat.lt_succ_of_le (Nat.le_of_eq hcount.symm))) hfinished.made

/-- The theorem at a query with an argument that lacks its value, once on one line and once with commas and
a comment that holds a brace. -/
theorem parseWith_respaced_of_sample :
    Token.SameTokens (Token.lex "\x7b a(x:) \x7d".toList) (Token.lex "\x7b,,a # \x7d\n (x\n:)\x7d\n".toList) ∧
      (parseWith .default "\x7b,,a # \x7d\n (x\n:)\x7d\n".toList).unplaced =
        (parseWith .default "\x7b a(x:) \x7d".toList).unplaced := by
  have hsame : Token.SameTokens (Token.lex "\x7b a(x:) \x7d".toList)
      (Token.lex "\x7b,,a # \x7d\n (x\n:)\x7d\n".toList) := by decide +kernel
  exact ⟨hsame, (parseWith_respaced .default _ _ (by decide +kernel) (by decide +kernel) (by decide +kernel)
    (by decide +kernel) hsame).1⟩

end Document

end GraphQL
