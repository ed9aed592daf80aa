import GraphQL.Proofs.Parser.Exact.Value

/-!
Selections, operations and fragments follow the grammar.
-/

namespace GraphQL

open Grammar

namespace Parse

open ParseState

variable {env : ParseLimits} {levels : Nat}

/-! ### Selections -/

/-- What a first name is, judged by what follows. -/
def AfterFirst (first : Name) : Production (Option Name × Name) := fun ts out rest =>
  (∃ colon mid name, IsToken .colon ts colon mid ∧ IsName mid name rest ∧ out = (some first, name)) ∨
    out = (none, first) ∧ rest = ts

lemma isField_iff {f : Field} {ts rest : List Token} :
    IsField ts f rest ↔ ∃ first ts₁ out ts₂ args ts₃ dirs, IsName ts first ts₁ ∧
      AfterFirst first ts₁ out ts₂ ∧ OptionalGroup .fieldArguments (IsArgument false) ts₂ args ts₃ ∧
      IsDirectives false ts₃ dirs rest ∧ f = ⟨out.1, out.2, args, dirs, first.pos⟩ := by
  constructor
  · rintro ⟨names, arguments, directives⟩
    obtain ⟨⟨hk⟩⟩ | ⟨⟨⟨hk⟩, separates, names⟩⟩ := names
    · exact ⟨_, _, (none, _), _, _, _, _, ⟨hk⟩, .inr ⟨rfl, rfl⟩, arguments, directives, rfl⟩
    · exact ⟨_, _, (some _, _), _, _, _, _, ⟨hk⟩, .inl ⟨_, _, _, separates, names, rfl⟩, arguments,
        directives, rfl⟩
  · rintro ⟨first, ts₁, out, ts₂, args, ts₃, dirs, ⟨hk⟩, h, arguments, directives, rfl⟩
    obtain ⟨colon, mid, name, separates, names, rfl⟩ | ⟨rfl, rfl⟩ := h
    · exact ⟨.aliased ⟨⟨hk⟩, separates, names⟩, arguments, directives⟩
    · exact ⟨.plain ⟨hk⟩, arguments, directives⟩

lemma aliased_exact (first : Name) :
    Exact env levels (field.aliased first) (AfterFirst first) [.colon] true [.colon] := by
  have hname : Exact env levels _ _ _ _ _ := (expect_exact .colon).bind (by simp) fun _ =>
    (expectName_exact "field name after alias").bind (by simp) fun name => .pure (some first, name)
  rw [field.aliased, nextIs_advance]
  refine (Exact.nextIs_bind hname (.pure (none, first)) (by simp)).congr (fun ts out rest => ?_) (by simp)
    (by simp) (by simp)
  refine or_congr_left ⟨?_, ?_⟩
  · rintro ⟨colon, mid, name, separates, names, rfl⟩
    exact ⟨colon, mid, separates, name, rest, names, rfl, rfl⟩
  · rintro ⟨colon, mid, separates, name, mid', names, rfl, rfl⟩
    exact ⟨colon, mid, name, separates, names, rfl⟩

/-- What the head of a field is, judged by what follows. -/
def AfterField (f : Field) : Production Selection := fun ts s rest =>
  (∃ below, IsSelectionSet ts below rest ∧ s = .field f (some below)) ∨ s = .field f none ∧ rest = ts

/-- A field with the selections below it. -/
def IsFieldSelection : Production Selection := fun ts s rest =>
  ∃ f mid, IsField ts f mid ∧ AfterField f mid s rest

section

variable {selectionSet : Parse SelectionSet} {p : Pos} {t : Token} {ts rest : List Token} {s : Selection}
  (hs : Exact env levels selectionSet (Within SelectionSet.nesting levels IsSelectionSet) [.braceOpen]
    false [])

include hs in
lemma below_exact (f : Field) :
    Exact env levels (nextIs .braceOpen >>= fun b => if b = true
        then selectionSet >>= fun below => pure (Selection.field f (some below))
        else pure (Selection.field f none))
      (fun ts s rest => AfterField f ts s rest ∧
        ∀ below, s = .field f (some below) → below.nesting ≤ levels)
      [.braceOpen] true [.braceOpen] := by
  have hbelow := hs.map fun below => Selection.field f (some below)
  refine (Exact.nextIs_bind hbelow (.pure (Selection.field f none)) (by simp)).congr
    (fun ts out rest => ?_) (by simp) (by simp) (by simp)
  constructor
  · rintro ⟨⟨below, h, rfl⟩ | h, hsize⟩
    · exact .inl ⟨below, ⟨h, hsize below rfl⟩, rfl⟩
    · exact .inr h
  · rintro (⟨below, ⟨h, hsize⟩, rfl⟩ | ⟨rfl, rfl⟩)
    · refine ⟨.inl ⟨below, h, rfl⟩, ?_⟩
      rintro _ ⟨rfl⟩
      exact hsize
    · exact ⟨.inr ⟨rfl, rfl⟩, by simp⟩

lemma nesting_field {f : Field} (h : AfterField f ts s rest) :
    s.nesting ≤ levels ↔ largest Argument.nesting f.arguments ≤ levels ∧
      largest Directive.nesting f.directives ≤ levels ∧
      ∀ below, s = .field f (some below) → below.nesting ≤ levels := by
  obtain ⟨below, -, rfl⟩ | ⟨rfl, -⟩ := h
  · simp [Selection.nesting, Field.nesting, Nat.max_le]
  · simp [Selection.nesting, Field.nesting, Nat.max_le]

include hs in
lemma field_exact :
    Exact env levels (field selectionSet) (Within Selection.nesting levels IsFieldSelection) [.name] false
      [.colon, .parenOpen, .atSign, .braceOpen] := by
  refine ((expectName_exact _).bind (by simp) fun first =>
    (aliased_exact first).bind (by decide) fun out =>
      (arguments_exact .fieldArguments).bind (by decide) fun args =>
        directives_exact.bind (by simp) fun dirs =>
          below_exact hs ⟨out.1, out.2, args, dirs, first.pos⟩).congr
    (fun ts s rest => ?_) (by decide) (by simp) (by decide)
  constructor
  · rintro ⟨⟨f, mid, h, hafter⟩, hsize⟩
    obtain ⟨hargs, hdirs, hbelow⟩ := (nesting_field hafter).mp hsize
    obtain ⟨first, ts₁, out, ts₂, args, ts₃, dirs, names, hfirst, arguments, directives, rfl⟩ :=
      isField_iff.mp h
    exact ⟨first, ts₁, names, out, ts₂, hfirst, args, ts₃, ⟨arguments, hargs⟩, dirs, mid,
      ⟨directives, hdirs⟩, hafter, hbelow⟩
  · rintro ⟨first, ts₁, names, out, ts₂, hfirst, args, ts₃, ⟨arguments, hargs⟩, dirs, mid,
      ⟨directives, hdirs⟩, hafter, hbelow⟩
    have h := isField_iff.mpr
      ⟨first, ts₁, out, ts₂, args, ts₃, dirs, names, hfirst, arguments, directives, rfl⟩
    exact ⟨⟨_, mid, h, hafter⟩, (nesting_field hafter).mpr ⟨hargs, hdirs, hbelow⟩⟩

/-- Directives and selections make an inline fragment. -/
def IsInline (p : Pos) (condition : Option Name) : Production Selection := fun ts s rest =>
  ∃ dirs mid below, IsDirectives false ts dirs mid ∧ IsSelectionSet mid below rest ∧
    s = .inline ⟨condition, dirs, p⟩ below

include hs in
lemma inlineFragment_exact (p : Pos) (condition : Option Name) :
    Exact env levels (fragmentSelection.inlineFragment selectionSet p condition)
      (Within Selection.nesting levels (IsInline p condition)) [.atSign, .braceOpen] false [] := by
  refine (directives_exact.bind (by decide) fun dirs => hs.bind (by simp) fun below =>
    .pure (Selection.inline ⟨condition, dirs, p⟩ below)).congr (fun ts s rest => ?_) (by simp) (by simp)
    (by simp)
  constructor
  · rintro ⟨⟨dirs, mid, below, directives, selects, rfl⟩, hsize⟩
    obtain ⟨hdirs, hbelow⟩ := Nat.max_le.mp hsize
    exact ⟨dirs, mid, ⟨directives, hdirs⟩, below, rest, ⟨selects, hbelow⟩, rfl, rfl⟩
  · rintro ⟨dirs, mid, ⟨directives, hdirs⟩, below, mid', ⟨selects, hbelow⟩, rfl, rfl⟩
    exact ⟨⟨dirs, mid, below, directives, selects, rfl⟩, Nat.max_le.mpr ⟨hdirs, hbelow⟩⟩

include hs in
/-- A type condition, and directives and selections behind it. -/
lemma restricted_exact (p : Pos) :
    Exact env levels (expectName "type condition" >>= fun condition =>
        fragmentSelection.inlineFragment selectionSet p (some condition))
      (fun ts s rest => ∃ condition mid, IsName ts condition mid ∧
        Within Selection.nesting levels (IsInline p (some condition)) mid s rest) [.name] false [] :=
  ((expectName_exact _).bind (by simp) fun condition => inlineFragment_exact hs p (some condition)).congr
    (fun _ _ _ => Iff.rfl) (by simp) (by simp) (by simp)

lemma spread_exact (p : Pos) (name : Name) :
    Exact env levels (directives none >>= fun dirs => pure (Selection.spread ⟨name, dirs, p⟩))
      (fun ts s rest => ∃ dirs, IsDirectives false ts dirs rest ∧ s = .spread ⟨name, dirs, p⟩ ∧
        s.nesting ≤ levels) [.atSign] true [.atSign, .parenOpen] := by
  refine (directives_exact.map fun dirs => Selection.spread ⟨name, dirs, p⟩).congr
    (fun ts s rest => ?_) (by simp) id (by simp)
  constructor
  · rintro ⟨dirs, directives, rfl, hsize⟩
    exact ⟨dirs, ⟨directives, hsize⟩, rfl⟩
  · rintro ⟨dirs, ⟨directives, hdirs⟩, rfl⟩
    exact ⟨dirs, directives, rfl, hdirs⟩

/-- What stands behind three points. -/
def AfterPoints (p : Pos) : Production Selection := fun ts s rest =>
  (∃ name mid dirs, IsName ts name mid ∧ name.text ≠ "on" ∧ IsDirectives false mid dirs rest ∧
    s = .spread ⟨name, dirs, p⟩) ∨
  ∃ condition mid, Optional IsCondition ts condition mid ∧ IsInline p condition mid s rest

include hs in
lemma isInline_starts {condition : Option Name}
    (h : Within Selection.nesting levels (IsInline p condition) ts s rest) :
    Starts [.atSign, .braceOpen] false ts rest :=
  (inlineFragment_exact hs p condition).starts ts s rest h

include hs in
/-- Behind three points, `on` starts a type condition. -/
lemma afterPoints_on (ht : t.isKeyword "on" = true) :
    Within Selection.nesting levels (AfterPoints p) (t :: ts) s rest ↔
      ∃ condition mid, IsName ts condition mid ∧
        Within Selection.nesting levels (IsInline p (some condition)) mid s rest := by
  obtain ⟨hk, htext⟩ := isKeyword_iff.mp ht
  constructor
  · rintro ⟨⟨name, mid, dirs, ⟨_⟩, hne, -⟩ | ⟨condition, mid, hopt, hinline⟩, hsize⟩
    · exact absurd htext hne
    · obtain _ | ⟨⟨_, _⟩, names⟩ := hopt
      · have hnext : NotNext [.atSign, .braceOpen] (t :: ts) := by simp [NotNext, hk]
        exact absurd hnext (isInline_starts hs ⟨hinline, hsize⟩).not_notNext
      · exact ⟨_, mid, names, hinline, hsize⟩
  · rintro ⟨condition, mid, names, hinline, hsize⟩
    exact ⟨.inr ⟨some condition, mid, .present ⟨⟨hk, htext⟩, names⟩, hinline⟩, hsize⟩

include hs in
/-- Any other name is that of a fragment. -/
lemma afterPoints_name (hon : ¬t.isKeyword "on" = true) (hk : t.kind = .name) :
    Within Selection.nesting levels (AfterPoints p) (t :: ts) s rest ↔
      ∃ dirs, IsDirectives false ts dirs rest ∧ s = .spread ⟨⟨t.text, t.start⟩, dirs, p⟩ ∧
        s.nesting ≤ levels := by
  constructor
  · rintro ⟨⟨name, mid, dirs, ⟨_⟩, -, directives, rfl⟩ | ⟨condition, mid, hopt, hinline⟩, hsize⟩
    · exact ⟨dirs, directives, rfl, hsize⟩
    · obtain _ | ⟨⟨_, htext⟩, -⟩ := hopt
      · have hnext : NotNext [.atSign, .braceOpen] (t :: ts) := by simp [NotNext, hk]
        exact absurd hnext (isInline_starts hs ⟨hinline, hsize⟩).not_notNext
      · exact absurd (isKeyword_iff.mpr ⟨hk, htext⟩) hon
  · rintro ⟨dirs, directives, rfl, hsize⟩
    have hne : t.text ≠ "on" := fun htext => hon (isKeyword_iff.mpr ⟨hk, htext⟩)
    exact ⟨.inl ⟨_, ts, dirs, ⟨hk⟩, hne, directives, rfl⟩, hsize⟩

/-- What is no name belongs to an inline fragment without a type condition. -/
lemma afterPoints_other (hk : NotNext [.name] ts) :
    Within Selection.nesting levels (AfterPoints p) ts s rest ↔
      Within Selection.nesting levels (IsInline p none) ts s rest := by
  refine and_congr_left fun _ => ⟨?_, fun h => .inr ⟨none, ts, .absent, h⟩⟩
  rintro (⟨name, mid, dirs, ⟨hname⟩, -⟩ | ⟨condition, mid, _ | ⟨⟨hname, _⟩, -⟩, hinline⟩)
  · exact absurd (by simp [hname]) (hk _ rfl)
  · exact hinline
  · exact absurd (by simp [hname]) (hk _ rfl)

include hs in
lemma fragmentSelection_exact :
    Exact env levels (fragmentSelection selectionSet)
      (Then (IsToken .ellipsis) fun points => Within Selection.nesting levels (AfterPoints points.start))
      [.ellipsis] false [.atSign, .parenOpen] := by
  refine ((expect_exact .ellipsis).bind (by simp) (?_ : ∀ points : Token, Exact env levels _
    (Within Selection.nesting levels (AfterPoints points.start)) [.name, .atSign, .braceOpen] false
    [.atSign, .parenOpen])).congr (fun _ _ _ => Iff.rfl) (by simp) (by simp) (by simp)
  intro points
  have hinline := inlineFragment_exact hs points.start none
  have hrestricted := restricted_exact hs points.start
  have hspread : ∀ name, Exact env levels _ _ _ _ _ := spread_exact points.start
  refine ⟨.silent_bind .peek fun t => ?_, ?_, fun ts hts => .peek_bind ?_⟩
  · cases t with
    | none => exact hinline.keeps
    | some t =>
      exact .ite (.silent_bind .advance fun _ => hrestricted.keeps)
        (.ite (.silent_bind .advance fun _ => (hspread _).keeps) hinline.keeps)
  · rintro ts s rest ⟨⟨name, mid, dirs, ⟨hk⟩, -, directives, rfl⟩ | ⟨condition, mid, hopt, h⟩, hsize⟩
    · have hrest := (hspread _).starts mid _ rest ⟨dirs, directives, rfl, hsize⟩
      exact .inr ⟨_, mid, rfl, by simp [hk], hrest.length_le⟩
    · have hrest := isInline_starts hs ⟨h, hsize⟩
      obtain _ | ⟨⟨hk, _⟩, ⟨_⟩⟩ := hopt
      · exact hrest.mono (by simp) id
      · exact .inr ⟨_, _, rfl, by simp [hk], Nat.le_succ_of_le hrest.length_le⟩
  · cases ts with
    | nil =>
      exact (hinline.exactAt [] hts).congr
        (fun s rest => afterPoints_other .nil) fun _ h => h.mono (by simp)
    | cons t us =>
      have hus : us.length ≤ env.tokenCount := Nat.le_of_succ_le hts
      refine .ite (fun hon => ?_) fun hon => .ite (fun hk => ?_) fun hk => ?_
      · exact (ExactAt.advance_bind (hrestricted.exactAt us hus)).congr
          (fun s rest => afterPoints_on hs hon) fun _ h => h.mono (by simp)
      · exact (ExactAt.advance_bind ((hspread _).exactAt us hus)).congr
          (fun s rest => afterPoints_name hs hon hk) fun _ h => h
      · have hnext : NotNext [.name] (t :: us) := by simpa [NotNext] using hk
        exact (hinline.exactAt _ hts).congr
          (fun s rest => afterPoints_other hnext) fun _ h => h.mono (by simp)

lemma isSelection_iff :
    IsSelection ts s rest ↔ IsFieldSelection ts s rest ∨
      ∃ points mid, IsToken .ellipsis ts points mid ∧ AfterPoints points.start mid s rest := by
  constructor
  · intro h
    cases h with
    | leaf here => exact .inl ⟨_, _, here, .inr ⟨rfl, rfl⟩⟩
    | field here below => exact .inl ⟨_, _, here, .inl ⟨_, ⟨below⟩, rfl⟩⟩
    | spread marks names isOther directives =>
      exact .inr ⟨_, _, marks, .inl ⟨_, _, _, names, isOther, directives, rfl⟩⟩
    | inline marks restricts directives below =>
      exact .inr ⟨_, _, marks, .inr ⟨_, _, restricts, _, _, _, directives, ⟨below⟩, rfl⟩⟩
  · rintro (⟨f, mid, here, ⟨_, ⟨below⟩, rfl⟩ | ⟨rfl, rfl⟩⟩ | ⟨points, mid, marks, h⟩)
    · exact .field here below
    · exact .leaf here
    · obtain ⟨name, ts₂, dirs, names, isOther, directives, rfl⟩ |
        ⟨condition, ts₂, restricts, dirs, ts₃, _, directives, ⟨below⟩, rfl⟩ := h
      · exact .spread marks names isOther directives
      · exact .inline marks restricts directives below

/-- A selection that nests only so deep is a field, or a fragment behind its points, that does. -/
lemma selectionWithin_iff {s : Selection} {ts rest : List Token} :
    Within Selection.nesting levels IsSelection ts s rest ↔
      Within Selection.nesting levels IsFieldSelection ts s rest ∨
      Then (IsToken .ellipsis) (fun points => Within Selection.nesting levels (AfterPoints points.start))
        ts s rest := by
  rw [Within, isSelection_iff]
  constructor
  · rintro ⟨h | ⟨points, mid, marks, h⟩, hsize⟩
    · exact .inl ⟨h, hsize⟩
    · exact .inr ⟨points, mid, marks, h, hsize⟩
  · rintro (⟨h, hsize⟩ | ⟨points, mid, marks, h, hsize⟩)
    · exact ⟨.inl h, hsize⟩
    · exact ⟨.inr ⟨points, mid, marks, h⟩, hsize⟩

include hs in
lemma selection_exact :
    Exact env levels (selection selectionSet) (Within Selection.nesting levels IsSelection)
      [.ellipsis, .name] false [.colon, .parenOpen, .atSign, .braceOpen] := by
  have hfield := field_exact hs
  have hfragment := fragmentSelection_exact hs
  have hnone : ∀ ts, NotNext [.ellipsis, .name] ts → ∀ s rest,
      ¬Within Selection.nesting levels IsSelection ts s rest := fun ts hnext s rest h => by
    obtain h | h := selectionWithin_iff.mp h
    · exact (hfield.starts ts s rest h).not_notNext (hnext.mono (by simp))
    · exact (hfragment.starts ts s rest h).not_notNext (hnext.mono (by simp))
  refine ⟨.silent_bind .peek fun t => ?_, fun ts s rest h => ?_, fun ts hts => .peek_bind ?_⟩
  · cases t with
    | none => exact .unexpected _
    | some t =>
      dsimp only
      split
      · exact hfragment.keeps
      · exact hfield.keeps
      · exact .unexpected _
  · obtain h | h := selectionWithin_iff.mp h
    · exact (hfield.starts ts s rest h).mono (by simp) id
    · exact (hfragment.starts ts s rest h).mono (by simp) id
  · cases ts with
    | nil => exact .complains (.unexpected _) (hnone [] .nil)
    | cons t us =>
      dsimp only [List.head?_cons]
      split
      · rename_i hk
        refine (hfragment.exactAt _ hts).congr (fun s rest => ?_) fun _ h => h.mono (by simp)
        refine selectionWithin_iff.trans (or_iff_right fun h => ?_)
        exact (hfield.starts _ s rest h).not_notNext (by simp [NotNext, hk])
      · rename_i hk
        refine (hfield.exactAt _ hts).congr (fun s rest => ?_) fun _ h => h
        refine selectionWithin_iff.trans (or_iff_left fun h => ?_)
        exact (hfragment.starts _ s rest h).not_notNext (by simp [NotNext, hk])
      · rename_i hellipsis hname
        exact .complains (.unexpected _) (hnone _ (by simpa [NotNext] using ⟨hellipsis, hname⟩))

end

lemma nesting_selectionSet_pos (ss : SelectionSet) : 0 < ss.nesting := by
  obtain ⟨ss, p⟩ := ss
  exact Nat.succ_pos _

lemma selectionSetWithin_exact {fuel : Nat} (h : levels ≤ fuel) :
    Exact env levels (selectionSetWithin fuel) (Within SelectionSet.nesting levels IsSelectionSet)
      [.braceOpen] false [] := by
  refine levels_exact rfl (fun fuel => ⟨_, rfl, fun levels hs => ?_⟩) nesting_selectionSet_pos h
  have hgroup := (group_exact .selectionSet (selection_exact hs) (by decide)).map
    fun out => SelectionSet.mk out.1 out.2
  refine hgroup.congr (fun ts ss rest => ?_) (by decide) id (by simp)
  constructor
  · rintro ⟨⟨here⟩, hsize⟩
    rw [SelectionSet.nesting, Selection.nestingOfAll_eq, Nat.add_le_add_iff_right, largest_le] at hsize
    exact ⟨_, group_within.mpr ⟨here, hsize⟩, rfl⟩
  · rintro ⟨⟨ss, p⟩, here, rfl⟩
    obtain ⟨here, hsize⟩ := group_within.mp here
    refine ⟨⟨here⟩, ?_⟩
    rwa [SelectionSet.nesting, Selection.nestingOfAll_eq, Nat.add_le_add_iff_right, largest_le]

lemma selectionSet_exact :
    Exact env levels Parse.selectionSet (Within SelectionSet.nesting levels IsSelectionSet)
      [.braceOpen] false [] :=
  allLevels_exact selectionSetWithin_exact

/-! ### Operations and fragments -/

/-- A part that one kind of token introduces. -/
lemma optional_within {α : Type} {P : Production α} {size : α → Nat} {n : Nat} {ts rest : List Token}
    {o : Option α} :
    Within (fun o : Option α => largest size o.toList) n (Optional P) ts o rest ↔
      Optional (Within size n P) ts o rest := by
  rw [Within, largest_le]
  constructor
  · rintro ⟨_ | h, hsize⟩
    · exact .absent
    · exact .present ⟨h, hsize _ (by simp)⟩
  · rintro (_ | ⟨h, hsize⟩)
    · exact ⟨.absent, by simp⟩
    · exact ⟨.present h, by simpa using hsize⟩

lemma optional_exact {α : Type} {p : Parse (Option α)} {P : Production α} {k : TokenKind}
    {follow : List TokenKind}
    (hp : Exact env levels p (fun ts o rest => ∃ a, P ts a rest ∧ o = some a) [k] false follow) :
    Exact env levels (nextIs k >>= fun b => if b = true then p else pure none) (Optional P) [k] true
      (k :: follow) := by
  refine (Exact.nextIs_bind hp (.pure none) (by simp)).congr (fun ts o rest => ?_) (by simp) (by simp)
    (by simp)
  constructor
  · rintro (_ | h)
    · exact .inr ⟨rfl, rfl⟩
    · exact .inl ⟨_, h, rfl⟩
  · rintro (⟨a, h, rfl⟩ | ⟨rfl, rfl⟩)
    · exact .present h
    · exact .absent

lemma operationName_exact :
    Exact env levels operationName (Optional IsName) [.name] true [.name] :=
  optional_exact ((expectName_exact _).map some)

lemma defaultValue_exact (place : ConstantPlace) :
    Exact env levels (defaultValue place)
      (Within (fun v : Option Literal => largest Literal.nesting v.toList) levels (Optional IsDefault))
      [.equals] true [.equals] := by
  have hdefault : Exact env levels
      (expect .equals >>= fun _ => value (some place) >>= fun v => pure (some v))
      (fun ts o rest => ∃ v, Within Literal.nesting levels IsDefault ts v rest ∧ o = some v) [.equals]
      false [] := by
    refine ((expect_exact .equals).bind (by simp) fun _ => value_exact.map some).congr
      (fun ts o rest => ?_) (by simp) (by simp) (by simp)
    constructor
    · rintro ⟨v, ⟨⟨marks, here⟩, hsize⟩, rfl⟩
      exact ⟨_, _, marks, v, ⟨here, hsize⟩, rfl⟩
    · rintro ⟨t, mid, marks, v, ⟨here, hsize⟩, rfl⟩
      exact ⟨v, ⟨⟨marks, here⟩, hsize⟩, rfl⟩
  rw [defaultValue, nextIs_advance]
  exact (optional_exact hdefault).congr (fun _ _ _ => optional_within) (by simp) id (by simp)

lemma variableDefinition_exact :
    Exact env levels variableDefinition (Within VariableDefinition.nesting levels IsVariableDefinition)
      [.dollar] false [.bang, .equals, .atSign, .parenOpen] := by
  refine ((expect_exact .dollar).bind (by simp) fun dollar =>
    (expectName_exact _).bind (by simp) fun name =>
      (discard_exact (expect_exact .colon)).bind (by simp) fun _ =>
        typeRef_exact.bind (by decide) fun type =>
          (defaultValue_exact .variableDefault).bind (by simp) fun default? =>
            directives_exact.bind (by simp) fun dirs =>
              .pure (VariableDefinition.mk name type default? dirs dollar.start)).congr
    (fun ts v rest => ?_) (by simp) (by simp) (by decide)
  constructor
  · rintro ⟨⟨marks, names, separates, types, defaults, directives⟩, hsize⟩
    simp only [VariableDefinition.nesting, Nat.max_le] at hsize
    obtain ⟨htype, hdefault, hdirs⟩ := hsize
    exact ⟨_, _, marks, _, _, names, (), _, ⟨_, separates⟩, _, _, ⟨types, htype⟩, _, _,
      ⟨defaults, hdefault⟩, _, _, ⟨directives, hdirs⟩, rfl, rfl⟩
  · rintro ⟨dollar, ts₁, marks, name, ts₂, names, -, ts₃, ⟨colon, separates⟩, type, ts₄, ⟨types, htype⟩,
      default?, ts₅, ⟨defaults, hdefault⟩, dirs, mid, ⟨directives, hdirs⟩, rfl, rfl⟩
    refine ⟨⟨marks, names, separates, types, defaults, directives⟩, ?_⟩
    exact Nat.max_le.mpr ⟨htype, Nat.max_le.mpr ⟨hdefault, hdirs⟩⟩

lemma nesting_shorthand (below : SelectionSet) (p : Pos) :
    (OperationDefinition.mk .query none [] [] below true p).nesting = below.nesting := by
  simp [OperationDefinition.nesting, largest]

lemma shorthandOperation_exact :
    Exact env levels shorthandOperation
      (Within OperationDefinition.nesting levels fun ts op rest => ∃ below, IsSelectionSet ts below rest ∧
        op = ⟨.query, none, [], [], below, true, below.pos⟩) [.braceOpen] false [] := by
  refine (Exact.here_bind fun p => selectionSet_exact.map fun below =>
    OperationDefinition.mk .query none [] [] below true p).congr (fun ts op rest => ?_) (by simp)
    (by simp) (by simp)
  constructor
  · rintro ⟨⟨below, ⟨⟨opens, members, closes, nonempty⟩⟩, rfl⟩, hsize⟩
    rw [nesting_shorthand] at hsize
    exact ⟨_, ⟨⟨⟨opens, members, closes, nonempty⟩⟩, hsize⟩, rfl⟩
  · rintro ⟨below, ⟨⟨⟨opens, members, closes, nonempty⟩⟩, hsize⟩, rfl⟩
    refine ⟨⟨_, ⟨⟨opens, members, closes, nonempty⟩⟩, rfl⟩, ?_⟩
    rwa [nesting_shorthand]

lemma operationDefinition_exact (type : OperationType) :
    Exact env levels (operationDefinition type)
      (Within OperationDefinition.nesting levels fun ts op rest =>
        IsOperation ts op rest ∧ op.isShorthand = false ∧ op.type = type) [.name] false [] := by
  have hdeclared : Exact env levels _ _ _ _ _ :=
    optionalGroup_exact .variableDefinitions variableDefinition_exact (by decide)
  refine ((expectKeyword_exact _).bind (by simp) fun keyword =>
    operationName_exact.bind (by decide) fun name => hdeclared.bind (by decide) fun declared =>
      directives_exact.bind (by decide) fun dirs => selectionSet_exact.bind (by simp) fun below =>
        .pure (OperationDefinition.mk type name declared dirs below false keyword.start)).congr
    (fun ts op rest => ?_) (by simp) (by simp) (by simp)
  constructor
  · rintro ⟨⟨h, hshort, htype⟩, hsize⟩
    cases h with
    | shorthand => exact absurd hshort (by simp)
    | full starts names declares directives selects =>
      obtain rfl := htype
      simp only [OperationDefinition.nesting, Nat.max_le] at hsize
      obtain ⟨hdeclared, hdirs, hbelow⟩ := hsize
      exact ⟨_, _, starts, _, _, names, _, _, ⟨declares, hdeclared⟩, _, _, ⟨directives, hdirs⟩, _, rest,
        ⟨selects, hbelow⟩, rfl, rfl⟩
  · rintro ⟨keyword, ts₁, starts, name, ts₂, names, declared, ts₃, ⟨declares, hdeclared⟩, dirs, ts₄,
      ⟨directives, hdirs⟩, below, mid, ⟨selects, hbelow⟩, rfl, rfl⟩
    refine ⟨⟨.full starts names declares directives selects, rfl, rfl⟩, ?_⟩
    exact Nat.max_le.mpr ⟨hdeclared, Nat.max_le.mpr ⟨hdirs, hbelow⟩⟩

lemma fragmentDefinition_exact :
    Exact env levels fragmentDefinition (Within FragmentDefinition.nesting levels IsFragment) [.name]
      false [] := by
  have hrest : ∀ (keyword : Token) (name : Name), Exact env levels _ _ _ _ _ := fun keyword name =>
    (discard_exact (expectKeyword_exact "on")).bind (by simp) fun _ =>
      (expectName_exact "type condition").bind (by simp) fun condition =>
        (directives_exact : Exact env levels (directives none) _ _ _ _).bind (by decide) fun dirs =>
          selectionSet_exact.bind (by simp) fun below =>
            .pure (FragmentDefinition.mk name condition dirs below keyword.start)
  refine ((expectKeyword_exact "fragment").bind (by simp) fun keyword =>
    (expectName_exact _).bind (by simp) fun name => .ite_complains
      (fun _ => ⟨(KeepsErrors.report _).bind fun _ => (hrest keyword name).keeps,
        (Complains.report _).bind fun _ => (hrest keyword name).keeps⟩) (hrest keyword name)).congr
    (fun ts f rest => ?_) (by simp) (by simp) (by simp)
  constructor
  · rintro ⟨⟨starts, names, isOther, ⟨on, condition⟩, directives, selects⟩, hsize⟩
    obtain ⟨hdirs, hbelow⟩ := Nat.max_le.mp hsize
    exact ⟨_, _, starts, _, _, names, by simpa using isOther, (), _, ⟨_, on⟩, _, _, condition, _, _,
      ⟨directives, hdirs⟩, _, rest, ⟨selects, hbelow⟩, rfl, rfl⟩
  · rintro ⟨keyword, ts₁, starts, name, ts₂, names, isOther, -, ts₃, ⟨_, on⟩, condition, ts₄, restricts,
      dirs, ts₅, ⟨directives, hdirs⟩, below, mid, ⟨selects, hbelow⟩, rfl, rfl⟩
    refine ⟨⟨starts, names, by simpa using isOther, ⟨on, restricts⟩, directives, selects⟩, ?_⟩
    exact Nat.max_le.mpr ⟨hdirs, hbelow⟩

end Parse

end GraphQL
