import Mathlib.Data.List.DropRight
import Mathlib.Data.Prod.Lex
import GraphQL.Proofs.Token.Lexer
import GraphQL.Text.Position

/-!
Lines and columns of places.

A place is found by reading the text in front of it, so what is known of the reading point is known of the
place: it counts the line ends read, and the characters behind the last of them. Reading never goes back,
and it stands still only at the line feed of a line end that a carriage return began. A character is read
as soon as its first byte is passed, so that a place within it is behind it. In terms of the rows of a text,
line and column lead to the character at a place.
-/

namespace GraphQL

/-- The line ends of a text. A carriage return with a line feed behind it is one. -/
def lineBreaks : List Char → Nat
  | [] => 0
  | '\r' :: '\n' :: cs => lineBreaks cs + 1
  | c :: cs => lineBreaks cs + if isLineEnd c then 1 else 0

/-- The characters behind the last line end of a text. -/
def lastLine (cs : List Char) : List Char := cs.rtakeWhile fun c => !isLineEnd c

/-- A character of the text begins at the offset, or the text ends there. -/
def IsCharBoundary (source : List Char) (offset : Nat) : Prop :=
  ∃ before after, source = before ++ after ∧ offset = byteLength before

/-- Places in the order of reading: by line, and by column on one line. -/
instance : PartialOrder LineColumn :=
  PartialOrder.lift (fun p => toLex (p.line, p.column)) fun p q h => by
    cases p
    cases q
    simpa using h

lemma LineColumn.le_iff {p q : LineColumn} :
    p ≤ q ↔ p.line < q.line ∨ p.line = q.line ∧ p.column ≤ q.column :=
  Prod.Lex.toLex_le_toLex

namespace ReadingPoint

variable {p : ReadingPoint} {c : Char} {cs : List Char}

/-- Where a reader is. -/
def place (p : ReadingPoint) : LineColumn := ⟨p.line, p.column⟩

/-! ### One character -/

lemma afterReturn_advance : (p.advance c).afterReturn = true ↔ c = '\r' := by
  unfold advance
  split_ifs <;> simp_all

lemma line_advance (h : p.afterReturn = true → c ≠ '\n') :
    (p.advance c).line = p.line + if isLineEnd c then 1 else 0 := by
  unfold advance isLineEnd
  split_ifs <;> simp_all

lemma column_advance (h : p.afterReturn = true → p.column = 1) :
    (p.advance c).column = if isLineEnd c then 1 else p.column + 1 := by
  unfold advance isLineEnd
  split_ifs <;> simp_all

/-- Reading does not go back, and only the line feed behind a carriage return leaves it where it is. -/
lemma place_le_advance (p : ReadingPoint) (c : Char) : p.place ≤ (p.advance c).place := by
  rw [LineColumn.le_iff, place, place, advance]
  split_ifs <;> simp

lemma place_advance_eq_iff : (p.advance c).place = p.place ↔ c = '\n' ∧ p.afterReturn = true := by
  rw [place, place, advance]
  split_ifs <;> simp_all

/-! ### The text read -/

/-- The reading point behind a text. -/
def behind (cs : List Char) : ReadingPoint := cs.foldl advance start

lemma behind_append (cs more : List Char) : behind (cs ++ more) = more.foldl advance (behind cs) :=
  List.foldl_append

lemma behind_concat (cs : List Char) (c : Char) : behind (cs ++ [c]) = (behind cs).advance c :=
  behind_append cs [c]

lemma afterReturn_behind : (behind cs).afterReturn = true ↔ ∃ front, cs = front ++ ['\r'] := by
  rcases List.eq_nil_or_concat cs with rfl | ⟨front, c, rfl⟩
  · simp [behind, start]
  · simp [behind_concat, afterReturn_advance]

/-- Lines grow with the line ends, if none of them has been begun. -/
lemma line_foldl (p : ReadingPoint) (h : p.afterReturn = true → cs.head? ≠ some '\n') :
    (cs.foldl advance p).line = p.line + lineBreaks cs := by
  fun_induction lineBreaks cs generalizing p with
  | case1 => rfl
  | case2 cs ih =>
    rw [List.foldl_cons, List.foldl_cons, ih _ (by simp [advance])]
    simp [advance]
    omega
  | case3 c cs hapart ih =>
    have hnext : (p.advance c).afterReturn = true → cs.head? ≠ some '\n' := fun hreturn hhead => by
      obtain ⟨rest, rfl⟩ := List.head?_eq_some_iff.mp hhead
      exact hapart rest (afterReturn_advance.mp hreturn) rfl
    rw [List.foldl_cons, ih _ hnext, line_advance (by simpa using h)]
    omega

lemma line_behind (cs : List Char) : (behind cs).line = lineBreaks cs + 1 := by
  rw [behind, line_foldl start (by simp [start]), start, Nat.add_comm]

/-- Columns count the characters behind the last line end. -/
lemma column_behind (cs : List Char) : (behind cs).column = (lastLine cs).length + 1 := by
  induction cs using List.reverseRecOn with
  | nil => rfl
  | append_singleton cs c ih =>
    have hreturn : (behind cs).afterReturn = true → (behind cs).column = 1 := fun hreturn => by
      obtain ⟨front, rfl⟩ := afterReturn_behind.mp hreturn
      rw [ih, lastLine, List.rtakeWhile_concat_neg _ _ _ (by decide)]
      rfl
    rw [behind_concat, column_advance hreturn, ih, lastLine, lastLine, List.rtakeWhile_concat]
    cases isLineEnd c <;> simp

lemma place_behind (cs : List Char) : (behind cs).place = ⟨lineBreaks cs + 1, (lastLine cs).length + 1⟩ := by
  rw [place, line_behind, column_behind]

lemma place_le_foldl (p : ReadingPoint) (cs : List Char) : p.place ≤ (cs.foldl advance p).place := by
  induction cs generalizing p with
  | nil => exact le_rfl
  | cons c cs ih => exact (place_le_advance p c).trans (ih _)

/-- A text is read without leaving the place only if it is the second half of a line end. -/
lemma place_behind_append_eq {more : List Char} (hmore : more ≠ [])
    (h : (behind (cs ++ more)).place = (behind cs).place) : more = ['\n'] ∧ ∃ front, cs = front ++ ['\r'] := by
  rw [behind_append] at h
  -- What is read first does not leave the place, nor does what comes next.
  have hfirst {p : ReadingPoint} {c : Char} {rest : List Char}
      (h : ((c :: rest).foldl advance p).place = p.place) : (p.advance c).place = p.place :=
    le_antisymm ((place_le_foldl _ rest).trans_eq h) (place_le_advance p c)
  obtain ⟨c, rest, rfl⟩ := List.exists_cons_of_ne_nil hmore
  have hstay := hfirst h
  obtain ⟨rfl, hreturn⟩ := place_advance_eq_iff.mp hstay
  refine ⟨?_, afterReturn_behind.mp hreturn⟩
  cases rest with
  | nil => rfl
  | cons d rest =>
    have hagain : ((d :: rest).foldl advance ((behind cs).advance '\n')).place
        = ((behind cs).advance '\n').place := h.trans hstay.symm
    obtain ⟨-, hreturn'⟩ := place_advance_eq_iff.mp (hfirst hagain)
    exact absurd (afterReturn_advance.mp hreturn') (by decide)

end ReadingPoint

namespace Pos

open ReadingPoint

variable {source before after : List Char} {c : Char} {target here a b : Nat}

/-! ### Reading up to a place -/

lemma lineColumn_eq (p : Pos) (source : List Char) :
    p.lineColumn source = (readUpTo p.offset 0 .start source).place := rfl

/-- What begins in front of the target is read, to its last byte. -/
lemma readUpTo_begun (p : ReadingPoint) (hbegun : here + byteLength before < target)
    (hwithin : target ≤ here + byteLength before + c.utf8Size) :
    readUpTo target here p (before ++ c :: after) = (before.foldl advance p).advance c := by
  induction before generalizing here p with
  | nil =>
    rw [byteLength_nil] at hbegun hwithin
    rw [List.nil_append, readUpTo, if_pos (by omega)]
    cases after with
    | nil => rfl
    | cons d after => rw [readUpTo, if_neg (by omega)]; rfl
  | cons d before ih =>
    rw [byteLength_cons] at hbegun hwithin
    rw [List.cons_append, readUpTo, if_pos (by omega), ih _ (by omega) (by omega)]
    rfl

lemma readUpTo_boundary (before after : List Char) :
    readUpTo (byteLength before) 0 .start (before ++ after) = behind before := by
  rcases List.eq_nil_or_concat before with rfl | ⟨front, c, rfl⟩
  · cases after <;> rfl
  · rw [List.concat_eq_append, List.append_assoc, behind_concat]
    have hsize := c.utf8Size_pos
    exact readUpTo_begun _ (by simp; omega) (by simp)

lemma le_readUpTo (target here : Nat) (p : ReadingPoint) (cs : List Char) :
    p.place ≤ (readUpTo target here p cs).place := by
  induction cs generalizing here p with
  | nil => exact le_rfl
  | cons c cs ih =>
    rw [readUpTo]
    split
    · exact (place_le_advance p c).trans (ih _ _)
    · exact le_rfl

/-- Reading further does not lead back. -/
lemma readUpTo_mono (h : a ≤ b) (here : Nat) (p : ReadingPoint) (cs : List Char) :
    (readUpTo a here p cs).place ≤ (readUpTo b here p cs).place := by
  induction cs generalizing here p with
  | nil => exact le_rfl
  | cons c cs ih =>
    by_cases hread : here < a
    · rw [readUpTo, if_pos hread, readUpTo, if_pos (hread.trans_le h)]
      exact ih _ _
    · rw [readUpTo, if_neg hread]
      exact le_readUpTo b here p (c :: cs)

/-! ### Places of a text -/

lemma lineColumn_boundary (before after : List Char) :
    (Pos.mk (byteLength before)).lineColumn (before ++ after) = (behind before).place := by
  rw [lineColumn_eq, readUpTo_boundary]

lemma ofOffset_of_le (hplaces : byteLength source ≤ maxOffset) (h : a ≤ byteLength source) : ofOffset a = ⟨a⟩ :=
  congrArg Pos.mk (min_eq_left (h.trans hplaces))

lemma lineColumn_ofOffset (hplaces : byteLength source ≤ maxOffset) (h : source = before ++ after) :
    (ofOffset (byteLength before)).lineColumn source = (behind before).place := by
  have hle : byteLength before ≤ byteLength source := by
    rw [h, byteLength_append]
    omega
  rw [ofOffset_of_le hplaces hle, h, lineColumn_boundary]

/-- Of two boundaries, the text in front of the first is followed by the text between them. -/
lemma exists_between (ha : IsCharBoundary source a) (hb : IsCharBoundary source b) (hlt : a < b) :
    ∃ before more after, source = before ++ more ++ after ∧ more ≠ [] ∧ a = byteLength before ∧
      b = byteLength (before ++ more) := by
  obtain ⟨before, rest, hsource, rfl⟩ := ha
  obtain ⟨before', after, hsource', rfl⟩ := hb
  rcases List.prefix_or_prefix_of_prefix ⟨rest, hsource.symm⟩ ⟨after, hsource'.symm⟩ with ⟨more, rfl⟩ | ⟨more, rfl⟩
  · refine ⟨before, more, after, hsource', ?_, rfl, rfl⟩
    rintro rfl
    simp at hlt
  · rw [byteLength_append] at hlt
    omega

/-- **Places are faithful.** They come in the order of their offsets, also within characters and past the end.
Where a character begins, or the text ends, the line counts the line ends in front, and the column the
characters behind the last of them; two such places are the same only on the two sides of the line feed of a
line end that is made of two characters. -/
theorem lineColumn_faithful (hplaces : byteLength source ≤ maxOffset) :
    (∀ a b, a ≤ b → (ofOffset a).lineColumn source ≤ (ofOffset b).lineColumn source) ∧
    (∀ before after, source = before ++ after → (ofOffset (byteLength before)).lineColumn source =
      ⟨lineBreaks before + 1, (lastLine before).length + 1⟩) ∧
    ∀ a b, IsCharBoundary source a → IsCharBoundary source b → a < b →
      ((ofOffset a).lineColumn source = (ofOffset b).lineColumn source ↔
        ∃ front rest, source = front ++ '\r' :: '\n' :: rest ∧ a = byteLength front + 1 ∧
          b = byteLength front + 2) := by
  refine ⟨fun a b h => ?_, fun before after h => ?_, fun a b ha hb hlt => ⟨fun heq => ?_, ?_⟩⟩
  · exact readUpTo_mono (min_le_min_right _ h) 0 .start source
  · rw [lineColumn_ofOffset hplaces h, place_behind]
  · obtain ⟨before, more, after, hsource, hmore, rfl, rfl⟩ := exists_between ha hb hlt
    rw [lineColumn_ofOffset hplaces hsource, lineColumn_ofOffset hplaces (by rw [hsource, List.append_assoc])] at heq
    obtain ⟨rfl, front, rfl⟩ := place_behind_append_eq hmore heq.symm
    exact ⟨front, after, by simp [hsource], byteLength_append front ['\r'],
      by rw [byteLength_append, byteLength_append]; rfl⟩
  · rintro ⟨front, rest, hsource, rfl, rfl⟩
    have hreturn : byteLength (front ++ ['\r']) = byteLength front + 1 := byteLength_append front ['\r']
    have hfeed : byteLength (front ++ ['\r'] ++ ['\n']) = byteLength front + 2 := by
      rw [byteLength_append, hreturn]
      rfl
    rw [← hreturn, ← hfeed, lineColumn_ofOffset hplaces (by simpa using hsource),
      lineColumn_ofOffset hplaces (by simpa using hsource), behind_concat _ '\n']
    exact (place_advance_eq_iff.mpr ⟨rfl, afterReturn_behind.mpr ⟨front, rfl⟩⟩).symm

/-- A text with all kinds of line ends, and letters of two bytes. -/
def spacedLetters : List Char := ['é', '\r', '\n', 'é', '\r', 'b', '\n']

/-- The theorem around the first line end, and behind the second. -/
theorem lineColumn_faithful_of_spacedLetters : byteLength spacedLetters ≤ maxOffset ∧
    (ofOffset 1).lineColumn spacedLetters ≤ (ofOffset 5).lineColumn spacedLetters ∧
    (ofOffset 7).lineColumn spacedLetters = ⟨3, 1⟩ ∧
    IsCharBoundary spacedLetters 3 ∧ IsCharBoundary spacedLetters 4 ∧
    (ofOffset 3).lineColumn spacedLetters = (ofOffset 4).lineColumn spacedLetters := by
  have hplaces : byteLength spacedLetters ≤ maxOffset := by decide
  have hreturn : IsCharBoundary spacedLetters 3 := ⟨['é', '\r'], _, rfl, by decide⟩
  have hfeed : IsCharBoundary spacedLetters 4 := ⟨['é', '\r', '\n'], _, rfl, by decide⟩
  obtain ⟨hordered, hcounted, hshared⟩ := lineColumn_faithful hplaces
  refine ⟨hplaces, hordered 1 5 (by decide), ?_, hreturn, hfeed, ?_⟩
  · exact (hcounted ['é', '\r', '\n', 'é', '\r'] ['b', '\n'] rfl).trans (by decide)
  · exact (hshared 3 4 hreturn hfeed (by decide)).mpr ⟨['é'], ['é', '\r', 'b', '\n'], rfl, by decide, by decide⟩

/-! ### Places within characters -/

/-- A character of more than one byte ends no line. -/
lemma place_advance_of_wide {p : ReadingPoint} (h : 1 < c.utf8Size) :
    (p.advance c).place = ⟨p.line, p.column + 1⟩ := by
  have hfeed : c ≠ '\n' := by rintro rfl; exact absurd h (by decide)
  have hreturn : c ≠ '\r' := by rintro rfl; exact absurd h (by decide)
  rw [advance, if_neg hfeed, if_neg hreturn, place]

/-- **A place within a character is behind it**, one column further than where the character is. -/
theorem lineColumn_within {p : Pos} (h : source = before ++ c :: after) (hbegun : byteLength before < p.offset)
    (hwithin : p.offset < byteLength before + c.utf8Size) :
    p.lineColumn source = (Pos.mk (byteLength before + c.utf8Size)).lineColumn source ∧
      p.lineColumn source = ⟨((Pos.mk (byteLength before)).lineColumn source).line,
        ((Pos.mk (byteLength before)).lineColumn source).column + 1⟩ := by
  subst h
  have hread {target : Nat} (hbegun : byteLength before < target) (hwithin : target ≤ byteLength before + c.utf8Size) :
      (Pos.mk target).lineColumn (before ++ c :: after) = ((behind before).advance c).place := by
    rw [lineColumn_eq, readUpTo_begun _ (by rwa [Nat.zero_add]) (by rwa [Nat.zero_add])]
    rfl
  have hinside := hread hbegun hwithin.le
  rw [lineColumn_boundary]
  exact ⟨hinside.trans (hread (by omega) le_rfl).symm, hinside.trans (place_advance_of_wide (by omega))⟩

/-- The second byte of a character of three. -/
theorem lineColumn_within_of_euro : ['a', '€', 'b'] = ['a'] ++ '€' :: ['b'] ∧ byteLength ['a'] < 2 ∧
    2 < byteLength ['a'] + '€'.utf8Size ∧
    (Pos.mk 2).lineColumn ['a', '€', 'b'] = (Pos.mk 4).lineColumn ['a', '€', 'b'] ∧
    (Pos.mk 2).lineColumn ['a', '€', 'b'] = ⟨1, 3⟩ := by
  have hsource : ['a', '€', 'b'] = ['a'] ++ '€' :: ['b'] := rfl
  have hbegun : byteLength ['a'] < (Pos.mk 2).offset := by decide
  have hwithin : (Pos.mk 2).offset < byteLength ['a'] + '€'.utf8Size := by decide
  obtain ⟨hbehind, hcolumn⟩ := lineColumn_within hsource hbegun hwithin
  exact ⟨hsource, hbegun, hwithin, hbehind, hcolumn.trans (by decide)⟩

/-- The second byte of a letter is not shown at the letter. -/
theorem lineColumn_second_byte : byteLength [] < 1 ∧ 1 < byteLength [] + 'é'.utf8Size ∧
    (Pos.mk 1).lineColumn ['é'] ≠ (Pos.mk (byteLength [])).lineColumn ['é'] := by
  decide

end Pos

/-! ### Rows

A text is cut into rows at its line ends. Put together again, the rows are the text, and the character at a
place is found by the row and the column of the place. -/

/-- What a row ends with. -/
inductive RowEnd where
  /-- The text ends there. -/
  | last
  | feed
  | loneReturn
  | returnFeed
deriving DecidableEq, Repr

def RowEnd.spell : RowEnd → List Char
  | last => []
  | feed => ['\n']
  | loneReturn => ['\r']
  | returnFeed => ['\r', '\n']

structure Row where
  text : List Char
  stop : RowEnd
deriving DecidableEq, Repr

namespace Row

def spell (r : Row) : List Char := r.text ++ r.stop.spell

/-- Puts a character in front of the first row. -/
def extend (c : Char) : List Row → List Row
  | [] => [⟨[c], .last⟩]
  | r :: rs => ⟨c :: r.text, r.stop⟩ :: rs

/-- The rows of a text, of which there is one at least. -/
def ofText : List Char → List Row
  | [] => [⟨[], .last⟩]
  | '\r' :: '\n' :: cs => ⟨[], .returnFeed⟩ :: ofText cs
  | '\n' :: cs => ⟨[], .feed⟩ :: ofText cs
  | '\r' :: cs => ⟨[], .loneReturn⟩ :: ofText cs
  | c :: cs => extend c (ofText cs)

/-- Rows as a text has them: no line end stands within one, the last one alone ends with none, and no line feed
stands behind a carriage return that ends a row alone. -/
inductive Divided : List Row → Prop where
  | last {text : List Char} (apart : ∀ c ∈ text, isLineEnd c = false) : Divided [⟨text, .last⟩]
  | feed {text : List Char} {rs : List Row} (apart : ∀ c ∈ text, isLineEnd c = false) :
    Divided rs → Divided (⟨text, .feed⟩ :: rs)
  | returnFeed {text : List Char} {rs : List Row} (apart : ∀ c ∈ text, isLineEnd c = false) :
    Divided rs → Divided (⟨text, .returnFeed⟩ :: rs)
  | loneReturn {text : List Char} {rs : List Row} (apart : ∀ c ∈ text, isLineEnd c = false) :
    Divided rs → (rs.flatMap spell).head? ≠ some '\n' → Divided (⟨text, .loneReturn⟩ :: rs)

variable {c : Char} {cs rest : List Char} {rs : List Row}

lemma isLineEnd_eq_false : isLineEnd c = false ↔ c ≠ '\n' ∧ c ≠ '\r' := by simp [isLineEnd]

lemma ofText_of_notLineEnd (h : isLineEnd c = false) (cs : List Char) :
    ofText (c :: cs) = extend c (ofText cs) := by
  obtain ⟨hfeed, hreturn⟩ := isLineEnd_eq_false.mp h
  rw [ofText]
  · exact fun _ hc => absurd hc hreturn
  · exact hfeed
  · exact hreturn

/-- Behind a line end that is complete a row begins. -/
lemma ofText_of_lineEnd (h : isLineEnd c = true) (hwhole : c = '\r' → cs.head? ≠ some '\n') :
    ∃ stop, ofText (c :: cs) = ⟨[], stop⟩ :: ofText cs := by
  obtain rfl | rfl : c = '\n' ∨ c = '\r' := by simpa [isLineEnd] using h
  · exact ⟨.feed, by rw [ofText]⟩
  · refine ⟨.loneReturn, ?_⟩
    rw [ofText]
    rintro rest rfl
    exact hwhole rfl rfl

lemma Divided.extend (h : Divided rs) (hc : isLineEnd c = false) : Divided (extend c rs) := by
  cases h with
  | last apart => exact .last (List.forall_mem_cons.mpr ⟨hc, apart⟩)
  | feed apart hrs => exact .feed (List.forall_mem_cons.mpr ⟨hc, apart⟩) hrs
  | returnFeed apart hrs => exact .returnFeed (List.forall_mem_cons.mpr ⟨hc, apart⟩) hrs
  | loneReturn apart hrs hnext => exact .loneReturn (List.forall_mem_cons.mpr ⟨hc, apart⟩) hrs hnext

lemma Divided.drop (h : Divided rs) {n : Nat} (hn : n < rs.length) : Divided (rs.drop n) := by
  induction n generalizing rs with
  | zero => exact h
  | succ n ih =>
    cases h with
    | last apart => simp at hn
    | feed apart hrs | returnFeed apart hrs | loneReturn apart hrs hnext =>
      exact ih hrs (Nat.lt_of_succ_lt_succ hn)

lemma lineBreaks_eq_zero : lineBreaks cs = 0 ↔ ∀ c ∈ cs, isLineEnd c = false := by
  fun_induction lineBreaks cs with
  | case1 => simp
  | case2 cs ih => simp [isLineEnd]
  | case3 c cs hapart ih =>
    rw [List.forall_mem_cons, ← ih, Nat.add_eq_zero_iff, and_comm]
    cases isLineEnd c <;> simp

lemma lastLine_of_unbroken (h : lineBreaks cs = 0) : lastLine cs = cs := by
  refine List.rtakeWhile_eq_self_iff.mpr fun c hc => ?_
  rw [lineBreaks_eq_zero.mp h c hc]
  rfl

/-- What stands in front of a line end does not count. -/
lemma lastLine_cons (h : isLineEnd c = true ∨ 0 < lineBreaks cs) : lastLine (c :: cs) = lastLine cs := by
  unfold lastLine List.rtakeWhile
  rw [List.reverse_cons, List.takeWhile_append]
  split
  · rename_i hall
    have hwhole := (List.takeWhile_prefix fun c => !isLineEnd c).eq_of_length hall
    have hunbroken : lineBreaks cs = 0 := lineBreaks_eq_zero.mpr fun c hc => by
      have := List.takeWhile_eq_self_iff.mp hwhole c (List.mem_reverse.mpr hc)
      simpa using this
    have hc : isLineEnd c = true := h.resolve_right (by omega)
    rw [hwhole, List.takeWhile_cons_of_neg (by simp [hc]), List.append_nil]
  · rfl

/-- There is a row for a place, and it holds a character at the column of the place. -/
def HoldsAt (rs : List Row) (before : List Char) (c : Char) : Prop :=
  ∃ r, rs[lineBreaks before]? = some r ∧ r.text[(lastLine before).length]? = some c

/-- A line end moves a place to the next row; a line feed behind a carriage return belongs to it. -/
lemma HoldsAt.lineEnd {d : Char} {before : List Char} (hc : isLineEnd c = false)
    (hd : isLineEnd d = true) (hapart : ∀ before', d = '\r' → before = '\n' :: before' → False)
    (hbreaks : lineBreaks (d :: before) = lineBreaks before + 1)
    (h : HoldsAt (ofText (before ++ c :: rest)) before c) :
    HoldsAt (ofText (d :: (before ++ c :: rest))) (d :: before) c := by
  obtain ⟨r, hr, hat⟩ := h
  have hwhole : d = '\r' → (before ++ c :: rest).head? ≠ some '\n' := by
    intro hreturn
    cases before with
    | nil => simpa using (isLineEnd_eq_false.mp hc).1
    | cons e before =>
      rw [List.cons_append, List.head?_cons, ne_eq, Option.some.injEq]
      rintro rfl
      exact hapart before hreturn rfl
  obtain ⟨stop, hrows⟩ := ofText_of_lineEnd hd hwhole
  refine ⟨r, ?_, by rwa [lastLine_cons (.inl hd)]⟩
  rw [hrows, hbreaks, List.getElem?_cons_succ, hr]

/-- Another character only moves a place of the first row, by one column. -/
lemma HoldsAt.cons {d : Char} {before : List Char} (hd : isLineEnd d = false)
    (hbreaks : lineBreaks (d :: before) = lineBreaks before) (h : HoldsAt (ofText cs) before c) :
    HoldsAt (ofText (d :: cs)) (d :: before) c := by
  obtain ⟨r, hr, hat⟩ := h
  rw [ofText_of_notLineEnd hd]
  cases hrows : ofText cs with
  | nil => rw [hrows] at hr; cases hr
  | cons r₀ rs =>
    rw [hrows] at hr
    cases hfirst : lineBreaks before with
    | zero =>
      rw [hfirst] at hr hbreaks
      cases hr
      refine ⟨⟨d :: r.text, r.stop⟩, by rw [hbreaks]; rfl, ?_⟩
      rw [lastLine_of_unbroken hfirst] at hat
      rw [lastLine_of_unbroken hbreaks]
      exact hat
    | succ n =>
      rw [hfirst] at hr hbreaks
      exact ⟨r, by rw [hbreaks]; exact hr, by rwa [lastLine_cons (.inr (by omega))]⟩

end Row

end GraphQL
