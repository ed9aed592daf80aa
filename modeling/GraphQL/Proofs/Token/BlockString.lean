import Mathlib.Data.List.DropRight
import GraphQL.Proofs.Token.StringEnd

/-!
Strings between triple quotes, against the algorithm that says what they denote.

The algorithm is told on its own, with the line ends made one kind first. What is read differs from it in
one way: a line of blanks that is shorter than the indentation to take off keeps its blanks, where the
algorithm leaves nothing of it. At both ends of the string such lines are dropped anyway, so it shows only
between lines that are not blank.
-/

namespace GraphQL

namespace BlockString

open StringLiteral (tripleQuote)

/-! ### The algorithm -/

/-- Every escaped triple quote as the triple quote alone, the rest as it stands. -/
inductive Unescapes : List Char → List Char → Prop where
  | nil : Unescapes [] []
  | escaped (rest : Unescapes cs ds) :
      Unescapes ('\\' :: (tripleQuote ++ cs)) (tripleQuote ++ ds)
  | plain (notEscape : ¬ '\\' :: tripleQuote <+: c :: cs) (rest : Unescapes cs ds) :
      Unescapes (c :: cs) (c :: ds)

/-- Every line end as a line feed. -/
def withLineFeeds : List Char → List Char
  | [] => []
  | '\r' :: '\n' :: cs => '\n' :: withLineFeeds cs
  | c :: cs => (if c = '\r' then '\n' else c) :: withLineFeeds cs

def lines (text : List Char) : List (List Char) := (withLineFeeds text).splitOn '\n'

def isWhite (c : Char) : Bool := c ∈ [' ', '\t']

def isBlank (line : List Char) : Bool := line.all isWhite

def leadingWhite (line : List Char) : Nat := (line.takeWhile isWhite).length

/-- The least indentation so far, with one more line. -/
def atMost (common : Option Nat) (line : List Char) : Option Nat :=
  if leadingWhite line < line.length ∧ ∀ n ∈ common, leadingWhite line < n then some (leadingWhite line)
  else common

/-- The least indentation of the lines that have something behind it. -/
def commonIndent (lines : List (List Char)) : Option Nat := lines.foldl atMost none

def trimmed (lines : List (List Char)) : List (List Char) := (lines.dropWhile isBlank).rdropWhile isBlank

/-- The text of a string, where `remove` takes so many characters of indentation off a line. -/
def valueBy (remove : Nat → List Char → List Char) (text : List Char) : List Char :=
  match lines text with
  | [] => []
  | first :: rest => ['\n'].intercalate (trimmed (first :: rest.map (remove ((commonIndent rest).getD 0))))

/-- The text that a string denotes: so many characters of each line are dropped as there are. -/
def value (text : List Char) : List Char := valueBy List.drop text

/-- Takes indentation off the lines that are long enough. -/
def removeWhole (n : Nat) (line : List Char) : List Char := if line.length < n then line else line.drop n

/-- Between lines that are not blank stands one with some blanks, but fewer than the common indentation. -/
def HasShortBlank (text : List Char) : Prop :=
  ∃ before line after, lines text = before ++ line :: after ∧
    (∃ l ∈ before, isBlank l = false) ∧ (∃ l ∈ after, isBlank l = false) ∧
    line ≠ [] ∧ ∃ n ∈ commonIndent (lines text).tail, line.length < n

/-! ### Reading, step by step -/

lemma unescapes (cs : List Char) : Unescapes cs (StringLiteral.unescapeTriple cs) := by
  fun_induction StringLiteral.unescapeTriple cs with
  | case1 => exact .nil
  | case2 cs ih => exact .escaped ih
  | case3 c cs hescape ih =>
    refine .plain (fun h => ?_) ih
    obtain ⟨more, hmore⟩ := h
    obtain ⟨rfl, rfl⟩ := List.cons.inj hmore
    exact hescape more rfl rfl

lemma Unescapes.mem {cs ds : List Char} (h : Unescapes cs ds) {c : Char} (hc : c ∈ ds) : c ∈ cs := by
  induction h with
  | nil => exact hc
  | escaped rest ih =>
    refine List.mem_cons_of_mem _ ?_
    rcases List.mem_append.mp hc with hc | hc
    · exact List.mem_append_left _ hc
    · exact List.mem_append_right _ (ih hc)
  | plain notEscape rest ih =>
    rcases List.mem_cons.mp hc with rfl | hc
    · exact List.mem_cons_self
    · exact List.mem_cons_of_mem _ (ih hc)

@[simp] lemma lines_nil : lines [] = [[]] := List.splitOn_nil _

@[simp] lemma lines_returnFeed (cs : List Char) : lines ('\r' :: '\n' :: cs) = [] :: lines cs := by
  simp [lines, withLineFeeds, List.splitOn, List.splitOnP_cons_eq_if_modifyHead]

/-- A line feed belongs to the carriage return in front of it, any other line end ends a line alone. -/
lemma lines_cons {c : Char} {cs : List Char} (h : c = '\r' → cs.head? ≠ some '\n') :
    lines (c :: cs) = if c = '\n' ∨ c = '\r' then [] :: lines cs else (lines cs).modifyHead (c :: ·) := by
  have hfeeds : withLineFeeds (c :: cs) = (if c = '\r' then '\n' else c) :: withLineFeeds cs := by
    rw [withLineFeeds]
    rintro ds rfl rfl
    exact h rfl rfl
  rw [lines, hfeeds, List.splitOn, List.splitOnP_cons_eq_if_modifyHead]
  by_cases hreturn : c = '\r'
  · simp [hreturn, lines, List.splitOn]
  · simp [hreturn, lines, List.splitOn]

lemma splitLines_eq (line cs : List Char) :
    StringLiteral.splitLines line cs = (lines cs).modifyHead (line.reverse ++ ·) := by
  fun_induction StringLiteral.splitLines line cs with
  | case1 line => simp
  | case2 line cs ih =>
    rw [ih, lines_returnFeed]
    cases lines cs <;> simp
  | case3 line c cs hreturn hend ih =>
    rw [ih, lines_cons, if_pos (by simpa using hend)]
    · cases lines cs <;> simp
    · rintro rfl h
      obtain ⟨ds, rfl⟩ := List.head?_eq_some_iff.mp h
      exact hreturn ds rfl rfl
  | case4 line c cs hreturn hend ih =>
    rw [ih, lines_cons, if_neg (by simpa using hend), List.modifyHead_modifyHead]
    · congr 1
      funext l
      simp
    · rintro rfl
      exact absurd rfl hend

/-- No line holds a line feed. -/
lemma lineFeed_not_mem_lines (text : List Char) : ∀ line ∈ lines text, '\n' ∉ line := by
  unfold lines
  generalize withLineFeeds text = cs
  induction cs with
  | nil => simp
  | cons c cs ih =>
    rw [List.splitOn] at ih ⊢
    rw [List.splitOnP_cons_eq_if_modifyHead]
    cases hlines : cs.splitOnP (· == '\n') with
    | nil => exact absurd hlines (List.splitOnP_ne_nil _ _)
    | cons l ls =>
      rw [hlines] at ih
      split
      · exact List.forall_mem_cons.mpr ⟨by simp, ih⟩
      · rename_i hc
        obtain ⟨hl, hls⟩ := List.forall_mem_cons.mp ih
        refine List.forall_mem_cons.mpr ⟨fun h => ?_, hls⟩
        rcases List.mem_cons.mp h with rfl | h
        · exact hc rfl
        · exact hl h

lemma isWhite_eq (c : Char) : isWhite c = StringLiteral.isIndent c := by
  simp [isWhite, StringLiteral.isIndent]

lemma isBlank_eq (line : List Char) : isBlank line = StringLiteral.isBlankLine line := by
  rw [isBlank, StringLiteral.isBlankLine, funext isWhite_eq]

lemma leadingWhite_eq (line : List Char) : leadingWhite line = StringLiteral.indentation line := by
  rw [leadingWhite, StringLiteral.indentation, funext isWhite_eq]

lemma leadingWhite_lt (line : List Char) : leadingWhite line < line.length ↔ isBlank line = false := by
  unfold leadingWhite isBlank
  induction line with
  | nil => simp
  | cons c cs ih => cases hc : isWhite c <;> simp [hc, ih]

lemma atMost_eq (common : Option Nat) (line : List Char) :
    atMost common line = if isBlank line then common else (common.toList ++ [leadingWhite line]).min? := by
  unfold atMost
  simp only [leadingWhite_lt]
  cases isBlank line with
  | true => rfl
  | false =>
    cases common with
    | none => rfl
    | some n =>
      by_cases h : leadingWhite line < n
      · simp [h, Nat.min_eq_right h.le]
      · simp [h, Nat.min_eq_left (Nat.le_of_not_lt h)]

/-- The running minimum is the minimum. -/
lemma commonIndent_eq (ls : List (List Char)) :
    commonIndent ls = ((ls.filter fun l => !isBlank l).map leadingWhite).min? := by
  suffices h : ∀ common : Option Nat,
      ls.foldl atMost common = (common.toList ++ (ls.filter fun l => !isBlank l).map leadingWhite).min? from
    h none
  induction ls with
  | nil => rintro (_ | n) <;> rfl
  | cons l ls ih =>
    intro common
    rw [List.foldl_cons, ih, atMost_eq]
    cases hblank : isBlank l with
    | true => simp [hblank]
    | false =>
      rw [if_neg Bool.false_ne_true, List.filter_cons_of_pos (by simp [hblank]), List.map_cons]
      cases common <;> rfl

lemma commonIndent_getD (ls : List (List Char)) :
    (commonIndent ls).getD 0 = StringLiteral.sharedIndentation ls := by
  rw [commonIndent_eq, StringLiteral.sharedIndentation, funext isBlank_eq, funext leadingWhite_eq]

lemma blockText_eq (content : List Char) :
    StringLiteral.blockText content = valueBy removeWhole (StringLiteral.unescapeTriple content) := by
  have hlines : StringLiteral.splitLines [] (StringLiteral.unescapeTriple content) =
      lines (StringLiteral.unescapeTriple content) := by
    rw [splitLines_eq]
    cases lines (StringLiteral.unescapeTriple content) <;> rfl
  unfold StringLiteral.blockText valueBy
  rw [hlines]
  cases lines (StringLiteral.unescapeTriple content) with
  | nil => rfl
  | cons first rest =>
    dsimp only
    rw [commonIndent_getD, StringLiteral.joinLines, StringLiteral.trimBlankLines, ← funext isBlank_eq]
    rfl

/-! ### Short lines -/

section

variable {α : Type*}

lemma dropWhile_map_of_forall {f : α → List Char} {p : List Char → Bool} {q : α → Bool} {xs : List α}
    (h : ∀ x ∈ xs, p (f x) = q x) : (xs.map f).dropWhile p = (xs.dropWhile q).map f := by
  induction xs with
  | nil => rfl
  | cons x xs ih =>
    obtain ⟨hx, hxs⟩ := List.forall_mem_cons.mp h
    rw [List.map_cons, List.dropWhile_cons, List.dropWhile_cons, hx, ih hxs]
    split <;> rfl

/-- What is left when both ends are trimmed. -/
def inner (q : α → Bool) (xs : List α) : List α := (xs.dropWhile q).rdropWhile q

lemma inner_subset {q : α → Bool} {xs : List α} : inner q xs ⊆ xs := fun _ hx =>
  (List.dropWhile_suffix q).subset ((List.rdropWhile_prefix q _).subset hx)

/-- Where the same lines are blank, the same lines are trimmed. -/
lemma trimmed_map {f : α → List Char} {q : α → Bool} {xs : List α} (h : ∀ x ∈ xs, isBlank (f x) = q x) :
    trimmed (xs.map f) = (inner q xs).map f := by
  have hdrop : ∀ x ∈ (xs.dropWhile q).reverse, isBlank (f x) = q x := fun x hx =>
    h x ((List.dropWhile_suffix q).subset (List.mem_reverse.mp hx))
  rw [trimmed, dropWhile_map_of_forall h, List.rdropWhile, ← List.map_reverse, dropWhile_map_of_forall hdrop,
    ← List.map_reverse]
  rfl

lemma dropWhile_append_cons {q : α → Bool} {before after : List α} (x : α) (h : ∃ y ∈ before, q y = false) :
    (before ++ x :: after).dropWhile q = before.dropWhile q ++ x :: after := by
  rw [List.dropWhile_append, if_neg]
  simpa using h

/-- What would be trimmed stays between others that are not. -/
lemma mem_inner_iff {q : α → Bool} {xs : List α} {x : α} (hx : q x = true) :
    x ∈ inner q xs ↔ ∃ before after, xs = before ++ x :: after ∧
      (∃ y ∈ before, q y = false) ∧ ∃ y ∈ after, q y = false := by
  constructor
  · intro h
    obtain ⟨front, hfront⟩ := List.dropWhile_suffix (l := xs) q
    obtain ⟨back, hback⟩ := List.rdropWhile_prefix q (xs.dropWhile q)
    obtain ⟨before, after, hsplit⟩ := List.append_of_mem h
    have hfirst := List.head?_dropWhile_not q xs
    have hlast := List.rdropWhile_last_not q (xs.dropWhile q) (List.ne_nil_of_mem h)
    rw [inner] at hsplit
    rw [← hback, hsplit] at hfirst
    simp only [hsplit] at hlast
    refine ⟨front ++ before, after ++ back, ?_, ?_, ?_⟩
    · rw [← hfront, ← hback, hsplit]
      simp
    · -- the first that was left is not `x`
      cases before with
      | nil => simp [hx] at hfirst
      | cons y before => exact ⟨y, by simp, by simpa using hfirst⟩
    · rcases List.eq_nil_or_concat after with rfl | ⟨after, y, rfl⟩
      · simp [hx] at hlast
      · exact ⟨y, by simp, by simpa using hlast⟩
  · rintro ⟨before, after, rfl, hbefore, y, hy, hqy⟩
    rw [inner, dropWhile_append_cons x hbefore, List.rdropWhile, List.reverse_append, List.reverse_cons,
      List.append_assoc, List.singleton_append, dropWhile_append_cons x ⟨y, List.mem_reverse.mpr hy, hqy⟩]
    simp

end

/-- A line with the amount of indentation that is to be taken off it. -/
def cutLines (text : List Char) : List (Nat × List Char) :=
  match lines text with
  | [] => []
  | first :: rest => (0, first) :: rest.map (((commonIndent rest).getD 0), ·)

def blankCut (x : Nat × List Char) : Bool := isBlank x.2

lemma isBlank_drop {n : Nat} {line : List Char} (h : isBlank line = false → n ≤ leadingWhite line) :
    isBlank (line.drop n) = isBlank line := by
  cases hline : isBlank line with
  | true => exact List.all_eq_true.mpr fun c hc => List.all_eq_true.mp hline c (List.mem_of_mem_drop hc)
  | false =>
    have hwhite : isBlank (line.take n) = true := by
      have htake : line.take n = (line.takeWhile isWhite).take n := by
        have hle : n ≤ (line.takeWhile isWhite).length := h hline
        rw [List.prefix_iff_eq_take.mp (List.takeWhile_prefix isWhite), List.take_take, Nat.min_eq_left hle]
      rw [htake]
      exact List.all_eq_true.mpr fun c hc =>
        List.all_eq_true.mp List.all_takeWhile c (List.mem_of_mem_take hc)
    have hsplit : isBlank line = (isBlank (line.take n) && isBlank (line.drop n)) := by
      rw [isBlank, isBlank, isBlank, ← List.all_append, List.take_append_drop]
    rw [← hline, hsplit, hwhite, Bool.true_and]

lemma commonIndent_le {ls : List (List Char)} {l : List Char} (hl : l ∈ ls) (h : isBlank l = false) :
    (commonIndent ls).getD 0 ≤ leadingWhite l := by
  rw [commonIndent_eq]
  exact List.min?_getD_le_of_mem (List.mem_map_of_mem (List.mem_filter.mpr ⟨hl, by rw [h]; rfl⟩))

/-- A line is blank before and after its indentation is taken off. -/
lemma isBlank_cut {text : List Char} {x : Nat × List Char} (hx : x ∈ cutLines text) :
    isBlank (x.2.drop x.1) = blankCut x ∧ isBlank (removeWhole x.1 x.2) = blankCut x := by
  have hdrop : isBlank (x.2.drop x.1) = blankCut x := by
    refine isBlank_drop fun h => ?_
    unfold cutLines at hx
    split at hx
    · cases hx
    · rcases List.mem_cons.mp hx with rfl | hx
      · exact Nat.zero_le _
      · obtain ⟨l, hl, rfl⟩ := List.mem_map.mp hx
        exact commonIndent_le hl h
  refine ⟨hdrop, ?_⟩
  unfold removeWhole
  split
  · rfl
  · exact hdrop

lemma valueBy_eq {remove : Nat → List Char → List Char} (hzero : ∀ line, remove 0 line = line) {text : List Char}
    (hblank : ∀ x ∈ cutLines text, isBlank (remove x.1 x.2) = blankCut x) :
    valueBy remove text =
      ['\n'].intercalate ((inner blankCut (cutLines text)).map fun x => remove x.1 x.2) := by
  rw [← trimmed_map hblank]
  unfold valueBy cutLines
  cases lines text with
  | nil => rfl
  | cons first rest =>
    dsimp only
    rw [List.map_cons, List.map_map, hzero]
    rfl

lemma intercalate_inj {ls ls' : List (List Char)} (h : ∀ l ∈ ls, '\n' ∉ l) (h' : ∀ l ∈ ls', '\n' ∉ l)
    (hlength : ls.length = ls'.length) : ['\n'].intercalate ls = ['\n'].intercalate ls' ↔ ls = ls' := by
  refine ⟨fun heq => ?_, congrArg _⟩
  rcases eq_or_ne ls [] with rfl | hne
  · exact (List.length_eq_zero_iff.mp hlength.symm).symm
  · have hne' : ls' ≠ [] := fun hnil => hne (List.length_eq_zero_iff.mp (by rw [hlength, hnil]; rfl))
    rw [← List.splitOn_intercalate '\n' h hne, heq, List.splitOn_intercalate '\n' h' hne']

lemma mem_removeWhole {n : Nat} {line : List Char} {c : Char} (h : c ∈ removeWhole n line) : c ∈ line := by
  unfold removeWhole at h
  split at h
  · exact h
  · exact List.mem_of_mem_drop h

lemma drop_eq_removeWhole_iff (n : Nat) (line : List Char) :
    removeWhole n line = line.drop n ↔ ¬ (line ≠ [] ∧ line.length < n) := by
  unfold removeWhole
  split
  · rename_i h
    rw [List.drop_eq_nil_of_le h.le]
    simp [h]
  · rename_i h
    simp [h]

lemma map_snd_cutLines (text : List Char) : (cutLines text).map Prod.snd = lines text := by
  unfold cutLines
  split <;> simp_all

/-- Behind the first line, the same amount is to be taken off. -/
lemma fst_of_cutLines {text : List Char} {before after : List (Nat × List Char)} {x : Nat × List Char}
    (h : cutLines text = before ++ x :: after) :
    x.1 = if before = [] then 0 else (commonIndent (lines text).tail).getD 0 := by
  unfold cutLines at h
  split at h
  · simp at h
  · rename_i first rest hlines
    cases before with
    | nil =>
      obtain ⟨rfl, -⟩ := List.cons.inj h
      rfl
    | cons y before =>
      have hx : x ∈ rest.map (((commonIndent rest).getD 0), ·) := by
        rw [(List.cons.inj h).2]
        simp
      obtain ⟨l, -, rfl⟩ := List.mem_map.mp hx
      rw [if_neg (List.cons_ne_nil _ _), hlines]
      rfl

/-- A line that is too short has nothing but blanks, as the indentation is common to the others. -/
lemma isBlank_of_short {text : List Char} {x : Nat × List Char} (hx : x ∈ cutLines text)
    (h : x.2.length < x.1) : blankCut x = true := by
  rw [← (isBlank_cut hx).1, List.drop_eq_nil_of_le h.le]
  rfl

lemma hasShortBlank_iff (text : List Char) : HasShortBlank text ↔
    ∃ x ∈ inner blankCut (cutLines text), x.2 ≠ [] ∧ x.2.length < x.1 := by
  constructor
  · rintro ⟨before, line, after, hlines, ⟨l, hl, hlb⟩, ⟨r, hr, hrb⟩, hne, n, hn, hlt⟩
    rw [← map_snd_cutLines] at hlines
    obtain ⟨xs, ys, hcut, rfl, hys⟩ := List.map_eq_append_iff.mp hlines
    obtain ⟨x, ys, rfl, rfl, rfl⟩ := List.map_eq_cons_iff.mp hys
    obtain ⟨y, hy, rfl⟩ := List.mem_map.mp hl
    obtain ⟨z, hz, rfl⟩ := List.mem_map.mp hr
    have hamount : x.1 = n := by
      rw [fst_of_cutLines hcut, if_neg (List.ne_nil_of_mem hy), hn]
      rfl
    have hshort : x.2.length < x.1 := hamount ▸ hlt
    have hblank : blankCut x = true := isBlank_of_short (by rw [hcut]; simp) hshort
    exact ⟨x, (mem_inner_iff hblank).mpr ⟨xs, ys, hcut, ⟨y, hy, hlb⟩, z, hz, hrb⟩, hne, hshort⟩
  · rintro ⟨x, hx, hne, hshort⟩
    have hblank : blankCut x = true := isBlank_of_short (inner_subset hx) hshort
    obtain ⟨before, after, hcut, ⟨y, hy, hyb⟩, z, hz, hzb⟩ := (mem_inner_iff hblank).mp hx
    have hamount := fst_of_cutLines hcut
    rw [if_neg (List.ne_nil_of_mem hy)] at hamount
    refine ⟨before.map Prod.snd, x.2, after.map Prod.snd, ?_, ⟨y.2, List.mem_map_of_mem hy, hyb⟩,
      ⟨z.2, List.mem_map_of_mem hz, hzb⟩, hne, x.1, ?_, hshort⟩
    · rw [← map_snd_cutLines, hcut, List.map_append, List.map_cons]
    · cases hcommon : commonIndent (lines text).tail with
      | none =>
        rw [hamount, hcommon] at hshort
        exact absurd hshort (Nat.not_lt_zero _)
      | some n =>
        rw [hamount, hcommon]
        rfl

/-- Where no line is too short, the text is the one that the algorithm says. -/
lemma removeWhole_eq_value_iff (text : List Char) :
    valueBy removeWhole text = value text ↔ ¬ HasShortBlank text := by
  have hfeed : ∀ x ∈ inner blankCut (cutLines text), '\n' ∉ x.2 := fun x hx =>
    lineFeed_not_mem_lines text x.2 (map_snd_cutLines text ▸ List.mem_map_of_mem (inner_subset hx))
  rw [value, valueBy_eq (fun line => by simp [removeWhole]) fun x hx => (isBlank_cut hx).2,
    valueBy_eq (fun line => List.drop_zero) fun x hx => (isBlank_cut hx).1, intercalate_inj, List.map_inj_left,
    hasShortBlank_iff]
  · simp only [drop_eq_removeWhole_iff, not_exists, not_and]
  · simp only [List.forall_mem_map]
    exact fun x hx h => hfeed x hx (mem_removeWhole h)
  · simp only [List.forall_mem_map]
    exact fun x hx h => hfeed x hx (List.mem_of_mem_drop h)
  · simp only [List.length_map]

/-! ### Tokens -/

open Token (BlockScan)

lemma cook_eq {raw : String} {content : List Char} (hraw : raw.toList = tripleQuote ++ (content ++ tripleQuote))
    (hclosed : BlockScan (content ++ tripleQuote) true)
    (hallowed : ∀ c ∈ content, StringLiteral.isForbidden c = false) :
    StringLiteral.cook raw = .ok (String.ofList (StringLiteral.blockText content)) := by
  have hended := Token.readBlock_closed hclosed
  have hinside : ((tripleQuote ++ (content ++ tripleQuote)).drop 3).take
      ((tripleQuote ++ (content ++ tripleQuote)).length - 6) = content := by
    have hlength : (tripleQuote ++ (content ++ tripleQuote)).length - 6 = content.length := by
      simp [tripleQuote]
    rw [hlength, show 3 = tripleQuote.length from rfl, List.drop_left, List.take_left]
  have hfind : (StringLiteral.unescapeTriple content).find? StringLiteral.isForbidden = none :=
    List.find?_eq_none.mpr fun c hc => by simp [hallowed c ((unescapes content).mem hc)]
  rw [Token.cook_block hraw]
  unfold StringLiteral.readBlock at hended ⊢
  split_ifs at hended ⊢ with hopen
  · exact absurd rfl hended
  · dsimp only
    rw [hinside, hfind]
    rfl

/-- The text of a token that is closed, without its opening quotes. -/
lemma blockScan_of_cutFrom {source ahead : List Char} {t : Token} (hcut : Token.CutFrom source t ahead)
    (hkind : t.kind = .blockString) (hclosed : Token.isClosed ahead = true) :
    ∃ body, t.text.toList = tripleQuote ++ body ∧ BlockScan body true := by
  have hstring : (Token.extent ahead).1.isString = true := by
    rw [← hcut.kind, hkind]
    rfl
  rcases Token.extent_string hstring with ⟨cs, rfl, hextent, hscan⟩ | ⟨cs, rfl, -, hextent, -⟩
  · obtain ⟨k, hk, hbody⟩ := Token.blockExtent_scan cs 3
    rw [← hscan, hclosed] at hbody
    refine ⟨cs.take k, ?_, hbody⟩
    rw [hcut.text, String.toList_ofList, hextent, hk, Nat.add_comm]
    rfl
  · have hkinds := hcut.kind
    rw [hkind, hextent] at hkinds
    cases hkinds

lemma isForbidden_eq_false {c : Char} :
    StringLiteral.isForbidden c = false ↔ (c < ' ' → c = '\t' ∨ c = '\n' ∨ c = '\r') := by
  rw [StringLiteral.isForbidden, ← Bool.not_eq_true]
  simp only [Bool.and_eq_true, decide_eq_true_eq, bne_iff_ne]
  tauto

/-- **The text of a string between triple quotes** that is closed and has no control characters but tabs and
line ends. There always is one. It is the text that the algorithm says of what stands between the quotes,
with the escaped triple quotes as such, if and only if there is no blank line that is shorter than the
common indentation between lines that are not blank; a line of that kind stays as it is. -/
theorem cook_blockString {source ahead : List Char} {t : Token} (hcut : Token.CutFrom source t ahead)
    (hkind : t.kind = .blockString) (hclosed : Token.isClosed ahead = true)
    (hallowed : ∀ c ∈ t.text.toList, c < ' ' → c = '\t' ∨ c = '\n' ∨ c = '\r') :
    ∃ content text, t.text.toList = tripleQuote ++ (content ++ tripleQuote) ∧ Unescapes content text ∧
      StringLiteral.cook t.text = .ok (String.ofList (valueBy removeWhole text)) ∧
      (StringLiteral.cook t.text = .ok (String.ofList (value text)) ↔ ¬ HasShortBlank text) := by
  obtain ⟨body, hraw, hscan⟩ := blockScan_of_cutFrom hcut hkind hclosed
  obtain ⟨content, rfl, -⟩ := hscan.ending rfl
  have hforbidden : ∀ c ∈ content, StringLiteral.isForbidden c = false :=
    fun c hc => isForbidden_eq_false.mpr (hallowed c (by simp [hraw, hc]))
  have hcook := cook_eq hraw hscan hforbidden
  rw [blockText_eq] at hcook
  refine ⟨content, _, hraw, unescapes content, hcook, ?_⟩
  rw [hcook, ← removeWhole_eq_value_iff, Except.ok.injEq, String.ofList_inj]

/-- A string with an escape, an indentation, blank lines and all kinds of line ends. -/
def indented : String := "\"\"\"a\r\n\t b\n\r  \\\"\"\"c\n \"\"\""

/-- In front of a name. -/
theorem cook_blockString_of_indented :
    ∃ content text, indented.toList = tripleQuote ++ (content ++ tripleQuote) ∧ Unescapes content text ∧
      StringLiteral.cook indented = .ok (String.ofList (valueBy removeWhole text)) ∧
      (StringLiteral.cook indented = .ok (String.ofList (value text)) ↔ ¬ HasShortBlank text) := by
  have hcut : Token.CutFrom (indented ++ " x").toList ⟨.blockString, indented, .ofOffset 0⟩
      (indented ++ " x").toList := ⟨⟨[], rfl, rfl⟩, by decide +kernel, by decide +kernel⟩
  have hallowed : indented.toList.all (fun c => StringLiteral.isForbidden c = false) = true := by
    decide +kernel
  exact cook_blockString hcut rfl (by decide +kernel) fun c hc =>
    isForbidden_eq_false.mp (of_decide_eq_true (List.all_eq_true.mp hallowed c hc))

/-- Between two lines stands one of two blanks, where four are to be taken off: it keeps them. -/
theorem cook_shortBlank :
    StringLiteral.cook "\"\"\"a\n    b\n  \n    c\"\"\"" = .ok "a\nb\n  \nc" ∧
      value "a\n    b\n  \n    c".toList = "a\nb\n\nc".toList := by
  decide +kernel

end BlockString

end GraphQL
