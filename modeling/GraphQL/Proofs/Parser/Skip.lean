import Mathlib.Data.List.Infix
import GraphQL.Parser

/-!
What is skipped behind an error.

A skip goes over the tokens one by one. It stops in front of one of them, or right behind it, and what
it leaves are the last tokens of those that it was given.
-/

namespace GraphQL

namespace Parse

variable {c : Construct} {t : Token} {ts : List Token}

/-- How many delimiters are open behind a token. -/
def depthBehind (depth : Nat) (t : Token) : Int :=
  depth + (if t.kind.isOpening then 1 else 0) - if t.kind.isClosing then 1 else 0

lemma not_isOpening_of_isClosing {k : TokenKind} (h : k.isClosing = true) : k.isOpening = false := by
  cases k <;> first | rfl | cases h

/-- A skip within a group stops in front of a token or steps over it. It counts delimiters without
ever closing one more than were opened. -/
lemma skipMember_cons (c : Construct) (moved : Bool) (depth : Nat) (t : Token) (ts : List Token) :
    skipMember c moved depth (t :: ts) = t :: ts ∨ ∃ depth' : Nat, depth' = depthBehind depth t ∧
      skipMember c moved depth (t :: ts) = skipMember c true depth' ts := by
  rw [skipMember]
  split
  · exact .inl rfl
  · rename_i hgo
    refine .inr ⟨_, ?_, rfl⟩
    unfold depthBehind
    by_cases hclosing : t.kind.isClosing = true
    · have hdepth : depth ≠ 0 := by
        rintro rfl
        simp [hclosing] at hgo
      simp only [not_isOpening_of_isClosing hclosing, hclosing, Bool.false_eq_true, if_false, if_true]
      omega
    · by_cases hopening : t.kind.isOpening = true <;> simp [hopening, hclosing]

lemma skipMember_suffix (c : Construct) (moved : Bool) (depth : Nat) (ts : List Token) :
    skipMember c moved depth ts <:+ ts := by
  induction ts generalizing moved depth with
  | nil => exact List.suffix_refl _
  | cons t ts ih =>
    obtain hstop | ⟨depth', -, hgo⟩ := skipMember_cons c moved depth t ts
    · rw [hstop]
    · rw [hgo]
      exact (ih true depth').trans (List.suffix_cons t ts)

/-- What does not end a group is stepped over, if nothing of a member was read before. -/
lemma skipMember_open (ht : t.kind.isClosing = false) :
    skipMember c false 0 (t :: ts) <:+ ts := by
  rw [skipMember]
  simp only [ht, Bool.false_and, Bool.or_false, Bool.and_false, Bool.false_eq_true, if_false]
  exact skipMember_suffix _ _ _ _

/-- Whether a definition seems to start with a token. -/
def atDefinition (t : Token) (ts : List Token) : Bool :=
  match t.kind with
  | .braceOpen => true
  | .name => startsDefinition t.text ts.head?
  | .string | .blockString =>
    match ts with
    | next :: ts => next.kind = .name && isTypeKeyword next.text && startsDefinition next.text ts.head?
    | [] => false
  | _ => false

lemma nextDefinition_eq (t : Token) (ts : List Token) :
    nextDefinition (t :: ts) = if atDefinition t ts then t :: ts else nextDefinition ts := rfl

lemma nextDefinition_cons (t : Token) (ts : List Token) :
    nextDefinition (t :: ts) = t :: ts ∨ nextDefinition (t :: ts) = nextDefinition ts := by
  rw [nextDefinition_eq]
  split
  · exact .inl rfl
  · exact .inr rfl

lemma nextDefinition_suffix (ts : List Token) : nextDefinition ts <:+ ts := by
  induction ts with
  | nil => exact List.suffix_refl _
  | cons t ts ih =>
    obtain hstop | hgo := nextDefinition_cons t ts
    · rw [hstop]
    · rw [hgo]
      exact ih.trans (List.suffix_cons t ts)

/-- The skip of an unsupported definition stops in front of a token or behind it, or steps over
it. -/
lemma behindUnsupported_cons (depth : Nat) (t : Token) (ts : List Token) :
    behindUnsupported depth (t :: ts) = t :: ts ∨ behindUnsupported depth (t :: ts) = ts ∨
      ∃ depth', behindUnsupported depth (t :: ts) = behindUnsupported depth' ts := by
  rw [behindUnsupported]
  split
  · exact .inl rfl
  split
  · exact .inr (.inr ⟨_, rfl⟩)
  split
  · split
    · exact .inr (.inl rfl)
    · exact .inr (.inr ⟨_, rfl⟩)
  · exact .inr (.inr ⟨_, rfl⟩)

lemma behindUnsupported_suffix (depth : Nat) (ts : List Token) : behindUnsupported depth ts <:+ ts := by
  induction ts generalizing depth with
  | nil => exact List.suffix_refl _
  | cons t ts ih =>
    obtain hstop | hbehind | ⟨depth', hgo⟩ := behindUnsupported_cons depth t ts
    · rw [hstop]
    · rw [hbehind]
      exact List.suffix_cons t ts
    · rw [hgo]
      exact (ih depth').trans (List.suffix_cons t ts)

/-- Where a member fails, at least its first token is behind when the next one is tried. -/
lemma recovered_length {t : Token} {ts rest : List Token} (ht : t.kind.isClosing = false)
    (hrest : rest <:+ t :: ts) :
    (skipMember c (rest.length < (t :: ts).length) 0 rest).length < (t :: ts).length := by
  obtain rfl | hsuffix := List.suffix_cons_iff.mp hrest
  · have hskip : (skipMember c false 0 (t :: ts)).length ≤ ts.length := (skipMember_open ht).length_le
    simpa using Nat.lt_succ_of_le hskip
  · exact Nat.lt_of_le_of_lt (skipMember_suffix _ _ _ _).length_le (Nat.lt_succ_of_le hsuffix.length_le)

end Parse

end GraphQL
