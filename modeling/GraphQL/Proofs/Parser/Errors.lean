import Mathlib.Data.List.Basic
import GraphQL.Parser

/-!
What a parse says of errors.

A parse reports what is wrong and goes on, so what it did well shows only in the end, when no error
was reported. Errors are never taken back: where a run ends without any, there was none at any
point of it, and each part can be judged by itself.
-/

namespace GraphQL

namespace ParseState

/-- Nothing has been reported so far. -/
def IsClean (st : ParseState) : Prop := st.errors = [] ∧ st.aborted = none

end ParseState

namespace Parse

open ParseState

section Errors

variable {α β : Type} {env : ParseLimits} {p q : Parse α} {f : α → Parse β}

/-- Errors that were reported before stay. -/
def KeepsErrors (env : ParseLimits) (p : Parse α) : Prop :=
  ∀ st, (p env st).2.IsClean → st.IsClean ∧ (p env st).2.endReported = st.endReported

/-- An error is reported, whatever the tokens are. -/
def Complains (env : ParseLimits) (p : Parse α) : Prop :=
  ∀ st, st.endReported = false → ¬(p env st).2.IsClean

/-- No error is reported, and the parse goes on. -/
def Silent (env : ParseLimits) (p : Parse α) : Prop :=
  ∀ st, ∃ a st', p env st = (some a, st') ∧ st'.errors = st.errors ∧ st'.aborted = st.aborted ∧
    st'.endReported = st.endReported

namespace Silent

lemma pure (a : α) : Silent env (Pure.pure a : Parse α) := fun st => ⟨a, st, rfl, rfl, rfl, rfl⟩

lemma limits : Silent env limits := fun st => ⟨env, st, rfl, rfl, rfl, rfl⟩

lemma remaining : Silent env remaining := fun st => ⟨_, st, rfl, rfl, rfl, rfl⟩

lemma peek : Silent env peek := fun st => ⟨_, st, rfl, rfl, rfl, rfl⟩

lemma isAborted : Silent env isAborted := fun st => ⟨_, st, rfl, rfl, rfl, rfl⟩

lemma closesOuter (k : TokenKind) : Silent env (closesOuter k) := fun st => ⟨_, st, rfl, rfl, rfl, rfl⟩

lemma advance : Silent env advance := fun _ => ⟨(), _, rfl, rfl, rfl, rfl⟩

lemma stepBack (t : Token) : Silent env (stepBack t) := fun _ => ⟨(), _, rfl, rfl, rfl, rfl⟩

lemma continueAt (ts : List Token) : Silent env (continueAt ts) := fun _ => ⟨(), _, rfl, rfl, rfl, rfl⟩

lemma openDelimiter (d : Delimiter) : Silent env (openDelimiter d) :=
  fun _ => ⟨(), _, rfl, rfl, rfl, rfl⟩

lemma closeDelimiter : Silent env closeDelimiter := fun _ => ⟨(), _, rfl, rfl, rfl, rfl⟩

lemma dropDelimiters : Silent env recoverDefinition.dropDelimiters :=
  fun _ => ⟨(), _, rfl, rfl, rfl, rfl⟩

lemma bind (hp : Silent env p) (hf : ∀ a, Silent env (f a)) : Silent env (p >>= f) := by
  intro st
  obtain ⟨a, st₁, hrun, he, ha, hr⟩ := hp st
  obtain ⟨b, st₂, hrun', he', ha', hr'⟩ := hf a st₁
  exact ⟨b, st₂, by rw [bind_apply, hrun]; exact hrun', he'.trans he, ha'.trans ha, hr'.trans hr⟩

lemma nextIs (k : TokenKind) : Silent env (nextIs k) := peek.bind fun _ => .pure _

lemma here : Silent env here := by
  refine peek.bind fun t => ?_
  cases t with
  | some t => exact .pure _
  | none => exact limits.bind fun _ => .pure _

end Silent

namespace KeepsErrors

lemma silent (hp : Silent env p) : KeepsErrors env p := by
  intro st h
  obtain ⟨a, st', hrun, he, ha, hr⟩ := hp st
  rw [hrun] at h ⊢
  exact ⟨⟨he ▸ h.1, ha ▸ h.2⟩, hr⟩

lemma pure (a : α) : KeepsErrors env (Pure.pure a : Parse α) := silent (.pure a)

lemma fail : KeepsErrors env (Parse.fail : Parse α) := fun _ h => ⟨h, rfl⟩

lemma bind (hp : KeepsErrors env p) (hf : ∀ a, KeepsErrors env (f a)) : KeepsErrors env (p >>= f) := by
  intro st h
  have hst := hp st
  rw [bind_apply] at h ⊢
  generalize p env st = run at h hst
  obtain ⟨_ | a, st₁⟩ := run
  · exact hst h
  · obtain ⟨hclean, hr⟩ := hf a st₁ h
    exact ⟨(hst hclean).1, hr.trans (hst hclean).2⟩

lemma silent_bind (hp : Silent env p) (hf : ∀ a, KeepsErrors env (f a)) : KeepsErrors env (p >>= f) :=
  (silent hp).bind hf

/-- Where two steps report nothing, the first one does not. -/
lemma of_bind (hf : ∀ a, KeepsErrors env (f a)) {st : ParseState} (h : ((p >>= f) env st).2.IsClean) :
    (p env st).2.IsClean := by
  rw [bind_apply] at h
  generalize p env st = run at h
  obtain ⟨_ | a, st₁⟩ := run
  · exact h
  · exact (hf a st₁ h).1

lemma ite {c : Prop} [Decidable c] (hp : KeepsErrors env p) (hq : KeepsErrors env q) :
    KeepsErrors env (if c then p else q) := by
  by_cases h : c
  · rwa [if_pos h]
  · rwa [if_neg h]

lemma attempt (hp : KeepsErrors env p) : KeepsErrors env (Parse.attempt p) := hp

lemma report (e : ParseError) : KeepsErrors env (report e) := by
  intro st h
  unfold Parse.report at h ⊢
  dsimp only at h ⊢
  split at h
  · exact ⟨h, by rw [if_pos ‹_›]⟩
  · exact absurd h.1 (List.cons_ne_nil _ _)

lemma abort (e : ParseError) : KeepsErrors env (abort e : Parse α) := by
  intro st h
  obtain ⟨he, ha⟩ := h
  cases hst : st.aborted <;> simp [Parse.abort, hst] at ha

lemma reportUnexpected (expected : String) : KeepsErrors env (reportUnexpected expected) := by
  refine silent_bind .peek fun t => ?_
  cases t with
  | none => exact silent_bind .limits fun _ => report _
  | some t => exact report _

lemma unexpected (expected : String) : KeepsErrors env (unexpected expected : Parse α) :=
  (reportUnexpected expected).bind fun _ => fail

lemma tooDeep : KeepsErrors env (tooDeep : Parse α) :=
  silent_bind .limits fun _ => silent_bind .here fun _ => abort _

lemma leaveUnclosed (d : Delimiter) (p : Pos) : KeepsErrors env (leaveUnclosed d p : Parse α) :=
  silent_bind .closeDelimiter fun _ => (report _).bind fun _ => fail

lemma nested (hp : KeepsErrors env p) : KeepsErrors env (nested p) := by
  intro st h
  unfold Parse.nested at h ⊢
  split at h
  · rename_i haborted
    rw [if_pos haborted]
    exact ⟨h, rfl⟩
  · rename_i haborted
    rw [if_neg haborted]
    split at h
    · rename_i hdepth
      rw [if_pos hdepth]
      exact tooDeep st h
    · rename_i hdepth
      rw [if_neg hdepth]
      exact hp _ h

end KeepsErrors

namespace Complains

lemma report (e : ParseError) : Complains env (report e) := by
  intro st hr h
  unfold Parse.report at h
  dsimp only at h
  split at h
  · rename_i hskip
    rw [hr, Bool.and_false, Bool.or_false, h.2] at hskip
    exact absurd hskip (by decide)
  · exact absurd h.1 (List.cons_ne_nil _ _)

lemma abort (e : ParseError) : Complains env (abort e : Parse α) :=
  fun st _ h => by cases hst : st.aborted <;> simp [Parse.abort, ParseState.IsClean, hst] at h

lemma bind (hp : Complains env p) (hf : ∀ a, KeepsErrors env (f a)) : Complains env (p >>= f) :=
  fun st hr h => hp st hr (KeepsErrors.of_bind hf h)

lemma silent_bind (hp : Silent env p) (hf : ∀ a, Complains env (f a)) : Complains env (p >>= f) := by
  intro st hr h
  obtain ⟨a, st₁, hrun, -, -, hr₁⟩ := hp st
  rw [bind_apply, hrun] at h
  exact hf a st₁ (hr₁.trans hr) h

lemma unexpected (expected : String) : Complains env (unexpected expected : Parse α) := by
  refine bind (silent_bind .peek fun t => ?_) fun _ => .fail
  cases t with
  | none => exact silent_bind .limits fun _ => report _
  | some t => exact report _

lemma tooDeep : Complains env (tooDeep : Parse α) :=
  silent_bind .limits fun _ => silent_bind .here fun _ => abort _

lemma leaveUnclosed (d : Delimiter) (p : Pos) : Complains env (leaveUnclosed d p : Parse α) :=
  silent_bind .closeDelimiter fun _ => (report _).bind fun _ => .fail

end Complains

end Errors

end Parse

end GraphQL
