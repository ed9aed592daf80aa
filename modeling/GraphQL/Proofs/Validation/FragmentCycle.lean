import GraphQL.Parser
import GraphQL.Proofs.Execution.Ending
import GraphQL.Proofs.Validation.Ending

/-!
Which cycles of fragments are reported.

Along the trail of the search each use of a fragment stands in the fragment that the one in front of it
names. So what a use closes is a cycle. There are no others to be found where all ways from all
fragments end, and then selecting fields and checking them for conflicts end as well.
-/

namespace GraphQL

namespace Document

open Relation (ReflTransGen TransGen)

variable {d : Document} {a b name : String} {uses cycle : List FragmentSpread} {s : FragmentSpread}
  {trail : Trail} {f : FragmentDefinition}

/-! ### Ways from fragment to fragment -/

/-- Uses of fragments lead from one fragment to another one: the first stands in the body of the
fragment that is left, and each other in the one that the use in front of it names. -/
inductive Leads (d : Document) : String → List FragmentSpread → String → Prop where
  | nil (name : String) : Leads d name [] name
  | cons {a b : String} {f : FragmentDefinition} {s : FragmentSpread} {uses : List FragmentSpread}
      (fragment : d.fragment? a = some f) (mem : s ∈ f.selectionSet.spreads)
      (rest : Leads d s.name.text uses b) : Leads d a (s :: uses) b

namespace Leads

lemma concat (h : d.Leads a uses b) (hf : d.fragment? b = some f) (hs : s ∈ f.selectionSet.spreads) :
    d.Leads a (uses ++ [s]) s.name.text := by
  induction h with
  | nil => exact .cons hf hs (.nil _)
  | cons fragment mem _ ih => exact .cons fragment mem (ih hf)

lemma last (h : d.Leads a (uses ++ [s]) b) : s.name.text = b := by
  induction uses generalizing a with
  | nil =>
    cases h with
    | cons _ _ rest =>
      cases rest
      rfl
  | cons u uses ih =>
    cases h with
    | cons _ _ rest => exact ih rest

lemma reflTransGen (h : d.Leads a uses b) : ReflTransGen d.Uses a b := by
  induction h with
  | nil => exact .refl
  | cons fragment mem _ ih => exact ih.head ⟨_, _, fragment, mem, rfl⟩

lemma transGen (h : d.Leads a uses b) (hne : uses ≠ []) : TransGen d.Uses a b := by
  cases h with
  | nil => exact absurd rfl hne
  | cons fragment mem rest => exact TransGen.head' ⟨_, _, fragment, mem, rfl⟩ rest.reflTransGen

end Leads

/-- Uses of fragments that lead from a fragment back to it. -/
def IsCycle (d : Document) (cycle : List FragmentSpread) : Prop :=
  cycle ≠ [] ∧ ∃ name, d.Leads name cycle name

/-- A cycle leads back to the fragment that its last use names. -/
lemma IsCycle.exists_last (h : d.IsCycle cycle) :
    ∃ front last, cycle = front ++ [last] ∧ d.Leads last.name.text (front ++ [last]) last.name.text := by
  obtain ⟨hne, name, hleads⟩ := h
  obtain ⟨front, last, rfl⟩ := (List.eq_nil_or_concat' cycle).resolve_left hne
  obtain rfl := hleads.last
  exact ⟨front, last, rfl, hleads⟩

/-! ### The trail -/

/-- A trail that ends in a fragment: its latest use names that fragment, and stands in the fragment
where the rest of the trail ends. -/
inductive EndsIn (d : Document) : Trail → String → Prop where
  | nil (name : String) : EndsIn d [] name
  | cons {source : String} {f : FragmentDefinition} {s : FragmentSpread} {rest : Trail}
      (fragment : d.fragment? source = some f) (mem : s ∈ f.selectionSet.spreads)
      (front : EndsIn d rest source) : EndsIn d ((source, s) :: rest) s.name.text

lemma EndsIn.cycleTo_leads (h : d.EndsIn trail b) (hcycle : cycleTo a trail = some cycle) :
    d.Leads a cycle b := by
  induction h generalizing cycle with
  | nil => simp [cycleTo] at hcycle
  | @cons source f s rest fragment mem _ ih =>
    rw [cycleTo] at hcycle
    split at hcycle
    · rename_i heq
      obtain rfl := beq_iff_eq.mp heq
      obtain rfl := Option.some.inj hcycle
      exact .cons fragment mem (.nil _)
    · obtain ⟨front, hfront, rfl⟩ := Option.map_eq_some_iff.mp hcycle
      exact (ih hfront).concat fragment mem

namespace CycleSearch

variable {steps : Nat} {st : CycleSearch}

/-- All that a search has found are cycles. -/
def Genuine (d : Document) (st : CycleSearch) : Prop := ∀ cycle ∈ st.found, d.IsCycle cycle

lemma follow_genuine
    (hvisit : ∀ trail st f, d.fragment? f.name.text = some f → d.EndsIn trail f.name.text →
      Genuine d st → Genuine d (visit d steps trail st f))
    (hf : d.fragment? f.name.text = some f) (hs : s ∈ f.selectionSet.spreads)
    (htrail : d.EndsIn trail f.name.text) (hst : Genuine d st) :
    Genuine d (follow d steps f.name.text trail st s) := by
  have hends : d.EndsIn ((f.name.text, s) :: trail) s.name.text := .cons hf hs htrail
  unfold follow
  split
  · rename_i cycle hcycle
    refine List.forall_mem_cons.mpr ⟨⟨cycleTo_ne_nil hcycle, _, hends.cycleTo_leads hcycle⟩, hst⟩
  · cases hg : d.fragment? s.name.text with
    | none => exact hst
    | some g =>
      have hname := fragment?_name hg
      exact hvisit _ _ g (hname ▸ hg) (hname ▸ hends) hst

/-- What a visit of a fragment at the end of its trail finds are cycles. -/
lemma visit_genuine (hf : d.fragment? f.name.text = some f) (htrail : d.EndsIn trail f.name.text)
    (hst : Genuine d st) : Genuine d (visit d steps trail st f) := by
  induction steps generalizing trail st f with
  | zero => exact hst
  | succ steps ih =>
    rw [visit_succ]
    split
    · exact hst
    · refine List.foldlRecOn f.selectionSet.spreads _ (motive := Genuine d) hst fun st hst s hs => ?_
      exact follow_genuine (fun _ _ _ => ih) hf hs htrail hst

end CycleSearch

/-- All cycles that the search finds are cycles. -/
lemma isCycle_of_mem (hd : (d.fragments.map (·.name.text)).Nodup) (h : cycle ∈ d.fragmentCycles) :
    d.IsCycle cycle := by
  refine List.foldlRecOn d.fragments _ (motive := CycleSearch.Genuine d) (by simp [CycleSearch.Genuine])
    (fun st hst f hf => ?_) cycle (List.mem_reverse.mp h)
  exact CycleSearch.visit_genuine (fragment?_of_mem hd hf) (.nil _) hst

/-! ### What is reported -/

lemma mem_cycleProblems (hd : (d.fragments.map (·.name.text)).Nodup) {p : Problem}
    (h : p ∈ d.cycleProblems) :
    ∃ front last, d.Leads last.name.text (front ++ [last]) last.name.text ∧
      p = .ofCause (.fragmentCycle last.name.text (front.map (·.name.text)))
        ((front ++ [last]).map (·.pos)) := by
  obtain ⟨cycle, hcycle, hp⟩ := List.mem_filterMap.mp h
  obtain ⟨front, last, rfl, hleads⟩ := (isCycle_of_mem hd hcycle).exists_last
  refine ⟨front, last, hleads, ?_⟩
  simpa [cycleProblem] using hp.symm

/-- A cycle of fragments is one of fragments that are defined. -/
lemma exists_fragment_of_transGen (h : TransGen d.Uses name name) :
    ∃ f ∈ d.fragments, f.name.text = name := by
  obtain ⟨b, ⟨f, s, hf, -, -⟩, -⟩ := TransGen.head'_iff.mp h
  exact ⟨f, fragment?_mem hf, fragment?_name hf⟩

lemma cycleProblems_ne_nil_iff (hd : (d.fragments.map (·.name.text)).Nodup) :
    d.cycleProblems ≠ [] ↔ ∃ name, TransGen d.Uses name name := by
  constructor
  · intro h
    obtain ⟨p, hp⟩ := List.exists_mem_of_ne_nil _ h
    obtain ⟨front, last, hleads, -⟩ := mem_cycleProblems hd hp
    exact ⟨_, hleads.transGen (by simp)⟩
  · rintro ⟨name, hcycle⟩ hnil
    obtain ⟨f, hf, rfl⟩ := exists_fragment_of_transGen hcycle
    exact (ends_of_cycleProblems hd hnil f hf).not_transGen hcycle

/-- **Cycles of fragments**: where fragments have different names, something is reported exactly if a
fragment leads back to itself. Each report is about uses of fragments that lead in a circle: it names
the fragment that the last one leads back to and those that the others lead to, and has the places of
all of them. If nothing is reported, selecting the fields of an operation and checking them for
conflicts come to an end, with whatever schema and variables. -/
theorem cycleProblems_exact (hd : (d.fragments.map (·.name.text)).Nodup) :
    (d.cycleProblems ≠ [] ↔ ∃ name, TransGen d.Uses name name) ∧
    (∀ p ∈ d.cycleProblems, ∃ front last,
      d.Leads last.name.text (front ++ [last]) last.name.text ∧
      p = .ofCause (.fragmentCycle last.name.text (front.map (·.name.text)))
        ((front ++ [last]).map (·.pos))) ∧
    (d.cycleProblems = [] → ∀ op ∈ d.operations, ∀ parent,
      (∀ c : SelectionContext, c.document = d → c.Ends parent op.selectionSet) ∧
      ∀ c : MergeContext, c.document = d → c.Ends parent op.selectionSet) := by
  refine ⟨cycleProblems_ne_nil_iff hd, fun p hp => mem_cycleProblems hd hp, ?_⟩
  intro hnil op hop parent
  have hends := ends_of_cycleProblems hd hnil
  constructor
  · rintro c rfl
    exact c.ends_operation hends hop parent
  · rintro c rfl
    exact c.ends_operation hends hop parent

/-- A pet is described by its owner, and an owner by the pets. -/
def circle : List Char :=
  ("\x7b pet \x7b ...Pet \x7d \x7d fragment Pet on Pet \x7b name, owner \x7b ...Owner \x7d \x7d "
    ++ "fragment Owner on Owner \x7b ... on Owner \x7b pets \x7b ...Pet \x7d \x7d \x7d").toList

theorem cycleProblems_exact_of_circle : ∃ d, (parse circle).document? = some d ∧
    (d.fragments.map (·.name.text)).Nodup ∧
    (∃ name, TransGen d.Uses name name) ∧
    ∃ p ∈ d.cycleProblems, ∃ front last,
      d.Leads last.name.text (front ++ [last]) last.name.text ∧
      p = .ofCause (.fragmentCycle last.name.text (front.map (·.name.text)))
        ((front ++ [last]).map (·.pos)) := by
  have hrun : ((parse circle).document?.filter fun d =>
      (d.fragments.map (·.name.text)).Nodup && !d.cycleProblems.isEmpty).isSome = true := by
    decide +kernel
  obtain ⟨d, hd⟩ := Option.isSome_iff_exists.mp hrun
  obtain ⟨hparse, hchecks⟩ := Option.filter_eq_some_iff.mp hd
  obtain ⟨hnodup, hne⟩ := Bool.and_eq_true_iff.mp hchecks
  have hnodup := of_decide_eq_true hnodup
  have hne : d.cycleProblems ≠ [] := by simpa using hne
  obtain ⟨hiff, hall, -⟩ := cycleProblems_exact hnodup
  obtain ⟨p, hp⟩ := List.exists_mem_of_ne_nil _ hne
  exact ⟨d, hparse, hnodup, hiff.mp hne, p, hp, hall p hp⟩

end Document

end GraphQL
