import GraphQL.Proofs.Document.Walk
import GraphQL.Proofs.Grouping
import GraphQL.Proofs.Lists
import GraphQL.Validation.Structure

/-!
What a document of the right structure looks like.

No name stands for two fragments, and no fragment leads back to itself. The search for cycles enters
fragments depth first. Where it has found nothing, each fragment that it has visited is one that it
still looks into, or one from which all ways end.
-/

namespace GraphQL

namespace Document

variable {d : Document} {name : String} {trail : Trail} {f : FragmentDefinition}

/-! ### Names -/

lemma repeatedNames_eq_nil_iff {names : List Name} :
    repeatedNames names = [] ↔ (names.map (·.text)).Nodup := by
  have hcount (k : String) : (names.map (·.text)).count k = (membersOf Name.text k names).length := by
    rw [List.count, List.countP_map, List.countP_eq_length_filter]
    rfl
  rw [repeatedNames, List.map_eq_nil_iff, List.filter_eq_nil_iff, List.nodup_iff_count_le_one]
  constructor
  · intro h k
    rw [hcount]
    by_cases hnil : membersOf Name.text k names = []
    · simp [hnil]
    · have hgroup : (k, membersOf Name.text k names) ∈ groupByKey Name.text names :=
        mem_groupByKey.mpr ⟨rfl, hnil⟩
      simpa using h _ hgroup
  · rintro h ⟨k, group⟩ hgroup
    obtain ⟨rfl, -⟩ := mem_groupByKey.mp hgroup
    simpa using hcount k ▸ h k

/-- The right structure: no types, an operation without a name stands alone, and names are used
once. -/
structure IsStructured (d : Document) : Prop where
  types : d.types = []
  alone : d.operations.length ≤ 1 ∨ ∀ op ∈ d.operations, op.name.isSome
  operations : (d.operations.filterMap (·.nameText?)).Nodup
  fragments : (d.fragments.map (·.name.text)).Nodup

/-- What is reported of the definitions alone. -/
lemma definitionProblems_eq_nil_iff : d.definitionProblems = [] ↔ d.IsStructured := by
  have halone : (if d.operations.length ≤ 1 then []
      else (d.operations.filter (·.name.isNone)).map fun op =>
        Problem.ofCause .anonymousNotAlone [op.pos]) = [] ↔
      d.operations.length ≤ 1 ∨ ∀ op ∈ d.operations, op.name.isSome := by
    by_cases hone : d.operations.length ≤ 1
    · simp [hone]
    · rw [if_neg hone, List.map_eq_nil_iff, List.filter_eq_nil_iff, or_iff_right hone]
      simp [Option.isSome_iff_ne_none]
  have hnames : (d.operations.filterMap (·.name)).map (·.text) = d.operations.filterMap (·.nameText?) :=
    List.map_filterMap
  have hfragments : (d.fragments.map (·.name)).map (·.text) = d.fragments.map (·.name.text) :=
    List.map_map
  unfold definitionProblems
  dsimp only
  rw [List.append_eq_nil_iff, List.append_eq_nil_iff, List.append_eq_nil_iff, halone,
    List.map_eq_nil_iff, List.map_eq_nil_iff, List.map_eq_nil_iff, repeatedNames_eq_nil_iff,
    repeatedNames_eq_nil_iff, hnames, hfragments]
  constructor
  · rintro ⟨⟨⟨htypes, halone⟩, hoperations⟩, hfragments⟩
    exact ⟨htypes, halone, hoperations, hfragments⟩
  · rintro ⟨htypes, halone, hoperations, hfragments⟩
    exact ⟨⟨⟨htypes, halone⟩, hoperations⟩, hfragments⟩

/-- Operations are told apart by their names, or by having none. -/
lemma IsStructured.operations_nodup (h : d.IsStructured) : (d.operations.map (·.nameText?)).Nodup := by
  rcases h.alone with hone | hnamed
  · refine List.nodup_iff_count_le_one.mpr fun name => List.count_le_length.trans ?_
    rwa [List.length_map]
  · have hmap : d.operations.map (·.nameText?) = (d.operations.filterMap (·.nameText?)).map some :=
      map_eq_filterMap_some fun op hop => by
        simpa [OperationDefinition.nameText?] using hnamed op hop
    rw [hmap]
    exact h.operations.map (Option.some_injective _)

lemma fragments_nodup (h : d.definitionProblems = []) : (d.fragments.map (·.name.text)).Nodup :=
  (definitionProblems_eq_nil_iff.mp h).fragments

lemma fragment?_name (h : d.fragment? name = some f) : f.name.text = name := by
  simpa using List.find?_some h

lemma fragment?_mem (h : d.fragment? name = some f) : f ∈ d.fragments :=
  List.mem_of_find?_eq_some h

lemma fragment?_of_mem (hd : (d.fragments.map (·.name.text)).Nodup) (hf : f ∈ d.fragments) :
    d.fragment? f.name.text = some f := by
  cases hg : d.fragment? f.name.text with
  | none => simpa using List.find?_eq_none.mp hg f hf
  | some g =>
    have heq := List.inj_on_of_nodup_map hd (fragment?_mem hg) hf (fragment?_name hg)
    exact congrArg some heq

/-! ### Cycles -/

/-- The body of one fragment uses another one. -/
def Uses (d : Document) (a b : String) : Prop :=
  ∃ f s, d.fragment? a = some f ∧ s ∈ f.selectionSet.spreads ∧ s.name.text = b

/-- All ways from a fragment end. -/
def Ends (d : Document) (name : String) : Prop := Acc (fun b a => d.Uses a b) name

lemma Ends.not_transGen (h : d.Ends name) : ¬ Relation.TransGen d.Uses name name := by
  induction h with
  | intro a _ ih =>
    intro hcycle
    obtain ⟨b, hab, hba⟩ := Relation.TransGen.head'_iff.mp hcycle
    exact ih b hab (Relation.TransGen.tail'_iff.mpr ⟨a, hba, hab⟩)

lemma cycleTo_none (h : cycleTo name trail = none) : name ∉ trail.map (·.1) := by
  induction trail with
  | nil => simp
  | cons p rest ih =>
    obtain ⟨source, s⟩ := p
    rw [cycleTo] at h
    split at h
    · simp at h
    · rename_i hne
      rw [Option.map_eq_none_iff] at h
      simpa [Ne.symm (by simpa using hne : source ≠ name)] using ih h

lemma cycleTo_ne_nil {cycle : List FragmentSpread} (h : cycleTo name trail = some cycle) :
    cycle ≠ [] := by
  cases trail with
  | nil => simp [cycleTo] at h
  | cons p rest =>
    obtain ⟨source, s⟩ := p
    rw [cycleTo] at h
    split at h
    · simp [← Option.some.inj h]
    · obtain ⟨more, -, rfl⟩ := Option.map_eq_some_iff.mp h
      simp

namespace CycleSearch

variable {steps : Nat} {st st' : CycleSearch} {pending : List String}

/-- One use of a fragment in the body of another one. -/
def follow (d : Document) (steps : Nat) (name : String) (trail : Trail) (st : CycleSearch)
    (s : FragmentSpread) : CycleSearch :=
  match cycleTo s.name.text ((name, s) :: trail) with
  | some cycle => { st with found := cycle :: st.found }
  | none =>
    match d.fragment? s.name.text with
    | some g => visit d steps ((name, s) :: trail) st g
    | none => st

lemma visit_succ (d : Document) (steps : Nat) (trail : Trail) (st : CycleSearch)
    (f : FragmentDefinition) :
    visit d (steps + 1) trail st f
      = if f.name.text ∈ st.visited then st
        else f.selectionSet.spreads.foldl (follow d steps f.name.text trail)
          { st with visited := f.name.text :: st.visited } := by
  rw [visit]
  simp only [List.contains_eq_mem, decide_eq_true_eq]
  rfl

/-! A search only adds to what it has found and visited. -/

/-- One state of a search is behind another one. -/
structure After (st st' : CycleSearch) : Prop where
  visited : st.visited ⊆ st'.visited
  found : st'.found = [] → st.found = []
  cycles : ∀ cycle ∈ st'.found, cycle ∈ st.found ∨ cycle ≠ []

lemma After.refl (st : CycleSearch) : After st st := ⟨List.Subset.refl _, id, fun _ h => .inl h⟩

lemma After.trans {st'' : CycleSearch} (h : After st st') (h' : After st' st'') : After st st'' :=
  ⟨List.Subset.trans h.visited h'.visited, fun hf => h.found (h'.found hf), fun cycle hmem =>
    (h'.cycles cycle hmem).elim (h.cycles cycle) .inr⟩

lemma foldl_after {α : Type} {g : CycleSearch → α → CycleSearch} (hg : ∀ st a, After st (g st a))
    (as : List α) (st : CycleSearch) : After st (as.foldl g st) := by
  induction as generalizing st with
  | nil => exact .refl st
  | cons a as ih => exact (hg st a).trans (ih (g st a))

lemma follow_after_of
    (hvisit : ∀ trail st f, After st (visit d steps trail st f)) (name : String) (trail : Trail)
    (st : CycleSearch) (s : FragmentSpread) : After st (follow d steps name trail st s) := by
  unfold follow
  split
  · rename_i cycle hcycle
    refine ⟨List.Subset.refl _, by simp, fun c hmem => ?_⟩
    rcases List.mem_cons.mp hmem with rfl | hmem
    · exact .inr (cycleTo_ne_nil hcycle)
    · exact .inl hmem
  · split
    · exact hvisit _ _ _
    · exact .refl st

lemma visit_after (d : Document) (steps : Nat) (trail : Trail) (st : CycleSearch)
    (f : FragmentDefinition) : After st (visit d steps trail st f) := by
  induction steps generalizing trail st f with
  | zero => exact .refl st
  | succ steps ih =>
    rw [visit_succ]
    split
    · exact .refl st
    · refine After.trans ?_ (foldl_after (follow_after_of ih _ _) _ _)
      exact ⟨List.subset_cons_self _ _, id, fun _ h => .inl h⟩

lemma follow_after (d : Document) (steps : Nat) (name : String) (trail : Trail) (st : CycleSearch)
    (s : FragmentSpread) : After st (follow d steps name trail st s) :=
  follow_after_of (visit_after d steps) name trail st s

/-- All visited fragments are looked into at the moment, or all ways from them end. -/
def Explored (d : Document) (pending : List String) (st : CycleSearch) : Prop :=
  ∀ name ∈ st.visited, name ∈ pending ∨ d.Ends name

/-- What holds behind every step of a search holds behind all of them. -/
lemma foldl_explores {α : Type} {g : CycleSearch → α → CycleSearch} {P : α → Prop} {as : List α}
    (hafter : ∀ st a, After st (g st a))
    (hg : ∀ st, ∀ a ∈ as, Walker.unentered d st.visited ≤ steps → Explored d pending st →
      (g st a).found = [] → Explored d pending (g st a) ∧ P a)
    (hsteps : Walker.unentered d st.visited ≤ steps) (hst : Explored d pending st)
    (hfound : (as.foldl g st).found = []) :
    Explored d pending (as.foldl g st) ∧ ∀ a ∈ as, P a := by
  induction as generalizing st with
  | nil => exact ⟨hst, by simp⟩
  | cons a as ih =>
    have hfirst : (g st a).found = [] := (foldl_after hafter as (g st a)).found hfound
    obtain ⟨hexplored, hP⟩ := hg st a List.mem_cons_self hsteps hst hfirst
    have hsteps' := (Walker.unentered_le_of_subset (hafter st a).visited).trans hsteps
    obtain ⟨hlast, hall⟩ := ih (fun st b hb => hg st b (List.mem_cons_of_mem a hb)) hsteps'
      hexplored hfound
    exact ⟨hlast, List.forall_mem_cons.mpr ⟨hP, hall⟩⟩

lemma follow_explores
    (hvisit : ∀ trail st f, d.fragment? f.name.text = some f → f.name.text ∉ trail.map (·.1) →
      Walker.unentered d st.visited ≤ steps → Explored d (trail.map (·.1)) st →
      (visit d steps trail st f).found = [] →
      Explored d (trail.map (·.1)) (visit d steps trail st f) ∧ d.Ends f.name.text)
    (s : FragmentSpread) (hsteps : Walker.unentered d st.visited ≤ steps)
    (hst : Explored d (name :: trail.map (·.1)) st)
    (hfound : (follow d steps name trail st s).found = []) :
    Explored d (name :: trail.map (·.1)) (follow d steps name trail st s) ∧
      d.Ends s.name.text := by
  unfold follow at hfound ⊢
  split at hfound
  · simp at hfound
  · rename_i hcycle
    cases hg : d.fragment? s.name.text with
    | none =>
      refine ⟨hst, .intro _ fun b huses => ?_⟩
      obtain ⟨f, -, hf, -⟩ := huses
      simp [hg] at hf
    | some g =>
      rw [hg] at hfound
      have hname := fragment?_name hg
      have hnot := cycleTo_none hcycle
      rw [← hname] at hg hnot ⊢
      exact hvisit ((name, s) :: trail) st g hg hnot hsteps hst hfound

/-- A visit that finds no cycle has followed all ways from a fragment to their ends. -/
lemma visit_explores (d : Document) (steps : Nat) (trail : Trail) (st : CycleSearch)
    (f : FragmentDefinition) (hf : d.fragment? f.name.text = some f)
    (hnot : f.name.text ∉ trail.map (·.1)) (hsteps : Walker.unentered d st.visited ≤ steps)
    (hst : Explored d (trail.map (·.1)) st) (hfound : (visit d steps trail st f).found = []) :
    Explored d (trail.map (·.1)) (visit d steps trail st f) ∧ d.Ends f.name.text := by
  induction steps generalizing trail st f with
  | zero =>
    have hmem : f.name.text ∈ st.visited := by
      by_contra hc
      have := Walker.unentered_cons_lt hf hc
      omega
    exact ⟨hst, (hst _ hmem).resolve_left hnot⟩
  | succ steps ih =>
    rw [visit_succ] at hfound ⊢
    by_cases hmem : f.name.text ∈ st.visited
    · rw [if_pos hmem]
      exact ⟨hst, (hst _ hmem).resolve_left hnot⟩
    · rw [if_neg hmem] at hfound ⊢
      have hlt := Walker.unentered_cons_lt hf hmem
      have hpending : Explored d (f.name.text :: trail.map (·.1))
          { st with visited := f.name.text :: st.visited } := by
        intro v hv
        rcases List.mem_cons.mp hv with rfl | hv
        · exact .inl List.mem_cons_self
        · exact (hst v hv).imp (List.mem_cons_of_mem _) id
      obtain ⟨hlast, hspreads⟩ := foldl_explores (P := fun s => d.Ends s.name.text)
        (follow_after d steps f.name.text trail)
        (fun st s _ hsteps hst hfound => follow_explores ih s hsteps hst hfound) (by simp only; omega)
        hpending hfound
      have hends : d.Ends f.name.text := .intro _ fun b huses => by
        obtain ⟨g, s, hg, hs, rfl⟩ := huses
        obtain rfl := Option.some.inj (hf.symm.trans hg)
        exact hspreads s hs
      refine ⟨fun v hv => ?_, hends⟩
      rcases hlast v hv with hv | hv
      · rcases List.mem_cons.mp hv with rfl | hv
        · exact .inr hends
        · exact .inl hv
      · exact .inr hv

end CycleSearch

/-- **Acyclicity**: if no cycles are reported, all ways from all fragments end. -/
theorem ends_of_cycleProblems (hd : (d.fragments.map (·.name.text)).Nodup)
    (h : d.cycleProblems = []) : ∀ f ∈ d.fragments, d.Ends f.name.text := by
  have hafter := CycleSearch.visit_after d d.fragments.length []
  have hcycles := (CycleSearch.foldl_after hafter d.fragments ⟨[], []⟩).cycles
  have hfound : (d.fragments.foldl (CycleSearch.visit d d.fragments.length []) ⟨[], []⟩).found
      = [] := by
    refine List.eq_nil_iff_forall_not_mem.mpr fun cycle hmem => ?_
    have hnone := List.filterMap_eq_nil_iff.mp h cycle (List.mem_reverse.mpr hmem)
    rw [cycleProblem, Option.map_eq_none_iff, List.getLast?_eq_none_iff] at hnone
    rcases hcycles cycle hmem with hold | hne
    · simp at hold
    · exact hne hnone
  have hstart : CycleSearch.Explored d [] ⟨[], []⟩ := by simp [CycleSearch.Explored]
  have hvisit (st : CycleSearch) (f : FragmentDefinition) (hf : f ∈ d.fragments) :=
    CycleSearch.visit_explores d d.fragments.length [] st f
      (fragment?_of_mem hd hf) (by simp)
  exact (CycleSearch.foldl_explores (P := fun f => d.Ends f.name.text) hafter hvisit
    (Walker.unentered_nil_le d) hstart hfound).2

end Document

end GraphQL
