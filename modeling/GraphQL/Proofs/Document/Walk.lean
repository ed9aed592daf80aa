import Mathlib.Tactic
import GraphQL.Document
import GraphQL.Document.Walk

/-!
What a walk through selections meets.

All walks follow one pattern: each has something to say of a selection, and decides whether it goes on
inside of the selection. A `Walker` is such a pair, and `Walker.Meets` says which selections can be
reached. A walk enters a fragment once, and it runs out of steps only if it has entered more fragments
than there are. So it comes across everything that can be reached, and across nothing else.
-/

namespace GraphQL

/-- The selections below a field or inside of an inline fragment. -/
def Selection.inner? : Selection → Option SelectionSet
  | .field _ below => below
  | .spread _ => none
  | .inline _ below => some below

/-- How a walk goes on. What it knows where it is, such as the type that is selected on, is a `β`. -/
structure Walker (α β : Type) where
  /-- What is come across at a selection itself. -/
  own : β → Selection → List α
  /-- What is known inside of a selection, or behind a spread, if the walk goes there. -/
  next : β → Selection → Option β
  /-- What is known in the body of a fragment, if the walk goes there. -/
  body : β → FragmentDefinition → Option β

namespace Walk

variable {α : Type}

@[simp] lemma append_apply (w v : Walk α) (entered : List String) :
    (w ++ v) entered = ((w entered).1 ++ (v (w entered).2).1, (v (w entered).2).2) := rfl

@[simp] lemma emit_apply (as : List α) (entered : List String) : emit as entered = (as, entered) :=
  rfl

lemma emit_append_emit (as bs : List α) : emit as ++ emit bs = emit (as ++ bs) := rfl

lemma append_assoc (u v w : Walk α) : u ++ v ++ w = u ++ (v ++ w) := by
  funext entered
  simp

@[simp] lemma append_emit_nil (w : Walk α) : w ++ emit [] = w := by
  funext entered
  simp

@[simp] lemma emit_nil_append (w : Walk α) : emit [] ++ w = w := by
  funext entered
  simp

end Walk

namespace Walker

variable {α β : Type} {w : Walker α β} {d : Document} {b b₁ b₂ b' : β} {sel sel' : Selection}
  {sels : List Selection} {as more : List α} {entered entered' later : List String}

/-! ### The walk of a walker -/

/-- A selection, with a walk through what is inside of it. -/
def step (w : Walker α β) (b : β) (sel : Selection) (inside : β → Walk α) : Walk α :=
  Walk.emit (w.own b sel) ++ match w.next b sel with
    | none => Walk.emit []
    | some b' => inside b'

lemma step_none {inside : β → Walk α} (h : w.next b sel = none) :
    w.step b sel inside = Walk.emit (w.own b sel) := by
  rw [step, h, Walk.append_emit_nil]

lemma step_some {inside : β → Walk α} (h : w.next b sel = some b') :
    w.step b sel inside = Walk.emit (w.own b sel) ++ inside b' := by
  rw [step, h]

/-- The use of a fragment, with a walk through its body. -/
def enter (w : Walker α β) (d : Document) (body : β → FragmentDefinition → Walk α) (b : β)
    (name : String) : Walk α :=
  Walk.once name
    (match d.fragment? name with
     | none => Walk.emit []
     | some f =>
       match w.body b f with
       | none => Walk.emit []
       | some b' => body b' f)

mutual

def selection (w : Walker α β) (enter : β → String → Walk α) (b : β) : Selection → Walk α
  | .field f none => w.step b (.field f none) fun _ => Walk.emit []
  | .field f (some below) =>
    w.step b (.field f (some below)) fun b' => selectionSet w enter b' below
  | .spread s => w.step b (.spread s) fun b' => enter b' s.name.text
  | .inline i below => w.step b (.inline i below) fun b' => selectionSet w enter b' below

def selectionSet (w : Walker α β) (enter : β → String → Walk α) (b : β) : SelectionSet → Walk α
  | .mk sels _ => selections w enter b sels

def selections (w : Walker α β) (enter : β → String → Walk α) (b : β) : List Selection → Walk α
  | [] => Walk.emit []
  | sel :: sels => selection w enter b sel ++ selections w enter b sels

end

/-- The body of a fragment, with fragments at most `steps` deep below it. -/
def bodyWalk (w : Walker α β) (d : Document) : Nat → β → FragmentDefinition → Walk α
  | 0 => fun _ _ => Walk.emit []
  | steps + 1 => fun b f => w.selectionSet (w.enter d (w.bodyWalk d steps)) b f.selectionSet

/-- Selections, with as many steps as the document has fragments. -/
def walk (w : Walker α β) (d : Document) (b : β) (sels : List Selection) : Walk α :=
  w.selections (w.enter d (w.bodyWalk d d.fragments.length)) b sels

lemma selections_append (enter : β → String → Walk α) (b : β) (xs ys : List Selection) :
    w.selections enter b (xs ++ ys) = w.selections enter b xs ++ w.selections enter b ys := by
  induction xs with
  | nil => rw [List.nil_append, selections, Walk.emit_nil_append]
  | cons x xs ih => rw [List.cons_append, selections, selections, ih, Walk.append_assoc]

/-! ### What can be reached -/

/-- The walk reaches a selection from another one. -/
inductive Meets (w : Walker α β) (d : Document) : β → Selection → β → Selection → Prop where
  | refl (b : β) (sel : Selection) : Meets w d b sel b sel
  | inside {b b₁ b' : β} {sel sel₁ sel' : Selection} {inner : SelectionSet}
      (next : w.next b sel = some b₁) (isInner : sel.inner? = some inner)
      (mem : sel₁ ∈ inner.selections) (rest : Meets w d b₁ sel₁ b' sel') : Meets w d b sel b' sel'
  | spread {b b₁ b₂ b' : β} {s : FragmentSpread} {f : FragmentDefinition} {sel₁ sel' : Selection}
      (next : w.next b (.spread s) = some b₁) (fragment : d.fragment? s.name.text = some f)
      (body : w.body b₁ f = some b₂) (mem : sel₁ ∈ f.selectionSet.selections)
      (rest : Meets w d b₂ sel₁ b' sel') : Meets w d b (.spread s) b' sel'

/-- Everything that is reached from a selection without a fragment is accounted for: what is come
across there is in `as`, and the fragments used there are in `entered`. -/
inductive Covers (w : Walker α β) (as : List α) (entered : List String) : β → Selection → Prop where
  | mk {b : β} {sel : Selection} (own : ∀ a ∈ w.own b sel, a ∈ as)
      (inside : ∀ b' inner, w.next b sel = some b' → sel.inner? = some inner →
        ∀ sel' ∈ inner.selections, Covers w as entered b' sel')
      (spread : ∀ s b', sel = .spread s → w.next b sel = some b' → s.name.text ∈ entered) :
      Covers w as entered b sel

namespace Covers

lemma own (h : w.Covers as entered b sel) : ∀ a ∈ w.own b sel, a ∈ as := by
  cases h with
  | mk own inside spread => exact own

lemma inside (h : w.Covers as entered b sel) {inner : SelectionSet}
    (hb : w.next b sel = some b') (hi : sel.inner? = some inner) (hs : sel' ∈ inner.selections) :
    w.Covers as entered b' sel' := by
  cases h with
  | mk own inside spread => exact inside b' inner hb hi sel' hs

lemma spread {s : FragmentSpread} (h : w.Covers as entered b (.spread s))
    (hb : w.next b (.spread s) = some b') : s.name.text ∈ entered := by
  cases h with
  | mk own inside spread => exact spread s b' rfl hb

lemma mono (h : w.Covers as entered b sel) (has : ∀ a ∈ as, a ∈ more) (he : entered ⊆ later) :
    w.Covers more later b sel := by
  induction h with
  | mk own _ spread ih =>
    exact .mk (fun a ha => has a (own a ha)) ih fun s b' hs hb => he (spread s b' hs hb)

end Covers

/-- The body of a fragment is accounted for, as it was entered from some place. -/
def CoversBody (w : Walker α β) (d : Document) (as : List α) (entered : List String)
    (name : String) : Prop :=
  ∃ b, ∀ f b', d.fragment? name = some f → w.body b f = some b' →
    ∀ sel ∈ f.selectionSet.selections, w.Covers as entered b' sel

lemma CoversBody.mono {name : String} (h : w.CoversBody d as entered name)
    (has : ∀ a ∈ as, a ∈ more) (he : entered ⊆ later) : w.CoversBody d more later name := by
  obtain ⟨b, hb⟩ := h
  exact ⟨b, fun f b' hf hbody sel hsel => (hb f b' hf hbody sel hsel).mono has he⟩

/-! ### What a walk does -/

/-- A walk through selections comes across what it can reach, up to fragments that were entered
before. -/
structure Runs (w : Walker α β) (d : Document) (b : β) (sels : List Selection)
    (entered : List String) (as : List α) (later : List String) : Prop where
  subset : entered ⊆ later
  covers : ∀ sel ∈ sels, w.Covers as later b sel
  bodies : ∀ name ∈ later, name ∈ entered ∨ w.CoversBody d as later name
  met : ∀ a ∈ as, ∃ sel ∈ sels, ∃ b' sel', w.Meets d b sel b' sel' ∧ a ∈ w.own b' sel'

namespace Runs

lemma nil (b : β) (entered : List String) : w.Runs d b [] entered [] entered :=
  ⟨List.Subset.refl _, by simp, fun _ h => .inl h, by simp⟩

lemma append {xs ys : List Selection} (h : w.Runs d b xs entered as later)
    (h' : w.Runs d b ys later more entered') :
    w.Runs d b (xs ++ ys) entered (as ++ more) entered' := by
  have hleft : ∀ a ∈ as, a ∈ as ++ more := fun a ha => List.mem_append_left _ ha
  have hright : ∀ a ∈ more, a ∈ as ++ more := fun a ha => List.mem_append_right _ ha
  refine ⟨List.Subset.trans h.subset h'.subset, ?_, ?_, ?_⟩
  · intro sel hsel
    rcases List.mem_append.mp hsel with hsel | hsel
    · exact (h.covers sel hsel).mono hleft h'.subset
    · exact (h'.covers sel hsel).mono hright (List.Subset.refl _)
  · intro name hname
    rcases h'.bodies name hname with hlater | hbody
    · exact (h.bodies name hlater).imp id fun hbody => hbody.mono hleft h'.subset
    · exact .inr (hbody.mono hright (List.Subset.refl _))
  · intro a ha
    rcases List.mem_append.mp ha with ha | ha
    · obtain ⟨sel, hsel, hmeets⟩ := h.met a ha
      exact ⟨sel, List.mem_append_left _ hsel, hmeets⟩
    · obtain ⟨sel, hsel, hmeets⟩ := h'.met a ha
      exact ⟨sel, List.mem_append_right _ hsel, hmeets⟩

/-- Nothing is inside of the selection, as far as the walk is concerned. -/
lemma leaf (hinner : ∀ b', w.next b sel = some b' → sel.inner? = none)
    (hspread : ∀ s b', sel = .spread s → w.next b sel ≠ some b') :
    w.Runs d b [sel] entered (w.own b sel) entered := by
  refine ⟨List.Subset.refl _, ?_, fun _ h => .inl h, ?_⟩
  · intro sel' hsel
    rw [List.mem_singleton.mp hsel]
    refine .mk (fun _ ha => ha) (fun b' inner hb hi => ?_) fun s b' hs hb => ?_
    · simp [hinner b' hb] at hi
    · exact absurd hb (hspread s b' hs)
  · exact fun a ha => ⟨sel, List.mem_singleton_self sel, b, sel, .refl b sel, ha⟩

lemma inside {inner : SelectionSet} (hb : w.next b sel = some b') (hi : sel.inner? = some inner)
    (hspread : ∀ s, sel ≠ .spread s) (h : w.Runs d b' inner.selections entered as later) :
    w.Runs d b [sel] entered (w.own b sel ++ as) later := by
  have hright : ∀ a ∈ as, a ∈ w.own b sel ++ as := fun a ha => List.mem_append_right _ ha
  refine ⟨h.subset, ?_, ?_, ?_⟩
  · intro sel' hsel
    rw [List.mem_singleton.mp hsel]
    refine .mk (fun _ ha => List.mem_append_left _ ha) ?_ fun s _ hs _ => absurd hs (hspread s)
    intro b₁ inner₁ hb₁ hi₁ sel₁ hsel₁
    obtain rfl := Option.some.inj (hb.symm.trans hb₁)
    obtain rfl := Option.some.inj (hi.symm.trans hi₁)
    exact (h.covers sel₁ hsel₁).mono hright (List.Subset.refl _)
  · exact fun name hname =>
      (h.bodies name hname).imp id fun hbody => hbody.mono hright (List.Subset.refl _)
  · intro a ha
    rcases List.mem_append.mp ha with ha | ha
    · exact ⟨sel, List.mem_singleton_self sel, b, sel, .refl b sel, ha⟩
    · obtain ⟨sel₁, hsel₁, b₁, sel', hmeets, hown⟩ := h.met a ha
      exact ⟨sel, List.mem_singleton_self sel, b₁, sel', .inside hb hi hsel₁ hmeets, hown⟩

end Runs

/-- What the use of a fragment does. -/
structure Enters (w : Walker α β) (d : Document) (b : β) (name : String) (entered : List String)
    (as : List α) (later : List String) : Prop where
  subset : entered ⊆ later
  mem : name ∈ later
  bodies : ∀ other ∈ later, other ∈ entered ∨ w.CoversBody d as later other
  met : ∀ a ∈ as, ∃ f b₁, d.fragment? name = some f ∧ w.body b f = some b₁ ∧
    ∃ sel ∈ f.selectionSet.selections, ∃ b' sel', w.Meets d b₁ sel b' sel' ∧ a ∈ w.own b' sel'

lemma Enters.spread {s : FragmentSpread} (hb : w.next b (.spread s) = some b')
    (h : w.Enters d b' s.name.text entered as later) :
    w.Runs d b [.spread s] entered (w.own b (.spread s) ++ as) later := by
  have hright : ∀ a ∈ as, a ∈ w.own b (.spread s) ++ as := fun a ha => List.mem_append_right _ ha
  refine ⟨h.subset, ?_, ?_, ?_⟩
  · intro sel hsel
    rw [List.mem_singleton.mp hsel]
    refine .mk (fun _ ha => List.mem_append_left _ ha) (fun _ _ _ hi => ?_) fun s' _ hs _ => ?_
    · simp [Selection.inner?] at hi
    · cases hs
      exact h.mem
  · exact fun name hname =>
      (h.bodies name hname).imp id fun hbody => hbody.mono hright (List.Subset.refl _)
  · intro a ha
    refine ⟨.spread s, List.mem_singleton_self _, ?_⟩
    rcases List.mem_append.mp ha with ha | ha
    · exact ⟨b, .spread s, .refl b _, ha⟩
    · obtain ⟨f, b₁, hf, hbody, sel₁, hsel₁, b₂, sel', hmeets, hown⟩ := h.met a ha
      exact ⟨b₂, sel', .spread hb hf hbody hsel₁ hmeets, hown⟩

/-- The use of a fragment that there is nothing to enter for. -/
lemma Enters.idle {name : String} (hmem : name ∈ later) (hsub : ∀ other ∈ later, other ∈ entered ∨
    other = name) (hentered : entered ⊆ later)
    (hbody : name ∈ entered ∨ ∀ f, d.fragment? name = some f → w.body b f = none) :
    w.Enters d b name entered [] later := by
  refine ⟨hentered, hmem, fun other hother => ?_, by simp⟩
  rcases hsub other hother with h | rfl
  · exact .inl h
  · refine hbody.imp id fun hnone => ⟨b, fun f b' hf hb => ?_⟩
    simp [hnone f hf] at hb

/-! ### Enough steps -/

/-- How many fragments were not entered yet. -/
def unentered (d : Document) (entered : List String) : Nat :=
  ((d.fragments.map (·.name.text)).toFinset \ entered.toFinset).card

lemma unentered_le_of_subset (h : entered ⊆ later) : unentered d later ≤ unentered d entered :=
  Finset.card_le_card (Finset.sdiff_subset_sdiff (Finset.Subset.refl _)
    (fun _ hx => List.mem_toFinset.mpr (h (List.mem_toFinset.mp hx))))

lemma unentered_cons_lt {name : String} {f : FragmentDefinition} (hf : d.fragment? name = some f)
    (hnot : name ∉ entered) : unentered d (name :: entered) < unentered d entered := by
  have hname : f.name.text = name := by simpa using List.find?_some hf
  have hmem : name ∈ d.fragments.map (·.name.text) :=
    List.mem_map.mpr ⟨f, List.mem_of_find?_eq_some hf, hname⟩
  refine Finset.card_lt_card ((Finset.ssubset_iff_of_subset ?_).mpr ⟨name, ?_, ?_⟩)
  · refine Finset.sdiff_subset_sdiff (Finset.Subset.refl _) fun x hx => ?_
    simp only [List.toFinset_cons, Finset.mem_insert]
    exact .inr hx
  · simp [hnot, List.mem_map.mp hmem]
  · simp

lemma unentered_nil_le (d : Document) : unentered d [] ≤ d.fragments.length := by
  simpa [unentered] using List.toFinset_card_le (d.fragments.map (·.name.text))

variable {steps : Nat} {enter : β → String → Walk α}

/-- A way to enter fragments that does so, as long as few of them are left. -/
def EntersWithin (w : Walker α β) (d : Document) (steps : Nat) (enter : β → String → Walk α) : Prop :=
  ∀ b name entered, unentered d entered ≤ steps →
    w.Enters d b name entered (enter b name entered).1 (enter b name entered).2

mutual

lemma selection_runs (h : w.EntersWithin d steps enter) (b : β) :
    ∀ (sel : Selection) (entered : List String), unentered d entered ≤ steps →
      w.Runs d b [sel] entered (w.selection enter b sel entered).1
        (w.selection enter b sel entered).2
  | .field f none, entered, hsteps => by
    rw [selection, step]
    have hleaf : w.Runs d b [.field f none] entered (w.own b (.field f none)) entered :=
      .leaf (by simp [Selection.inner?]) (by simp)
    cases w.next b (.field f none) <;> simpa using hleaf
  | .field f (some below), entered, hsteps => by
    rw [selection, step]
    cases hb : w.next b (.field f (some below)) with
    | none => simpa using Runs.leaf (by simp [hb]) (by simp)
    | some b' => exact .inside hb rfl (by simp) (selectionSet_runs h b' below entered hsteps)
  | .spread s, entered, hsteps => by
    rw [selection, step]
    cases hb : w.next b (.spread s) with
    | none => simpa using Runs.leaf (by simp [hb]) (by simp [hb])
    | some b' => exact Enters.spread hb (h b' s.name.text entered hsteps)
  | .inline i below, entered, hsteps => by
    rw [selection, step]
    cases hb : w.next b (.inline i below) with
    | none => simpa using Runs.leaf (by simp [hb]) (by simp)
    | some b' => exact .inside hb rfl (by simp) (selectionSet_runs h b' below entered hsteps)

lemma selectionSet_runs (h : w.EntersWithin d steps enter) (b : β) :
    ∀ (ss : SelectionSet) (entered : List String), unentered d entered ≤ steps →
      w.Runs d b ss.selections entered (w.selectionSet enter b ss entered).1
        (w.selectionSet enter b ss entered).2
  | .mk sels _, entered, hsteps => by
    rw [selectionSet]
    exact selections_runs h b sels entered hsteps

lemma selections_runs (h : w.EntersWithin d steps enter) (b : β) :
    ∀ (sels : List Selection) (entered : List String), unentered d entered ≤ steps →
      w.Runs d b sels entered (w.selections enter b sels entered).1
        (w.selections enter b sels entered).2
  | [], entered, hsteps => by
    rw [selections]
    exact .nil b entered
  | sel :: sels, entered, hsteps => by
    rw [selections]
    have hfirst := selection_runs h b sel entered hsteps
    exact hfirst.append (selections_runs h b sels _
      ((unentered_le_of_subset hfirst.subset).trans hsteps))

end

/-- Behind a spread there is the body of a fragment at most, and only at its first use. -/
lemma enter_enters {body : β → FragmentDefinition → Walk α} {name : String}
    (hbody : ∀ f b', name ∉ entered → d.fragment? name = some f → w.body b f = some b' →
      w.Runs d b' f.selectionSet.selections (name :: entered) (body b' f (name :: entered)).1
        (body b' f (name :: entered)).2) :
    w.Enters d b name entered (w.enter d body b name entered).1
      (w.enter d body b name entered).2 := by
  have hcons : ∀ other ∈ name :: entered, other ∈ entered ∨ other = name := by
    simp +contextual [or_comm]
  unfold Walker.enter Walk.once
  by_cases hmem : name ∈ entered
  · simpa [hmem] using Enters.idle hmem (fun _ h => .inl h) (List.Subset.refl _) (.inl hmem)
  simp only [List.contains_eq_mem, decide_eq_true_eq, hmem, if_false]
  cases hf : d.fragment? name with
  | none => exact .idle List.mem_cons_self hcons (List.subset_cons_self _ _) (.inr (by simp [hf]))
  | some f =>
    cases hb : w.body b f with
    | none =>
      have hnone : ∀ g, d.fragment? name = some g → w.body b g = none := fun g hg =>
        Option.some.inj (hf.symm.trans hg) ▸ hb
      simpa [hb] using Enters.idle List.mem_cons_self hcons (List.subset_cons_self _ _) (.inr hnone)
    | some b' =>
      have hruns := hbody f b' hmem hf hb
      simp only [hb]
      refine ⟨fun x hx => hruns.subset (List.mem_cons_of_mem _ hx),
        hruns.subset List.mem_cons_self, fun other hother => ?_, fun a ha => ?_⟩
      · rcases hruns.bodies other hother with hmem' | hcovers
        · rcases List.mem_cons.mp hmem' with rfl | hmem'
          · refine .inr ⟨b, fun g b₁ hg hb₁ => ?_⟩
            obtain rfl := Option.some.inj (hf.symm.trans hg)
            obtain rfl := Option.some.inj (hb.symm.trans hb₁)
            exact hruns.covers
          · exact .inl hmem'
        · exact .inr hcovers
      · exact ⟨f, b', hf, hb, hruns.met a ha⟩

/-- A walk never runs out of steps: each of them enters a fragment that was left. -/
lemma enter_entersWithin (w : Walker α β) (d : Document) (steps : Nat) :
    w.EntersWithin d steps (w.enter d (w.bodyWalk d steps)) := by
  induction steps with
  | zero =>
    refine fun b name entered hsteps => enter_enters fun f b' hnot hf _ => ?_
    have := unentered_cons_lt hf hnot
    omega
  | succ steps ih =>
    refine fun b name entered hsteps => enter_enters fun f b' hnot hf _ => ?_
    have := unentered_cons_lt hf hnot
    exact selectionSet_runs ih b' f.selectionSet (name :: entered) (by omega)

/-- Two ways to enter fragments are one, as long as few of them are left. -/
def SameWithin (d : Document) (steps : Nat) (enter enter' : β → String → Walk α) : Prop :=
  ∀ b name entered, unentered d entered ≤ steps → enter b name entered = enter' b name entered

section

variable {enter' : β → String → Walk α}

mutual

lemma selection_same (h : w.EntersWithin d steps enter) (hsame : SameWithin d steps enter enter')
    (b : β) : ∀ (sel : Selection) (entered : List String), unentered d entered ≤ steps →
      w.selection enter b sel entered = w.selection enter' b sel entered
  | .field f none, _, _ => rfl
  | .field f (some below), entered, hsteps => by
    rw [selection, selection, step, step]
    cases w.next b (.field f (some below)) with
    | none => rfl
    | some b' => simp [selectionSet_same h hsame b' below entered hsteps]
  | .spread s, entered, hsteps => by
    rw [selection, selection, step, step]
    cases w.next b (.spread s) with
    | none => rfl
    | some b' => simp [hsame b' s.name.text entered hsteps]
  | .inline i below, entered, hsteps => by
    rw [selection, selection, step, step]
    cases w.next b (.inline i below) with
    | none => rfl
    | some b' => simp [selectionSet_same h hsame b' below entered hsteps]

lemma selectionSet_same (h : w.EntersWithin d steps enter) (hsame : SameWithin d steps enter enter')
    (b : β) : ∀ (ss : SelectionSet) (entered : List String), unentered d entered ≤ steps →
      w.selectionSet enter b ss entered = w.selectionSet enter' b ss entered
  | .mk sels _, entered, hsteps => by
    rw [selectionSet, selectionSet]
    exact selections_same h hsame b sels entered hsteps

lemma selections_same (h : w.EntersWithin d steps enter) (hsame : SameWithin d steps enter enter')
    (b : β) : ∀ (sels : List Selection) (entered : List String), unentered d entered ≤ steps →
      w.selections enter b sels entered = w.selections enter' b sels entered
  | [], _, _ => rfl
  | sel :: sels, entered, hsteps => by
    have hlater := (unentered_le_of_subset (selection_runs h b sel entered hsteps).subset).trans hsteps
    rw [selections, selections, Walk.append_apply, Walk.append_apply,
      ← selection_same h hsame b sel entered hsteps, selections_same h hsame b sels _ hlater]

end

end

/-- More steps than there are fragments left make no difference. -/
lemma enter_stable (w : Walker α β) (d : Document) (steps more : Nat) :
    SameWithin d steps (w.enter d (w.bodyWalk d steps)) (w.enter d (w.bodyWalk d (steps + more))) := by
  induction steps with
  | zero =>
    intro b name entered hsteps
    unfold Walker.enter Walk.once
    by_cases hmem : name ∈ entered
    · simp [hmem]
    cases hf : d.fragment? name with
    | none => rfl
    | some f =>
      have := unentered_cons_lt hf hmem
      omega
  | succ steps ih =>
    intro b name entered hsteps
    unfold Walker.enter Walk.once
    by_cases hmem : name ∈ entered
    · simp [hmem]
    simp only [List.contains_eq_mem, decide_eq_true_eq, hmem, if_false]
    cases hf : d.fragment? name with
    | none => rfl
    | some f =>
      have hleft := unentered_cons_lt hf hmem
      cases hb : w.body b f with
      | none => simp [hb]
      | some b' =>
        simp only [hb, show steps + 1 + more = steps + more + 1 by omega]
        exact selectionSet_same (w.enter_entersWithin d steps) ih b' f.selectionSet (name :: entered)
          (by omega)

/-- **Enough steps**: a walk through selections takes no more steps than the document has fragments. -/
theorem selectionSet_stable (w : Walker α β) (d : Document) (b : β) (ss : SelectionSet) (more : Nat) :
    (w.selectionSet (w.enter d (w.bodyWalk d (d.fragments.length + more))) b ss).found
      = (w.selectionSet (w.enter d (w.bodyWalk d d.fragments.length)) b ss).found :=
  congrArg Prod.fst (selectionSet_same (w.enter_entersWithin d _) (w.enter_stable d _ more) b ss []
    (unentered_nil_le d)).symm

/-! ### What a walk finds -/

/-- **Coverage**: what a walk comes across accounts for all its selections, and for the bodies of all
fragments that they use. -/
theorem walk_covers (w : Walker α β) (d : Document) (b : β) (sels : List Selection) :
    ∃ entered, (∀ sel ∈ sels, w.Covers (w.walk d b sels).found entered b sel) ∧
      ∀ name ∈ entered, w.CoversBody d (w.walk d b sels).found entered name := by
  have hruns := selections_runs (w.enter_entersWithin d d.fragments.length) b sels []
    (unentered_nil_le d)
  refine ⟨_, hruns.covers, fun name hname => ?_⟩
  rcases hruns.bodies name hname with h | h
  · simp at h
  · exact h

/-- **Reachability**: if fragments look the same from everywhere, a walk comes across what stands at
the selections that it can reach, and nothing else. -/
theorem mem_walk_found (hbody : ∀ b b' f, w.body b f = w.body b' f) {a : α} :
    a ∈ (w.walk d b sels).found ↔
      ∃ sel ∈ sels, ∃ b' sel', w.Meets d b sel b' sel' ∧ a ∈ w.own b' sel' := by
  constructor
  · exact (selections_runs (w.enter_entersWithin d d.fragments.length) b sels []
      (unentered_nil_le d)).met a
  · rintro ⟨sel, hsel, b', sel', hmeets, ha⟩
    obtain ⟨entered, hcovers, hbodies⟩ := w.walk_covers d b sels
    have hfound := hcovers sel hsel
    generalize (w.walk d b sels).found = found at hfound hbodies ⊢
    clear hsel hcovers
    induction hmeets with
    | refl b sel => exact hfound.own a ha
    | inside next isInner mem rest ih => exact ih ha (hfound.inside next isInner mem)
    | @spread b b₁ b₂ b' s f sel₁ sel' next fragment body mem rest ih =>
      obtain ⟨b₀, hb₀⟩ := hbodies _ (hfound.spread next)
      exact ih ha (hb₀ f b₂ fragment ((hbody b₀ b₁ f).trans body) _ mem)

end Walker

end GraphQL
