import GraphQL.Schema
import GraphQL.Proofs.Type.Counterpart

/-!
Interning.

Types are asked for one by one, and each answer is a handle. However often and in whatever order a type is
asked for, it has one handle, and no other type has that handle. A look-up finds what was asked for before
and nothing else, and how a handle is shown tells it from all others.

The same is done by a registry that keeps three tables: what stands in each slot, the slot of each name,
and the list over each element. Its look-ups only read the second and the third, so they are right as long
as all three stay in step with the slots.
-/

namespace GraphQL

/-! ### Tables -/

/-- A registry that remembers names and lists apart from the slots. -/
structure TypeTables where
  id : Nat
  shapes : List TypeShape
  /-- The slot of each name. -/
  slots : List (String × Nat)
  /-- The list over each element. -/
  lists : List (TypeId × TypeId)

namespace TypeTables

def empty (id : Nat) : TypeTables := ⟨id, [], [], []⟩

/-- The nullable type in a slot. -/
def handle (m : TypeTables) (slot : Nat) : TypeId := ⟨m.id, slot, false⟩

def named? (m : TypeTables) (name : String) : Option TypeId := (m.slots.lookup name).map m.handle

def listOf? (m : TypeTables) (element : TypeId) : Option TypeId := m.lists.lookup element

/-- The type of a name. A new one takes the next slot, and the name is entered with it. -/
def named (m : TypeTables) (name : String) : TypeId × TypeTables :=
  match m.named? name with
  | some t => (t, m)
  | none =>
    let slot := m.shapes.length
    (m.handle slot,
      { m with shapes := m.shapes ++ [.named name], slots := (name, slot) :: m.slots })

/-- The list over an element. A new one takes the next slot, and is entered under its element. -/
def listOf (m : TypeTables) (element : TypeId) : TypeId × TypeTables :=
  match m.listOf? element with
  | some t => (t, m)
  | none =>
    let list := m.handle m.shapes.length
    (list, { m with shapes := m.shapes ++ [.list element], lists := (element, list) :: m.lists })

/-- The tables say of each name and each list what the slots of a registry say. -/
structure InStep (m : TypeTables) (r : TypeRegistry) : Prop where
  id : m.id = r.id
  shapes : m.shapes = r.shapes
  named? : ∀ name, m.named? name = r.named? name
  listOf? : ∀ e, m.listOf? e = r.listOf? e

end TypeTables

namespace TypeRegistry

variable {r : TypeRegistry} {s s' : TypeShape} {t u e : TypeId}

/-! ### One call -/

lemma intern_of_find? (h : r.find? s = some t) : r.intern s = (t, r) := by
  rw [intern, h]

lemma intern_of_new (h : r.find? s = none) :
    r.intern s = (r.handle r.size, { r with shapes := r.shapes ++ [s] }) := by
  rw [intern, h]

/-- A call makes its own shape known, and nothing else. -/
lemma find?_intern (r : TypeRegistry) (s s' : TypeShape) :
    (r.intern s).2.find? s' = if s' = s then some (r.intern s).1 else r.find? s' := by
  cases hfind : r.find? s with
  | some t =>
    rw [intern_of_find? hfind]
    split
    · rename_i heq
      rw [heq, hfind]
    · rfl
  | none =>
    have hnew : r.shapes.idxOf? s = none := Option.map_eq_none_iff.mp hfind
    rw [intern_of_new hfind]
    have happend : (r.shapes ++ [s]).idxOf? s' =
        (r.shapes.idxOf? s').or (([s].idxOf? s').map (· + r.size)) := List.findIdx?_append
    unfold find?
    rw [happend]
    by_cases heq : s' = s
    · subst heq
      rw [if_pos rfl, hnew]
      simp [handle]
    · have hlast : [s].idxOf? s' = none := by simp [Ne.symm heq]
      rw [if_neg heq, hlast, Option.map_none, Option.or_none]
      rfl

end TypeRegistry

namespace TypeTables

variable {m : TypeTables} {r : TypeRegistry}

/-- An entry in front is found under its own key. -/
lemma lookup_entered {κ β : Type} [BEq κ] [LawfulBEq κ] [DecidableEq κ] (entries : List (κ × β)) (k k' : κ)
    (b : β) : List.lookup k' ((k, b) :: entries) = if k' = k then some b else List.lookup k' entries := by
  rw [List.lookup_cons]
  by_cases heq : k' = k
  · rw [if_pos heq, beq_iff_eq.mpr heq]
  · rw [if_neg heq, beq_eq_false_iff_ne.mpr heq]

namespace InStep

lemma empty (id : Nat) : (TypeTables.empty id).InStep (.empty id) := ⟨rfl, rfl, fun _ => rfl, fun _ => rfl⟩

lemma handle (h : m.InStep r) : m.handle = r.handle := by
  funext slot
  rw [TypeTables.handle, h.id]
  rfl

/-- Both answer alike when a name is asked for, and are in step afterwards. -/
lemma named (h : m.InStep r) (name : String) :
    (m.named name).1 = (r.named name).1 ∧ (m.named name).2.InStep (r.named name).2 := by
  unfold TypeTables.named
  rw [h.named? name]
  cases hfind : r.named? name with
  | some t =>
    rw [TypeRegistry.named, TypeRegistry.intern_of_find? hfind]
    exact ⟨rfl, h⟩
  | none =>
    have hrun := TypeRegistry.intern_of_new hfind
    have hnext : (r.named name).1 = r.handle r.size := congrArg Prod.fst hrun
    refine ⟨?_, ?_⟩
    · rw [hnext, h.handle, h.shapes]
      rfl
    · refine ⟨h.id.trans (congrArg (·.2.id) hrun).symm, ?_, fun other => ?_, fun e => ?_⟩
      · exact (congrArg (· ++ [TypeShape.named name]) h.shapes).trans (congrArg (·.2.shapes) hrun).symm
      · refine Eq.trans ?_ (TypeRegistry.find?_intern r (.named name) (.named other)).symm
        show (List.lookup other ((name, m.shapes.length) :: m.slots)).map m.handle = _
        rw [lookup_entered]
        by_cases heq : other = name
        · rw [if_pos (congrArg TypeShape.named heq), if_pos heq, h.handle, h.shapes]
          exact congrArg some hnext.symm
        · rw [if_neg (fun hc => heq (TypeShape.named.inj hc)), if_neg heq]
          exact h.named? other
      · refine Eq.trans ?_ (TypeRegistry.find?_intern r (.named name) (.list e)).symm
        rw [if_neg TypeShape.noConfusion]
        exact h.listOf? e

/-- Both answer alike when a list is asked for, and are in step afterwards. -/
lemma listOf (h : m.InStep r) (e : TypeId) :
    (m.listOf e).1 = (r.listOf e).1 ∧ (m.listOf e).2.InStep (r.listOf e).2 := by
  unfold TypeTables.listOf
  rw [h.listOf? e]
  cases hfind : r.listOf? e with
  | some t =>
    rw [TypeRegistry.listOf, TypeRegistry.intern_of_find? hfind]
    exact ⟨rfl, h⟩
  | none =>
    have hrun := TypeRegistry.intern_of_new hfind
    have hnext : (r.listOf e).1 = m.handle m.shapes.length := by
      rw [h.handle, h.shapes]
      exact congrArg Prod.fst hrun
    refine ⟨hnext.symm, h.id.trans (congrArg (·.2.id) hrun).symm, ?_, fun name => ?_, fun other => ?_⟩
    · exact (congrArg (· ++ [TypeShape.list e]) h.shapes).trans (congrArg (·.2.shapes) hrun).symm
    · refine Eq.trans ?_ (TypeRegistry.find?_intern r (.list e) (.named name)).symm
      rw [if_neg TypeShape.noConfusion]
      exact h.named? name
    · refine Eq.trans ?_ (TypeRegistry.find?_intern r (.list e) (.list other)).symm
      show List.lookup other ((e, m.handle m.shapes.length) :: m.lists) = _
      rw [lookup_entered]
      by_cases heq : other = e
      · rw [if_pos (congrArg TypeShape.list heq), if_pos heq]
        exact congrArg some hnext.symm
      · rw [if_neg (fun hc => heq (TypeShape.list.inj hc)), if_neg heq]
        exact h.listOf? other

end InStep

end TypeTables

/-! ### Calls in any order -/

/-- A name that cannot be taken for part of a list or of a mark. -/
def IsPlainName (name : String) : Prop := ∀ c ∈ name.toList, c ≠ '[' ∧ c ≠ ']' ∧ c ≠ '!'

instance (name : String) : Decidable (IsPlainName name) := List.decidableBAll _ _

/-- A registry and tables that were asked for the same types, and what the registry answered, the latest
answer first. Lists are asked for over handles that the registry has. -/
inductive Asked (id : Nat) : List (TypeShape × TypeId) → TypeRegistry → TypeTables → Prop where
  | nothing : Asked id [] (.empty id) (.empty id)
  | named (before : Asked id answers r m) (plain : IsPlainName name) :
      Asked id ((.named name, (r.named name).1) :: answers) (r.named name).2 (m.named name).2
  | listOf (before : Asked id answers r m) (element : TypeRegistry.Has r e) :
      Asked id ((.list e, (r.listOf e).1) :: answers) (r.listOf e).2 (m.listOf e).2

namespace Asked

variable {id : Nat} {answers : List (TypeShape × TypeId)} {r : TypeRegistry} {m : TypeTables}

/-- The tables never get out of step. -/
lemma inStep (h : Asked id answers r m) : m.InStep r := by
  induction h with
  | nothing => exact .empty id
  | named _ _ ih => exact (ih.named _).2
  | listOf _ _ ih => exact (ih.listOf _).2

lemma wellFormed (h : Asked id answers r m) : r.WellFormed := by
  induction h with
  | nothing => exact ⟨List.nodup_nil, by simp [TypeRegistry.empty]⟩
  | named _ _ ih => exact (TypeRegistry.intern_spec ih fun _ h => TypeShape.noConfusion h).1
  | listOf _ element ih =>
    exact (TypeRegistry.intern_spec ih fun e he => TypeShape.list.inj he ▸ element).1

lemma mem_shapes {s s' : TypeShape} (h : s' ∈ (r.intern s).2.shapes) : s' = s ∨ s' ∈ r.shapes := by
  have hfound := TypeRegistry.find?_isSome_iff.mpr h
  rw [TypeRegistry.find?_intern] at hfound
  split at hfound
  · exact .inl ‹_›
  · exact .inr (TypeRegistry.find?_isSome_iff.mp hfound)

lemma plain (h : Asked id answers r m) : ∀ name, .named name ∈ r.shapes → IsPlainName name := by
  induction h with
  | nothing => exact fun _ h => nomatch h
  | named _ plain ih =>
    intro other hother
    obtain heq | hold := mem_shapes hother
    · exact TypeShape.named.inj heq ▸ plain
    · exact ih other hold
  | listOf _ _ ih =>
    intro other hother
    obtain heq | hold := mem_shapes hother
    · exact nomatch heq
    · exact ih other hold

/-- What one call adds to the answers is what it adds to the look-ups. -/
lemma find?_iff_cons {s s₀ : TypeShape} {t : TypeId}
    (ih : ∀ s t, r.find? s = some t ↔ (s, t) ∈ answers) :
    (r.intern s₀).2.find? s = some t ↔ (s, t) ∈ (s₀, (r.intern s₀).1) :: answers := by
  rw [TypeRegistry.find?_intern, List.mem_cons, Prod.mk.injEq]
  by_cases heq : s = s₀
  · subst heq
    rw [if_pos rfl, Option.some.injEq]
    refine ⟨fun h => .inl ⟨rfl, h.symm⟩, ?_⟩
    rintro (⟨-, rfl⟩ | hmem)
    · rfl
    · rw [TypeRegistry.intern_of_find? ((ih s t).mpr hmem)]
  · rw [if_neg heq, ih]
    exact ⟨.inr, fun h => h.resolve_left fun hc => heq hc.1⟩

/-- A look-up finds what was answered before. -/
lemma find?_iff (h : Asked id answers r m) (s : TypeShape) (t : TypeId) :
    r.find? s = some t ↔ (s, t) ∈ answers := by
  induction h generalizing s t with
  | nothing => exact ⟨fun h => (nomatch h), fun h => (nomatch h)⟩
  | named _ _ ih => exact find?_iff_cons ih
  | listOf _ _ ih => exact find?_iff_cons ih

end Asked

/-! ### How types are shown -/

namespace TypeRegistry

variable {r : TypeRegistry} {t u e : TypeId} {name : String}

/-- A text that does not end with a mark is told apart from its mark. -/
lemma append_mark_inj {a b : List Char} {p q : Bool} (ha : a.getLast? ≠ some '!') (hb : b.getLast? ≠ some '!')
    (h : a ++ (if p then ['!'] else []) = b ++ (if q then ['!'] else [])) : a = b ∧ p = q := by
  cases p <;> cases q
  · exact ⟨by simpa using h, rfl⟩
  · exact absurd (by simp [show a = b ++ ['!'] by simpa using h]) ha
  · exact absurd (by simp [show b = a ++ ['!'] by simpa using h.symm]) hb
  · exact ⟨by simpa using h, rfl⟩

/-- What is shown of a type in front of its mark. -/
def core (r : TypeRegistry) (t : TypeId) : List Char :=
  match r.shape? t with
  | some (.named name) => name.toList
  | some (.list e) => '[' :: ((r.nameOf e).toList ++ [']'])
  | none => []

lemma core_named (h : r.shape? t = some (.named name)) : r.core t = name.toList := by
  rw [core, h]

lemma core_list (h : r.shape? t = some (.list e)) : r.core t = '[' :: ((r.nameOf e).toList ++ [']']) := by
  rw [core, h]

lemma toList_nameOf (hr : r.WellFormed) (ht : r.Has t) :
    (r.nameOf t).toList = r.core t ++ if t.isNonNull then ['!'] else [] := by
  have hmark : (if t.isNonNull then "!" else "").toList = if t.isNonNull then ['!'] else [] := by
    split <;> rfl
  obtain ⟨name, hshape⟩ | ⟨e, hshape⟩ := ht.shape?
  · rw [nameOf_single (element?_eq_none hshape) hshape, core_named hshape, String.toList_append, hmark]
  · have he : r.element? t = some e := by rw [element?, hshape]
    rw [nameOf_list hr he, core_list hshape, String.toList_append, hmark, String.toList_append,
      String.toList_append]
    rfl

variable (hplain : ∀ name, .named name ∈ r.shapes → IsPlainName name)

include hplain

lemma getLast?_core (ht : r.Has t) : (r.core t).getLast? ≠ some '!' := by
  obtain ⟨name, hshape⟩ | ⟨e, hshape⟩ := ht.shape?
  · rw [core_named hshape]
    intro hlast
    exact (hplain name (mem_of_shape? hshape) '!' (List.mem_of_getLast? hlast)).2.2 rfl
  · rw [core_list hshape, ← List.cons_append, List.getLast?_concat]
    decide

/-- No name is shown as a list is. -/
lemma core_ne (ht : r.shape? t = some (.named name)) (hu : r.shape? u = some (.list e)) : r.core t ≠ r.core u := by
  rw [core_named ht, core_list hu]
  intro h
  exact (hplain name (mem_of_shape? ht) '[' (h ▸ List.mem_cons_self)).1 rfl

/-- What is shown alike has the same mark, and the same in front of it. -/
lemma shown_alike (hr : r.WellFormed) (ht : r.Has t) (hu : r.Has u) (h : r.nameOf t = r.nameOf u) :
    r.core t = r.core u ∧ u.isNonNull = t.isNonNull := by
  have hlists := congrArg String.toList h
  rw [toList_nameOf hr ht, toList_nameOf hr hu] at hlists
  obtain ⟨hcore, hnull⟩ := append_mark_inj (getLast?_core hplain ht) (getLast?_core hplain hu) hlists
  exact ⟨hcore, hnull.symm⟩

/-- **A type is told by how it is shown.** -/
theorem eq_of_nameOf (hr : r.WellFormed) (ht : r.Has t) (hu : r.Has u) (h : r.nameOf t = r.nameOf u) :
    t = u := by
  induction t using typeInduction hr generalizing u with
  | single t hsingle =>
    obtain ⟨hcore, hnull⟩ := shown_alike hplain hr ht hu h
    obtain ⟨name, hname⟩ := ht.named_of_single hsingle
    obtain ⟨name', hname'⟩ | ⟨e', he'⟩ := hu.shape?
    · rw [core_named hname, core_named hname', String.toList_inj] at hcore
      exact hr.eq_of_shape? hname (hcore ▸ hname') hnull
    · exact absurd hcore (core_ne hplain hname he')
  | list t e he ih =>
    obtain ⟨hcore, hnull⟩ := shown_alike hplain hr ht hu h
    have hshape := shape?_of_element? he
    obtain ⟨name', hname'⟩ | ⟨e', hshape'⟩ := hu.shape?
    · exact absurd hcore.symm (core_ne hplain hname' hshape)
    · have he' : r.element? u = some e' := by rw [element?, hshape']
      rw [core_list hshape, core_list hshape', List.cons_inj_right, List.append_left_inj,
        String.toList_inj] at hcore
      obtain rfl := ih (element_slot_lt hr he).1 (element_slot_lt hr he').1 hcore
      exact hr.eq_of_shape? hshape hshape' hnull

omit hplain

/-! ### Interning is canonical -/

/-- Each type stands for the same as itself. -/
lemma SameType.refl (hr : r.WellFormed) (ht : r.Has t) : SameType r r t t := by
  induction t using typeInduction hr with
  | single t hsingle =>
    obtain ⟨name, hshape⟩ := ht.named_of_single hsingle
    exact .named hshape hshape rfl
  | list t e he ih => exact .list he he (ih (element_slot_lt hr he).1) rfl

/-- What holds of a registry that gave these answers. -/
structure Canonical (answers : List (TypeShape × TypeId)) (r : TypeRegistry) : Prop where
  /-- Handles are equal if and only if they stand for the same type: the same name or the same element, with
  null or without. -/
  eq_iff : ∀ t u, r.Has t → r.Has u → (t = u ↔ SameType r r t u)
  /-- The element of a list was there before the list. -/
  element_lt : ∀ t e, r.shape? t = some (.list e) → r.Has e ∧ e.slot < t.slot
  /-- Elements of elements come to an end, and below all lists there is none. -/
  unwraps : (WellFounded fun e t => r.element? t = some e) ∧ ∀ t, r.element? (r.innermost t) = none
  /-- A handle has the shape that it was given for. -/
  shape? : ∀ s t, (s, t) ∈ answers → r.shape? t = some s
  /-- A list is found if and only if it was asked for, and the handle is the one that was answered. -/
  listOf?_iff : ∀ e t, r.listOf? e = some t ↔ (.list e, t) ∈ answers
  /-- So it is with names. -/
  named?_iff : ∀ name t, r.named? name = some t ↔ (.named name, t) ∈ answers
  /-- To ask once more gives the same answer and changes nothing. -/
  again : ∀ s t, (s, t) ∈ answers → r.intern s = (t, r)
  /-- No two types are shown alike. -/
  typeName_injective : ∀ s : Schema, s.registry = r → Set.InjOn s.typeName {t | r.Has t}

lemma wellFounded_element? (hr : r.WellFormed) : WellFounded fun e t => r.element? t = some e :=
  Subrelation.wf (fun h => (element_slot_lt hr h).2) (measure TypeId.slot).wf

/-- **Interning is canonical**, whatever names and lists are asked for, in whatever order, and however
often. Tables that are asked the same answer the same. -/
theorem asked_canonical {id : Nat} {answers : List (TypeShape × TypeId)} {m : TypeTables}
    (h : Asked id answers r m) :
    Canonical answers r ∧ m.InStep r ∧ (∀ name, (m.named name).1 = (r.named name).1) ∧
      ∀ e, (m.listOf e).1 = (r.listOf e).1 := by
  have hr := h.wellFormed
  refine ⟨?_, h.inStep, fun name => (h.inStep.named name).1, fun e => (h.inStep.listOf e).1⟩
  exact {
    eq_iff := fun t u ht _ => ⟨fun heq => heq ▸ .refl hr ht, SameType.eq hr⟩
    element_lt := fun t e hshape => element_slot_lt hr (by rw [element?, hshape])
    unwraps := ⟨wellFounded_element? hr, element?_innermost hr⟩
    shape? := fun s t hmem => (find?_spec ((h.find?_iff s t).mpr hmem)).2.2
    listOf?_iff := fun e t => h.find?_iff (.list e) t
    named?_iff := fun name t => h.find?_iff (.named name) t
    again := fun s t hmem => intern_of_find? ((h.find?_iff s t).mpr hmem)
    typeName_injective := by
      rintro s rfl t ht u hu hname
      exact eq_of_nameOf h.plain hr ht hu hname }

/-- The theorem at a registry that was asked for `Int`, for the list of it that excludes null, and for that
list once more. -/
theorem asked_canonical_of_sample : ∃ r m,
    Asked 1 [(.list ⟨1, 0, true⟩, ⟨1, 1, false⟩), (.list ⟨1, 0, true⟩, ⟨1, 1, false⟩), (.named "Int", ⟨1, 0, false⟩)]
      r m ∧
    Canonical [(.list ⟨1, 0, true⟩, ⟨1, 1, false⟩), (.list ⟨1, 0, true⟩, ⟨1, 1, false⟩),
      (.named "Int", ⟨1, 0, false⟩)] r ∧ m.InStep r := by
  have hplain : IsPlainName "Int" := by decide
  have hnothing : Asked 1 [] (.empty 1) (.empty 1) := .nothing
  have hint := Asked.named hnothing hplain
  have honce := Asked.listOf (e := ⟨1, 0, true⟩) hint ⟨rfl, by decide⟩
  have htwice := Asked.listOf (e := ⟨1, 0, true⟩) honce ⟨rfl, by decide⟩
  obtain ⟨hcanonical, hstep, -⟩ := asked_canonical htwice
  exact ⟨_, _, htwice, hcanonical, hstep⟩

end TypeRegistry

end GraphQL
