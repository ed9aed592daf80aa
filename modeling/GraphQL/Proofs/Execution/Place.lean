import GraphQL.Execution
import GraphQL.Proofs.Grouping
import GraphQL.Proofs.Lists

/-!
Places in a response.

A path of response keys and list indices leads to a place. The selected fields and the answers of the
host say which places there are, and what was answered for each; the data says what came of it. Since
no two fields of an object have one response key, a path leads to one place at most.
-/

namespace GraphQL

/-! ### Response keys -/

/-- No two fields of one object have the same response key, at any depth. -/
inductive DistinctKeys : List SelectedField → Prop where
  | mk {fs : List SelectedField} (nodup : (fs.map (·.call.key)).Nodup)
      (below : ∀ f ∈ fs, ∀ gs, f.below? = some gs → DistinctKeys gs) : DistinctKeys fs

namespace DistinctKeys

variable {f : SelectedField} {fs gs : List SelectedField}

lemma keys (h : DistinctKeys fs) : (fs.map (·.call.key)).Nodup := by
  cases h with
  | mk nodup below => exact nodup

lemma next (h : DistinctKeys fs) (hf : f ∈ fs) (hgs : f.below? = some gs) : DistinctKeys gs := by
  cases h with
  | mk nodup below => exact below f hf gs hgs

end DistinctKeys

namespace SelectionContext

variable {c : SelectionContext}

/-- A merged field has the key of its group, and below it are fields that were built. -/
lemma mergeFields_below {run : TypeId → List SelectionSet → List SelectedField × List ResponseError}
    {parent : TypeId} {key : String} {group : List (Field × Option SelectionSet)}
    {g : SelectedField} {es : List ResponseError}
    (h : c.mergeFields run parent key group = some (g, es)) :
    g.call.key = key ∧ ∀ gs, g.below? = some gs → ∃ t sets, gs = (run t sets).1 := by
  unfold mergeFields at h
  split at h
  · simp at h
  · obtain ⟨spec, -, h⟩ := Option.map_eq_some_iff.mp h
    dsimp only at h
    split at h
    · obtain ⟨rfl, -⟩ := Prod.mk.inj h
      exact ⟨rfl, fun gs hgs => ⟨_, _, (Option.some.inj hgs).symm⟩⟩
    · obtain ⟨rfl, -⟩ := Prod.mk.inj h
      exact ⟨rfl, fun gs hgs => by simp [SelectedField.below?] at hgs⟩

theorem build_distinctKeys (levels : Nat) (parent : TypeId) (sets : List SelectionSet) :
    DistinctKeys (c.build levels parent sets).1 := by
  induction levels generalizing parent sets with
  | zero => exact .mk List.nodup_nil (by simp [build])
  | succ levels ih =>
    rw [build]
    dsimp only
    refine .mk ?_ fun g hg gs hgs => ?_
    · have hkeys : ((groupByKey (·.1.responseKey)
          ((c.collect parent sets).filterMap (·.field?))).map (·.1)).Nodup := keys_groupByKey_nodup _
      refine hkeys.sublist ?_
      rw [List.map_map]
      exact map_filterMap_sublist fun group _ merged h => (mergeFields_below h).1
    · obtain ⟨⟨g, es⟩, hmem, rfl⟩ := List.mem_map.mp hg
      obtain ⟨⟨key, group⟩, -, hmerge⟩ := List.mem_filterMap.mp hmem
      obtain ⟨t, below, rfl⟩ := (mergeFields_below hmerge).2 gs hgs
      exact ih t below

end SelectionContext

/-! ### Places -/

namespace Value

/-- The value one step below another. -/
def child? : Value → PathSegment → Option Value
  | list _ vs, .index n => vs[n]?
  | object _ fs, .key k => fs.lookup k
  | _, _ => none

/-- What a path leads to. -/
def at? (v : Value) : Path → Option Value
  | [] => some v
  | s :: path => (v.child? s).bind fun w => at? w path

/-- On its way down, a path comes to null. -/
def MeetsNull (v : Value) (path : Path) : Prop :=
  ∃ front w, front <+: path ∧ v.at? front = some w ∧ w.isNull = true

end Value

/-- A place: what is declared for it, what the host answered there, and what is selected below. -/
structure Place (ρ : Type) where
  type : TypeId
  answer : Except String (HostValue ρ)
  below? : Option (List SelectedField)

namespace ExecutionContext

variable {ρ : Type}

/-- The place of a field of the object at `path`. -/
def fieldPlace (c : ExecutionContext ρ) (parent : TypeId) (path : Path) (r : ρ) (f : SelectedField) :
    Place ρ :=
  ⟨f.call.type, c.host r ⟨c.schema, parent, path ++ [.key f.call.key], f, c.isCancelled⟩, f.below?⟩

/-- The place one step below the object at `path`. -/
def keyPlace? (c : ExecutionContext ρ) (parent : TypeId) (path : Path) (r : ρ)
    (fs : List SelectedField) : PathSegment → Option (Place ρ)
  | .key k => (SelectedField.find? fs k).map (c.fieldPlace parent path r)
  | .index _ => none

/-- The place one step below the place at `path`. -/
def placeBelow? (c : ExecutionContext ρ) (path : Path) (p : Place ρ) (s : PathSegment) :
    Option (Place ρ) :=
  match p.answer, s with
  | .ok (.list vs), .index n =>
    (c.schema.element? p.type).bind fun e => vs[n]?.map fun v => ⟨e, .ok v, p.below?⟩
  | .ok (.object r), s => p.below?.bind fun fs => c.keyPlace? p.type.nullable path r fs s
  | _, _ => none

/-- The place that `more` leads to from the place at `path`. -/
def descend? (c : ExecutionContext ρ) (path : Path) (p : Place ρ) : Path → Option (Place ρ)
  | [] => some p
  | s :: more => (c.placeBelow? path p s).bind fun q => descend? c (path ++ [s]) q more

/-- Places are where they are if each leads on to those below it. -/
def Leads (c : ExecutionContext ρ) (places : Path → Option (Place ρ)) : Prop :=
  ∀ path p s, places path = some p → places (path ++ [s]) = c.placeBelow? path p s

variable {c : ExecutionContext ρ}

lemma keyPlace?_of_mem {parent : TypeId} {path : Path} {r : ρ} {f : SelectedField}
    {fs : List SelectedField} (h : (fs.map (·.call.key)).Nodup) (hf : f ∈ fs) :
    c.keyPlace? parent path r fs (.key f.call.key) = some (c.fieldPlace parent path r f) := by
  rw [keyPlace?, SelectedField.find?, find?_of_nodup_keys h hf, Option.map_some]

lemma placeBelow?_item {path : Path} {p : Place ρ} {vs : List (HostValue ρ)} {v : HostValue ρ}
    {e : TypeId} {n : Nat} (ha : p.answer = .ok (.list vs)) (he : c.schema.element? p.type = some e)
    (hv : vs[n]? = some v) : c.placeBelow? path p (.index n) = some ⟨e, .ok v, p.below?⟩ := by
  simp [placeBelow?, ha, he, hv]

lemma placeBelow?_field {path : Path} {p : Place ρ} {r : ρ} {f : SelectedField}
    {fs : List SelectedField} (ha : p.answer = .ok (.object r)) (hb : p.below? = some fs)
    (h : (fs.map (·.call.key)).Nodup) (hf : f ∈ fs) :
    c.placeBelow? path p (.key f.call.key) = some (c.fieldPlace p.type.nullable path r f) := by
  simp [placeBelow?, ha, hb, keyPlace?_of_mem h hf]

lemma descend?_append (path : Path) (p : Place ρ) (front more : Path) :
    c.descend? path p (front ++ more)
      = (c.descend? path p front).bind fun q => c.descend? (path ++ front) q more := by
  induction front generalizing path p with
  | nil => simp [descend?]
  | cons s front ih =>
    rw [List.cons_append, descend?, descend?, Option.bind_assoc]
    refine Option.bind_congr fun q _ => ?_
    rw [ih, List.append_assoc, List.singleton_append]

end ExecutionContext

namespace PreparedOperation

variable {ρ : Type}

/-- What an operation is executed in. -/
def context (p : PreparedOperation) (host : Host ρ) (isCancelled : Bool) :
    ExecutionContext (ExecutionObject ρ) :=
  ⟨p.schema, host.withIntrospection, isCancelled⟩

/-- The place that a path leads to. The root object, which is not asked for, is none. -/
def place? (p : PreparedOperation) (host : Host ρ) (root : ρ) (isCancelled : Bool) :
    Path → Option (Place (ExecutionObject ρ))
  | [] => none
  | s :: path =>
    let c := p.context host isCancelled
    (c.keyPlace? p.root [] (.host root) p.fields s).bind fun q => c.descend? [s] q path

lemma place?_leads (p : PreparedOperation) (host : Host ρ) (root : ρ) (isCancelled : Bool) :
    (p.context host isCancelled).Leads (p.place? host root isCancelled) := by
  intro path q s hq
  cases path with
  | nil => simp [place?] at hq
  | cons first path =>
    rw [place?] at hq
    obtain ⟨q₀, hq₀, hq⟩ := Option.bind_eq_some_iff.mp hq
    rw [List.cons_append, place?, hq₀, Option.bind_some, ExecutionContext.descend?_append, hq, Option.bind_some]
    simp [ExecutionContext.descend?]

end PreparedOperation

end GraphQL
