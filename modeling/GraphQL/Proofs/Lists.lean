import Mathlib.Tactic

/-!
Lists that stand side by side.
-/

namespace GraphQL

variable {α β : Type} {R : α → β → Prop} {as : List α} {bs : List β}

lemma forall₂_exists_right (h : List.Forall₂ R as bs) {a : α} (ha : a ∈ as) : ∃ b ∈ bs, R a b := by
  induction h with
  | nil => simp at ha
  | cons hab _ ih =>
    rcases List.mem_cons.mp ha with rfl | ha
    · exact ⟨_, List.mem_cons_self, hab⟩
    · obtain ⟨b, hb, hR⟩ := ih ha
      exact ⟨b, List.mem_cons_of_mem _ hb, hR⟩

lemma forall₂_and {S : α → β → Prop} (h : List.Forall₂ R as bs) (h' : List.Forall₂ S as bs) :
    List.Forall₂ (fun a b => R a b ∧ S a b) as bs := by
  obtain ⟨hlen, hR⟩ := List.forall₂_iff_zip.mp h
  obtain ⟨-, hS⟩ := List.forall₂_iff_zip.mp h'
  exact List.forall₂_iff_zip.mpr ⟨hlen, fun hmem => ⟨hR hmem, hS hmem⟩⟩

lemma exists_mem_zipIdx {a : α} (ha : a ∈ as) : ∃ n, (a, n) ∈ as.zipIdx := by
  rw [← List.zipIdx_map_fst 0 as, List.mem_map] at ha
  obtain ⟨⟨b, n⟩, hmem, rfl⟩ := ha
  exact ⟨n, hmem⟩

lemma forall₂_exists_left (h : List.Forall₂ R as bs) {b : β} (hb : b ∈ bs) : ∃ a ∈ as, R a b :=
  forall₂_exists_right h.flip hb

lemma exists_mem_zip (h : as.length = bs.length) {b : β} (hb : b ∈ bs) : ∃ a, (a, b) ∈ as.zip bs := by
  obtain ⟨i, hi, rfl⟩ := List.getElem_of_mem hb
  refine ⟨as[i], ?_⟩
  rw [List.mem_iff_getElem]
  exact ⟨i, by simpa [h] using hi, by simp⟩

lemma forall₂_map_eq {γ : Type} {f : α → γ} {g : β → γ} (h : List.Forall₂ R as bs)
    (hfg : ∀ a b, R a b → f a = g b) : as.map f = bs.map g := by
  induction h with
  | nil => rfl
  | cons hab _ ih => rw [List.map_cons, List.map_cons, hfg _ _ hab, ih]

lemma forall₂_filterMap_eq {γ : Type} {f : α → Option γ} {g : β → Option γ} (h : List.Forall₂ R as bs)
    (heq : ∀ a b, R a b → f a = g b) : as.filterMap f = bs.filterMap g := by
  induction h with
  | nil => rfl
  | cons hab _ ih => rw [List.filterMap_cons, List.filterMap_cons, heq _ _ hab, ih]

/-- What stands beside lists that are the same under a map stands side by side. -/
lemma forall₂_of_map_eq {γ δ ε : Type} {R' : γ → δ → Prop} {S : β → δ → Prop} {f : α → ε} {g : γ → ε}
    {cs : List γ} {ds : List δ} (h : List.Forall₂ R as bs) (h' : List.Forall₂ R' cs ds)
    (hmap : as.map f = cs.map g) (hS : ∀ a b c d, f a = g c → R a b → R' c d → S b d) :
    List.Forall₂ S bs ds := by
  induction h generalizing cs ds with
  | nil =>
    obtain rfl := List.map_eq_nil_iff.mp hmap.symm
    obtain rfl := List.forall₂_nil_left_iff.mp h'
    exact .nil
  | cons hR _ ih =>
    obtain ⟨c, cs, rfl, hc, hcs⟩ := List.map_eq_cons_iff.mp hmap.symm
    obtain ⟨d, ds, hR', hrest, rfl⟩ := List.forall₂_cons_left_iff.mp h'
    exact .cons (hS _ _ _ _ hc.symm hR hR') (ih hrest hcs.symm)

/-- What is first found in two lists stands side by side. -/
lemma forall₂_find? {p : α → Bool} {q : β → Bool} (h : List.Forall₂ R as bs)
    (hpq : ∀ a b, R a b → p a = q b) : Option.Rel R (as.find? p) (bs.find? q) := by
  induction h with
  | nil => exact .none
  | @cons a b _ _ hab _ ih =>
    rw [List.find?_cons, List.find?_cons, hpq a b hab]
    cases q b with
    | true => exact .some hab
    | false => exact ih

/-- A member is found by its key. -/
lemma find?_of_nodup_keys {key : α → String} (h : (as.map key).Nodup) {a : α} (ha : a ∈ as) :
    (as.find? fun b => key b == key a) = some a := by
  cases hfind : as.find? fun b => key b == key a with
  | none => simpa using List.find?_eq_none.mp hfind a ha
  | some b =>
    have hb : key b = key a := by simpa using List.find?_some hfind
    exact congrArg some (List.inj_on_of_nodup_map h (List.mem_of_find?_eq_some hfind) ha hb)

/-- A member is the only one of its key. -/
lemma filter_of_nodup_keys [DecidableEq β] {key : α → β} (h : (as.map key).Nodup) {a : α} (ha : a ∈ as) :
    as.filter (fun b => key b == key a) = [a] := by
  obtain ⟨before, after, rfl⟩ := List.append_of_mem ha
  rw [List.map_append, List.map_cons, List.nodup_middle, List.nodup_cons, List.mem_append, not_or,
    List.mem_map, List.mem_map] at h
  have hbefore : before.filter (fun b => key b == key a) = [] :=
    List.filter_eq_nil_iff.mpr fun b hb heq => h.1.1 ⟨b, hb, beq_iff_eq.mp heq⟩
  have hafter : after.filter (fun b => key b == key a) = [] :=
    List.filter_eq_nil_iff.mpr fun b hb heq => h.1.2 ⟨b, hb, beq_iff_eq.mp heq⟩
  rw [List.filter_append, List.filter_cons, hbefore, hafter, List.nil_append, beq_self_eq_true, if_pos rfl]

/-- What belongs to the member that is found by a key. -/
lemma find?_map_eq_lookup {key : α → String} {val : α → β} (as : List α) (k : String) :
    (as.find? fun a => key a == k).map val = (as.map fun a => (key a, val a)).lookup k := by
  induction as with
  | nil => rfl
  | cons a as ih =>
    rw [List.find?_cons, List.map_cons, List.lookup_cons, Bool.beq_comm]
    cases k == key a with
    | true => rfl
    | false => exact ih

/-- A function that is nowhere without a value. -/
lemma map_eq_filterMap_some {f : α → Option β} (h : ∀ a ∈ as, (f a).isSome) :
    as.map f = (as.filterMap f).map some := by
  induction as with
  | nil => rfl
  | cons a as ih =>
    obtain ⟨ha, has⟩ := List.forall_mem_cons.mp h
    obtain ⟨b, hb⟩ := Option.isSome_iff_exists.mp ha
    rw [List.map_cons, List.filterMap_cons, hb, ih has, List.map_cons]

/-- What is left of a list, in its order. -/
lemma map_filterMap_sublist {γ : Type} {f : α → Option β} {k : β → γ} {l : α → γ}
    (h : ∀ a ∈ as, ∀ b, f a = some b → k b = l a) : ((as.filterMap f).map k).Sublist (as.map l) := by
  induction as with
  | nil => simp
  | cons a as ih =>
    have ih := ih fun a' ha' => h a' (List.mem_cons_of_mem a ha')
    cases hf : f a with
    | none => exact (List.filterMap_cons_none hf ▸ ih).cons (l a)
    | some b =>
      rw [List.filterMap_cons_some hf, List.map_cons, List.map_cons, h a List.mem_cons_self b hf]
      exact ih.cons_cons (l a)

end GraphQL
