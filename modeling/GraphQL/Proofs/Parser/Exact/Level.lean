import GraphQL.Proofs.Parser.Exact

/-!
Levels and the delimiters around them.

Each level of nesting takes one of those that are left. The bound on the recursion is the number of
levels that there are at all, so it never ends a run that a level could still be taken for.
-/

namespace GraphQL

open Grammar

namespace Parse

open ParseState

variable {α : Type} {env : ParseLimits} {levels : Nat} {P : Production α}
  {first follow : List TokenKind}

/-- One level deeper there is one level less left. -/
lemma nested_exact {p : Parse α} {nullable : Bool} (h : Exact env levels p P first nullable follow) :
    Exact env (levels + 1) (nested p) P first nullable follow where
  keeps := h.keeps.nested
  starts := h.starts
  exactAt ts hts := by
    have hrun : ∀ ds depth, depth + (levels + 1) = env.maxDepth →
        nested p env (clean ts ds depth) = ((p env (clean ts ds (depth + 1))).1,
          { (p env (clean ts ds (depth + 1))).2 with
            depth := (p env (clean ts ds (depth + 1))).2.depth - 1 }) := fun ds depth hdepth => by
      have hle : ¬env.maxDepth ≤ depth := by omega
      exact (if_neg Bool.false_ne_true).trans (if_neg hle)
    refine ⟨fun ds depth hdepth hclean => ?_, fun ds depth hdepth a rest ha hrest => ?_⟩
    · rw [hrun ds depth hdepth] at hclean ⊢
      obtain ⟨a, rest, ha, hp⟩ := (h.exactAt ts hts).sound ds (depth + 1) (by omega) hclean
      exact ⟨a, rest, ha, by rw [hp]; rfl⟩
    · rw [hrun ds depth hdepth,
        (h.exactAt ts hts).complete ds (depth + 1) (by omega) a rest ha hrest]
      rfl

/-- Where no level is left, nothing that takes one can be derived. -/
lemma tooDeep_exact {p : Parse α} (hp : KeepsErrors env p) (h : ∀ ts a rest, ¬P ts a rest) :
    Exact env 0 (nested p) P first false follow where
  keeps := hp.nested
  starts ts a rest ha := absurd ha (h ts a rest)
  exactAt ts _ := by
    refine ⟨fun ds depth hdepth hclean => ?_, fun _ _ _ a rest ha => absurd ha (h ts a rest)⟩
    have hrun : nested p env (clean ts ds depth) = tooDeep env (clean ts ds depth) := by
      have hle : env.maxDepth ≤ depth := by omega
      exact (if_neg Bool.false_ne_true).trans (if_pos hle)
    rw [hrun] at hclean
    exact absurd hclean (Complains.tooDeep _ rfl)

/-- **Recursion down the levels.** If each run is exact one level down where the next shorter one is,
then all are that are long enough for the levels that are left. -/
lemma levels_exact {run : Nat → Parse α} {size : α → Nat} (hzero : run 0 = tooDeep)
    (hsucc : ∀ fuel, ∃ body, run (fuel + 1) = nested body ∧ ∀ levels,
      Exact env levels (run fuel) (Within size levels P) first false follow →
      Exact env levels body (Within size (levels + 1) P) first false follow)
    (hpos : ∀ a, 0 < size a) {fuel : Nat} (h : levels ≤ fuel) :
    Exact env levels (run fuel) (Within size levels P) first false follow := by
  have hnone : ∀ ts a rest, ¬Within size 0 P ts a rest :=
    fun ts a rest ha => absurd ha.2 (Nat.not_le_of_gt (hpos a))
  induction fuel generalizing levels with
  | zero =>
    obtain rfl := Nat.le_zero.mp h
    rw [hzero]
    exact ⟨.tooDeep, fun ts a rest ha => absurd ha (hnone ts a rest),
      fun ts _ => .complains .tooDeep (hnone ts)⟩
  | succ fuel ih =>
    obtain ⟨body, heq, hbody⟩ := hsucc fuel
    rw [heq]
    cases levels with
    | zero => exact tooDeep_exact (hbody 0 (ih (Nat.zero_le _))).keeps hnone
    | succ levels => exact nested_exact (hbody levels (ih (Nat.le_of_succ_le_succ h)))

/-- The longest run is long enough for any levels. -/
lemma allLevels_exact {run : Nat → Parse α} {P : Nat → Production α}
    (h : ∀ {fuel levels}, levels ≤ fuel → Exact env levels (run fuel) (P levels) first false follow) :
    Exact env levels (limits >>= fun l => run l.maxDepth) (P levels) first false follow := by
  refine .limits_bind ⟨(h (Nat.zero_le env.maxDepth)).keeps, (h (Nat.le_refl levels)).starts, ?_⟩
  intro ts hts
  by_cases hle : levels ≤ env.maxDepth
  · exact (h hle).exactAt ts hts
  · exact ⟨fun _ _ hdepth => by omega, fun _ _ hdepth => by omega⟩

/-- A parse between two delimiters, of which the state knows meanwhile. -/
lemma delimited_exact {β : Type} {p : Parse α} (d : Delimiter) (next : Option α → Parse β)
    {R : α → Production β} {first' follow' : List TokenKind} {nullable' : Bool}
    (hp : Exact env levels p P first false follow) (hdisjoint : ∀ k ∈ follow, k ∉ first')
    (hfail : next none = fail)
    (hnext : ∀ a, Exact env levels (next (some a)) (R a) first' nullable' follow') :
    Exact env levels (openDelimiter d >>= fun _ => attempt p >>= fun o =>
        closeDelimiter >>= fun _ => next o)
      (Then P R) first false (follow' ++ if nullable' then follow else []) := by
  have hkeeps : ∀ o, KeepsErrors env (closeDelimiter >>= fun _ => next o) := fun o => by
    refine .silent_bind .closeDelimiter fun _ => ?_
    cases o with
    | none => exact hfail ▸ .fail
    | some a => exact (hnext a).keeps
  have hb := hp.bind hdisjoint hnext
  have hrun : ∀ {ts mid a ds depth}, p env (clean ts (d :: ds) depth) =
      (some a, clean mid (d :: ds) depth) →
      (openDelimiter d >>= fun _ => attempt p >>= fun o => closeDelimiter >>= fun _ => next o) env
        (clean ts ds depth) = next (some a) env (clean mid ds depth) := by
    intro ts mid a ds depth h
    show (attempt p >>= fun o => closeDelimiter >>= fun _ => next o) env (clean ts (d :: ds) depth) = _
    rw [attempt_bind h]
    rfl
  refine ⟨?_, fun ts b rest h => ?_, fun ts hts => ⟨fun ds depth hdepth hclean => ?_, ?_⟩⟩
  · exact .silent_bind (.openDelimiter d) fun _ => (KeepsErrors.attempt hp.keeps).bind hkeeps
  · exact (hb.starts ts b rest h).mono (by simp) id
  · obtain ⟨a, mid, ha, h⟩ := (hp.exactAt ts hts).sound (d :: ds) depth hdepth
      (KeepsErrors.of_bind (p := attempt p) hkeeps hclean)
    rw [hrun h] at hclean ⊢
    have hmid := Nat.le_trans (hp.starts ts a mid ha).length_le hts
    obtain ⟨b, rest, hb, h'⟩ := ((hnext a).exactAt mid hmid).sound ds depth hdepth hclean
    exact ⟨b, rest, ⟨a, mid, ha, hb⟩, h'⟩
  · rintro ds depth hdepth b rest ⟨a, mid, ha, hR⟩ hrest
    have hfollow : NotNext follow mid := ((hnext a).starts mid b rest hR).follows hdisjoint hrest
    rw [hrun ((hp.exactAt ts hts).complete (d :: ds) depth hdepth a mid ha hfollow)]
    have hmid := Nat.le_trans (hp.starts ts a mid ha).length_le hts
    exact ((hnext a).exactAt mid hmid).complete ds depth hdepth b rest hR
      (hrest.mono (List.subset_append_left _ _))

end Parse

end GraphQL
