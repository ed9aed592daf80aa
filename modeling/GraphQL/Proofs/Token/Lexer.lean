import Mathlib.Data.String.Basic
import Mathlib.Tactic
import GraphQL.Token.Lexer

/-!
Where tokens start.

Each token starts behind the one in front of it. So in a source whose places can be told apart no two
tokens start at the same place.
-/

namespace GraphQL

lemma byteLength_eq_utf8ByteSize (cs : List Char) :
    byteLength cs = (String.ofList cs).utf8ByteSize := by
  rw [String.utf8ByteSize_ofList]
  induction cs with
  | nil => rfl
  | cons c cs ih => rw [byteLength_cons, String.utf8Len_cons, ih, Nat.add_comm]

lemma isLineEnd_iff {c : Char} : isLineEnd c = true ↔ c = '\n' ∨ c = '\r' := by
  simp only [isLineEnd, Bool.or_eq_true, decide_eq_true_eq]

lemma skipIgnored_spec (inComment : Bool) (here : Nat) (cs : List Char) :
    here ≤ (skipIgnored inComment here cs).1 ∧
      (skipIgnored inComment here cs).1 + byteLength (skipIgnored inComment here cs).2
        = here + byteLength cs := by
  fun_induction skipIgnored inComment here cs with
  | case1 => simp
  | case2 here c cs ih => rw [byteLength_cons]; omega
  | case3 here cs ih => rw [byteLength_cons]; omega
  | case4 here c cs _ _ ih => rw [byteLength_cons]; omega
  | case5 here c cs => simp

namespace Token

lemma byteLength_take_drop (n : Nat) (cs : List Char) :
    byteLength (cs.take n) + byteLength (cs.drop n) = byteLength cs := by
  rw [← byteLength_append, List.take_append_drop]

lemma byteLength_pos {cs : List Char} (h : cs ≠ []) : 0 < byteLength cs := by
  cases cs with
  | nil => exact absurd rfl h
  | cons c cs =>
    rw [byteLength_cons]
    have := c.utf8Size_pos
    omega

/-- Tokens start one behind the other, from the place where the text begins. -/
lemma lexFrom_starts (here : Nat) (cs : List Char) (h : here + byteLength cs ≤ Pos.maxOffset) :
    (∀ t ∈ lexFrom here cs, here ≤ t.start.offset) ∧
      ((lexFrom here cs).map (·.start.offset)).Pairwise (· < ·) := by
  fun_induction lexFrom here cs with
  | case1 here cs start hskip => simp
  | case2 here cs start c ds hskip e text ih =>
    obtain ⟨hle, hlen⟩ := skipIgnored_spec false here cs
    rw [hskip] at hle hlen
    dsimp only at hle hlen
    have htext : text.utf8ByteSize = byteLength ((c :: ds).take e.2) :=
      (byteLength_eq_utf8ByteSize _).symm
    have hsplit := byteLength_take_drop e.2 (c :: ds)
    have hpos : 0 < byteLength ((c :: ds).take e.2) := by
      refine byteLength_pos fun hnil => ?_
      have hextent : 0 < e.2 := extent_pos c ds
      rcases List.take_eq_nil_iff.mp hnil with h0 | h0
      · omega
      · simp at h0
    obtain ⟨hstarts, hpairs⟩ := ih (by omega)
    have hstart : (Pos.ofOffset start).offset = start := by
      rw [Pos.offset_ofOffset, Nat.min_eq_left (by omega)]
    constructor
    · intro t ht
      rcases List.mem_cons.mp ht with rfl | ht
      · exact hstart.symm ▸ hle
      · have := hstarts t ht
        omega
    · rw [List.map_cons, List.pairwise_cons]
      refine ⟨?_, hpairs⟩
      intro n hn
      obtain ⟨t, ht, rfl⟩ := List.mem_map.mp hn
      have := hstarts t ht
      simp only [hstart]
      omega

/-- No two tokens of a source start at the same place. -/
theorem lex_starts_nodup (source : List Char) (h : byteLength source ≤ Pos.maxOffset) :
    ((lex source).map (·.start)).Nodup := by
  have hpairs := (lexFrom_starts 0 source (by omega)).2
  refine List.Nodup.of_map Pos.offset ?_
  rw [List.map_map]
  exact hpairs.imp fun h => Nat.ne_of_lt h

end Token

end GraphQL
