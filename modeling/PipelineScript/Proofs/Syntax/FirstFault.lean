import PipelineScript.Proofs.Reading.Accounting
import PipelineScript.Proofs.Syntax.Acceptance

/-!
# The first token that cannot be right

Main statement: `parseWith_blames_first`.
-/

namespace PipelineScript

open Syntax

namespace Syntax

/-- `t` is the first fault of the tokens `w` that `e` ends: what is in front of it starts a sentence, and no sentence
goes on with it. -/
inductive FirstFault (w : List Token) (e : Token) : Token → Prop
  | token {before after : List Token} {t : Token} (hw : w = before ++ t :: after) (hb : Viable sentences before)
      (ht : ¬ Viable sentences (before ++ [t])) : FirstFault w e t
  | terminator (hw : Viable sentences w) (hn : w ∉ sentences) : FirstFault w e e

theorem FirstFault.not_mem {w : List Token} {e t : Token} (h : FirstFault w e t) : w ∉ sentences := by
  cases h with
  | @token before after _ hw hb ht =>
    refine fun hs => ht ⟨w, hs, after, ?_⟩
    rw [hw, List.append_assoc]
    rfl
  | terminator hw hn => exact hn

theorem FirstFault.unique {w : List Token} {e t u : Token} (ht : FirstFault w e t) (hu : FirstFault w e u) :
    t = u := by
  -- a split of the tokens in front of a viable prefix is in front of its fault
  have early {b a c : List Token} {x : Token} (hw : w = b ++ x :: a) (hx : ¬ Viable sentences (b ++ [x]))
      (hc : Viable sentences c) (hcw : c <+: w) : c.length ≤ b.length := by
    by_contra hlt
    refine hx (hc.of_prefix (List.prefix_of_prefix_length_le ⟨a, ?_⟩ hcw ?_))
    · rw [hw, List.append_assoc]
      rfl
    · rw [List.length_append, List.length_singleton]
      omega
  cases ht with
  | @token b₁ a₁ _ hw₁ hb₁ ht₁ =>
    cases hu with
    | @token b₂ a₂ _ hw₂ hb₂ ht₂ =>
      have h₁ := early hw₁ ht₁ hb₂ (hw₂ ▸ List.prefix_append ..)
      have h₂ := early hw₂ ht₂ hb₁ (hw₁ ▸ List.prefix_append ..)
      have hs := List.append_inj (hw₁.symm.trans hw₂) (Nat.le_antisymm h₂ h₁)
      exact (List.cons.inj hs.2).1
    | terminator hw hn =>
      have h := early hw₁ ht₁ hw (List.prefix_refl w)
      rw [hw₁, List.length_append, List.length_cons] at h
      omega
  | terminator hw hn =>
    cases hu with
    | @token b₂ a₂ _ hw₂ hb₂ ht₂ =>
      have h := early hw₂ ht₂ hw (List.prefix_refl w)
      rw [hw₂, List.length_append, List.length_cons] at h
      omega
    | terminator hw' hn' => rfl

end Syntax

/-! ## Statements -/

namespace Syntax

theorem not_viable_of_form {head : Token} (hf : head.form? = none) : ¬ Viable sentences [head] := by
  rintro ⟨_, ⟨t, rfl⟩, ht⟩
  obtain ⟨form, hform, -⟩ := t.hasForm
  rw [← (List.cons_prefix_cons.mp ht).1, hf] at hform
  cases hform

theorem not_viable_of_complete {head : Token} {rule : Rule Statement} (hf : head.form? = some (.structured rule))
    {before : List Token} {t : Token} (h : ∀ v, ∃ f, rule.complete (before ++ t :: v) = .error f) :
    ¬ Viable sentences (head :: before ++ [t]) := by
  rintro ⟨_, ⟨tree, rfl⟩, v, hv⟩
  rw [List.append_assoc, Tree.yield, List.cons_append, List.singleton_append] at hv
  obtain ⟨hh, hr⟩ := List.cons.inj hv
  obtain ⟨form, hform, htree⟩ := tree.hasForm
  rw [← hh, hf] at hform
  obtain rfl := Option.some.inj hform
  cases htree with
  | structured hrule =>
    obtain ⟨f, hf'⟩ := h v
    rw [hr, Rule.complete_eq_ok.mpr (hrule [])] at hf'
    cases hf'

theorem viable_query {head : Token} (hk : head.kind = .keyword .select) {w : List Token}
    (hw : ∀ t ∈ w, t.isSignificant = true ∧ t.IsInner) : Viable sentences (head :: w) := by
  obtain ⟨ws, rfl⟩ := exists_words hw
  exact ⟨_, ⟨.select ⟨head, List.mem_singleton.mpr hk⟩ ws default default, rfl⟩, _, rfl⟩

theorem firstFault_complete {head : Token} {rule : Rule Statement} (hf : head.form? = some (.structured rule))
    {w : List Token} {f : Failure} (h : rule.complete w = .error f) (hn : head :: w ∉ sentences) (e : Token) :
    FirstFault (head :: w) e (f.offender e) := by
  obtain ⟨before, hbefore, hbehind, hall⟩ := foresees_complete hf h
  obtain ⟨after, hafter⟩ := hbehind.front e
  have hfront : Viable sentences (head :: before) := hbefore.append [head]
  rcases List.eq_nil_or_concat' after with rfl | ⟨after, x, rfl⟩
  · obtain ⟨rfl, he⟩ := List.append_inj' hafter rfl
    rw [← (List.cons.inj he).1]
    exact .terminator hfront hn
  · have hw : w = before ++ f.offender e :: after := by
      rw [← List.cons_append, ← List.append_assoc] at hafter
      exact (List.append_inj' hafter rfl).1
    exact .token (by rw [hw]; rfl) hfront (not_viable_of_complete hf (hall _ _ hw))

theorem firstFault_readStatement {ts rest : List Token} {head : Token} (hp : Piece ts)
    (hb : (ts.dropWhile fun t => !t.isSignificant) = head :: rest) {f : Failure}
    (h : readStatement head rest = .error f) (e : Token) :
    FirstFault (Token.significant ts) e (f.offender e) := by
  have hn : Token.significant ts ∉ sentences := by
    rintro ⟨t, ht⟩
    rw [readStatement_complete hp hb ht] at h
    cases h
  have hsig := significant_eq hb
  unfold readStatement at h
  split at h
  · next hf =>
    obtain rfl := Except.error.inj h
    have hoff : Failure.offender ⟨.notAStatement, Token.significant (head :: rest)⟩ e = head := by
      rw [Token.significant_cons (head_significant hb)]
      rfl
    rw [hoff]
    exact .token hsig (.nil ⟨_, ⟨.inclusion default default default, rfl⟩⟩) (not_viable_of_form hf)
  · next rule hf =>
    rw [hsig] at hn ⊢
    exact firstFault_complete hf h hn e
  · cases h
  · next hf =>
    split at h
    · cases h
    · obtain rfl := Except.error.inj h
      refine .terminator ?_ hn
      rw [hsig]
      refine viable_query (Token.form?_query.mp hf) fun t ht => ⟨(List.mem_filter.mp ht).2, hp.inner t ?_⟩
      refine (List.dropWhile_sublist fun t : Token => !t.isSignificant).mem ?_
      exact hb ▸ List.mem_cons_of_mem head (List.mem_filter.mp ht).1

end Syntax

namespace Segment

/-! ## All segments -/

theorem exists_blame : ∃ blame : Segment → Option Token, ∀ s t, blame s = some t ↔
    Token.significant s.tokens ≠ [] ∧ FirstFault (Token.significant s.tokens) s.terminator t := by
  have h : ∀ s : Segment, ∃ o : Option Token, ∀ t, o = some t ↔
      Token.significant s.tokens ≠ [] ∧ FirstFault (Token.significant s.tokens) s.terminator t := by
    intro s
    by_cases he : ∃ t, Token.significant s.tokens ≠ [] ∧ FirstFault (Token.significant s.tokens) s.terminator t
    · obtain ⟨u, hne, hu⟩ := he
      refine ⟨some u, fun t => ⟨fun h => ?_, fun h => ?_⟩⟩
      · exact Option.some.inj h ▸ ⟨hne, hu⟩
      · rw [hu.unique h.2]
    · exact ⟨none, fun t => ⟨nofun, fun h => absurd ⟨t, h⟩ he⟩⟩
  exact ⟨fun s => (h s).choose, fun s => (h s).choose_spec⟩

theorem position_diagnostic {s : Segment} (hp : Piece s.tokens) {blame : Segment → Option Token}
    (hblame : ∀ s t, blame s = some t ↔
      Token.significant s.tokens ≠ [] ∧ FirstFault (Token.significant s.tokens) s.terminator t) :
    s.answer.diagnostic?.map Diagnostic.position = (blame s).map Token.position := by
  have hnone (hn : Token.significant s.tokens = [] ∨ Token.significant s.tokens ∈ sentences) : blame s = none := by
    cases hs : blame s with
    | none => rfl
    | some t =>
      obtain ⟨hne, hf⟩ := (hblame s t).mp hs
      exact absurd hn (not_or.mpr ⟨hne, hf.not_mem⟩)
  obtain ⟨hb, ha⟩ | ⟨head, rest, hb, ⟨st, hr, ha⟩ | ⟨f, hr, ha⟩⟩ := s.answer_cases
  · rw [ha, hnone (.inl (body_eq_nil hb))]
    rfl
  · obtain ⟨t, ht, -⟩ := readStatement_sound hp hb hr
    rw [ha, hnone (.inr ⟨t, ht⟩)]
    rfl
  · have hne : Token.significant s.tokens ≠ [] := by rw [significant_tokens hb]; exact List.cons_ne_nil _ _
    rw [ha, (hblame s _).mpr ⟨hne, firstFault_readStatement hp hb hr s.terminator⟩]
    exact congrArg some (f.diagnostic_position s.terminator)

end Segment

theorem parseWith_blames_first (comments : Bool) (source : Text) :
    Segment.Cuts (Segment.ofTokens (tokenize source)) (tokenize source) ∧
    ∃ blame : Segment → Option Token,
      (∀ s t, blame s = some t ↔
        Token.significant s.tokens ≠ [] ∧ FirstFault (Token.significant s.tokens) s.terminator t) ∧
      (parseWith ⟨comments, none⟩ source).diagnostics.map Diagnostic.position =
        (Segment.ofTokens (tokenize source)).filterMap fun s => (blame s).map Token.position := by
  obtain ⟨blame, hblame⟩ := Segment.exists_blame
  refine ⟨Segment.cuts_tokenize source, blame, hblame, ?_⟩
  rw [parseWith, parseTokens_unlimited rfl, Output.ofOutcomes, List.filterMap_flatMap, List.filterMap_eq_flatMap_toList]
  simp only [Segment.diagnostics_report, List.map_flatMap]
  rw [List.filterMap_eq_flatMap_toList]
  refine List.flatMap_congr fun s hs => ?_
  rw [← Segment.position_diagnostic (Segment.piece_tokenize hs) hblame, Option.toList_map]

end PipelineScript
