import PipelineScript.Proofs.Reading.Ordered
import PipelineScript.Proofs.Syntax.FirstFault

/-!
# Kinds and order of diagnostics

Main statement: `parseWith_diagnostics`.
-/

namespace PipelineScript

/-- What a token is at fault for where it cannot stand. -/
def Token.Kind.fault : Token.Kind → Diagnostic.Kind
  | .endOfInput => .unterminated
  | .unrecognized => .lexical
  | _ => .syntactic

theorem Token.Kind.fault_eq_unterminated {k : Token.Kind} : k.fault = .unterminated ↔ k = .endOfInput := by
  unfold fault
  split <;> simp_all

namespace Failure

theorem kind_unexpected (wanted : Expectation) (t : Token) : (unexpected wanted t).kind = t.kind.fault := by
  unfold unexpected Token.Kind.fault
  split <;> simp_all

theorem kind_diagnostic {f : Failure} {e : Token}
    (hname : ∀ wanted t, f.cause = .emptyName wanted t → t.kind = .backquoted)
    (hhead : f.cause = .notAStatement → (f.offender e).kind ≠ .endOfInput) :
    (f.diagnostic e).kind = (f.offender e).kind.fault := by
  unfold diagnostic
  cases hc : f.cause with
  | unexpected wanted => exact kind_unexpected wanted _
  | emptyName wanted t =>
    have ht : f.offender e = t := by rw [offender, hc]
    rw [ht, hname wanted t hc]
    rfl
  | notAStatement =>
    have hne := hhead hc
    simp only [notAStatement, Token.Kind.fault]
    split <;> split <;> simp_all

end Failure

theorem kind_readStatement {head : Token} {rest : List Token} (hs : head.isSignificant = true)
    (hi : head.IsInner) {f : Failure} (h : readStatement head rest = .error f) (e : Token) :
    (f.diagnostic e).kind = (f.offender e).kind.fault := by
  unfold readStatement at h
  split at h
  · obtain rfl := Except.error.inj h
    refine Failure.kind_diagnostic (fun _ _ hc => by cases hc) fun _ => ?_
    rw [Token.significant_cons hs]
    exact hi.2
  · next rule hf =>
    obtain ⟨before, -, hb, -⟩ := Syntax.foresees_complete hf h
    exact Failure.kind_diagnostic hb.emptyName fun hc => absurd hc hb.stated
  · cases h
  · split at h
    · cases h
    · obtain rfl := Except.error.inj h
      exact Failure.kind_unexpected .queryResult e

namespace Segment

structure Blames (d : Diagnostic) (t : Token) : Prop where
  position : d.position = t.position
  kind : d.kind = t.kind.fault

theorem significant_subset_stream (s : Segment) : Token.significant s.tokens ++ [s.terminator] ⊆ s.stream :=
  (List.filter_sublist.append_right [s.terminator]).subset

theorem exists_blamed {s : Segment} (hi : ∀ t ∈ s.tokens, t.IsInner) {d : Diagnostic}
    (h : s.answer.diagnostic? = some d) : ∃ t ∈ Token.significant s.tokens ++ [s.terminator], Blames d t := by
  obtain ⟨-, ha⟩ | ⟨head, rest, hb, ⟨st, -, ha⟩ | ⟨f, hr, ha⟩⟩ := s.answer_cases
  · rw [ha] at h
    cases h
  · rw [ha] at h
    cases h
  · rw [ha] at h
    obtain rfl := Option.some.inj h
    have hs := isSignificant_head hb
    have hh : head.IsInner := hi head (mem_tokens_of_mem_body (hb ▸ List.mem_cons_self))
    have hm := blames_significant hr s.terminator
    rw [Token.significant_cons hs, ← significant_tokens hb] at hm
    exact ⟨_, hm, f.diagnostic_position s.terminator, kind_readStatement hs hh hr s.terminator⟩

theorem blames_answer {s : Segment} (hi : ∀ t ∈ s.tokens, t.IsInner) :
    Token.Marks Blames s.answer.diagnostic?.toList s.stream := by
  cases h : s.answer.diagnostic? with
  | none => exact .nil _ _
  | some d =>
    obtain ⟨t, ht, hdt⟩ := exists_blamed hi h
    exact ⟨[t], List.singleton_sublist.mpr (s.significant_subset_stream ht), .cons hdt .nil⟩

end Segment

theorem blames_parseWith (settings : Settings) (source : Text) :
    Token.Marks Segment.Blames (parseWith settings source).diagnostics (tokenize source) := by
  obtain ⟨read, rest, hss, hread⟩ := exists_parseTokens settings (tokenize source)
  have hc := Segment.cuts_tokenize source
  rw [hss] at hc
  rw [parseWith, diagnostics_parseTokens hread, ← hc.stream_eq, List.flatMap_append]
  refine (Token.Marks.flatMap fun s hs => ?_).of_sublist (List.sublist_append_left ..)
  exact Segment.blames_answer (hc.inner s (List.mem_append_left rest hs))

theorem exists_offender {settings : Settings} {source : Text} {d : Diagnostic}
    (hd : d ∈ (parseWith settings source).diagnostics) :
    ∃ t ∈ tokenize source, t.isSignificant = true ∧ Segment.Blames d t := by
  obtain ⟨read, rest, hss, hread⟩ := exists_parseTokens settings (tokenize source)
  rw [parseWith, diagnostics_parseTokens hread] at hd
  obtain ⟨s, hs, hds⟩ := List.mem_flatMap.mp hd
  have hmem : s ∈ Segment.ofTokens (tokenize source) := hss ▸ List.mem_append_left rest hs
  have hc := Segment.cuts_tokenize source
  obtain ⟨t, ht, hdt⟩ := Segment.exists_blamed (hc.inner s hmem) (Option.mem_toList.mp hds)
  refine ⟨t, hc.stream_eq ▸ List.mem_flatMap.mpr ⟨s, hmem, s.significant_subset_stream ht⟩, ?_, hdt⟩
  rcases List.mem_append.mp ht with ht | ht
  · exact (List.mem_filter.mp ht).2
  · obtain rfl := List.mem_singleton.mp ht
    exact Bool.of_not_eq_false fun h => hc.ended s hmem (Token.isInner_of_not_significant h)

namespace Output

/-- What the output comes to: its script if it has no diagnostics, and else all of them. -/
def ComesTo (o : Output) : Except Rejection Script → Prop
  | .ok s => o.diagnostics = [] ∧ s = o.script
  | .error r => o.diagnostics ≠ [] ∧ r.diagnostics = o.diagnostics

theorem comesTo_toResult (o : Output) : o.ComesTo o.toResult := by
  rw [toResult]
  split
  · next h => exact ⟨h, rfl⟩
  · next d ds h => exact ⟨by rw [h]; exact List.cons_ne_nil d ds, h.symm⟩

end Output

theorem parseWith_diagnostics (settings : Settings) (source : Text) :
    (∀ d ∈ (parseWith settings source).diagnostics, ∃ t ∈ tokenize source,
      d.position = t.position ∧ d.kind = t.kind.fault) ∧
    (parseWith settings source).diagnostics.Pairwise (fun d e => d.position.offset < e.position.offset) ∧
    (∀ d ∈ (parseWith settings source).diagnostics, d.position.offset ≤ (String.ofList source).utf8ByteSize) ∧
    (∀ d ∈ (parseWith settings source).diagnostics.dropLast, d.kind ≠ .unterminated) ∧
    (parseWith settings source).ComesTo (parseWith settings source).toResult ∧
    (parse source).ComesTo (parseStrict source) := by
  have hblames := blames_parseWith settings source
  have hordered := hblames.offsets Diagnostic.position fun d t h => h.position
  have hbound : ∀ d ∈ (parseWith settings source).diagnostics,
      d.position.offset ≤ (String.ofList source).utf8ByteSize := by
    intro d hd
    obtain ⟨t, ht, hdt⟩ := hblames.exists_mem hd
    rw [hdt.position]
    exact offset_le_byteSize ht
  refine ⟨fun d hd => ?_, hordered, hbound, fun d hd hk => ?_, Output.comesTo_toResult _, Output.comesTo_toResult _⟩
  · obtain ⟨t, ht, hdt⟩ := hblames.exists_mem hd
    exact ⟨t, ht, hdt.position, hdt.kind⟩
  · -- a diagnostic behind one at the end of input would stand outside of the text
    obtain ⟨t, ht, hdt⟩ := hblames.exists_mem (List.dropLast_subset _ hd)
    have hend := offset_endOfInput ht (Token.Kind.fault_eq_unterminated.mp (hdt.kind ▸ hk))
    have hne : (parseWith settings source).diagnostics ≠ [] := List.ne_nil_of_mem (List.dropLast_subset _ hd)
    rw [← List.dropLast_append_getLast hne] at hordered
    have hlt := (List.pairwise_append.mp hordered).2.2 d hd _ (List.mem_singleton.mpr rfl)
    have hle := hbound _ (List.getLast_mem hne)
    rw [hdt.position] at hlt
    omega

end PipelineScript
