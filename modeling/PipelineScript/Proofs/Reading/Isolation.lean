import PipelineScript.Proofs.Reading.Unlimited

/-!
# Faults stay in their segment

Main statement: `parseTokens_append`.
-/

namespace PipelineScript

namespace Segment

theorem reports_append {ts us : List Token} (h : ∀ t ∈ ts, t.kind ≠ .endOfInput)
    (hl : ∃ t, ts.getLast? = some t ∧ t.kind = .semicolon) :
    (ofTokens (ts ++ us)).flatMap report = (ofTokens ts).flatMap report ++ (ofTokens us).flatMap report := by
  obtain ⟨t, ht, hk⟩ := hl
  obtain ⟨ss, hss, rfl⟩ := exists_closed_of_semicolon h ⟨t, ht, hk⟩
  -- the end of input that a stream is given holds nothing, wherever it stands
  have hend : ∀ p, all (ss.flatMap stream ++ [.endOfInput p]) = ss ++ [⟨[], .endOfInput p⟩] := fun p => by
    rw [all_closed hss]
    rfl
  have hts : (ofTokens (ss.flatMap stream)).flatMap report = ss.flatMap report := by
    rw [ofTokens_eq_all, terminated_of_semicolon ht hk, hend]
    simp [report_of_nil]
  rw [hts]
  by_cases hu : us = []
  · subst hu
    have hn : (ofTokens []).flatMap report = [] := rfl
    rw [List.append_nil, hts, hn, List.append_nil]
  · rw [ofTokens_eq_all, terminated_append _ hu, all_closed hss, List.flatMap_append, ofTokens_eq_all]

end Segment

theorem parseTokens_append {settings : Settings} (hs : settings.maxDiagnostics = none) {ts us : List Token}
    (h : ∀ t ∈ ts, t.kind ≠ .endOfInput) (hl : ∃ t, ts.getLast? = some t ∧ t.kind = .semicolon) :
    (parseTokens settings (ts ++ us)).script.statements =
        (parseTokens settings ts).script.statements ++ (parseTokens settings us).script.statements ∧
      (parseTokens settings (ts ++ us)).script.positions =
        (parseTokens settings ts).script.positions ++ (parseTokens settings us).script.positions ∧
      (parseTokens settings (ts ++ us)).diagnostics =
        (parseTokens settings ts).diagnostics ++ (parseTokens settings us).diagnostics := by
  simp only [parseTokens_unlimited hs, Segment.reports_append h hl]
  exact ⟨Output.statements_ofOutcomes_append .., Output.positions_ofOutcomes_append ..,
    Output.diagnostics_ofOutcomes_append ..⟩

/-- A `load` without anything behind it, then a good `drop`. -/
theorem parseTokens_append_bare_load :
    let bad : List Token := [⟨.keyword .load, "load".toList, ⟨0, 1, 0⟩⟩, ⟨.semicolon, [';'], ⟨4, 1, 4⟩⟩]
    let good : List Token := [⟨.keyword .drop, "drop".toList, ⟨5, 1, 5⟩⟩, ⟨.semicolon, [';'], ⟨9, 1, 9⟩⟩]
    (∀ t ∈ bad, t.kind ≠ .endOfInput) ∧ (∃ t, bad.getLast? = some t ∧ t.kind = .semicolon) ∧
      (parseTokens {} (bad ++ good)).script.statements = [.verbatim .drop "drop".toList] ∧
      (parseTokens {} (bad ++ good)).script.positions = [⟨5, 1, 5⟩] ∧
      (parseTokens {} (bad ++ good)).diagnostics.length = 1 := by
  intro bad good
  have hb : ∀ t ∈ bad, t.kind ≠ .endOfInput := by decide
  have hl : ∃ t, bad.getLast? = some t ∧ t.kind = .semicolon := ⟨_, rfl, rfl⟩
  obtain ⟨hs, hp, hd⟩ := @parseTokens_append {} rfl bad good hb hl
  refine ⟨hb, hl, hs.trans rfl, hp.trans rfl, ?_⟩
  rw [hd]
  rfl

end PipelineScript
