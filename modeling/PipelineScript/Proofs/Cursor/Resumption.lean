import PipelineScript.Proofs.Cursor.Outputs
import PipelineScript.Proofs.Reading.Resumption

/-!
# Runs of one cursor

The runs of a cursor share one text, and each goes on where the one before has
stopped. Main statement: `outputs_advance`.
-/

namespace PipelineScript

theorem Segment.stream_all_isPrefix {ts : List Token} {e : Token} (he : e.kind = .endOfInput) (h : e ∈ ts) :
    (all ts).flatMap stream <+: ts := by
  obtain ⟨x, hx⟩ := Option.isSome_iff_exists.mp
    (List.find?_isSome (p := fun t : Token => t.kind == .endOfInput) |>.mpr ⟨e, h, by simp [he]⟩)
  obtain ⟨hend, front, after, rfl, hfront⟩ := List.find?_eq_some_iff_append.mp hx
  obtain ⟨ss, run, hss, hrun, rfl⟩ := exists_closed fun t ht => by simpa using hfront t ht
  rw [List.append_assoc, all_closed hss, all_endOfInput hrun (by simpa using hend), List.flatMap_append,
    List.flatMap_singleton, stream]
  exact ⟨after, by simp⟩

theorem Session.tokens_ofSource (settings : Settings) (source : Text) :
    (ofSource settings source).tokens = tokenize source := (Segment.cuts_tokenize source).stream_eq

theorem Session.positions_outputs : ∀ (n : Nat) (s : Session),
    ((s.outputs n).flatMap fun o => o.script.positions) =
      ((s.outputs n).flatMap fun o => o.script.located).map Prod.fst
  | 0, _ => rfl
  | n + 1, s => by
    have hfirst : s.output.1.script.positions = s.output.1.script.located.map Prod.fst :=
      congrArg (List.map Prod.fst) (Script.located_ofLocated _).symm
    rw [outputs, List.flatMap_cons, List.flatMap_cons, List.map_append, hfirst, positions_outputs n]

theorem Session.HasPieces.left : ∀ (n : Nat) {s : Session}, s.HasPieces → (s.left n).HasPieces
  | 0, _, h => h
  | n + 1, _, h => HasPieces.left n h.output

namespace Cursor

theorem InStep.tokens_subset {e : Token} (he : e.kind = .endOfInput) {junk : List Token} {c : Cursor} {s : Session}
    (h : InStep (e :: junk) c s) : ∀ t ∈ s.tokens, t ∈ c.tokens.drop c.index := by
  intro t ht
  rcases h.tracks.left with hall | ⟨hnil, -⟩
  · rw [Session.tokens, hall] at ht
    exact (Segment.stream_all_isPrefix he (h.tracks.ahead.mem List.mem_cons_self)).mem ht
  · rw [Session.tokens, hnil] at ht
    cases ht

theorem outputs_succ : ∀ (n : Nat) {c c' c'' : Cursor} {os : List Output} {o : Output}, outputs n c = .ok (os, c') →
    c'.output = .ok (o, c'') → outputs (n + 1) c = .ok (os ++ [o], c'')
  | 0, c, c', c'', os, o, h, ho => by
    cases h
    simp only [outputs, ho, List.nil_append]
  | n + 1, c, c', c'', os, o, h, ho => by
    rw [outputs] at h
    split at h
    · cases h
    · next first c₁ hfirst =>
      split at h
      · cases h
      · next others c₂ hothers =>
        cases h
        rw [outputs]
        simp only [hfirst, outputs_succ n hothers ho, List.cons_append]

/-- For any text, settings and number of runs: no run goes beyond the limit or back behind the one before, and where one
was not stopped by the limit, the next come to nothing. -/
theorem outputs_advance (settings : Settings) (source : Text) (n : Nat) :
    ∃ os c, outputs n (ofTokens settings (tokenize source)) = .ok (os, c) ∧ os.length = n ∧
      (∀ k, settings.maxDiagnostics = some k → ∀ o ∈ os, o.diagnostics.length ≤ max k 1) ∧
      (os.flatMap fun o => o.script.positions).Pairwise (fun p q => p.offset < q.offset) ∧
      (∀ before o after, os = before ++ o :: after →
        (∀ k, settings.maxDiagnostics = some k → o.diagnostics.length < max k 1) → ∀ o' ∈ after, o' = ⟨.empty, []⟩) ∧
      ∃ found c', c.run = .ok (found, c') ∧
        outputs (n + 1) (ofTokens settings (tokenize source)) = .ok (os ++ [.ofOutcomes settings found], c') ∧
        ∀ d ∈ found.filterMap Outcome.diagnostic?, ∃ t ∈ (tokenize source).drop c.index,
          d.position = t.position ∧ d.kind = t.kind.fault := by
  have he := Token.ending_kind (tokenize source)
  have hp := Session.hasPieces_ofSource settings source
  obtain ⟨junk, hsplit⟩ := Token.exists_terminated (tokenize source)
  obtain ⟨j, houtputs, hleft⟩ := (inStep_ofTokens settings hsplit).outputs he n
  refine ⟨_, _, houtputs, Session.length_outputs n _, fun k hk => Session.length_diagnostics_outputs n hk, ?_,
    fun before o after => Session.outputs_behind_last n rfl, ?_⟩
  · have hheads := Session.heads_outputs n hp
    rw [Session.tokens_ofSource] at hheads
    rw [← Session.ofSource, Session.positions_outputs]
    exact List.pairwise_map.mpr (hheads.offsets Prod.fst fun l t h => h.position)
  · obtain ⟨k, hnext, -⟩ := hleft.output he
    obtain ⟨taken, htaken⟩ := Session.exists_takes (hp.left n)
    have hsucc := outputs_succ n houtputs hnext
    rw [output] at hnext
    split at hnext
    · cases hnext
    · next found c' hrun =>
      obtain ⟨hfound, rfl⟩ := Prod.mk.inj (Except.ok.inj hnext)
      refine ⟨found, _, hrun, by rw [hsucc, ← hfound]; rfl, fun d hd => ?_⟩
      have hmem : d ∈ ((Session.ofSource settings source).left n).output.1.diagnostics := by
        rw [Session.ofSource, ← hfound]
        exact hd
      obtain ⟨t, ht, hdt⟩ := htaken.blames.exists_mem hmem
      have hdrop := hleft.tokens_subset he t ht
      rw [ofTokens, terminated_tokenize] at hdrop
      exact ⟨t, hdrop, hdt.position, hdt.kind⟩

end Cursor

end PipelineScript
