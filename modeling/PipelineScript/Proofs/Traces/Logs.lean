import PipelineScript.Cursor.Log
import PipelineScript.Proofs.Cursor.Outputs

/-!
# Logs and outcomes

Main statement: `InStep.traced`.
-/

namespace PipelineScript

theorem Turn.length_diagnostics_logged (settings : Settings) (l : Log) (t : Turn) :
    (t.logged settings l).log.diagnostics.length =
      l.diagnostics.length + (t.outcome.bind Outcome.diagnostic?).toList.length := by
  obtain ⟨o, j, goesOn⟩ := t
  cases o with
  | none => rfl
  | some o =>
    cases o with
    | comment t =>
      show (if settings.commentStatements then l.push (.comment t.lexeme) t.position else l).diagnostics.length = _
      split <;> rfl
    | statement head s => rfl
    | fault head d recovery => exact List.length_append

namespace Log

variable (settings : Settings)

theorem note_eq (items : List (Position × Statement)) (ds : List Diagnostic) (es : List Event) (o : Outcome) :
    note settings ⟨.ofLocated items, ds, es⟩ o =
      ⟨.ofLocated (items ++ ([o].filter (Output.keeps settings)).filterMap Outcome.located?),
        ds ++ [o].filterMap Outcome.diagnostic?, es ++ Event.ofOutcome o⟩ := by
  cases o with
  | comment t =>
    have hkeeps : Output.keeps settings (.comment t) = settings.commentStatements := Bool.or_false _
    have hdiagnostics : [Outcome.comment t].filterMap Outcome.diagnostic? = [] := rfl
    cases h : settings.commentStatements <;>
      simp [note, push, Script.push_ofLocated, Outcome.located?, Event.ofOutcome, hkeeps, hdiagnostics, h]
  | statement head s =>
    have hkeeps : Output.keeps settings (.statement head s) = true := Bool.or_true _
    have hdiagnostics : [Outcome.statement head s].filterMap Outcome.diagnostic? = [] := rfl
    simp [note, push, tell, Script.push_ofLocated, Outcome.located?, Event.ofOutcome, hkeeps, hdiagnostics]
  | fault head d recovery =>
    have hkeeps : Output.keeps settings (.fault head d recovery) = true := Bool.or_true _
    have hlocated : [Outcome.fault head d recovery].filterMap Outcome.located? = [] := rfl
    simp [note, tell, report, Outcome.diagnostic?, Event.ofOutcome, hkeeps, hlocated]

theorem foldl_note : ∀ (os : List Outcome) (items : List (Position × Statement)) (ds : List Diagnostic)
    (es : List Event), os.foldl (note settings) ⟨.ofLocated items, ds, es⟩ =
      ⟨.ofLocated (items ++ (os.filter (Output.keeps settings)).filterMap Outcome.located?),
        ds ++ os.filterMap Outcome.diagnostic?, es ++ os.flatMap Event.ofOutcome⟩
  | [], items, ds, es => by simp
  | o :: os, items, ds, es => by
    have hfilter : (o :: os).filter (Output.keeps settings) =
        [o].filter (Output.keeps settings) ++ os.filter (Output.keeps settings) := by
      rw [← List.filter_append, List.singleton_append]
    have hdiagnostics : (o :: os).filterMap Outcome.diagnostic? =
        [o].filterMap Outcome.diagnostic? ++ os.filterMap Outcome.diagnostic? := by
      rw [← List.filterMap_append, List.singleton_append]
    rw [List.foldl_cons, note_eq, foldl_note os, hfilter, hdiagnostics, List.filterMap_append, List.flatMap_cons]
    simp only [List.append_assoc]

end Log

def Trace.ofOutcomes (settings : Settings) (tokens : Nat) (os : List Outcome) : Trace :=
  let output := Output.ofOutcomes settings os
  ⟨tokens, os.flatMap Event.ofOutcome ++ [.parsed output.script.size output.diagnostics.length]⟩

namespace Cursor

theorem logFrom_eq (settings : Settings) (ts : List Token) (l : Log) (i : Nat) :
    logFrom settings ts l i =
      (turns settings ts l.diagnostics.length i).map fun p => (p.1.foldl (Log.note settings) l, p.2) := by
  fun_induction logFrom settings ts l i with
  | case1 l i f h =>
    rw [LoggedTurn.take_eq] at h
    cases ht : Turn.take settings l.diagnostics.length ts i with
    | ok t =>
      rw [ht] at h
      cases h
    | error g =>
      rw [ht] at h
      rw [turns_fails ht, ← Except.error.inj h]
      rfl
  | case2 l i t h hgo ih =>
    obtain ⟨⟨o, j, goesOn⟩, ht, rfl⟩ := LoggedTurn.exists_turn h
    obtain rfl : goesOn = true := hgo
    -- the turns ahead count the diagnostics that this one has put down
    rw [ih, turns_goesOn ht, Turn.length_diagnostics_logged]
    simp only [Turn.logged]
    cases turns settings ts (l.diagnostics.length + (o.bind Outcome.diagnostic?).toList.length) j with
    | error f => rfl
    | ok p => simp only [prepend, Except.map, List.foldl_append]
  | case3 l i t h hgo =>
    obtain ⟨⟨o, j, goesOn⟩, ht, rfl⟩ := LoggedTurn.exists_turn h
    obtain rfl : goesOn = false := Bool.eq_false_iff.mpr hgo
    rw [turns_stops ht]
    rfl

theorem traced_of_run {c c' : Cursor} {os : List Outcome} (h : c.run = .ok (os, c')) :
    c.traced = .ok (.ofOutcomes c.settings os, .ofOutcomes c.settings c.tokens.length os, c') := by
  rw [run] at h
  split at h
  · cases h
  · next us j hturns =>
    cases h
    have hlog : logFrom c.settings c.tokens .empty c.index =
        .ok (os.foldl (Log.note c.settings) ⟨.ofLocated [], [], []⟩, j) := by
      rw [logFrom_eq]
      show (turns c.settings c.tokens 0 c.index).map _ = _
      rw [hturns]
      rfl
    rw [traced, hlog, Log.foldl_note]
    rfl

section
variable {ending : List Token} {c : Cursor} {s : Session}

theorem InStep.output_eq (h : InStep ending c s) :
    s.output.1 = .ofOutcomes c.settings (Reading.ofSegments c.settings 0 s.remaining).outcomes := by
  rw [← h.settings]
  rfl

theorem InStep.trace_eq (h : InStep ending c s) (hn : s.tokenCount = c.tokens.length) :
    s.trace = .ofOutcomes c.settings c.tokens.length (Reading.ofSegments c.settings 0 s.remaining).outcomes := by
  rw [← h.settings, ← hn]
  rfl

end

theorem InStep.traced {e : Token} (he : e.kind = .endOfInput) {junk : List Token} {c : Cursor} {s : Session}
    (h : InStep (e :: junk) c s) (hn : s.tokenCount = c.tokens.length) :
    ∃ c', c.output = .ok (s.output.1, c') ∧ c.traced = .ok (s.output.1, s.trace, c') := by
  obtain ⟨j, hturns, -⟩ := h.tracks.agrees he c.settings 0
  have hrun : c.run = .ok ((Reading.ofSegments c.settings 0 s.remaining).outcomes, { c with index := j }) := by
    rw [run, hturns]
  refine ⟨_, ?_, by rw [h.output_eq, h.trace_eq hn, traced_of_run hrun]⟩
  rw [Cursor.output, hrun, h.output_eq]

end Cursor

end PipelineScript
