import PipelineScript.Output
import PipelineScript.Proofs.Reading.Segments

/-!
# Reading without a limit

Without a limit on diagnostics no segment knows of the others.
-/

namespace PipelineScript

namespace Segment

def report (s : Segment) : List Outcome :=
  match s.content with
  | .blank => Outcome.comments s.lead
  | .statement head statement =>
    Outcome.comments s.lead ++ .statement head statement :: Outcome.comments s.tail
  | .fault head failure =>
    Outcome.comments s.lead ++
      [.fault head (failure.diagnostic s.terminator)
        (.skipped ((s.unread failure).length + if s.isClosed then 1 else 0))]

theorem report_of_nil (t : Token) : report ⟨[], t⟩ = [] := rfl

end Segment

section
variable {settings : Settings} (hs : settings.maxDiagnostics = none)
include hs

theorem reaches_unlimited (n : Nat) : settings.reaches n = false := by
  simp [Settings.reaches, hs]

theorem ofSegments_unlimited : ∀ (n : Nat) (ss : List Segment),
    Reading.ofSegments settings n ss = ⟨ss.flatMap Segment.report, []⟩
  | _, [] => rfl
  | n, s :: ss => by
    rw [List.flatMap_cons, Reading.ofSegments, Segment.report]
    cases s.content with
    | blank => simp only [ofSegments_unlimited n ss, Reading.after]
    | statement head st => simp only [ofSegments_unlimited n ss, Reading.after]
    | fault head f =>
      simp only [reaches_unlimited hs, Bool.false_eq_true, if_false, ofSegments_unlimited (n + 1) ss,
        Reading.after]

theorem parseTokens_unlimited (ts : List Token) :
    parseTokens settings ts = .ofOutcomes settings ((Segment.ofTokens ts).flatMap Segment.report) := by
  unfold parseTokens Session.output Session.run
  simp only [Session.ofTokens, ofSegments_unlimited hs]

end

namespace Output

variable (settings : Settings) (os us : List Outcome)

theorem located_ofOutcomes :
    (ofOutcomes settings os).script.located = (os.filter (keeps settings)).filterMap Outcome.located? :=
  Script.located_ofLocated _

theorem statements_ofOutcomes_append : (ofOutcomes settings (os ++ us)).script.statements =
    (ofOutcomes settings os).script.statements ++ (ofOutcomes settings us).script.statements := by
  simp [ofOutcomes, Script.ofLocated]

theorem positions_ofOutcomes_append : (ofOutcomes settings (os ++ us)).script.positions =
    (ofOutcomes settings os).script.positions ++ (ofOutcomes settings us).script.positions := by
  simp [ofOutcomes, Script.ofLocated]

theorem diagnostics_ofOutcomes_append : (ofOutcomes settings (os ++ us)).diagnostics =
    (ofOutcomes settings os).diagnostics ++ (ofOutcomes settings us).diagnostics := by
  simp [ofOutcomes]

end Output

end PipelineScript
