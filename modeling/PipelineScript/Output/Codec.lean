import PipelineScript.Diagnostic.Codec
import PipelineScript.Output

/-!
# Outputs as JSON
-/

namespace PipelineScript

namespace Output

def toJson (o : Output) : Json :=
  .record [("script", o.script.toJson), ("diagnostics", .array (o.diagnostics.map Diagnostic.toJson))]

def ofJson? (j : Json) : Option Output := do
  let fs ← j.fields? ["script", "diagnostics"]
  let script ← fs.required? "script" (Script.ofJson? 1)
  let diagnostics ← fs.required? "diagnostics" (Json.list? Diagnostic.ofJson?)
  return ⟨script, diagnostics⟩

def load? (t : Text) : Option Output := do
  let j ← Json.parse? t
  ofJson? j

end Output

end PipelineScript
