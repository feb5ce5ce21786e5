import PipelineScript.Json.Decode
import PipelineScript.Json.Reader
import PipelineScript.Settings

/-!
# Settings as JSON

Settings may leave out what they do not change, also as an array that stops
early.
-/

namespace PipelineScript

namespace Settings

def toJson (s : Settings) : Json :=
  .record [("comment_statements", .bool s.commentStatements),
    ("max_diagnostics", .orNull (s.maxDiagnostics.map Json.nat))]

def fieldNames : List String := ["comment_statements", "max_diagnostics"]

def ofFields? (fs : Json.Fields) : Option Settings := do
  let comments ← fs.optional? "comment_statements" true Json.bool?
  let limit ← fs.nullable? "max_diagnostics" Json.word64?
  return ⟨comments, limit⟩

def ofJson? : Json → Option Settings
  | .object members => ofFields? members
  | .array items =>
    if items.length ≤ fieldNames.length then ofFields? ((fieldNames.map String.toList).zip items) else none
  | _ => none

/-- Settings that cannot be loaded; the reason is given by the reader of JSON. -/
inductive LoadError
  | json (reason : String)
  deriving Repr, DecidableEq

def LoadError.message : LoadError → String
  | json reason => s!"invalid parse options: {reason}"

/-- `reason` is what the reader says of a text that it refuses. -/
def load (reason : Text → String) (t : Text) : Except LoadError Settings :=
  match (Json.parse? t).bind ofJson? with
  | some s => .ok s
  | none => .error (.json (reason t))

end Settings

end PipelineScript
