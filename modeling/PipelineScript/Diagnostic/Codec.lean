import PipelineScript.Diagnostic.Basic
import PipelineScript.Script.Codec

/-!
# Diagnostics as JSON

The record of a diagnostic also has a severity, which is always the same.
-/

namespace PipelineScript

namespace Diagnostic

def Kind.jsonName : Kind → String
  | lexical => "LexicalError"
  | syntactic => "SyntaxError"
  | unterminated => "UnterminatedStatement"

def Kind.ofJson? : Json → Option Kind := Json.choice? Json.isNull [lexical, syntactic, unterminated] jsonName

def severity : String := "Error"

def toFields (d : Diagnostic) : List (String × Json) :=
  [("kind", .ofString d.kind.jsonName), ("severity", .ofString severity), ("message", .ofString d.message),
    ("span", d.position.toJson), ("help", .orNull (d.help.map Json.ofString))]

def toJson (d : Diagnostic) : Json := .record d.toFields

def ofJson? (j : Json) : Option Diagnostic := do
  let fs ← j.fields? ["kind", "severity", "message", "span", "help"]
  let kind ← fs.required? "kind" Kind.ofJson?
  let _ ← fs.required? "severity" (Json.choice? Json.isNull [severity] id)
  let message ← fs.required? "message" Json.text?
  let position ← fs.required? "span" Position.ofJson?
  let help ← fs.nullable? "help" Json.text?
  return ⟨kind, String.ofList message, position, help.map String.ofList⟩

end Diagnostic

end PipelineScript
