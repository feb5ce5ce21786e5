import PipelineScript.Text.Position

/-!
# Diagnostics

A diagnostic is one fault of a script: its kind, a message, the position of
the token at fault and sometimes a hint. Every kind has a stable code.
-/

namespace PipelineScript

inductive Diagnostic.Kind
  | lexical
  | syntactic
  | unterminated
  deriving Repr, DecidableEq

def Diagnostic.Kind.code : Kind → String
  | lexical => "L0001"
  | syntactic => "P0001"
  | unterminated => "P0002"

structure Diagnostic where
  kind : Diagnostic.Kind
  message : String
  position : Position
  help : Option String
  deriving Repr, DecidableEq

namespace Diagnostic

def code (d : Diagnostic) : String := d.kind.code

/-- A later hint takes the place of an earlier one. -/
def withHelp (d : Diagnostic) (help : String) : Diagnostic := { d with help := some help }

def render (d : Diagnostic) : String := s!"error[{d.code}] at {d.position.render}: {d.message}"

end Diagnostic

end PipelineScript
