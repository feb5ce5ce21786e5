import PipelineScript.Text.Basic

/-!
# Bracketed comments

A bracketed comment ends at the first star and slash after its opening pair.
-/

namespace PipelineScript.Literal.Comment

def close? : Text → Option Nat
  | [] => none
  | c :: t => if c = '*' ∧ t.head? = some '/' then some 2 else (close? t).map (· + 1)

end PipelineScript.Literal.Comment
