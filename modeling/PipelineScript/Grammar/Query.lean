import PipelineScript.Grammar.Clause
import PipelineScript.Script.Statement

/-!
# Query text

Queries are not parsed: their text is that of the tokens from the head through
the last significant one.
-/

namespace PipelineScript

namespace Token

/-- The tokens before the last significant one, and that one. -/
def splitLast? : List Token → Option (List Token × Token)
  | [] => none
  | t :: ts =>
    match splitLast? ts with
    | some (before, last) => some (t :: before, last)
    | none => if t.isSignificant then some ([], t) else none

def trimEnd (ts : List Token) : List Token :=
  match splitLast? ts with
  | some (before, last) => before ++ [last]
  | none => []

def trailer (ts : List Token) : List Token := ts.drop (trimEnd ts).length

def significant (ts : List Token) : List Token := ts.filter isSignificant

/-- The tokens behind the first `n` significant ones. -/
def dropSignificant : Nat → List Token → List Token
  | 0, ts => ts
  | _, [] => []
  | n + 1, t :: ts => if t.isSignificant then dropSignificant n ts else dropSignificant (n + 1) ts

def resultName? (t : Token) : Option Name := if t.value.isEmpty then none else t.name?

end Token

def selectStatement? (ts : List Token) : Option Statement := do
  let (front, last) ← Token.splitLast? ts
  let table ← last.resultName?
  let (query, link) ← Token.splitLast? front
  guard (link.isKeyword .as)
  let (before, stop) ← Token.splitLast? query
  return .select (Token.text (before ++ [stop])) table

def verbatimStatement (kind : Verbatim) (ts : List Token) : Statement :=
  .verbatim kind (Token.text (Token.trimEnd ts))

end PipelineScript
