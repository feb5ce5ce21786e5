import PipelineScript.Grammar.Rule
import PipelineScript.Script.Clause

/-!
# Names, clauses and values

    name   = IDENTIFIER | BACKQUOTED, not empty
    dotted = name ('.' name)*
    path   = name '.' name
    clause = ('options' | 'where')? assign? ('and' assign)*
    assign = name '=' STRING
    value  = dotted | STRING | BLOCK_STRING

A name right behind the marker, or in its place, commits to an assignment.
-/

namespace PipelineScript

def Token.name? (t : Token) : Option Name :=
  match t.kind with
  | .identifier => some (.bare t.lexeme)
  | .backquoted => if t.value.isEmpty then none else some (.backquoted t.value)
  | _ => none

def Token.string? (t : Token) : Option Text := if t.kind = .string then some t.value else none

def Token.marker? (t : Token) : Option Marker :=
  match t.kind with
  | .keyword .options => some .options
  | .keyword .conditions => some .conditions
  | _ => none

namespace Rule

/-- An empty backquoted name is read before it is found wanting. -/
def name (wanted : Expectation) : Rule Name
  | [] => .error ⟨.unexpected wanted, []⟩
  | t :: w =>
    match t.name? with
    | some n => .ok (n, w)
    | none =>
      if t.kind = .backquoted then .error ⟨.emptyName wanted t, w⟩ else .error ⟨.unexpected wanted, t :: w⟩

def keyword (wanted : Expectation) (k : Keyword) : Rule Token := expect wanted (.keyword k)

def dottedName (wanted : Expectation) : Rule DottedName := do
  let first ← name wanted
  let others ← repeated (· == .dot) (name .nextPart)
  return ⟨first :: others⟩

def formatPath : Rule FormatPath := do
  let format ← name .formatName
  let _ ← expect .pathDot .dot
  let path ← name .path
  return ⟨format, path⟩

def assignment : Rule Assignment := do
  let key ← name .optionKey
  let _ ← expect .optionEquals .equals
  let value ← read .optionValue Token.string?
  return ⟨key, value⟩

def clause : Rule Clause := do
  let marker ← read? Token.marker?
  let first ← startingWith Token.Kind.isName assignment
  let filters ← repeated (· == .keyword .and) assignment
  return ⟨marker, first, filters⟩

def settingValue : Rule SetValue
  | [] => .error ⟨.unexpected .settingValue, []⟩
  | t :: w =>
    match t.kind with
    | .string => .ok (.string t.value, w)
    | .blockString => .ok (.block t.value, w)
    | .identifier | .backquoted => (dottedName .valueName (t :: w)).map fun r => (.name r.1, r.2)
    | _ => .error ⟨.unexpected .settingValue, t :: w⟩

end Rule

end PipelineScript
