import PipelineScript.Json.Lexeme

/-!
# Reading JSON

The reader goes over the lexemes once. It keeps the arrays and objects that
are still open, innermost first, with what they hold so far in reverse.
-/

namespace PipelineScript.Json

/-- An open array, or an open object at the member named `key`. -/
inductive Frame
  | items (before : List Json)
  | member (before : List (Option Text × Json)) (key : Option Text)
  deriving Repr

inductive ReaderState
  | value (stack : List Frame)
  | firstItem (stack : List Frame)
  | firstKey (stack : List Frame)
  | key (before : List (Option Text × Json)) (stack : List Frame)
  | colon (before : List (Option Text × Json)) (key : Option Text) (stack : List Frame)
  | behind (value : Json) (stack : List Frame)
  deriving Repr

namespace ReaderState

def start : ReaderState := value []

def open? (stack : List Frame) : Lexeme → Option ReaderState
  | .openObject => some (firstKey stack)
  | .openArray => some (firstItem stack)
  | .atom a => some (behind a stack)
  | .string t => some (behind (ofText? t) stack)
  | _ => none

def key? (before : List (Option Text × Json)) (stack : List Frame) : Lexeme → Option ReaderState
  | .string k => some (colon before k stack)
  | _ => none

def close? (v : Json) : List Frame → Lexeme → Option ReaderState
  | .items before :: stack, .comma => some (value (.items (v :: before) :: stack))
  | .items before :: stack, .closeArray => some (behind (.array (v :: before).reverse) stack)
  | .member before k :: stack, .comma => some (key ((k, v) :: before) stack)
  | .member before k :: stack, .closeObject => some (behind (ofMembers ((k, v) :: before).reverse) stack)
  | _, _ => none

def step : ReaderState → Lexeme → Option ReaderState
  | value stack, l => open? stack l
  | firstItem stack, .closeArray => some (behind (.array []) stack)
  | firstItem stack, l => open? (.items [] :: stack) l
  | firstKey stack, .closeObject => some (behind (.object []) stack)
  | firstKey stack, l => key? [] stack l
  | key before stack, l => key? before stack l
  | colon before k stack, .colon => some (value (.member before k :: stack))
  | colon .., _ => none
  | behind v stack, l => close? v stack l

def result? : ReaderState → Option Json
  | behind v [] => some v
  | _ => none

end ReaderState

def ofLexemes? (ls : List Lexeme) : Option Json := do
  let s ← ls.foldlM ReaderState.step .start
  s.result?

def parse? (t : Text) : Option Json := do
  let ls ← lexemes? t
  ofLexemes? ls

end PipelineScript.Json
