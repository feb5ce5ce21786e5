import PipelineScript.Keyword
import PipelineScript.Literal.Backquoted
import PipelineScript.Literal.Block
import PipelineScript.Literal.Quoted
import PipelineScript.Text.Position

/-!
# Tokens

A token is a classified piece of source text. The grammar reads the significant
tokens only, though line comments can become statements.
-/

namespace PipelineScript

inductive Token.Kind
  | keyword (k : Keyword)
  | dot
  | semicolon
  | equals
  | string
  | blockString
  | identifier
  | backquoted
  | lineComment
  | emptyComment
  | bracketedComment
  | whitespace
  | unrecognized
  | endOfInput
  deriving Repr, DecidableEq

/-- The lexeme keeps its delimiters. A token need not come from a text, so kind and lexeme can disagree. -/
structure Token where
  kind : Token.Kind
  lexeme : Text
  position : Position
  deriving Repr, DecidableEq

namespace Token

namespace Kind

def isTrivia : Kind → Bool
  | whitespace | emptyComment | bracketedComment => true
  | _ => false

def isComment : Kind → Bool
  | lineComment | emptyComment | bracketedComment => true
  | _ => false

def isName : Kind → Bool
  | identifier | backquoted => true
  | _ => false

def isSignificant : Kind → Bool
  | lineComment => false
  | k => !k.isTrivia

/-- How messages name a token of this kind. -/
def describe : Kind → String
  | keyword k => s!"keyword '{k.canonical}'"
  | dot => "'.'"
  | semicolon => "';'"
  | equals => "'='"
  | string => "string literal"
  | blockString => "block string"
  | identifier => "identifier"
  | backquoted => "backquoted identifier"
  | lineComment | emptyComment | bracketedComment => "comment"
  | whitespace => "whitespace"
  | unrecognized => "unrecognized input"
  | endOfInput => "end of input"

end Kind

def endOfInput (p : Position) : Token := ⟨.endOfInput, [], p⟩

def isSignificant (t : Token) : Bool := t.kind.isSignificant

def isKeyword (t : Token) (k : Keyword) : Bool := t.kind == .keyword k

def endOffset (t : Token) : Nat := t.position.offset + t.lexeme.byteLength

def endPosition (t : Token) : Position := t.position.past t.lexeme

theorem endPosition_offset (t : Token) : t.endPosition.offset = t.endOffset := Position.past_offset ..

/-- What a literal or a name stands for; any other token stands for its lexeme. That there is a value for every lexeme,
also one whose delimiter is no ASCII character, is the convention of `Text.strip`. -/
def value (t : Token) : Text :=
  match t.kind with
  | .string => Literal.Quoted.decode t.lexeme
  | .blockString => Literal.Block.decode t.lexeme
  | .backquoted => Literal.Backquoted.decode t.lexeme
  | _ => t.lexeme

/-- How messages name this token: names and strings are shown, the rest only described. -/
def describe (t : Token) : String :=
  match t.kind with
  | .identifier | .backquoted | .string => s!"{t.kind.describe} {String.ofList t.lexeme}"
  | k => k.describe

def text (ts : List Token) : Text := ts.flatMap lexeme

theorem text_append (s t : List Token) : text (s ++ t) = text s ++ text t := List.flatMap_append

end Token

end PipelineScript
