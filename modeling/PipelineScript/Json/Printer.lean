import PipelineScript.Json.Basic

/-!
# Writing JSON

Values are written on several lines, each level indented by two spaces, or on one
line without blanks.
-/

namespace PipelineScript.Json

def hexDigit (n : Nat) : Char := if n < 10 then Char.ofNat (48 + n) else Char.ofNat (87 + n)

def escapeChar (c : Char) : Text :=
  match c with
  | '"' => ['\\', '"']
  | '\\' => ['\\', '\\']
  | '\x08' => ['\\', 'b']
  | '\x0c' => ['\\', 'f']
  | '\n' => ['\\', 'n']
  | '\r' => ['\\', 'r']
  | '\t' => ['\\', 't']
  | c => if c.toNat < 32 then ['\\', 'u', '0', '0', hexDigit (c.toNat / 16), hexDigit (c.toNat % 16)] else [c]

def quote (t : Text) : Text := '"' :: t.flatMap escapeChar ++ ['"']

def printAtom : Json → Text
  | bool true => "true".toList
  | bool false => "false".toList
  | nat n => (toString n).toList
  | otherNumber written => written
  | text t => quote t
  | broken => quote []
  | _ => "null".toList

def newline (level : Nat) : Text := '\n' :: List.replicate (2 * level) ' '

mutual

/-- The value on several lines, standing on a line indented by `level`. -/
def pretty (level : Nat) : Json → Text
  | array [] => ['[', ']']
  | array (j :: js) => '[' :: prettyItem (level + 1) j ++ prettyItems (level + 1) js ++ newline level ++ [']']
  | object [] => ['{', '}']
  | object (m :: ms) =>
    '{' :: prettyMember (level + 1) m ++ prettyMembers (level + 1) ms ++ newline level ++ ['}']
  | j => printAtom j

def prettyItem (level : Nat) (j : Json) : Text := newline level ++ pretty level j

def prettyItems (level : Nat) : List Json → Text
  | [] => []
  | j :: js => ',' :: prettyItem level j ++ prettyItems level js

def prettyMember (level : Nat) : Text × Json → Text
  | (k, j) => newline level ++ quote k ++ ':' :: ' ' :: pretty level j

def prettyMembers (level : Nat) : List (Text × Json) → Text
  | [] => []
  | m :: ms => ',' :: prettyMember level m ++ prettyMembers level ms

end

def print (j : Json) : Text := pretty 0 j

mutual

def compact : Json → Text
  | array [] => ['[', ']']
  | array (j :: js) => '[' :: compact j ++ compactItems js ++ [']']
  | object [] => ['{', '}']
  | object ((k, j) :: ms) => '{' :: quote k ++ ':' :: compact j ++ compactMembers ms ++ ['}']
  | j => printAtom j

def compactItems : List Json → Text
  | [] => []
  | j :: js => ',' :: compact j ++ compactItems js

def compactMembers : List (Text × Json) → Text
  | [] => []
  | (k, j) :: ms => ',' :: quote k ++ ':' :: compact j ++ compactMembers ms

end

end PipelineScript.Json
