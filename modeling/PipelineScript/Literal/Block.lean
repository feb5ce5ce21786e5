import PipelineScript.Text.Basic

/-!
# Block strings

A block string stands between triple quotes and is kept verbatim.
-/

namespace PipelineScript.Literal.Block

def close? : Text → Option Nat
  | [] => none
  | c :: t => if c = '\x27' ∧ t.take 2 = ['\x27', '\x27'] then some 3 else (close? t).map (· + 1)

def encode (v : Text) : Text := '\x27' :: '\x27' :: '\x27' :: v ++ ['\x27', '\x27', '\x27']

def decode (lexeme : Text) : Text := Text.strip 3 lexeme

end PipelineScript.Literal.Block
