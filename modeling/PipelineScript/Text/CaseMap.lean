import PipelineScript.Text.Basic

/-!
# Case mapping into ASCII

Full Unicode case mapping, cut down to the characters whose image is ASCII.
A text with any other character has no ASCII image.
-/

namespace PipelineScript.Text

def lowerChar? (c : Char) : Option Text :=
  if c.toNat < 128 then some [c.toLower]
  else if c = '\u212a' then some ['k']
  else none

/-- The upper-case form of a character, where it is ASCII; ligatures and sharp s become several letters. -/
def upperChar? (c : Char) : Option Text :=
  if c.toNat < 128 then some [c.toUpper]
  else match c with
    | '\u00df' => some ['S', 'S']
    | '\u0131' => some ['I']
    | '\u017f' => some ['S']
    | '\ufb00' => some ['F', 'F']
    | '\ufb01' => some ['F', 'I']
    | '\ufb02' => some ['F', 'L']
    | '\ufb03' => some ['F', 'F', 'I']
    | '\ufb04' => some ['F', 'F', 'L']
    | '\ufb05' => some ['S', 'T']
    | '\ufb06' => some ['S', 'T']
    | _ => none

def lower? (t : Text) : Option Text := (t.mapM lowerChar?).map List.flatten

def upper? (t : Text) : Option Text := (t.mapM upperChar?).map List.flatten

end PipelineScript.Text
