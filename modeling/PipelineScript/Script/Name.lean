import PipelineScript.Literal.Backquoted
import PipelineScript.Keyword

/-!
# Names

A name is written with backquotes if it had them or if it would not read back as
one bare name.
-/

namespace PipelineScript

structure Name where
  value : Text
  quoted : Bool
  deriving Repr, DecidableEq

namespace Name

def bare (value : Text) : Name := ⟨value, false⟩

def backquoted (value : Text) : Name := ⟨value, true⟩

def needsQuotes (value : Text) : Bool := !Text.isWord value || (Keyword.ofWord? value).isSome

def render (n : Name) : Text :=
  if n.quoted || needsQuotes n.value then Literal.Backquoted.encode n.value else n.value

end Name

structure DottedName where
  parts : List Name
  deriving Repr, DecidableEq

namespace DottedName

def segments (n : DottedName) : List Text := n.parts.map Name.value

def joined (n : DottedName) : Text := Text.join ['.'] n.segments

def render (n : DottedName) : Text := Text.join ['.'] (n.parts.map Name.render)

end DottedName

structure FormatPath where
  format : Name
  path : Name
  deriving Repr, DecidableEq

def FormatPath.render (f : FormatPath) : Text := f.format.render ++ '.' :: f.path.render

inductive Database
  | name (n : Name)
  | dotted (n : DottedName)
  deriving Repr, DecidableEq

namespace Database

def ofDotted : DottedName → Database
  | ⟨[n]⟩ => name n
  | d => dotted d

def text : Database → Text
  | name n => n.value
  | dotted n => n.joined

def render : Database → Text
  | name n => n.render
  | dotted n => n.render

end Database

end PipelineScript
