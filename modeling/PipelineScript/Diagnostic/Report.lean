import PipelineScript.Diagnostic.Basic
import PipelineScript.Text.Lines

/-!
# Reports

A report shows a diagnostic with the source line it stands on and a caret
below the column. The line number is padded to three places.
-/

namespace PipelineScript

structure Listing where
  name : Text
  source : Text
  deriving Repr, DecidableEq

namespace Listing

def spaces (n : Nat) : Text := List.replicate n ' '

def digits (n : Nat) : Text := (toString n).toList

def padLeft (width : Nat) (t : Text) : Text := spaces (width - t.length) ++ t

def headline (d : Diagnostic) : Text := "error[".toList ++ d.code.toList ++ "]: ".toList ++ d.message.toList

def place (l : Listing) (p : Position) : Text :=
  "  --> ".toList ++ l.name ++ ':' :: digits p.line ++ ':' :: digits (p.column + 1)

def excerpt (l : Listing) (p : Position) : Text :=
  padLeft 3 (digits p.line) ++ " | ".toList ++ Text.line l.source p.line

def caret (p : Position) : Text := "    | ".toList ++ spaces p.column ++ ['^']

def hint : Option String → List Text
  | some help => ["help: ".toList ++ help.toList]
  | none => []

def reportLines (l : Listing) (d : Diagnostic) : List Text :=
  [headline d, l.place d.position, "    |".toList, l.excerpt d.position, caret d.position] ++ hint d.help

def report (l : Listing) (d : Diagnostic) : Text := (l.reportLines d).flatMap (· ++ ['\n'])

def reportAll (l : Listing) (ds : List Diagnostic) : Text := Text.join ['\n'] (ds.map l.report)

end Listing

end PipelineScript
