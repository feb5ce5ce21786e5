import PipelineScript.Session

/-!
# Output

The output of a run is the script of its statements and the list of its
diagnostics, both in source order. A script is accepted if there are none.
-/

namespace PipelineScript

structure Output where
  script : Script
  diagnostics : List Diagnostic
  deriving Repr, DecidableEq

structure Rejection where
  first : Diagnostic
  others : List Diagnostic
  deriving Repr, DecidableEq

namespace Rejection

def diagnostics (r : Rejection) : List Diagnostic := r.first :: r.others

def more : Nat → String
  | 0 => ""
  | 1 => " (and 1 more error)"
  | n => s!" (and {n} more errors)"

def message (r : Rejection) : String := r.first.render ++ more r.others.length

end Rejection

namespace Output

def keeps (settings : Settings) (o : Outcome) : Bool := settings.commentStatements || !o.isComment

def ofOutcomes (settings : Settings) (os : List Outcome) : Output :=
  ⟨.ofLocated ((os.filter (keeps settings)).filterMap Outcome.located?), os.filterMap Outcome.diagnostic?⟩

def hasErrors (o : Output) : Bool := !o.diagnostics.isEmpty

def toResult (o : Output) : Except Rejection Script :=
  match o.diagnostics with
  | [] => .ok o.script
  | d :: ds => .error ⟨d, ds⟩

end Output

def Session.output (s : Session) : Output × Session :=
  let (outcomes, rest) := s.run
  (.ofOutcomes s.settings outcomes, rest)

def Session.outputs : Nat → Session → List Output
  | 0, _ => []
  | n + 1, s => s.output.1 :: outputs n s.output.2

def parseTokens (settings : Settings) (ts : List Token) : Output := (Session.ofTokens settings ts).output.1

def parseWith (settings : Settings) (source : Text) : Output := parseTokens settings (tokenize source)

def parse (source : Text) : Output := parseWith {} source

def parseStrict (source : Text) : Except Rejection Script := (parse source).toResult

end PipelineScript
