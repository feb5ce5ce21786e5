/-!
# Settings

Settings say which results of a parse are kept and when it stops early.
-/

namespace PipelineScript

structure Settings where
  commentStatements : Bool := true
  /-- The number of diagnostics at which parsing stops. -/
  maxDiagnostics : Option Nat := none
  deriving Repr, DecidableEq

namespace Settings

def withoutComments (s : Settings) : Settings := { s with commentStatements := false }

def withMaxDiagnostics (s : Settings) (limit : Nat) : Settings := { s with maxDiagnostics := some limit }

def reaches (s : Settings) (count : Nat) : Bool := s.maxDiagnostics.any (· ≤ count)

end Settings

end PipelineScript
