import PipelineScript.Output

/-!
# Traces

A trace tells how a run went: which heads were tried, which diagnostics came
of it and where reading went on, and at the end how much was found.
-/

namespace PipelineScript

inductive Event
  | dispatch (head : Text) (line : Nat)
  | diagnostic (d : Diagnostic)
  | limitReached
  | resynchronized (skipped : Nat)
  | parsed (statements diagnostics : Nat)
  deriving Repr, DecidableEq

namespace Event

inductive Level
  | trace
  | debug
  | warn
  deriving Repr, DecidableEq

def Level.name : Level → String
  | trace => "TRACE"
  | debug => "DEBUG"
  | warn => "WARN"

def level : Event → Level
  | dispatch .. => .trace
  | diagnostic _ => .warn
  | _ => .debug

def message : Event → String
  | dispatch .. => "dispatching statement"
  | diagnostic d => d.message
  | limitReached => "diagnostic limit reached, stopping"
  | resynchronized _ => "resynchronized after error"
  | parsed .. => "parsed script"

inductive Field
  | text (t : Text)
  | number (n : Nat)
  deriving Repr, DecidableEq

/-- The fields of an event beside its message; columns are counted from one. -/
def fields : Event → List (String × Field)
  | dispatch head line => [("head", .text head), ("line", .number line)]
  | diagnostic d =>
    [("code", .text d.code.toList), ("line", .number d.position.line), ("column", .number (d.position.column + 1))]
  | limitReached => []
  | resynchronized skipped => [("skipped", .number skipped)]
  | parsed statements diagnostics => [("statements", .number statements), ("diagnostics", .number diagnostics)]

structure Record where
  level : Level
  message : String
  fields : List (String × Field)
  deriving Repr, DecidableEq

def record (e : Event) : Record := ⟨e.level, e.message, e.fields⟩

def ofHead (head : Token) : Event := dispatch head.lexeme head.position.line

def ofRecovery : Recovery → Event
  | .stopped => limitReached
  | .skipped count => resynchronized count

def ofOutcome : Outcome → List Event
  | .comment _ => []
  | .statement head _ => [ofHead head]
  | .fault head d recovery => [ofHead head, diagnostic d, ofRecovery recovery]

end Event

structure Trace where
  tokens : Nat
  events : List Event
  deriving Repr, DecidableEq

namespace Trace

def span (t : Trace) : Event.Record := ⟨.debug, "parse_script", [("tokens", .number t.tokens)]⟩

def records (t : Trace) : List Event.Record := t.span :: t.events.map Event.record

end Trace

def Session.trace (s : Session) : Trace :=
  let outcomes := s.run.1
  let output := Output.ofOutcomes s.settings outcomes
  ⟨s.tokenCount, outcomes.flatMap Event.ofOutcome ++ [.parsed output.script.size output.diagnostics.length]⟩

end PipelineScript
