import PipelineScript.Diagnostic.Basic
import PipelineScript.Text.CaseMap
import PipelineScript.Token.Basic

/-!
# Failures of the grammar

A failure says which of the significant tokens of a statement were left unread.
Exactly one token is to blame, its offender.
-/

namespace PipelineScript

inductive Expectation
  | formatName
  | pathDot
  | path
  | tableName
  | functionName
  | columnName
  | connectionName
  | nextPart
  | settingKey
  | settingEquals
  | settingValue
  | valueName
  | optionKey
  | optionEquals
  | optionValue
  | connectorFormat
  | asTable
  | asSink
  | asAlgorithm
  | asFunction
  | queryResult
  | terminator
  deriving Repr, DecidableEq

namespace Expectation

def text : Expectation → String
  | formatName => "a format name"
  | pathDot => "'.' between format and path"
  | path => "a path"
  | tableName => "a table name"
  | functionName => "a function name"
  | columnName => "a column name"
  | connectionName => "a connection name"
  | nextPart => "a name after '.'"
  | settingKey => "a configuration key"
  | settingEquals => "'=' after the configuration key"
  | settingValue => "a value after '='"
  | valueName => "a value"
  | optionKey => "an option key"
  | optionEquals => "'=' after the option key"
  | optionValue => "a string value"
  | connectorFormat => "a connector format"
  | asTable => "'as' before the table name"
  | asSink => "'as' between the table and the sink"
  | asAlgorithm => "'as' between the table and the algorithm"
  | asFunction => "'as' before the function name"
  | queryResult => "'as <table>' at the end of the select statement"
  | terminator => "';' after the statement"

def help? (e : Expectation) (found : Token.Kind) : Option String :=
  match e, found with
  | queryResult, _ => some "a select statement names its result: select ... as <table>"
  | optionValue, .blockString => some "block strings are only accepted as `set` values; use \"...\" here"
  | _, _ => none

end Expectation

inductive Cause
  | unexpected (wanted : Expectation)
  | emptyName (wanted : Expectation) (name : Token)
  | notAStatement
  deriving Repr, DecidableEq

structure Failure where
  cause : Cause
  unread : List Token
  deriving Repr, DecidableEq

namespace Failure

/-- The token to blame: an empty name, or else the first token that was not read. -/
def offender (f : Failure) (terminator : Token) : Token :=
  match f.cause with
  | .emptyName _ name => name
  | _ => f.unread.head?.getD terminator

def unexpected (wanted : Expectation) (t : Token) : Diagnostic :=
  match t.kind with
  | .endOfInput =>
    ⟨.unterminated, s!"unexpected end of input, expected {wanted.text}", t.position, wanted.help? t.kind⟩
  | .unrecognized =>
    ⟨.lexical, s!"unrecognized input '{String.ofList t.lexeme}', expected {wanted.text}", t.position,
      wanted.help? t.kind⟩
  | _ => ⟨.syntactic, s!"expected {wanted.text}, found {t.describe}", t.position, wanted.help? t.kind⟩

def emptyName (wanted : Expectation) (t : Token) : Diagnostic :=
  ⟨.syntactic, s!"expected {wanted.text}, found an empty backquoted name", t.position, none⟩

/-- The lower-case form of a word, or else its upper-case form, if it differs and starts a statement. -/
def headVariant? (w : Text) : Option Text :=
  [Text.lower? w, Text.upper? w].findSome? fun form => form.filter fun v =>
    v != w && (Keyword.ofWord? v).any Keyword.isHead

def notAStatement (t : Token) : Diagnostic :=
  match t.kind with
  | .unrecognized => ⟨.lexical, s!"unrecognized input '{String.ofList t.lexeme}'", t.position, none⟩
  | _ =>
    ⟨.syntactic, s!"'{String.ofList t.lexeme}' does not start a statement", t.position,
      (headVariant? t.lexeme).map fun v =>
        s!"keywords are case-sensitive; did you mean '{String.ofList v}'?"⟩

def diagnostic (f : Failure) (terminator : Token) : Diagnostic :=
  match f.cause with
  | .unexpected wanted => unexpected wanted (f.offender terminator)
  | .emptyName wanted _ => emptyName wanted (f.offender terminator)
  | .notAStatement => notAStatement (f.offender terminator)

theorem diagnostic_position (f : Failure) (terminator : Token) :
    (f.diagnostic terminator).position = (f.offender terminator).position := by
  unfold diagnostic
  cases f.cause with
  | unexpected wanted => simp only [unexpected]; split <;> rfl
  | emptyName wanted name => rfl
  | notAStatement => simp only [notAStatement]; split <;> rfl

end Failure

end PipelineScript
