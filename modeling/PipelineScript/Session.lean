import PipelineScript.Script.Basic
import PipelineScript.Segment
import PipelineScript.Settings
import PipelineScript.Token.Lexer

/-!
# Sessions

A session reads the segments of a token stream in order. Where its settings stop
it, a later run goes on with the tokens that were left unread.
-/

namespace PipelineScript

/-- What happens behind a fault: reading stops, or goes on past a number of unread tokens. -/
inductive Recovery
  | stopped
  | skipped (count : Nat)
  deriving Repr, DecidableEq

inductive Outcome
  | comment (token : Token)
  | statement (head : Token) (statement : Statement)
  | fault (head : Token) (diagnostic : Diagnostic) (recovery : Recovery)
  deriving Repr, DecidableEq

namespace Outcome

def comments (ts : List Token) : List Outcome := (Segment.comments ts).map comment

def located? : Outcome → Option (Position × Statement)
  | comment t => some (t.position, .comment t.lexeme)
  | statement head s => some (head.position, s)
  | fault .. => none

def diagnostic? : Outcome → Option Diagnostic
  | fault _ d _ => some d
  | _ => none

def isComment : Outcome → Bool
  | comment _ => true
  | _ => false

end Outcome

structure Reading where
  outcomes : List Outcome
  remaining : List Segment
  deriving Repr, DecidableEq

namespace Reading

def after (outcomes : List Outcome) (r : Reading) : Reading := ⟨outcomes ++ r.outcomes, r.remaining⟩

/-- Reads segments when `reported` faults have been found before. -/
def ofSegments (settings : Settings) (reported : Nat) : List Segment → Reading
  | [] => ⟨[], []⟩
  | s :: ss =>
    match s.content with
    | .blank => after (Outcome.comments s.lead) (ofSegments settings reported ss)
    | .statement head statement =>
      after (Outcome.comments s.lead ++ .statement head statement :: Outcome.comments s.tail)
        (ofSegments settings reported ss)
    | .fault head failure =>
      let diagnostic := failure.diagnostic s.terminator
      let unread := s.unread failure
      if settings.reaches (reported + 1) then
        ⟨Outcome.comments s.lead ++ [.fault head diagnostic .stopped], ⟨unread, s.terminator⟩ :: ss⟩
      else
        let skipped := unread.length + if s.isClosed then 1 else 0
        after (Outcome.comments s.lead ++ [.fault head diagnostic (.skipped skipped)])
          (ofSegments settings (reported + 1) ss)

end Reading

structure Session where
  settings : Settings
  tokenCount : Nat
  remaining : List Segment
  deriving Repr, DecidableEq

namespace Session

def ofTokens (settings : Settings) (ts : List Token) : Session :=
  ⟨settings, (Token.terminated ts).length, Segment.ofTokens ts⟩

def ofSource (settings : Settings) (source : Text) : Session := ofTokens settings (tokenize source)

def run (s : Session) : List Outcome × Session :=
  let r := Reading.ofSegments s.settings 0 s.remaining
  (r.outcomes, { s with remaining := r.remaining })

end Session

end PipelineScript
