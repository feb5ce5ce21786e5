import PipelineScript.Grammar.Statement

/-!
# Segments

A token stream is read up to its first end of input and cut behind every
semicolon. Each segment holds at most one statement.
-/

namespace PipelineScript

structure Segment where
  tokens : List Token
  terminator : Token
  deriving Repr, DecidableEq

namespace Token

/-- A stream that does not end with an end of input gets one, just past its last token. -/
def terminated (ts : List Token) : List Token :=
  match ts.getLast? with
  | none => [.endOfInput .start]
  | some t => if t.kind = .endOfInput then ts else ts ++ [.endOfInput t.endPosition]

end Token

namespace Segment

/-- The first segment of a stream and the others; without an end of input there is one at the start. -/
def cut : List Token → Segment × List Segment
  | [] => (⟨[], .endOfInput .start⟩, [])
  | t :: ts =>
    let (first, others) := cut ts
    if t.kind = .endOfInput then (⟨[], t⟩, [])
    else if t.kind = .semicolon then (⟨[], t⟩, first :: others)
    else (⟨t :: first.tokens, first.terminator⟩, others)

def ofTokens (ts : List Token) : List Segment :=
  let (first, others) := cut (Token.terminated ts)
  first :: others

theorem cut_semicolon {t : Token} (ht : t.kind = .semicolon) (ts : List Token) :
    cut (t :: ts) = (⟨[], t⟩, (cut ts).1 :: (cut ts).2) := by
  simp [cut, ht]

theorem cut_endOfInput {t : Token} (ht : t.kind = .endOfInput) (ts : List Token) :
    cut (t :: ts) = (⟨[], t⟩, []) := by
  simp [cut, ht]

theorem cut_other {t : Token} (hs : t.kind ≠ .semicolon) (he : t.kind ≠ .endOfInput) (ts : List Token) :
    cut (t :: ts) = (⟨t :: (cut ts).1.tokens, (cut ts).1.terminator⟩, (cut ts).2) := by
  simp [cut, hs, he]

def isClosed (s : Segment) : Bool := s.terminator.kind == .semicolon

def lead (s : Segment) : List Token := s.tokens.takeWhile fun t => !t.isSignificant

def body (s : Segment) : List Token := s.tokens.dropWhile fun t => !t.isSignificant

theorem lead_append_body (s : Segment) : s.lead ++ s.body = s.tokens := List.takeWhile_append_dropWhile

inductive Content
  | blank
  | statement (head : Token) (statement : Statement)
  | fault (head : Token) (failure : Failure)
  deriving Repr, DecidableEq

def content (s : Segment) : Content :=
  match s.body with
  | [] => .blank
  | head :: rest =>
    match readStatement head rest with
    | .ok statement => .statement head statement
    | .error failure => .fault head failure

/-- The tokens behind those that a failed statement used up. -/
def unread (s : Segment) (f : Failure) : List Token :=
  Token.dropSignificant ((Token.significant s.body).length - f.unread.length) s.body

def comments (ts : List Token) : List Token := ts.filter fun t => t.kind == .lineComment

/-- The tokens behind a statement that can hold comments of their own: those before the end of input. -/
def tail (s : Segment) : List Token := if s.isClosed then [] else Token.trailer s.tokens

end Segment

end PipelineScript
