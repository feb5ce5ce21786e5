import PipelineScript.Literal.Comment
import PipelineScript.Text.Blank
import PipelineScript.Token.Basic

/-!
# Lexing

A literal or comment that is never closed gives up its first character alone, as
unrecognized input, and lexing goes on right behind it.
-/

namespace PipelineScript

/-! ## One token

`scan c t` is the kind of the token that starts with `c` before the text `t`,
and the number of characters of `t` that belong to it.
-/

def scanWord (c : Char) (t : Text) : Token.Kind × Nat :=
  let word := t.takeWhile Text.isWordChar
  match Keyword.ofWord? (c :: word) with
  | some k => (.keyword k, word.length)
  | none => (.identifier, word.length)

/-- A delimited token whose closing delimiter is sought behind `opening` further characters. -/
def scanClosed (kind : Token.Kind) (opening : Nat) : Option Nat → Token.Kind × Nat
  | some n => (kind, opening + n)
  | none => (.unrecognized, 0)

def scanComment (t : Text) : Token.Kind × Nat :=
  let end? := Literal.Comment.close? t
  scanClosed (if end? = some 2 then .emptyComment else .bracketedComment) 1 end?

inductive Opening
  | blank
  | line
  | bracket
  | single (kind : Token.Kind)
  | block
  | quote
  | backquote
  | word
  | stray

def opening (c : Char) (t : Text) : Opening :=
  if Text.isBlank c then .blank
  else if (c = '-' ∨ c = '/') ∧ t.head? = some c then .line
  else if c = '/' ∧ t.head? = some '*' then .bracket
  else if c = '.' then .single .dot
  else if c = ';' then .single .semicolon
  else if c = '=' then .single .equals
  else if c = '\x27' ∧ t.take 2 = ['\x27', '\x27'] then .block
  else if c = '"' ∨ c = '\x27' then .quote
  else if c = '\x60' then .backquote
  else if Text.isWordChar c then .word
  else .stray

/-- The kind of the token and how much of `t` belongs to it. -/
def Opening.extent (c : Char) (t : Text) : Opening → Token.Kind × Nat
  | blank => (.whitespace, (t.takeWhile Text.isBlank).length)
  | line => (.lineComment, (t.takeWhile (· ≠ '\n')).length)
  | bracket => scanComment (t.drop 1)
  | single kind => (kind, 0)
  | block => scanClosed .blockString 2 (Literal.Block.close? (t.drop 2))
  | quote => scanClosed .string 0 (Literal.Quoted.close? c t)
  | backquote => scanClosed .backquoted 0 (Literal.Backquoted.close? t)
  | word => scanWord c t
  | stray => (.unrecognized, 0)

def scan (c : Char) (t : Text) : Token.Kind × Nat := (opening c t).extent c t

/-! ## A whole text -/

def firstToken (p : Position) (c : Char) (t : Text) : Token := ⟨(scan c t).1, c :: t.take (scan c t).2, p⟩

def afterFirst (c : Char) (t : Text) : Text := t.drop (scan c t).2

theorem firstToken_append_afterFirst (p : Position) (c : Char) (t : Text) :
    (firstToken p c t).lexeme ++ afterFirst c t = c :: t := by
  simp [firstToken, afterFirst]

theorem length_afterFirst_le (c : Char) (t : Text) : (afterFirst c t).length ≤ t.length := by
  simp [afterFirst]

def tokensAt (p : Position) : Text → List Token
  | [] => [.endOfInput p]
  | c :: t => firstToken p c t :: tokensAt (firstToken p c t).endPosition (afterFirst c t)
termination_by t => t.length
decreasing_by exact Nat.lt_succ_of_le (length_afterFirst_le c t)

def tokenize (source : Text) : List Token := tokensAt .start source

/-! ## Token by token -/

/-- A lexer between two tokens; it is finished once it has handed out the end of input. -/
inductive Lexer
  | reading (position : Position) (rest : Text)
  | finished
  deriving Repr, DecidableEq

namespace Lexer

def start (source : Text) : Lexer := reading .start source

def next : Lexer → Option Token × Lexer
  | reading p [] => (some (.endOfInput p), finished)
  | reading p (c :: t) =>
    (some (firstToken p c t), reading (firstToken p c t).endPosition (afterFirst c t))
  | finished => (none, finished)

def steps : Nat → Lexer → List (Option Token)
  | 0, _ => []
  | n + 1, l => l.next.1 :: steps n l.next.2

end Lexer

theorem text_tokensAt (p : Position) (t : Text) : Token.text (tokensAt p t) = t := by
  fun_induction tokensAt p t with
  | case1 p => rfl
  | case2 p c t ih => rw [Token.text, List.flatMap_cons, ← Token.text, ih, firstToken_append_afterFirst]

theorem steps_finished : ∀ n, Lexer.steps n .finished = List.replicate n none
  | 0 => rfl
  | n + 1 => by rw [Lexer.steps, Lexer.next, steps_finished n]; rfl

end PipelineScript
