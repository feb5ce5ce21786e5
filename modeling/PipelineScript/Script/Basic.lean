import PipelineScript.Script.Statement
import PipelineScript.Text.Position

/-!
# Scripts

A script lists its statements and the positions of their heads. The two lists
are kept apart: a script that was read from elsewhere may have more of one.
-/

namespace PipelineScript

structure Script where
  statements : List Statement
  positions : List Position
  deriving Repr, DecidableEq

namespace Script

def empty : Script := ⟨[], []⟩

def push (s : Script) (statement : Statement) (p : Position) : Script :=
  ⟨s.statements ++ [statement], s.positions ++ [p]⟩

def ofLocated (items : List (Position × Statement)) : Script := ⟨items.map (·.2), items.map (·.1)⟩

def located (s : Script) : List (Position × Statement) := s.positions.zip s.statements

def size (s : Script) : Nat := s.statements.length

def isEmpty (s : Script) : Bool := s.statements.isEmpty

def statement? (s : Script) (i : Nat) : Option Statement := s.statements[i]?

def position? (s : Script) (i : Nat) : Option Position := s.positions[i]?

/-- One statement on a line of its own: a semicolon ends it, unless it is a comment. -/
def renderLine (s : Statement) : Text := s.render ++ if s.isComment then ['\n'] else [';', '\n']

def render (s : Script) : Text := s.statements.flatMap renderLine

theorem located_ofLocated (items : List (Position × Statement)) : (ofLocated items).located = items := by
  induction items with
  | nil => rfl
  | cons i items ih => simpa [ofLocated, located] using ih

theorem push_ofLocated (items : List (Position × Statement)) (statement : Statement) (p : Position) :
    (ofLocated items).push statement p = ofLocated (items ++ [(p, statement)]) := by
  simp [push, ofLocated]

end Script

end PipelineScript
