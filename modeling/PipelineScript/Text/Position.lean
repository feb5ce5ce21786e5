import PipelineScript.Text.Basic

/-!
# Positions

A position counts what precedes it: bytes, lines (from one) and the characters
of its own line. Moving over a text moves all three, one character at a time.
-/

namespace PipelineScript

structure Position where
  offset : Nat
  line : Nat
  column : Nat
  deriving Repr, DecidableEq

namespace Position

def start : Position := ⟨0, 1, 0⟩

def next (p : Position) (c : Char) : Position :=
  if c = '\n' then ⟨p.offset + c.utf8Size, p.line + 1, 0⟩ else ⟨p.offset + c.utf8Size, p.line, p.column + 1⟩

/-- The position just past `t` when `t` stands at `p`. -/
def past (p : Position) (t : Text) : Position := t.foldl next p

@[simp] theorem past_nil (p : Position) : p.past [] = p := rfl

@[simp] theorem past_cons (p : Position) (c : Char) (t : Text) : p.past (c :: t) = (p.next c).past t := rfl

theorem past_append (p : Position) (s t : Text) : p.past (s ++ t) = (p.past s).past t := List.foldl_append

theorem next_offset (p : Position) (c : Char) : (p.next c).offset = p.offset + c.utf8Size := by
  unfold next; split <;> rfl

theorem past_offset : ∀ (p : Position) (t : Text), (p.past t).offset = p.offset + t.byteLength
  | p, [] => rfl
  | p, c :: t => by rw [past_cons, past_offset, next_offset, Text.byteLength_cons, Nat.add_assoc]

/-- People count columns from one. -/
def render (p : Position) : String := s!"{p.line}:{p.column + 1}"

end Position

end PipelineScript
