import PipelineScript.Text.Basic

/-!
# Lines

A line ends at a line feed, and a carriage return just before it belongs to the
ending. There is no empty last line.
-/

namespace PipelineScript.Text

def lines : Text → List Text
  | [] => []
  | c :: t =>
    if c = '\n' then [] :: lines t
    else if c = '\r' ∧ t.head? = some '\n' then lines t
    else
      match lines t with
      | [] => [[c]]
      | l :: ls => (c :: l) :: ls

def line (t : Text) (n : Nat) : Text := (lines t)[n - 1]?.getD []

theorem lines_newline (t : Text) : lines ('\n' :: t) = [] :: lines t := by simp [lines]

end PipelineScript.Text
