/-!
# Text

Source text, lexemes and everything a script stores is a list of characters.
Offsets count the bytes of its UTF-8 form.
-/

namespace PipelineScript

abbrev Text := List Char

namespace Text

def byteLength : Text → Nat
  | [] => 0
  | c :: t => c.utf8Size + byteLength t

@[simp] theorem byteLength_nil : byteLength [] = 0 := rfl

@[simp] theorem byteLength_cons (c : Char) (t : Text) : byteLength (c :: t) = c.utf8Size + byteLength t := rfl

@[simp] theorem byteLength_append : ∀ s t : Text, byteLength (s ++ t) = byteLength s + byteLength t
  | [], t => by simp
  | c :: s, t => by simp [byteLength_append s t, Nat.add_assoc]

theorem length_le_byteLength : ∀ t : Text, t.length ≤ byteLength t
  | [] => Nat.le_refl 0
  | c :: t => by
    have h := length_le_byteLength t
    have hc := c.utf8Size_pos
    simp only [List.length_cons, byteLength_cons]
    omega

/-- Drops whole characters until `n` bytes are gone; a character that the cut would split goes too. -/
def dropBytes : Nat → Text → Text
  | 0, t => t
  | _, [] => []
  | n + 1, c :: t => dropBytes (n + 1 - c.utf8Size) t

@[simp] theorem dropBytes_zero (t : Text) : dropBytes 0 t = t := by cases t <;> rfl

/-- Takes `width` bytes of delimiter off each end; a text too short for both holds nothing. A delimiter is ASCII, and
only in a lexeme made by hand can a cut fall inside a character. There is no such text to give back, and by convention
that character is dropped whole. -/
def strip (width : Nat) (t : Text) : Text :=
  if byteLength t < 2 * width then [] else (dropBytes width (dropBytes width t).reverse).reverse

/-- The characters of a bare name: ASCII letters, digits and `_`. -/
def isWordChar (c : Char) : Bool := c.isAlphanum || c == '_'

def isWord (t : Text) : Bool := !t.isEmpty && t.all isWordChar

def join (separator : Text) : List Text → Text
  | [] => []
  | [t] => t
  | t :: u :: ts => t ++ separator ++ join separator (u :: ts)

end Text

end PipelineScript
