import PipelineScript.Json.Basic

/-!
# JSON lexemes

A JSON text is a sequence of lexemes with blanks between them. A string cannot
hold control characters or unknown escapes; it has no value if it is broken.
-/

namespace PipelineScript.Json

inductive Lexeme
  | openObject
  | closeObject
  | openArray
  | closeArray
  | colon
  | comma
  | atom (value : Json)
  | string (value : Option Text)
  deriving Repr

def isBlank (c : Char) : Bool := c == ' ' || c == '\t' || c == '\n' || c == '\r'

/-! ## Numbers -/

def number? (t : Text) : Option (Json × Nat) :=
  match t with
  | '-' :: u => (Number.unsignedWidth? u).map fun w => (.otherNumber (t.take (w.1 + 1)), w.1 + 1)
  | _ => (Number.unsignedWidth? t).map fun w =>
    if w.2 then (.nat (Number.digitsValue (t.take w.1)), w.1) else (.otherNumber (t.take w.1), w.1)

/-! ## Texts

A text is first read as code points, in which an escaped surrogate stands for
itself, and then as characters.
-/

def hexDigit? (c : Char) : Option Nat :=
  if c.isDigit then some (c.toNat - 48)
  else if 'a' ≤ c ∧ c ≤ 'f' then some (c.toNat - 87)
  else if 'A' ≤ c ∧ c ≤ 'F' then some (c.toNat - 55)
  else none

def hexValue? (a b c d : Char) : Option Nat := do
  let a ← hexDigit? a
  let b ← hexDigit? b
  let c ← hexDigit? c
  let d ← hexDigit? d
  return ((a * 16 + b) * 16 + c) * 16 + d

def escaped? : Char → Option Char
  | '"' => some '"'
  | '\\' => some '\\'
  | '/' => some '/'
  | 'b' => some '\x08'
  | 'f' => some '\x0c'
  | 'n' => some '\n'
  | 'r' => some '\r'
  | 't' => some '\t'
  | _ => none

/-- The code points up to the closing quote, and the width of their written form with the quote. -/
def codePoints? : Text → Option (List Nat × Nat)
  | [] => none
  | c :: t =>
    if c = '"' then some ([], 1)
    else if c = '\\' then
      match t with
      | [] => none
      | 'u' :: h₁ :: h₂ :: h₃ :: h₄ :: u => do
        let p ← hexValue? h₁ h₂ h₃ h₄
        let r ← codePoints? u
        return (p :: r.1, r.2 + 6)
      | e :: u => do
        let d ← escaped? e
        let r ← codePoints? u
        return (d.toNat :: r.1, r.2 + 2)
    else if c.toNat < 32 then none
    else (codePoints? t).map fun r => (c.toNat :: r.1, r.2 + 1)

def isHighSurrogate (u : Nat) : Bool := 0xD800 ≤ u && u < 0xDC00

def isLowSurrogate (u : Nat) : Bool := 0xDC00 ≤ u && u < 0xE000

/-- Joins surrogates in pairs; one that stands alone names no character. -/
def characters? : List Nat → Option Text
  | [] => some []
  | [u] => if isHighSurrogate u || isLowSurrogate u then none else some [Char.ofNat u]
  | u :: v :: us =>
    if isHighSurrogate u && isLowSurrogate v then
      (characters? us).map (Char.ofNat (0x10000 + (u - 0xD800) * 0x400 + (v - 0xDC00)) :: ·)
    else if isHighSurrogate u || isLowSurrogate u then none
    else (characters? (v :: us)).map (Char.ofNat u :: ·)

/-! ## Lexing -/

def word? (word : String) (value : Json) (t : Text) : Option (Lexeme × Nat) :=
  if t.take word.length = word.toList then some (.atom value, word.length) else none

/-- The lexeme that starts with `c` before `t`, and how many characters of `t` belong to it. -/
def lexeme? (c : Char) (t : Text) : Option (Lexeme × Nat) :=
  match c with
  | '{' => some (.openObject, 0)
  | '}' => some (.closeObject, 0)
  | '[' => some (.openArray, 0)
  | ']' => some (.closeArray, 0)
  | ':' => some (.colon, 0)
  | ',' => some (.comma, 0)
  | '"' => (codePoints? t).map fun r => (.string (characters? r.1), r.2)
  | 'n' => word? "ull" null t
  | 't' => word? "rue" (bool true) t
  | 'f' => word? "alse" (bool false) t
  | _ => (number? (c :: t)).map fun r => (.atom r.1, r.2 - 1)

def lexemes? (t : Text) : Option (List Lexeme) :=
  match t with
  | [] => some []
  | c :: t =>
    if isBlank c then lexemes? t
    else do
      let l ← lexeme? c t
      let ls ← lexemes? (t.drop l.2)
      return l.1 :: ls
termination_by t.length
decreasing_by
  · exact Nat.lt_succ_self _
  · simp only [List.length_drop, List.length_cons]; omega

end PipelineScript.Json
