import PipelineScript.Text.Basic

/-!
# Quoted strings

A string stands between two equal quotes, and a backslash takes the next character
with it. Five escapes stand for one character each.
-/

namespace PipelineScript.Literal.Quoted

/-- The number of characters through the first quote `q` that is not escaped. -/
def close? (q : Char) : Text → Option Nat
  | [] => none
  | c :: t =>
    if c = '\\' then
      match t with
      | [] => none
      | _ :: u => (close? q u).map (· + 2)
    else if c = q then some 1
    else (close? q t).map (· + 1)

def escaped? : Char → Option Char
  | 'n' => some '\n'
  | 't' => some '\t'
  | 'r' => some '\r'
  | '\\' => some '\\'
  | '"' => some '"'
  | '\x27' => some '\x27'
  | _ => none

def unescape : Text → Text
  | [] => []
  | c :: t =>
    if c = '\\' then
      match t with
      | [] => ['\\']
      | d :: u =>
        match escaped? d with
        | some e => e :: unescape u
        | none => '\\' :: d :: unescape u
    else c :: unescape t

def escapeChar : Char → Text
  | '"' => ['\\', '"']
  | '\\' => ['\\', '\\']
  | '\n' => ['\\', 'n']
  | '\t' => ['\\', 't']
  | '\r' => ['\\', 'r']
  | c => [c]

def escape (v : Text) : Text := v.flatMap escapeChar

def encode (v : Text) : Text := '"' :: escape v ++ ['"']

def decode (lexeme : Text) : Text := unescape (Text.strip 1 lexeme)

/-! ## One step of each scan -/

theorem close?_backslash (q c : Char) (t : Text) : close? q ('\\' :: c :: t) = (close? q t).map (· + 2) := rfl

theorem close?_cons {q c : Char} (h : c ≠ '\\') (t : Text) :
    close? q (c :: t) = if c = q then some 1 else (close? q t).map (· + 1) := by
  rw [close?.eq_def]
  simp [h]

theorem unescape_backslash (c : Char) (t : Text) :
    unescape ('\\' :: c :: t) =
      match escaped? c with
      | some d => d :: unescape t
      | none => '\\' :: c :: unescape t := by
  rw [unescape.eq_def]
  simp

theorem unescape_cons {c : Char} (h : c ≠ '\\') (t : Text) : unescape (c :: t) = c :: unescape t := by
  rw [unescape.eq_def]
  simp [h]

/-! ## Reading back what was written -/

/-- A character is written as itself, or as a backslash and a letter that stands for it. -/
theorem escapeChar_cases (c : Char) :
    (c ≠ '"' ∧ c ≠ '\\' ∧ escapeChar c = [c]) ∨ ∃ d, escapeChar c = ['\\', d] ∧ escaped? d = some c := by
  unfold escapeChar
  split
  case h_6 => simp_all
  all_goals exact .inr ⟨_, rfl, rfl⟩

theorem close?_escapeChar (c : Char) (t : Text) :
    close? '"' (escapeChar c ++ t) = (close? '"' t).map (· + (escapeChar c).length) := by
  rcases escapeChar_cases c with ⟨hq, hb, he⟩ | ⟨d, he, _⟩
  · rw [he, List.singleton_append, close?_cons hb, if_neg hq]
    rfl
  · rw [he, List.cons_append, List.singleton_append, close?_backslash]
    rfl

theorem close?_escape (v t : Text) : close? '"' (escape v ++ '"' :: t) = some ((escape v).length + 1) := by
  induction v with
  | nil => rw [escape, List.flatMap_nil, List.nil_append, close?_cons (by decide), if_pos rfl]; rfl
  | cons c v ih =>
    unfold escape at *
    rw [List.flatMap_cons, List.append_assoc, close?_escapeChar, ih, List.length_append, Option.map_some]
    exact congrArg some (by omega)

theorem unescape_escapeChar (c : Char) (t : Text) : unescape (escapeChar c ++ t) = c :: unescape t := by
  rcases escapeChar_cases c with ⟨_, hb, he⟩ | ⟨d, he, hd⟩
  · rw [he, List.singleton_append, unescape_cons hb]
  · rw [he, List.cons_append, List.singleton_append, unescape_backslash, hd]

theorem unescape_escape (v : Text) : unescape (escape v) = v := by
  induction v with
  | nil => rfl
  | cons c v ih =>
    unfold escape at *
    rw [List.flatMap_cons, unescape_escapeChar, ih]

end PipelineScript.Literal.Quoted
