import PipelineScript.Text.Basic

/-!
# Backquoted names

Between backquotes anything goes; a doubled backquote stands for one.
-/

namespace PipelineScript.Literal.Backquoted

/-- The number of characters through the first backquote that is not doubled. -/
def close? : Text → Option Nat
  | [] => none
  | c :: t =>
    if c = '\x60' then
      match t with
      | [] => some 1
      | d :: u => if d = '\x60' then (close? u).map (· + 2) else some 1
    else (close? t).map (· + 1)

def undouble : Text → Text
  | [] => []
  | c :: t =>
    if c = '\x60' then
      match t with
      | [] => ['\x60']
      | d :: u => if d = '\x60' then '\x60' :: undouble u else '\x60' :: undouble (d :: u)
    else c :: undouble t

def double (v : Text) : Text := v.flatMap fun c => if c = '\x60' then ['\x60', '\x60'] else [c]

def encode (v : Text) : Text := '\x60' :: double v ++ ['\x60']

def decode (lexeme : Text) : Text := undouble (Text.strip 1 lexeme)

/-! ## One step of each scan -/

theorem close?_pair (t : Text) : close? ('\x60' :: '\x60' :: t) = (close? t).map (· + 2) := rfl

theorem close?_cons {c : Char} (h : c ≠ '\x60') (t : Text) : close? (c :: t) = (close? t).map (· + 1) := by
  rw [close?.eq_def]
  simp [h]

theorem close?_single {t : Text} (h : t.head? ≠ some '\x60') : close? ('\x60' :: t) = some 1 := by
  cases t with
  | nil => rfl
  | cons c t =>
    have hc : c ≠ '\x60' := fun e => h (by rw [e]; rfl)
    rw [close?.eq_def]
    simp [hc]

theorem undouble_pair (t : Text) : undouble ('\x60' :: '\x60' :: t) = '\x60' :: undouble t := rfl

theorem undouble_cons {c : Char} (h : c ≠ '\x60') (t : Text) : undouble (c :: t) = c :: undouble t := by
  rw [undouble.eq_def]
  simp [h]

/-! ## Reading back what was written -/

theorem double_cons_self (v : Text) : double ('\x60' :: v) = '\x60' :: '\x60' :: double v := rfl

theorem double_cons {c : Char} (h : c ≠ '\x60') (v : Text) : double (c :: v) = c :: double v := by
  simp [double, h]

theorem close?_double_append (v t : Text) : close? (double v ++ t) = (close? t).map (· + (double v).length) := by
  induction v with
  | nil => simp [double]
  | cons c v ih =>
    by_cases hc : c = '\x60'
    · subst hc
      rw [double_cons_self, List.cons_append, List.cons_append, close?_pair, ih, Option.map_map]
      rfl
    · rw [double_cons hc, List.cons_append, close?_cons hc, ih, Option.map_map]
      rfl

theorem close?_double (v : Text) {t : Text} (h : t.head? ≠ some '\x60') :
    close? (double v ++ '\x60' :: t) = some ((double v).length + 1) := by
  rw [close?_double_append, close?_single h, Option.map_some, Nat.add_comm]

theorem undouble_double (v : Text) : undouble (double v) = v := by
  induction v with
  | nil => rfl
  | cons c v ih =>
    by_cases hc : c = '\x60'
    · subst hc
      rw [double_cons_self, undouble_pair, ih]
    · rw [double_cons hc, undouble_cons hc, ih]

end PipelineScript.Literal.Backquoted
