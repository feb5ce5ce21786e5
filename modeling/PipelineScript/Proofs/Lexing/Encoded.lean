import PipelineScript.Proofs.Lexing.Decode
import PipelineScript.Proofs.Lexing.InPlace

/-!
# Written literals in front of a text

A literal that was written is lexed as one token that ends where it was written
to end, whatever stands behind it. Main statement: `tokenize_encode`.
-/

namespace PipelineScript

open Literal

theorem scan_quoted (v rest : Text) : scan '"' (Quoted.escape v ++ ['"'] ++ rest) =
    (.string, (Quoted.escape v ++ ['"']).length) := by
  rw [scan, opening_quote, Opening.extent, List.append_assoc, List.singleton_append,
    Quoted.close?_escape, List.length_append]
  simp [scanClosed]

theorem scan_backquoted (v : Text) {rest : Text} (h : rest.head? ≠ some '\x60') :
    scan '\x60' (Backquoted.double v ++ ['\x60'] ++ rest) =
      (.backquoted, (Backquoted.double v ++ ['\x60']).length) := by
  rw [scan, opening_backquote, Opening.extent, List.append_assoc, List.singleton_append,
    Backquoted.close?_double v h, List.length_append]
  simp [scanClosed]

theorem scan_backquoted_ne (v rest : Text) : scan '\x60' (Backquoted.double v ++ ['\x60'] ++ '\x60' :: rest) ≠
    (.backquoted, (Backquoted.double v ++ ['\x60']).length) := by
  intro h
  rw [scan, opening_backquote, Opening.extent, List.append_assoc, List.singleton_append,
    Backquoted.close?_double_append, Backquoted.close?_pair, List.length_append] at h
  cases hc : Backquoted.close? rest with
  | none =>
    rw [hc] at h
    cases h
  | some n =>
    rw [hc] at h
    have hlen : 0 + (n + 2 + (Backquoted.double v).length) = (Backquoted.double v).length + 1 := congrArg Prod.snd h
    omega

section
variable {c : Char} {t rest : Text} {k : Token.Kind}

theorem tokensAt_of_scan (h : scan c (t ++ rest) = (k, t.length)) (p : Position) :
    tokensAt p (c :: t ++ rest) = ⟨k, c :: t, p⟩ :: tokensAt (p.past (c :: t)) rest := by
  have hfirst : firstToken p c (t ++ rest) = ⟨k, c :: t, p⟩ := by rw [firstToken, h, List.take_left]
  have hafter : afterFirst c (t ++ rest) = rest := by rw [afterFirst, h, List.drop_left]
  rw [List.cons_append, tokensAt_cons, hfirst, hafter]
  rfl

theorem scan_of_tokensAt {p : Position} {ts : List Token} (h : tokensAt p (c :: t ++ rest) = ⟨k, c :: t, p⟩ :: ts) :
    scan c (t ++ rest) = (k, t.length) := by
  rw [List.cons_append, tokensAt_cons] at h
  obtain ⟨hkind, hlexeme, -⟩ := Token.mk.inj (List.cons.inj h).1
  have hlen := congrArg List.length (List.cons.inj hlexeme).2
  rw [List.length_take, Nat.min_eq_left (scan_length_le c _)] at hlen
  exact Prod.ext hkind hlen

end

/-- For any value and any text behind it. -/
theorem tokenize_encode (v rest : Text) :
    (tokenize (Quoted.encode v ++ rest) = ⟨.string, Quoted.encode v, .start⟩ ::
        tokensAt (Position.start.past (Quoted.encode v)) rest ∧
      Token.value ⟨.string, Quoted.encode v, .start⟩ = v) ∧
    (tokenize (Backquoted.encode v ++ rest) = ⟨.backquoted, Backquoted.encode v, .start⟩ ::
        tokensAt (Position.start.past (Backquoted.encode v)) rest ↔ rest.head? ≠ some '\x60') ∧
      Token.value ⟨.backquoted, Backquoted.encode v, .start⟩ = v := by
  refine ⟨⟨tokensAt_of_scan (scan_quoted v rest) .start, Quoted.decode_encode v⟩, ⟨?_, ?_⟩,
    Backquoted.decode_encode v⟩
  · intro h hrest
    obtain ⟨u, rfl⟩ : ∃ u, rest = '\x60' :: u := by
      cases rest with
      | nil => cases hrest
      | cons d u => exact ⟨u, congrArg (· :: u) (Option.some.inj hrest)⟩
    exact scan_backquoted_ne v u (scan_of_tokensAt h)
  · intro hrest
    exact tokensAt_of_scan (scan_backquoted v hrest) .start

end PipelineScript
