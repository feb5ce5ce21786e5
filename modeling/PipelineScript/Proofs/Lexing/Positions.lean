import Mathlib.Data.List.DropRight
import PipelineScript.Proofs.Lexing.InPlace

/-!
# The text of the tokens and their positions

Main statement: `tokenize_lossless`.
-/

namespace PipelineScript

theorem Text.byteLength_eq_utf8ByteSize : ∀ t : Text, t.byteLength = (String.ofList t).utf8ByteSize
  | [] => rfl
  | c :: t => by
    rw [byteLength_cons, byteLength_eq_utf8ByteSize t, ← String.size_toByteArray, ← String.size_toByteArray,
      String.toByteArray_ofList, String.toByteArray_ofList, List.utf8Encode_cons, ByteArray.size_append]
    simp [List.utf8Encode_singleton]

/-! ## Positions by the text before them -/

theorem Position.past_line (s : Text) : (start.past s).line = 1 + s.count '\n' := by
  induction s using List.reverseRecOn with
  | nil => rfl
  | append_singleton s c ih =>
    rw [past_append, past_cons, past_nil, next, List.count_append]
    by_cases hc : c = '\n'
    · rw [if_pos hc, hc, ih, List.count_singleton_self, Nat.add_assoc]
    · rw [if_neg hc, ih, List.count_singleton, if_neg (by simpa using hc), Nat.add_zero]

theorem Position.past_column (s : Text) :
    (start.past s).column = (s.rtakeWhile fun c => decide (c ≠ '\n')).length := by
  induction s using List.reverseRecOn with
  | nil => rfl
  | append_singleton s c ih =>
    rw [past_append, past_cons, past_nil, next]
    by_cases hc : c = '\n'
    · rw [if_pos hc, List.rtakeWhile_concat_neg _ _ _ (by simpa using hc)]
      rfl
    · rw [if_neg hc, List.rtakeWhile_concat_pos _ _ _ (by simpa using hc), List.length_append, ih]
      rfl

theorem Position.past_start (s : Text) : start.past s =
    ⟨(String.ofList s).utf8ByteSize, 1 + s.count '\n', (s.rtakeWhile fun c => decide (c ≠ '\n')).length⟩ := by
  rw [← past_line, ← past_column, ← Text.byteLength_eq_utf8ByteSize, ← Nat.zero_add s.byteLength]
  exact congrArg (fun n => (⟨n, _, _⟩ : Position)) (past_offset start s)

theorem position_of_tokensAt {p : Position} {s : Text} {t : Token} {ts : List Token} (h : tokensAt p s = t :: ts) :
    t.position = p := by
  cases s with
  | nil =>
    rw [tokensAt_nil] at h
    rw [← (List.cons.inj h).1, Token.endOfInput]
  | cons c s =>
    rw [tokensAt_cons] at h
    rw [← (List.cons.inj h).1, firstToken]

theorem position_eq_past {p : Position} {s : Text} {before : List Token} {t : Token} {after : List Token}
    (h : tokensAt p s = before ++ t :: after) : t.position = p.past (Token.text before) :=
  position_of_tokensAt (tokensAt_suffix h (List.cons_ne_nil t after))

theorem endOffset_eq_offset {p : Position} {s : Text} {before : List Token} {t u : Token} {after : List Token}
    (h : tokensAt p s = before ++ t :: u :: after) : t.endOffset = u.position.offset := by
  have hu : u.position = p.past (Token.text (before ++ [t])) := position_eq_past (by rw [h, List.append_assoc]; rfl)
  rw [hu, Token.text_append, Position.past_append, ← position_eq_past h, ← Token.endPosition_offset]
  simp [Token.endPosition, Token.text]

theorem Lexer.steps_reading (n : Nat) : ∀ (p : Position) (t : Text),
    steps n (.reading p t) = (List.range n).map fun i => (tokensAt p t)[i]? := by
  induction n with
  | zero => intro p t; rfl
  | succ n ih =>
    intro p t
    rw [List.range_succ_eq_map, List.map_cons, List.map_map]
    cases t with
    | nil =>
      have hnone : (List.range n).map ((fun i => [Token.endOfInput p][i]?) ∘ Nat.succ) = List.replicate n none := by
        simp [List.eq_replicate_iff]
      rw [steps, next, steps_finished, tokensAt_nil, hnone]
      rfl
    | cons c t =>
      rw [steps, next, ih, tokensAt_cons]
      rfl

theorem tokenize_lossless (source : Text) :
    (∃ (ts : List Token) (p : Position), tokenize source = ts ++ [.endOfInput p] ∧
      ∀ t ∈ ts, t.kind ≠ .endOfInput ∧ t.lexeme ≠ []) ∧
    Token.text (tokenize source) = source ∧
    (∀ before t after, tokenize source = before ++ t :: after →
      t.position = ⟨(String.ofList (Token.text before)).utf8ByteSize, 1 + (Token.text before).count '\n',
        ((Token.text before).rtakeWhile fun c => decide (c ≠ '\n')).length⟩) ∧
    (∀ before t u after, tokenize source = before ++ t :: u :: after → t.endOffset = u.position.offset) ∧
    ∀ n, Lexer.steps n (.start source) = (List.range n).map fun i => (tokenize source)[i]? := by
  refine ⟨⟨_, _, tokensAt_eq_append .start source, fun t ht => mem_tokensWithin ht⟩, text_tokensAt .start source,
    fun before t after h => ?_, fun before t u after h => endOffset_eq_offset h, fun n => ?_⟩
  · rw [position_eq_past h, Position.past_start]
  · exact Lexer.steps_reading n .start source

end PipelineScript
