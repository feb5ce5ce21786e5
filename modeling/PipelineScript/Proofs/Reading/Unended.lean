import PipelineScript.Cursor
import PipelineScript.Proofs.Reading.Faults

/-!
# Streams without their end of input

They get the end of input that the lexer gives. Main statement: `ofTokens_dropLast`.
-/

namespace PipelineScript

theorem endPosition_of_getLast {p : Position} {s : Text} {t : Token} (h : (tokensWithin p s).getLast? = some t) :
    t.endPosition = p.past s := by
  obtain ⟨before, hs⟩ := List.getLast?_eq_some_iff.mp h
  have hsplit : tokensAt p s = before ++ t :: [.endOfInput (p.past s)] := by
    rw [tokensAt_eq_append, hs, List.append_assoc, List.singleton_append]
  have htext : Token.text before ++ t.lexeme = s := by
    have := text_tokensWithin p s
    rw [hs, Token.text_append] at this
    simpa [Token.text] using this
  calc t.endPosition = (p.past (Token.text before)).past t.lexeme := by rw [Token.endPosition, position_eq_past hsplit]
    _ = p.past s := by rw [← Position.past_append, htext]

theorem terminated_tokensWithin (source : Text) : Token.terminated (tokensWithin .start source) = tokenize source := by
  unfold Token.terminated
  cases h : (tokensWithin .start source).getLast? with
  | none =>
    have hnil := List.getLast?_eq_none_iff.mp h
    have htext := text_tokensWithin .start source
    rw [hnil] at htext
    obtain rfl : [] = source := htext
    rw [hnil, tokenize, tokensAt_nil]
  | some t =>
    have hne := (mem_tokensWithin (List.mem_of_getLast? h)).1
    simp only [if_neg hne]
    rw [endPosition_of_getLast h, tokenize, tokensAt_eq_append]

theorem terminated_dropLast (source : Text) : Token.terminated (tokenize source).dropLast = tokenize source := by
  rw [dropLast_tokenize, terminated_tokensWithin]

/-- For any settings and any text, the empty one too. A diagnostic for an unterminated statement stands where the text
ends, with the end of input of the lexer and without it. -/
theorem ofTokens_dropLast (settings : Settings) (source : Text) :
    tokenize source = (tokenize source).dropLast ++ [.endOfInput ⟨(String.ofList source).utf8ByteSize,
        1 + source.count '\n', (source.rtakeWhile fun c => decide (c ≠ '\n')).length⟩] ∧
    Cursor.ofTokens settings (tokenize source).dropLast = ⟨settings, tokenize source, 0⟩ ∧
    Cursor.ofTokens settings (tokenize source).dropLast = Cursor.ofTokens settings (tokenize source) ∧
    Session.ofTokens settings (tokenize source).dropLast = Session.ofSource settings source ∧
    parseTokens settings (tokenize source).dropLast = parseWith settings source ∧
    ∀ d ∈ (parseTokens settings (tokenize source).dropLast).diagnostics, d.kind = .unterminated →
      d.position = ⟨(String.ofList source).utf8ByteSize, 1 + source.count '\n',
        (source.rtakeWhile fun c => decide (c ≠ '\n')).length⟩ := by
  have hterminated := terminated_dropLast source
  have hsession : Session.ofTokens settings (tokenize source).dropLast = Session.ofSource settings source := by
    unfold Session.ofSource Session.ofTokens
    rw [Segment.ofTokens_eq_all, Segment.ofTokens_eq_all, hterminated, terminated_tokenize]
  have hparse : parseTokens settings (tokenize source).dropLast = parseWith settings source := by
    unfold parseTokens
    rw [hsession]
    rfl
  refine ⟨?_, ?_, ?_, hsession, hparse, ?_⟩
  · rw [← Position.past_start, dropLast_tokenize]
    exact tokensAt_eq_append .start source
  · rw [Cursor.ofTokens, hterminated]
  · rw [Cursor.ofTokens, Cursor.ofTokens, hterminated, terminated_tokenize]
  · intro d hd hk
    rw [hparse] at hd
    obtain ⟨t, ht, hdt⟩ := (blames_parseWith settings source).exists_mem hd
    have hend := Token.Kind.fault_eq_unterminated.mp (hdt.kind ▸ hk)
    rw [hdt.position, eq_endOfInput_of_mem ht hend, ← Position.past_start]
    rfl

/-- A text of two lines that ends inside a statement, behind a comment with a character of two bytes. -/
theorem ofTokens_dropLast_unterminated :
    let source := "drop é;\nload a.b -- ü".toList
    let d : Diagnostic :=
      ⟨.unterminated, "unexpected end of input, expected 'as' before the table name", ⟨23, 2, 13⟩, none⟩
    d ∈ (parseTokens {} (tokenize source).dropLast).diagnostics ∧ d.kind = .unterminated ∧
      d.position = ⟨23, 2, 13⟩ := by
  intro source d
  have hd : d ∈ (parseTokens {} (tokenize source).dropLast).diagnostics := by decide +kernel
  exact ⟨hd, rfl, ((ofTokens_dropLast {} source).2.2.2.2.2 d hd rfl).trans (by decide +kernel)⟩

end PipelineScript
