import PipelineScript.Proofs.Reading.Limits
import PipelineScript.Proofs.Syntax.Queries

/-!
# Text that is kept as it stands

A `select` and the verbatim statements keep a text of their source, from their
head up to a token that counts. Main statement: `parseWith_forwards`.
-/

namespace PipelineScript

namespace Segment

theorem readStatement_of_mem_located {comments : Bool} {s : Segment} {l : Position × Statement}
    (h : l ∈ s.located comments s.answer) (hc : l.2.isComment = false) :
    ∃ head rest, s.body = head :: rest ∧ readStatement head rest = .ok l.2 ∧ l.1 = head.position := by
  have hcomment {ts : List Token} (hl : l ∈ commentsAt comments ts) : False := by
    obtain ⟨-, -, -, hl⟩ := exists_mem_commentsAt hl
    rw [hc] at hl
    cases hl
  obtain ⟨-, ha⟩ | ⟨head, rest, hb, ⟨st, hr, ha⟩ | ⟨f, -, ha⟩⟩ := s.answer_cases
  · rw [ha] at h
    exact (hcomment h).elim
  · rw [ha] at h
    rcases List.mem_append.mp h with h | h
    · exact (hcomment h).elim
    rcases List.mem_append.mp h with h | h
    · rw [significant_tokens hb] at h
      obtain rfl := List.mem_singleton.mp h
      exact ⟨head, rest, hb, hr, rfl⟩
    · split at h
      · cases h
      · exact (hcomment h).elim
  · rw [ha] at h
    exact (hcomment h).elim

end Segment

/-- The text stands in the source at `p` and is made of whole tokens, none of them a semicolon, and the tokens `rest`
stand between it and the next semicolon or the end. -/
structure StandsAt (source : Text) (p : Position) (text : Text) (rest : List Token) : Prop where
  slice : ∃ front back, source = front ++ (text ++ back) ∧ (String.ofList front).utf8ByteSize = p.offset
  followed : ∃ front run ender back, tokenize source = front ++ (run ++ (rest ++ ender :: back)) ∧
    (String.ofList (Token.text front)).utf8ByteSize = p.offset ∧ Token.text run = text ∧
    (∀ t ∈ rest, t.IsInner) ∧ ¬ ender.IsInner
  undivided : ∀ t ∈ tokenize source, t.kind = .semicolon →
    t.position.offset < p.offset ∨ p.offset + (String.ofList text).utf8ByteSize ≤ t.position.offset

theorem standsAt_of_split {source : Text} {front run rest back : List Token} {ender : Token}
    (h : tokenize source = front ++ (run ++ (rest ++ ender :: back))) (hrun : ∀ t ∈ run, t.IsInner)
    (hrest : ∀ t ∈ rest, t.IsInner) (he : ¬ ender.IsInner) :
    StandsAt source (Position.start.past (Token.text front)) (Token.text run) rest := by
  have hfront : (String.ofList (Token.text front)).utf8ByteSize =
      (Position.start.past (Token.text front)).offset := by rw [Position.past_start]
  refine ⟨?_, ⟨front, run, ender, back, h, hfront, rfl, hrest, he⟩, fun t ht hk => ?_⟩
  · have htext := text_tokensAt .start source
    rw [← tokenize, h, Token.text_append, Token.text_append] at htext
    exact ⟨_, _, htext.symm, hfront⟩
  · rw [← Text.byteLength_eq_utf8ByteSize]
    rw [h] at ht
    rcases List.mem_append.mp ht with ht | ht
    · -- the token behind the front stands where the text starts
      obtain ⟨u, us, hu⟩ := List.exists_cons_of_ne_nil (l := run ++ (rest ++ ender :: back)) (by simp)
      rw [hu] at h
      rw [← position_eq_past h]
      exact .inl (offset_lt_of_split h ht List.mem_cons_self)
    · rcases List.mem_append.mp ht with ht | ht
      · exact absurd hk (hrun t ht).1
      rcases List.mem_append.mp ht with ht | ht
      · exact absurd hk (hrest t ht).1
      · obtain ⟨pre, post, hsplit⟩ := List.append_of_mem ht
        rw [hsplit, ← List.append_assoc, ← List.append_assoc, ← List.append_assoc] at h
        rw [position_eq_past h]
        simp only [Token.text_append, Position.past_append, Position.past_offset]
        right
        omega

/-! ## Statements of a text -/

theorem standsAt_of_segment {source : Text} {s : Segment} (hs : s ∈ Segment.ofTokens (tokenize source))
    {head : Token} {rest : List Token} (hb : s.body = head :: rest) {before after : List Token} {stop : Token}
    (hsplit : head :: rest = before ++ stop :: after) :
    StandsAt source head.position (Token.text (before ++ [stop])) after := by
  have hc := Segment.cuts_tokenize source
  obtain ⟨pre, post, hctx⟩ := Segment.exists_context hs
  have hmem : ∀ t ∈ before ++ stop :: after, t.IsInner := fun t ht =>
    hc.inner s hs t (Segment.mem_tokens_of_mem_body (by rwa [hb, hsplit]))
  have hbody : tokenize source = (pre ++ s.lead) ++ (before ++ stop :: after ++ s.terminator :: post) := by
    rw [hctx, ← s.lead_append_body, hb, hsplit]
    simp only [List.append_assoc]
  have hhead : head.position = Position.start.past (Token.text (pre ++ s.lead)) := by
    rw [← hsplit, List.cons_append] at hbody
    exact position_eq_past hbody
  have hrun : tokenize source = (pre ++ s.lead) ++ ((before ++ [stop]) ++ (after ++ s.terminator :: post)) := by
    rw [hbody]
    simp only [List.append_assoc, List.cons_append, List.nil_append]
  rw [hhead]
  refine standsAt_of_split hrun (fun t ht => hmem t ?_) (fun t ht => hmem t ?_) (hc.ended s hs)
  · rw [List.append_cons]
    exact List.mem_append_left _ ht
  · exact List.mem_append_right _ (List.mem_cons_of_mem _ ht)

theorem parseWith_forwards (settings : Settings) (source : Text) :
    ∀ l ∈ (parseWith settings source).script.located, ∀ text, l.2.text? = some text →
      ∃ rest, StandsAt source l.1 text rest ∧ l.2.KeptBefore rest := by
  intro l hl text ht
  rw [parseWith, parseTokens_eq_ofSegments, Output.ofSegments, Script.located_ofLocated] at hl
  obtain ⟨s, hs, hl⟩ := List.mem_flatMap.mp hl
  have hc : l.2.isComment = false := by
    by_contra hc
    rw [Statement.text?_of_isComment (by simpa using hc)] at ht
    cases ht
  obtain ⟨head, rest, hb, hr, hp⟩ := Segment.readStatement_of_mem_located hl hc
  obtain ⟨before, stop, after, hsplit, hstop, rfl, hkept⟩ := readStatement_text (Segment.isSignificant_head hb) hr ht
  refine ⟨after, ?_, hkept⟩
  rw [hp]
  exact standsAt_of_segment (List.mem_of_mem_take hs) hb hsplit

/-- A literal and a comment with semicolons of their own, and two links of which the last counts. -/
theorem parseWith_forwards_last_link :
    let source := "drop t; select ';' as b /*;*/ as t -- a".toList
    let l : Position × Statement := (⟨8, 1, 8⟩, .select "select ';' as b".toList (.bare ['t']))
    l ∈ (parseWith {} source).script.located ∧ l.2.text? = some "select ';' as b".toList ∧
      ∃ rest, StandsAt source ⟨8, 1, 8⟩ "select ';' as b".toList rest ∧ l.2.KeptBefore rest := by
  intro source l
  have hl : l ∈ (parseWith {} source).script.located := by decide +kernel
  exact ⟨hl, rfl, parseWith_forwards {} source l hl _ rfl⟩

end PipelineScript
