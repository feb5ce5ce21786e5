import PipelineScript.Proofs.Lexing.Scan
import PipelineScript.Proofs.Reading.Segments

/-!
# The tokens of a text

The tokens of a text end with the only end of input among them, and cutting them
into segments loses none of them.
-/

namespace PipelineScript

def tokensWithin (p : Position) : Text → List Token
  | [] => []
  | c :: t => firstToken p c t :: tokensWithin (firstToken p c t).endPosition (afterFirst c t)
termination_by t => t.length
decreasing_by exact Nat.lt_succ_of_le (length_afterFirst_le c t)

theorem tokensWithin_nil (p : Position) : tokensWithin p [] = [] := by rw [tokensWithin]

theorem tokensWithin_cons (p : Position) (c : Char) (t : Text) :
    tokensWithin p (c :: t) =
      firstToken p c t :: tokensWithin (firstToken p c t).endPosition (afterFirst c t) := by
  rw [tokensWithin]

theorem past_firstToken (p : Position) (c : Char) (t : Text) :
    (firstToken p c t).endPosition.past (afterFirst c t) = p.past (c :: t) := by
  rw [← firstToken_append_afterFirst p c t, Position.past_append]
  rfl

theorem tokensAt_eq_append (p : Position) (t : Text) :
    tokensAt p t = tokensWithin p t ++ [.endOfInput (p.past t)] := by
  fun_induction tokensAt p t with
  | case1 p => rw [tokensWithin_nil, List.nil_append, Position.past_nil]
  | case2 p c t ih => rw [tokensWithin_cons, ih, past_firstToken, List.cons_append]

theorem dropLast_tokenize (t : Text) : (tokenize t).dropLast = tokensWithin .start t := by
  rw [tokenize, tokensAt_eq_append, List.dropLast_concat]

theorem terminated_tokenize (source : Text) : Token.terminated (tokenize source) = tokenize source := by
  rw [tokenize, tokensAt_eq_append]
  simp [Token.terminated, Token.endOfInput]

theorem text_tokensWithin (p : Position) (t : Text) : Token.text (tokensWithin p t) = t := by
  have h := text_tokensAt p t
  rw [tokensAt_eq_append, Token.text_append] at h
  simpa [Token.text, Token.endOfInput] using h

theorem mem_tokensWithin {p : Position} {t : Text} {x : Token} (hx : x ∈ tokensWithin p t) :
    x.kind ≠ .endOfInput ∧ x.lexeme ≠ [] := by
  fun_induction tokensWithin p t with
  | case1 p => cases hx
  | case2 p c t ih =>
    rcases List.mem_cons.mp hx with rfl | hx
    · exact ⟨scan_ne_endOfInput c t, List.cons_ne_nil _ _⟩
    · exact ih hx

theorem eq_endOfInput_of_mem {source : Text} {t : Token} (h : t ∈ tokenize source) (hk : t.kind = .endOfInput) :
    t = .endOfInput (Position.start.past source) := by
  rw [tokenize, tokensAt_eq_append] at h
  rcases List.mem_append.mp h with h | h
  · exact absurd hk (mem_tokensWithin h).1
  · exact List.mem_singleton.mp h

/-! ## Segments of a lexed text -/

namespace Segment

theorem ofTokens_endOfInput {ts : List Token} (h : ∀ t ∈ ts, t.kind ≠ .endOfInput) {e : Token}
    (he : e.kind = .endOfInput) :
    ∃ (ss : List Segment) (run : List Token), (∀ s ∈ ss, s.IsClosed) ∧ (∀ t ∈ run, t.IsInner) ∧
      ts = ss.flatMap stream ++ run ∧ ofTokens (ts ++ [e]) = ss ++ [⟨run, e⟩] := by
  obtain ⟨ss, run, hss, hrun, rfl⟩ := exists_closed h
  refine ⟨ss, run, hss, hrun, rfl, ?_⟩
  have hterm : Token.terminated (ss.flatMap stream ++ run ++ [e]) = ss.flatMap stream ++ (run ++ [e]) := by
    simp [Token.terminated, he]
  rw [ofTokens_eq_all, hterm, all_closed hss, all_endOfInput hrun he]

structure Cuts (ss : List Segment) (ts : List Token) : Prop where
  stream_eq : ss.flatMap stream = ts
  inner : ∀ s ∈ ss, ∀ t ∈ s.tokens, t.IsInner
  ended : ∀ s ∈ ss, ¬ s.terminator.IsInner

theorem cuts_tokenize (source : Text) : Cuts (ofTokens (tokenize source)) (tokenize source) := by
  have h : ∀ t ∈ tokensWithin .start source, t.kind ≠ .endOfInput := fun t ht => (mem_tokensWithin ht).1
  obtain ⟨ss, run, hss, hrun, hts, hof⟩ := ofTokens_endOfInput h (e := .endOfInput (Position.start.past source)) rfl
  rw [tokenize, tokensAt_eq_append, hof]
  refine ⟨by simp [hts, stream], fun s hs => ?_, fun s hs hi => ?_⟩
  · rcases List.mem_append.mp hs with hs | hs
    · exact (hss s hs).inner
    · obtain rfl := List.mem_singleton.mp hs
      exact hrun
  · rcases List.mem_append.mp hs with hs | hs
    · exact hi.1 (hss s hs).closed
    · obtain rfl := List.mem_singleton.mp hs
      exact hi.2 rfl

theorem exists_context {source : Text} {s : Segment} (hs : s ∈ ofTokens (tokenize source)) :
    ∃ pre post, tokenize source = pre ++ (s.tokens ++ s.terminator :: post) := by
  obtain ⟨ss, us, hsplit⟩ := List.append_of_mem hs
  have hc := (cuts_tokenize source).stream_eq
  rw [hsplit, List.flatMap_append, List.flatMap_cons] at hc
  refine ⟨ss.flatMap stream, us.flatMap stream, ?_⟩
  rw [← hc, stream]
  simp

theorem mem_tokenize {source : Text} {s : Segment} (hs : s ∈ ofTokens (tokenize source)) {t : Token}
    (ht : t ∈ s.tokens) : t ∈ tokensWithin .start source := by
  have hc := cuts_tokenize source
  have hm : t ∈ tokenize source := by
    rw [← hc.stream_eq]
    exact List.mem_flatMap.mpr ⟨s, hs, List.mem_append_left _ ht⟩
  rw [tokenize, tokensAt_eq_append] at hm
  rcases List.mem_append.mp hm with hm | hm
  · exact hm
  · obtain rfl := List.mem_singleton.mp hm
    exact absurd rfl (hc.inner s hs _ ht).2

end Segment

end PipelineScript
