import Mathlib.Data.List.TakeWhile
import PipelineScript.Proofs.Lexing.Stream

/-!
# The end of a stream

A stream is read up to its first end of input, or to the one that is put behind
it if it has none.
-/

namespace PipelineScript

namespace Token

/-- The end of input that a stream is read up to: its first one, or else one just past its last token. -/
def ending (ts : List Token) : Token :=
  (ts.find? fun t => t.kind == .endOfInput).getD (.endOfInput ((ts.getLast?.map endPosition).getD .start))

def beforeEnd (ts : List Token) : List Token := ts.takeWhile fun t => t.kind != .endOfInput

theorem ending_kind (ts : List Token) : (ending ts).kind = .endOfInput := by
  unfold ending
  cases h : ts.find? fun t => t.kind == .endOfInput with
  | none => rfl
  | some e => simpa using List.find?_some h

theorem kind_of_mem_beforeEnd {ts : List Token} {t : Token} (h : t ∈ beforeEnd ts) : t.kind ≠ .endOfInput := by
  simpa using List.mem_takeWhile_imp h

theorem terminated_cons_endOfInput {e : Token} (he : e.kind = .endOfInput) (us : List Token) :
    ∃ vs, terminated (e :: us) = e :: vs := by
  cases us with
  | nil => exact ⟨[], by simp [terminated, he]⟩
  | cons t us => exact ⟨terminated (t :: us), Segment.terminated_append [e] (List.cons_ne_nil t us)⟩

theorem exists_terminated (ts : List Token) : ∃ junk, terminated ts = beforeEnd ts ++ ending ts :: junk := by
  cases h : ts.find? fun t => t.kind == .endOfInput with
  | none =>
    have hnone : ∀ t ∈ ts, t.kind ≠ .endOfInput := fun t ht => by simpa using List.find?_eq_none.mp h t ht
    have hbefore : beforeEnd ts = ts := List.takeWhile_eq_self_iff.mpr fun t ht => by simpa using hnone t ht
    refine ⟨[], ?_⟩
    rw [hbefore, ending, h, terminated]
    cases hl : ts.getLast? with
    | none => rw [List.getLast?_eq_none_iff.mp hl]; rfl
    | some t => exact if_neg (hnone t (List.mem_of_getLast? hl))
  | some e =>
    obtain ⟨he, front, us, rfl, hfront⟩ := List.find?_eq_some_iff_append.mp h
    have hbefore : beforeEnd (front ++ e :: us) = front := by
      rw [beforeEnd, List.takeWhile_append_of_pos fun t ht => by simpa using hfront t ht,
        List.takeWhile_cons_of_neg (by simpa using he), List.append_nil]
    obtain ⟨vs, hvs⟩ := terminated_cons_endOfInput (by simpa using he) us
    exact ⟨vs, by rw [hbefore, ending, h, Segment.terminated_append front (List.cons_ne_nil e us), hvs]; rfl⟩

end Token

namespace Segment

theorem cut_append_endOfInput {e : Token} (he : e.kind = .endOfInput) (us vs : List Token) : ∀ ts : List Token,
    cut (ts ++ e :: us) = cut (ts ++ e :: vs)
  | [] => by rw [List.nil_append, List.nil_append, cut_endOfInput he, cut_endOfInput he]
  | t :: ts => by rw [List.cons_append, List.cons_append, cut, cut, cut_append_endOfInput he us vs ts]

theorem ofTokens_append_endOfInput {e : Token} (he : e.kind = .endOfInput) (us vs ts : List Token) :
    ofTokens (ts ++ e :: us) = ofTokens (ts ++ e :: vs) := by
  obtain ⟨us', hus⟩ := Token.terminated_cons_endOfInput he us
  obtain ⟨vs', hvs⟩ := Token.terminated_cons_endOfInput he vs
  rw [ofTokens_eq_all, ofTokens_eq_all, terminated_append ts (List.cons_ne_nil _ _),
    terminated_append ts (List.cons_ne_nil _ _), hus, hvs, all, all, cut_append_endOfInput he us' vs']

theorem ofTokens_eq_upToEnd (ts : List Token) : ofTokens ts = ofTokens (Token.beforeEnd ts ++ [Token.ending ts]) := by
  obtain ⟨junk, hts⟩ := Token.exists_terminated ts
  obtain ⟨vs, hvs⟩ := Token.terminated_cons_endOfInput (Token.ending_kind ts) []
  rw [ofTokens_eq_all, ofTokens_eq_all, terminated_append _ (List.cons_ne_nil _ _), hts, hvs, all, all,
    cut_append_endOfInput (Token.ending_kind ts) junk vs]

/-- The tokens in front of the end are cut behind every semicolon, and the end of input ends what is left. -/
theorem exists_pieces (ts : List Token) :
    ∃ closed run, ofTokens ts = closed ++ [⟨run, Token.ending ts⟩] ∧ (∀ s ∈ closed, s.IsClosed) ∧
      (∀ t ∈ run, t.IsInner) ∧ Token.beforeEnd ts = closed.flatMap stream ++ run := by
  obtain ⟨closed, run, hclosed, hrun, hts, hof⟩ :=
    ofTokens_endOfInput (fun _ ht => Token.kind_of_mem_beforeEnd ht) (Token.ending_kind ts)
  exact ⟨closed, run, (ofTokens_eq_upToEnd ts).trans hof, hclosed, hrun, hts⟩

end Segment

end PipelineScript
