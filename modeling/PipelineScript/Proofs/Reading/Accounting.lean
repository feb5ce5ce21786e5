import Mathlib.Data.List.DropRight
import PipelineScript.Proofs.Reading.Content
import PipelineScript.Proofs.Reading.Ending
import PipelineScript.Proofs.Reading.Unlimited
import PipelineScript.Proofs.Syntax.Blame

/-!
# What becomes of each piece

Each piece up to the first end of input comes to one statement, to one diagnostic
or to neither. Main statement: `parseTokens_accounting`.
-/

namespace PipelineScript

namespace Token

theorem rtakeWhile_of_split {last : Token} (hl : last.isSignificant = true) {after : List Token}
    (ha : significant after = []) (before : List Token) :
    (before ++ last :: after).rtakeWhile (fun t => !t.isSignificant) = after := by
  have hpass : ∀ t ∈ after.reverse, (!t.isSignificant) = true := fun t ht => by
    rw [significant_eq_nil.mp ha t (List.mem_reverse.mp ht)]
    rfl
  have hrev : (before ++ last :: after).reverse = after.reverse ++ last :: before.reverse := by simp
  rw [List.rtakeWhile, hrev, List.takeWhile_append_of_pos hpass, List.takeWhile_cons_of_neg (by simp [hl]),
    List.append_nil, List.reverse_reverse]

theorem trailer_eq_rtakeWhile (ts : List Token) : trailer ts = ts.rtakeWhile fun t => !t.isSignificant := by
  cases hs : splitLast? ts with
  | none =>
    have hnone := significant_eq_nil.mp (splitLast?_eq_none.mp hs)
    rw [List.rtakeWhile_eq_self_iff.mpr fun t ht => by simp [hnone t ht], trailer, trimEnd, hs]
    rfl
  | some p =>
    obtain ⟨before, last⟩ := p
    obtain ⟨after, rfl, hl, ha⟩ := splitLast?_eq_some hs
    have hdrop : (before ++ last :: after).drop (before ++ [last]).length = after := by simp
    rw [rtakeWhile_of_split hl ha, trailer, trimEnd, hs, hdrop]

end Token

namespace Segment

/-! ## What a piece comes to -/

inductive Answer
  | nothing
  | statement (s : Statement)
  | diagnostic (d : Diagnostic)

def Answer.diagnostic? : Answer → Option Diagnostic
  | diagnostic d => some d
  | _ => none

/-- What a piece can come to. A diagnostic stands where a token of the piece stands, or the one that ends it. -/
inductive Answers (s : Segment) : Answer → Prop
  | nothing (h : Token.significant s.tokens = []) : Answers s .nothing
  | statement {st : Statement} (h : Token.significant s.tokens ≠ []) (hst : st.isComment = false) :
    Answers s (.statement st)
  | diagnostic {d : Diagnostic} {t : Token} (h : Token.significant s.tokens ≠ []) (ht : t ∈ s.tokens ++ [s.terminator])
    (hd : d.position = t.position) : Answers s (.diagnostic d)

def commentsAt (comments : Bool) (ts : List Token) : List (Position × Statement) :=
  if comments then (ts.filter fun t => t.kind == .lineComment).map fun t => (t.position, .comment t.lexeme) else []

/-- The statements of a piece: the comments before its first significant token, its own statement where that token
stands, and the comments behind its last significant token if it is ended by the end of input. -/
def located (comments : Bool) (s : Segment) : Answer → List (Position × Statement)
  | .statement st =>
    commentsAt comments (s.tokens.takeWhile fun t => !t.isSignificant) ++
      (((Token.significant s.tokens).head?.map fun t => (t.position, st)).toList ++
        if s.isClosed then [] else commentsAt comments (s.tokens.rtakeWhile fun t => !t.isSignificant))
  | _ => commentsAt comments (s.tokens.takeWhile fun t => !t.isSignificant)

def answer (s : Segment) : Answer :=
  match s.content with
  | .blank => .nothing
  | .statement _ st => .statement st
  | .fault _ f => .diagnostic (f.diagnostic s.terminator)

theorem answer_blank {s : Segment} (hb : s.body = []) : s.answer = .nothing := by rw [answer, content_blank hb]

theorem answer_statement {s : Segment} {head : Token} {rest : List Token} {st : Statement}
    (hb : s.body = head :: rest) (hr : readStatement head rest = .ok st) : s.answer = .statement st := by
  rw [answer, content_statement hb hr]

theorem answer_fault {s : Segment} {head : Token} {rest : List Token} {f : Failure} (hb : s.body = head :: rest)
    (hr : readStatement head rest = .error f) : s.answer = .diagnostic (f.diagnostic s.terminator) := by
  rw [answer, content_fault hb hr]

theorem answer_cases (s : Segment) : (s.body = [] ∧ s.answer = .nothing) ∨
    ∃ head rest, s.body = head :: rest ∧
      ((∃ st, readStatement head rest = .ok st ∧ s.answer = .statement st) ∨
        ∃ f, readStatement head rest = .error f ∧ s.answer = .diagnostic (f.diagnostic s.terminator)) := by
  cases hb : s.body with
  | nil => exact .inl ⟨rfl, answer_blank hb⟩
  | cons head rest =>
    refine .inr ⟨head, rest, rfl, ?_⟩
    cases hr : readStatement head rest with
    | ok st => exact .inl ⟨st, rfl, answer_statement hb hr⟩
    | error f => exact .inr ⟨f, rfl, answer_fault hb hr⟩

theorem significant_tokens {s : Segment} {head : Token} {rest : List Token} (hb : s.body = head :: rest) :
    Token.significant s.tokens = head :: Token.significant rest := Syntax.significant_eq hb

theorem mem_tokens_of_mem_body {s : Segment} {t : Token} (h : t ∈ s.body) : t ∈ s.tokens := by
  rw [← s.lead_append_body]
  exact List.mem_append_right _ h

theorem answers_answer (s : Segment) : s.Answers (answer s) := by
  obtain ⟨hb, ha⟩ | ⟨head, rest, hb, hread⟩ := s.answer_cases
  · rw [ha]
    exact .nothing (by rw [tokens_of_nil hb, significant_lead])
  · have hne : Token.significant s.tokens ≠ [] := by rw [significant_tokens hb]; exact List.cons_ne_nil _ _
    obtain ⟨st, hr, ha⟩ | ⟨f, hr, ha⟩ := hread
    · rw [ha]
      exact .statement hne (readStatement_not_comment hr)
    · rw [ha]
      refine .diagnostic hne ?_ (f.diagnostic_position s.terminator)
      refine ((blames_readStatement hr).mono fun t ht => ?_) s.terminator
      exact mem_tokens_of_mem_body (hb ▸ ht)

end Segment

namespace Outcome

/-- The located statements of some outcomes, with or without the comments. -/
def located (comments : Bool) (os : List Outcome) : List (Position × Statement) :=
  (os.filter (Output.keeps ⟨comments, none⟩)).filterMap located?

variable (comments : Bool)

theorem located_append (os us : List Outcome) :
    located comments (os ++ us) = located comments os ++ located comments us := by
  simp [located]

theorem located_comments (ts : List Token) :
    located comments (Outcome.comments ts) = Segment.commentsAt comments ts := by
  unfold located Outcome.comments Segment.comments Segment.commentsAt
  cases comments with
  | true =>
    have hkeeps : ∀ os : List Outcome, os.filter (Output.keeps ⟨true, none⟩) = os := fun os =>
      List.filter_eq_self.mpr fun _ _ => rfl
    rw [hkeeps, List.filterMap_map, if_pos rfl, ← List.filterMap_eq_map]
    rfl
  | false =>
    rw [List.filter_eq_nil_iff.mpr fun o ho => ?_]
    · rfl
    · obtain ⟨t, -, rfl⟩ := List.mem_map.mp ho
      exact Bool.false_ne_true

theorem located_statement (head : Token) (st : Statement) (os : List Outcome) :
    located comments (.statement head st :: os) = (head.position, st) :: located comments os := by
  simp [located, Output.keeps, isComment, located?]

theorem located_fault (head : Token) (d : Diagnostic) (r : Recovery) : located comments [.fault head d r] = [] := by
  simp [located, Output.keeps, isComment, located?]

theorem diagnostics_comments (ts : List Token) : (Outcome.comments ts).filterMap diagnostic? = [] := by
  simp [Outcome.comments, List.filterMap_map, Function.comp_def, diagnostic?]

end Outcome

namespace Segment

theorem located_report (comments : Bool) (s : Segment) :
    Outcome.located comments s.report = s.located comments (answer s) := by
  unfold report answer
  cases hb : s.body with
  | nil =>
    rw [content_blank hb]
    exact Outcome.located_comments comments s.lead
  | cons head rest =>
    cases hr : readStatement head rest with
    | ok st =>
      rw [content_statement hb hr]
      simp only [Outcome.located_append, Outcome.located_comments, Outcome.located_statement, located]
      rw [significant_tokens hb, ← Token.trailer_eq_rtakeWhile, tail]
      refine congrArg _ (congrArg (List.cons (head.position, st)) ?_)
      split
      · simp [commentsAt]
      · rfl
    | error f =>
      rw [content_fault hb hr]
      simp only [Outcome.located_append, Outcome.located_comments, Outcome.located_fault, List.append_nil]
      rfl

theorem diagnostics_report (s : Segment) :
    s.report.filterMap Outcome.diagnostic? = (answer s).diagnostic?.toList := by
  unfold report answer
  cases s.content with
  | blank => exact Outcome.diagnostics_comments s.lead
  | statement head st =>
    rw [List.filterMap_append, List.filterMap_cons_none rfl, Outcome.diagnostics_comments, Outcome.diagnostics_comments]
    rfl
  | fault head f =>
    rw [List.filterMap_append, Outcome.diagnostics_comments]
    rfl

end Segment

/-- For any tokens, comments or not: the pieces of the stream, each with what it comes to, are all of the output. -/
theorem parseTokens_accounting (comments : Bool) (ts : List Token) :
    (∃ closed run, Segment.ofTokens ts = closed ++ [⟨run, Token.ending ts⟩] ∧ (∀ s ∈ closed, s.IsClosed) ∧
      (∀ t ∈ run, t.IsInner) ∧ Token.beforeEnd ts = closed.flatMap Segment.stream ++ run) ∧
    ∃ answer : Segment → Segment.Answer, (∀ s : Segment, s.Answers (answer s)) ∧
      parseTokens ⟨comments, none⟩ ts =
        ⟨.ofLocated ((Segment.ofTokens ts).flatMap fun s => s.located comments (answer s)),
          (Segment.ofTokens ts).filterMap fun s => (answer s).diagnostic?⟩ := by
  refine ⟨Segment.exists_pieces ts, Segment.answer, Segment.answers_answer, ?_⟩
  have hlocated : Outcome.located comments ((Segment.ofTokens ts).flatMap Segment.report) =
      (Segment.ofTokens ts).flatMap fun s => s.located comments (Segment.answer s) := by
    simp only [← Segment.located_report, Outcome.located, List.filter_flatMap, List.filterMap_flatMap]
  have hdiagnostics : ((Segment.ofTokens ts).flatMap Segment.report).filterMap Outcome.diagnostic? =
      (Segment.ofTokens ts).filterMap fun s => (Segment.answer s).diagnostic? := by
    rw [List.filterMap_flatMap, List.filterMap_eq_flatMap_toList]
    simp only [Segment.diagnostics_report]
  rw [parseTokens_unlimited rfl, Output.ofOutcomes, ← hlocated, hdiagnostics]
  rfl

end PipelineScript
