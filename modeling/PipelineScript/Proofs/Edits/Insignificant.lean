import PipelineScript.Proofs.Edits.Streams

/-!
# Tokens that do not count

Main statements: `parseTokens_without_comments` and `parseTokens_trivia`.
-/

namespace PipelineScript

open Edit

/-- The output without the statements that are comments, and without their positions. -/
def Output.withoutComments (o : Output) : Output :=
  ⟨.ofLocated (o.script.located.filter fun l => !l.2.isComment), o.diagnostics⟩

namespace Segment

theorem filter_commentsAt (ts : List Token) : (commentsAt true ts).filter (fun l => !l.2.isComment) = [] := by
  refine List.filter_eq_nil_iff.mpr fun l hl => ?_
  obtain ⟨-, -, -, hc⟩ := exists_mem_commentsAt hl
  simp [hc]

theorem located_without_comments (s : Segment) :
    s.located false s.answer = (s.located true s.answer).filter fun l => !l.2.isComment := by
  have hans := answers_answer s
  cases ha : s.answer with
  | nothing => exact (filter_commentsAt _).symm
  | diagnostic d => exact (filter_commentsAt _).symm
  | statement st =>
    rw [ha] at hans
    obtain ⟨hne, hst⟩ : Token.significant s.tokens ≠ [] ∧ st.isComment = false := by
      cases hans with
      | statement h hst => exact ⟨h, hst⟩
    obtain ⟨t, ts, hts⟩ := List.exists_cons_of_ne_nil hne
    have hhead : [(t.position, st)].filter (fun l => !l.2.isComment) = [(t.position, st)] := by simp [hst]
    have htail : (if s.isClosed then [] else commentsAt true (s.tokens.rtakeWhile fun t => !t.isSignificant)).filter
        (fun l => !l.2.isComment) = [] := by
      split
      · rfl
      · exact filter_commentsAt _
    rw [located, located, hts, List.head?_cons, Option.map_some, Option.toList_some, List.filter_append,
      List.filter_append, filter_commentsAt, hhead, htail]
    split <;> rfl

end Segment

theorem Output.ofSegments_without_comments (ss : List Segment) :
    ofSegments false ss = (ofSegments true ss).withoutComments := by
  rw [withoutComments, ofSegments, ofSegments, Script.located_ofLocated, List.filter_flatMap]
  simp only [Segment.located_without_comments]

/-- Whatever the limit, comments that are not kept are only left out of the output, and line comments that are not kept
are no different from white space. -/
theorem parseTokens_without_comments (limit : Option Nat) :
    (∀ ts, parseTokens ⟨false, limit⟩ ts = (parseTokens ⟨true, limit⟩ ts).withoutComments) ∧
    ∀ (es : List Edit) (e : Token), e.kind = .endOfInput → (∀ t ∈ changed es, t.isSignificant = false) →
      IsHarmless ⟨false, limit⟩ es e := by
  refine ⟨fun ts => ?_, fun es e he hs => isHarmless_of_not_significant _ he hs nofun⟩
  rw [parseTokens_eq_ofSegments, parseTokens_eq_ofSegments]
  exact Output.ofSegments_without_comments _

/-- A comment in front of a `drop`, and one inside of it that becomes no part of its text. -/
theorem parseTokens_without_comments_drop :
    let note : Token := ⟨.lineComment, "-- a".toList, ⟨0, 1, 0⟩⟩
    let drop : Token := ⟨.keyword .drop, "drop".toList, ⟨5, 2, 0⟩⟩
    let inside : Token := ⟨.lineComment, "--b".toList, ⟨9, 2, 4⟩⟩
    let table : Token := ⟨.identifier, ['t'], ⟨13, 3, 0⟩⟩
    let es : List Edit := [.deleted note, .kept drop, .deleted inside, .kept table]
    let e : Token := .endOfInput ⟨14, 3, 1⟩
    e.kind = .endOfInput ∧ (∀ t ∈ changed es, t.isSignificant = false) ∧ IsHarmless ⟨false, none⟩ es e ∧
      (parseTokens ⟨false, none⟩ (tokens .before es ++ [e])).script.statements =
        [.verbatim .drop "drop--bt".toList] ∧
      (parseTokens ⟨false, none⟩ (tokens .after es ++ [e])).script.statements = [.verbatim .drop "dropt".toList] := by
  intro note drop inside table es e
  have hs : ∀ t ∈ changed es, t.isSignificant = false := by decide
  exact ⟨rfl, hs, (parseTokens_without_comments none).2 es e rfl hs, by decide, by decide⟩

/-! ## Trivia -/

theorem Token.isSignificant_of_isTrivia {t : Token} (h : t.kind.isTrivia = true) : t.isSignificant = false := by
  unfold Token.isSignificant Token.Kind.isSignificant
  split
  · rfl
  · rw [h]
    rfl

theorem parseTokens_trivia (settings : Settings) {es : List Edit} {e : Token} (he : e.kind = .endOfInput)
    (h : ∀ t ∈ changed es, t.kind.isTrivia = true) : IsHarmless settings es e := by
  apply isHarmless_of_not_significant settings he
  · intro t ht
    exact Token.isSignificant_of_isTrivia (h t ht)
  · intro _ t ht hk
    have hlc := h t ht
    rw [hk] at hlc
    cases hlc

/-- A `select` that loses a comment inside of its query and gets a space in front of its link. -/
theorem parseTokens_trivia_select :
    let head : Token := ⟨.keyword .select, "select".toList, ⟨0, 1, 0⟩⟩
    let note : Token := ⟨.bracketedComment, "/*a*/".toList, ⟨6, 1, 6⟩⟩
    let column : Token := ⟨.identifier, ['x'], ⟨11, 1, 11⟩⟩
    let space : Token := ⟨.whitespace, [' '], ⟨0, 1, 0⟩⟩
    let link : Token := ⟨.keyword .as, "as".toList, ⟨12, 1, 12⟩⟩
    let table : Token := ⟨.backquoted, "`t`".toList, ⟨14, 1, 14⟩⟩
    let es : List Edit :=
      [.kept head, .deleted note, .inserted space, .kept column, .inserted space, .kept link, .kept table]
    let e : Token := .endOfInput ⟨17, 1, 17⟩
    e.kind = .endOfInput ∧ (∀ t ∈ changed es, t.kind.isTrivia = true) ∧ IsHarmless {} es e ∧
      (parseTokens {} (tokens .before es ++ [e])).script.statements =
        [.select "select/*a*/x".toList (.backquoted ['t'])] ∧
      (parseTokens {} (tokens .after es ++ [e])).script.statements =
        [.select "select x".toList (.backquoted ['t'])] := by
  intro head note column space link table es e
  have h : ∀ t ∈ changed es, t.kind.isTrivia = true := by decide
  exact ⟨rfl, h, parseTokens_trivia {} rfl h, by decide, by decide⟩

end PipelineScript
