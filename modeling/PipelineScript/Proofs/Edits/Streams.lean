import PipelineScript.Proofs.Edits.Statements
import PipelineScript.Proofs.Reading.Limits

/-!
# Runs over edited streams

An edit that changes no semicolon and no end of input is cut where its versions
are. Main statement: `parseTokens_tokens`.
-/

namespace PipelineScript

open Edit

structure EditedSegment where
  edits : List Edit
  terminator : Token

namespace EditedSegment

def version (s : EditedSegment) (v : Version) : Segment := ⟨tokens v s.edits, s.terminator⟩

theorem exists_cut {e : Token} (he : e.kind = .endOfInput) : ∀ {es : List Edit}, (∀ t ∈ changed es, t.IsInner) →
    ∃ (s : EditedSegment) (ss : List EditedSegment),
      (∀ v, Segment.cut (tokens v es ++ [e]) = (s.version v, ss.map fun s => s.version v)) ∧
        s.edits <+: es ∧ ∀ x ∈ ss, x.edits <:+: es
  | [], _ => ⟨⟨[], e⟩, [], fun _ => Segment.cut_endOfInput he [], List.prefix_refl [], nofun⟩
  | x :: es, h => by
    obtain ⟨hx, hes⟩ := forall_changed_cons.mp h
    obtain ⟨s, ss, hcut, hs, hss⟩ := exists_cut he hes
    have hbehind : ∀ y ∈ ss, y.edits <:+: x :: es := fun y hy => (hss y hy).trans (List.suffix_cons x es).isInfix
    rcases kept_or_all hx with ⟨t, rfl, ht⟩ | hinner
    · by_cases hk : t.kind = .semicolon
      · refine ⟨⟨[], t⟩, s :: ss, fun v => ?_, List.nil_prefix, fun y hy => ?_⟩
        · rw [tokens_kept, List.cons_append, Segment.cut_semicolon hk, hcut]
          rfl
        · rcases List.mem_cons.mp hy with rfl | hy
          · exact hs.isInfix.trans (List.suffix_cons _ es).isInfix
          · exact hbehind y hy
      · have hk : t.kind = .endOfInput := by
          by_contra hne
          exact ht ⟨hk, hne⟩
        refine ⟨⟨[], t⟩, [], fun v => ?_, List.nil_prefix, nofun⟩
        rw [tokens_kept, List.cons_append, Segment.cut_endOfInput hk]
        rfl
    · refine ⟨⟨x :: s.edits, s.terminator⟩, ss, fun v => ?_, List.cons_prefix_cons.mpr ⟨rfl, hs⟩, hbehind⟩
      cases ht : x.token? v with
      | none => rw [tokens_of_none ht, hcut, version, version, tokens_of_none ht]
      | some t =>
        obtain ⟨hsemicolon, hend⟩ := hinner v t ht
        rw [tokens_of_some ht, List.cons_append, Segment.cut_other hsemicolon hend, hcut, version, version,
          tokens_of_some ht]

theorem exists_segments {e : Token} (he : e.kind = .endOfInput) {es : List Edit} (h : ∀ t ∈ changed es, t.IsInner) :
    ∃ ss : List EditedSegment,
      (∀ v, Segment.ofTokens (tokens v es ++ [e]) = ss.map fun s => s.version v) ∧ ∀ s ∈ ss, s.edits <:+: es := by
  obtain ⟨s, ss, hcut, hs, hss⟩ := exists_cut he h
  refine ⟨s :: ss, fun v => ?_, fun x hx => ?_⟩
  · have hended : Token.terminated (tokens v es ++ [e]) = tokens v es ++ [e] := by simp [Token.terminated, he]
    rw [Segment.ofTokens_eq_all, hended, Segment.all, hcut]
    rfl
  · rcases List.mem_cons.mp hx with rfl | hx
    · exact hs.isInfix
    · exact hss x hx

/-! ## What a segment comes to -/

def comments (keep : Bool) (es : List Edit) : List (Position × (Version → Statement)) :=
  (Segment.commentsAt keep (tokens .before es)).map fun l => (l.1, fun _ => l.2)

theorem commentsAt_tokens {keep : Bool} {es : List Edit}
    (h : keep = true → ∀ t ∈ changed es, t.kind ≠ .lineComment) (v : Version) :
    Segment.commentsAt keep (tokens v es) = (comments keep es).map fun i => (i.1, i.2 v) := by
  have hmap : (comments keep es).map (fun i => (i.1, i.2 v)) = Segment.commentsAt keep (tokens .before es) := by
    rw [comments, List.map_map]
    exact List.map_id _
  rw [hmap]
  unfold Segment.commentsAt
  by_cases hk : keep = true
  · rw [if_pos hk, if_pos hk, filter_tokens_eq v .before fun t ht => beq_eq_false_iff_ne.mpr (h hk t ht)]
  · rw [if_neg hk, if_neg hk]

theorem reads_comments (keep : Bool) (ds es : List Edit) : ∀ i ∈ comments keep ds, Reads i.1 es i.2 := by
  intro i hi
  obtain ⟨l, hl, rfl⟩ := List.mem_map.mp hi
  obtain ⟨t, ht, hlt, hc⟩ := Segment.exists_mem_commentsAt hl
  exact .same (Statement.text?_of_isComment hc)

def trailing (keep : Bool) (s : EditedSegment) (tail : List Edit) : List (Position × (Version → Statement)) :=
  if s.terminator.kind == .semicolon then [] else comments keep tail

section
variable {s : EditedSegment} {keep : Bool} (hk : keep = true → ∀ t ∈ changed s.edits, t.kind ≠ .lineComment)
include hk

theorem answer_of_gap (h : IsGap s.edits) (v : Version) : (s.version v).answer = .nothing ∧
    (s.version v).located keep (s.version v).answer = (comments keep s.edits).map fun i => (i.1, i.2 v) := by
  have hb : (s.version v).body = [] := Segment.body_eq_nil_of_significant (h v)
  have ha : (s.version v).answer = .nothing := Segment.answer_blank hb
  refine ⟨ha, ?_⟩
  rw [ha, ← commentsAt_tokens hk]
  exact congrArg (Segment.commentsAt keep) (Segment.tokens_of_nil hb).symm

variable {front back : List Edit} {head : Token} (hsplit : s.edits = front ++ kept head :: back)
  (hh : head.isSignificant = true) (hfront : IsGap front)
include hsplit hh hfront

omit hk in
theorem version_split (v : Version) : (s.version v).lead = tokens v front ∧
    (s.version v).body = head :: tokens v back := by
  have hv : s.version v = ⟨tokens v front ++ head :: tokens v back, s.terminator⟩ := by
    rw [version, hsplit, tokens_split]
  have hl := Token.significant_eq_nil.mp (hfront v)
  rw [hv]
  exact ⟨Segment.lead_eq hl hh s.terminator, Segment.body_eq hl hh s.terminator⟩

theorem commentsAt_lead (v : Version) : Segment.commentsAt keep (s.version v).lead =
    (comments keep front).map fun i => (i.1, i.2 v) := by
  rw [(version_split hsplit hh hfront v).1]
  refine commentsAt_tokens (fun h t ht => hk h t ?_) v
  rw [hsplit, changed_append]
  exact List.mem_append_left _ ht

theorem answer_of_fault {f : Failure} {v : Version} (hr : readStatement head (tokens v back) = .error f) :
    (s.version v).answer = .diagnostic (f.diagnostic s.terminator) ∧
      (s.version v).located keep (s.version v).answer = (comments keep front).map fun i => (i.1, i.2 v) := by
  have ha : (s.version v).answer = .diagnostic (f.diagnostic s.terminator) :=
    Segment.answer_fault (version_split hsplit hh hfront v).2 hr
  refine ⟨ha, ?_⟩
  rw [ha]
  exact commentsAt_lead hk hsplit hh hfront v

theorem answer_of_statement {st : Version → Statement} {v : Version}
    (hr : readStatement head (tokens v back) = .ok (st v)) {others tail : List Edit} {last : Token}
    (htail : s.edits = others ++ kept last :: tail) (hl : last.isSignificant = true) (hgap : IsGap tail) :
    (s.version v).answer = .statement (st v) ∧ (s.version v).located keep (s.version v).answer =
      (comments keep front ++ (head.position, st) :: trailing keep s tail).map fun i => (i.1, i.2 v) := by
  obtain ⟨-, hb⟩ := version_split hsplit hh hfront v
  have ha : (s.version v).answer = .statement (st v) := Segment.answer_statement hb hr
  have hrest : (s.version v).tokens.rtakeWhile (fun t => !t.isSignificant) = tokens v tail := by
    rw [version, htail, tokens_split, Token.rtakeWhile_of_split hl (hgap v)]
  have hcomments : Segment.commentsAt keep (tokens v tail) = (comments keep tail).map fun i => (i.1, i.2 v) := by
    refine commentsAt_tokens (fun h t ht => hk h t ?_) v
    rw [htail, changed_append]
    exact List.mem_append_right _ ht
  have hclosed : (s.version v).isClosed = (s.terminator.kind == .semicolon) := rfl
  refine ⟨ha, ?_⟩
  rw [ha, Segment.located, ← Segment.lead, commentsAt_lead hk hsplit hh hfront v, Segment.significant_tokens hb, hrest,
    hcomments, List.map_append, List.map_cons, hclosed, trailing]
  refine congrArg _ (congrArg (List.cons (head.position, st v)) ?_)
  split <;> rfl

end

theorem answer_version {s : EditedSegment} (hs : ∀ t ∈ changed s.edits, t.isSignificant = false) {keep : Bool}
    (hk : keep = true → ∀ t ∈ changed s.edits, t.kind ≠ .lineComment) :
    ∃ (d : Option Diagnostic) (items : List (Position × (Version → Statement))),
      (∀ v, (s.version v).answer.diagnostic? = d ∧
        (s.version v).located keep (s.version v).answer = items.map fun i => (i.1, i.2 v)) ∧
      ∀ i ∈ items, Reads i.1 s.edits i.2 := by
  rcases exists_first hs with hgap | ⟨front, head, back, hsplit, hh, hfront⟩
  · refine ⟨none, comments keep s.edits, fun v => ?_, reads_comments keep _ _⟩
    obtain ⟨ha, hl⟩ := answer_of_gap hk hgap v
    exact ⟨by rw [ha]; rfl, hl⟩
  · have hback : ∀ t ∈ changed back, t.isSignificant = false := fun t ht => hs t (by
      rw [hsplit, changed_append]
      exact List.mem_append_right _ ht)
    rcases readStatement_tokens hh hback with ⟨f, hr⟩ | ⟨st, hst, hr⟩
    · refine ⟨some (f.diagnostic s.terminator), comments keep front, fun v => ?_, reads_comments keep _ _⟩
      obtain ⟨ha, hl⟩ := answer_of_fault hk hsplit hh hfront (hr v)
      exact ⟨by rw [ha]; rfl, hl⟩
    · have hlast : ∃ others last tail, s.edits = others ++ kept last :: tail ∧ last.isSignificant = true ∧
          IsGap tail := by
        refine (exists_last hs).resolve_left fun hgap => ?_
        have h := hgap .before
        rw [hsplit, tokens_split, Token.significant_append, Token.significant_cons hh] at h
        exact List.append_ne_nil_of_right_ne_nil _ (List.cons_ne_nil _ _) h
      obtain ⟨others, last, tail, htail, hl, hgap⟩ := hlast
      refine ⟨none, comments keep front ++ (head.position, st) :: trailing keep s tail, fun v => ?_, ?_⟩
      · obtain ⟨ha, hloc⟩ := answer_of_statement hk hsplit hh hfront (hr v) htail hl hgap
        exact ⟨by rw [ha]; rfl, hloc⟩
      · intro i hi
        rcases List.mem_append.mp hi with hi | hi
        · exact reads_comments keep _ _ i hi
        rcases List.mem_cons.mp hi with rfl | hi
        · refine hst.mono ⟨front, [], ?_⟩
          rw [List.append_nil, hsplit]
        · unfold trailing at hi
          split at hi
          · cases hi
          · exact reads_comments keep _ _ i hi

theorem ofSegments_version {ss : List EditedSegment} {keep : Bool} {v : Version}
    {d : EditedSegment → Option Diagnostic} {items : EditedSegment → List (Position × (Version → Statement))}
    (h : ∀ s ∈ ss, (s.version v).answer.diagnostic? = d s ∧
      (s.version v).located keep (s.version v).answer = (items s).map fun i => (i.1, i.2 v)) :
    Output.ofSegments keep (ss.map fun s => s.version v) =
      ⟨.ofLocated ((ss.flatMap items).map fun i => (i.1, i.2 v)), ss.filterMap d⟩ := by
  have hlocated : ss.flatMap (fun s => (s.version v).located keep (s.version v).answer) =
      (ss.flatMap items).map fun i => (i.1, i.2 v) := by
    rw [List.map_flatMap]
    exact List.flatMap_congr fun s hs => (h s hs).2
  have hdiagnostics : ss.filterMap (fun s => (s.version v).answer.diagnostic?) = ss.filterMap d :=
    List.filterMap_congr fun s hs => (h s hs).1
  rw [Output.ofSegments, List.flatMap_map, List.filterMap_map, ← hlocated, ← hdiagnostics]
  rfl

theorem isFaulty_version {ss : List EditedSegment} {v : Version} {d : EditedSegment → Option Diagnostic}
    (h : ∀ s ∈ ss, (s.version v).answer.diagnostic? = d s) :
    (ss.map fun s => s.version v).map Segment.isFaulty = ss.map fun s => (d s).isSome := by
  rw [List.map_map]
  exact List.map_congr_left fun s hs => congrArg Option.isSome (h s hs)

end EditedSegment

/-- Both versions of the stream in front of `e` come to the same diagnostics, and to the same statements at the same
positions, up to the texts that these keep. -/
def Edit.IsHarmless (settings : Settings) (es : List Edit) (e : Token) : Prop :=
  ∃ (items : List (Position × (Version → Statement))) (diagnostics : List Diagnostic),
    (∀ v, parseTokens settings (tokens v es ++ [e]) = ⟨.ofLocated (items.map fun i => (i.1, i.2 v)), diagnostics⟩) ∧
      ∀ i ∈ items, Reads i.1 es i.2

theorem isHarmless_of_not_significant (settings : Settings) {es : List Edit} {e : Token} (he : e.kind = .endOfInput)
    (hs : ∀ t ∈ changed es, t.isSignificant = false)
    (hk : settings.commentStatements = true → ∀ t ∈ changed es, t.kind ≠ .lineComment) : IsHarmless settings es e := by
  have hinner : ∀ t ∈ changed es, t.IsInner := fun t ht => Token.isInner_of_not_significant (hs t ht)
  obtain ⟨ss, hof, hwithin⟩ := EditedSegment.exists_segments he hinner
  have hchanged {x : EditedSegment} (hx : x ∈ ss) : ∀ t ∈ changed x.edits, t ∈ changed es := fun t ht =>
    ((hwithin x hx).sublist.filterMap changed?).subset ht
  have hanswers : ∀ x ∈ ss, ∃ (d : Option Diagnostic) (items : List (Position × (Version → Statement))),
      (∀ v, (x.version v).answer.diagnostic? = d ∧ (x.version v).located settings.commentStatements
        (x.version v).answer = items.map fun i => (i.1, i.2 v)) ∧ ∀ i ∈ items, Reads i.1 x.edits i.2 := fun x hx =>
    EditedSegment.answer_version (fun t ht => hs t (hchanged hx t ht)) fun h t ht => hk h t (hchanged hx t ht)
  choose! d items hitems hreads using hanswers
  let n := Reading.extent settings.maxDiagnostics 0 (ss.map fun x => (d x).isSome)
  refine ⟨(ss.take n).flatMap items, (ss.take n).filterMap d, fun v => ?_, fun i hi => ?_⟩
  · rw [parseTokens_eq_ofSegments, hof v, EditedSegment.isFaulty_version fun x hx => (hitems x hx v).1, ← List.map_take]
    exact EditedSegment.ofSegments_version fun x hx => hitems x (List.mem_of_mem_take hx) v
  · obtain ⟨x, hx, hi⟩ := List.mem_flatMap.mp hi
    have hx := List.mem_of_mem_take hx
    exact (hreads x hx i hi).mono (hwithin x hx)

end PipelineScript
