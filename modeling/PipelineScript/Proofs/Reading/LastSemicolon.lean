import PipelineScript.Proofs.Edits.Insignificant
import PipelineScript.Proofs.Reading.Faults

/-!
# The last semicolon

Main statement: `parseTokens_append_semicolon`.
-/

namespace PipelineScript

/-- What `d` misses at the end of input `e`, `d'` misses at the semicolon `t`. -/
structure Diagnostic.Moves (e t : Token) (d d' : Diagnostic) : Prop where
  kinds : d.kind = .unterminated ∧ d'.kind = .syntactic
  positions : d.position = e.position ∧ d'.position = t.position
  messages : ∃ wanted : Expectation, d.message = s!"unexpected end of input, expected {wanted.text}" ∧
    d'.message = s!"expected {wanted.text}, found ';'"
  help : d'.help = d.help

/-- The diagnostics are the same, none of them at the end of input, but for a last one that may move from `e` to `t`. -/
inductive Diagnostic.MovedLast (e t : Token) : List Diagnostic → List Diagnostic → Prop
  | same {ds : List Diagnostic} (h : ∀ d ∈ ds, d.kind ≠ .unterminated) : MovedLast e t ds ds
  | moved {ds : List Diagnostic} {d d' : Diagnostic} (h : ∀ d ∈ ds, d.kind ≠ .unterminated) (hd : Moves e t d d') :
    MovedLast e t (ds ++ [d]) (ds ++ [d'])

theorem Diagnostic.MovedLast.append {e t : Token} {ds as bs : List Diagnostic}
    (hds : ∀ d ∈ ds, d.kind ≠ .unterminated) (h : MovedLast e t as bs) : MovedLast e t (ds ++ as) (ds ++ bs) := by
  have hfront {cs : List Diagnostic} (hcs : ∀ d ∈ cs, d.kind ≠ .unterminated) :
      ∀ d ∈ ds ++ cs, d.kind ≠ .unterminated := fun d hd => (List.mem_append.mp hd).elim (hds d) (hcs d)
  cases h with
  | same hcs => exact .same (hfront hcs)
  | moved hcs hd =>
    rw [← List.append_assoc, ← List.append_assoc]
    exact .moved (hfront hcs) hd

namespace Failure

theorem diagnostic_congr {f : Failure} {e t : Token} (h : f.offender e = f.offender t) :
    f.diagnostic e = f.diagnostic t := by
  unfold diagnostic
  rw [h]

theorem moves_unexpected (wanted : Expectation) {e t : Token} (he : e.kind = .endOfInput) (ht : t.kind = .semicolon) :
    Diagnostic.Moves e t (unexpected wanted e) (unexpected wanted t) := by
  have hhelp : wanted.help? .semicolon = wanted.help? .endOfInput := by cases wanted <;> rfl
  have hfound : t.describe = "';'" := by simp only [Token.describe, ht, Token.Kind.describe]
  simp only [unexpected, he, ht, hfound]
  exact ⟨⟨rfl, rfl⟩, ⟨rfl, rfl⟩, ⟨wanted, rfl, String.append_assoc⟩, hhelp⟩

end Failure

theorem offender_readStatement {head : Token} {rest : List Token} (hs : head.isSignificant = true) {f : Failure}
    (h : readStatement head rest = .error f) :
    (∃ wanted, f = ⟨.unexpected wanted, []⟩) ∨ ∀ e t, f.offender e = f.offender t := by
  unfold readStatement at h
  split at h
  · obtain rfl := Except.error.inj h
    refine .inr fun e t => ?_
    rw [Token.significant_cons hs]
    rfl
  · next rule hf =>
    obtain ⟨before, -, hb, -⟩ := Syntax.foresees_complete hf h
    obtain ⟨cause, unread⟩ := f
    cases cause with
    | unexpected wanted =>
      cases unread with
      | nil => exact .inl ⟨wanted, rfl⟩
      | cons x unread => exact .inr fun _ _ => rfl
    | emptyName wanted name => exact .inr fun _ _ => rfl
    | notAStatement => exact absurd rfl hb.stated
  · cases h
  · split at h
    · cases h
    · exact .inl ⟨.queryResult, (Except.error.inj h).symm⟩

namespace Segment

open Diagnostic

theorem kind_ne_unterminated {s : Segment} (hs : s.IsClosed) {d : Diagnostic} (h : s.answer.diagnostic? = some d) :
    d.kind ≠ .unterminated := by
  intro hk
  obtain ⟨x, hx, hdx⟩ := (blames_answer hs.inner).exists_mem (Option.mem_toList.mpr h)
  have hend := Token.Kind.fault_eq_unterminated.mp (hdx.kind ▸ hk)
  rcases List.mem_append.mp hx with hx | hx
  · exact (hs.inner x hx).2 hend
  · rw [List.mem_singleton.mp hx, hs.closed] at hend
    cases hend

section
variable {run : List Token} (hrun : ∀ x ∈ run, x.IsInner) {e t : Token} (he : e.kind = .endOfInput)
  (ht : t.kind = .semicolon)
include hrun he ht

theorem movedLast_answer : MovedLast e t (answer ⟨run, e⟩).diagnostic?.toList (answer ⟨run, t⟩).diagnostic?.toList := by
  obtain ⟨hb, ha⟩ | ⟨head, rest, hb, ⟨st, hr, ha⟩ | ⟨f, hr, ha⟩⟩ := answer_cases ⟨run, e⟩
  · have ha' : answer ⟨run, t⟩ = .nothing := answer_blank hb
    rw [ha, ha']
    exact .same nofun
  · have ha' : answer ⟨run, t⟩ = .statement st := answer_statement hb hr
    rw [ha, ha']
    exact .same nofun
  · have ha' : answer ⟨run, t⟩ = .diagnostic (f.diagnostic t) := answer_fault hb hr
    rw [ha, ha']
    show MovedLast e t [f.diagnostic e] [f.diagnostic t]
    rcases offender_readStatement (isSignificant_head hb) hr with ⟨wanted, rfl⟩ | hsame
    · rw [← List.nil_append [Failure.diagnostic _ e], ← List.nil_append [Failure.diagnostic _ t]]
      exact .moved nofun (Failure.moves_unexpected wanted he ht)
    · rw [Failure.diagnostic_congr (hsame e t)]
      refine .same fun d hd => ?_
      obtain rfl := List.mem_singleton.mp hd
      exact kind_ne_unterminated ⟨hrun, ht⟩ (by rw [ha']; rfl)

omit hrun in
theorem located_semicolon : located false ⟨run, e⟩ (answer ⟨run, e⟩) = located false ⟨run, t⟩ (answer ⟨run, t⟩) := by
  have hopen : isClosed ⟨run, e⟩ = false := by simp [isClosed, he]
  have hclosed : isClosed ⟨run, t⟩ = true := by simp [isClosed, ht]
  obtain ⟨hb, ha⟩ | ⟨head, rest, hb, ⟨st, hr, ha⟩ | ⟨f, hr, ha⟩⟩ := answer_cases ⟨run, e⟩
  · have ha' : answer ⟨run, t⟩ = .nothing := answer_blank hb
    rw [ha, ha']
    rfl
  · have ha' : answer ⟨run, t⟩ = .statement st := answer_statement hb hr
    rw [ha, ha']
    simp only [located, hopen, hclosed]
    rfl
  · have ha' : answer ⟨run, t⟩ = .diagnostic (f.diagnostic t) := answer_fault hb hr
    rw [ha, ha']
    rfl

end

theorem ofTokens_append_semicolon {ts : List Token} (h : ∀ x ∈ ts, x.kind ≠ .endOfInput) {t : Token}
    (ht : t.kind = .semicolon) : ∃ (closed : List Segment) (run : List Token) (p : Position),
      (∀ s ∈ closed, s.IsClosed) ∧ (∀ x ∈ run, x.IsInner) ∧ ofTokens ts = closed ++ [⟨run, Token.ending ts⟩] ∧
      ofTokens (ts ++ [t]) = closed ++ [⟨run, t⟩, ⟨[], .endOfInput p⟩] := by
  -- the semicolon ends the run that the end of input ended, and nothing is behind it
  obtain ⟨closed, run, hof, hclosed, hrun, hts⟩ := exists_pieces ts
  have hall : Token.beforeEnd ts = ts := List.takeWhile_eq_self_iff.mpr fun x hx => by simpa using h x hx
  refine ⟨closed, run, t.endPosition, hclosed, hrun, hof, ?_⟩
  have hlast : (ts ++ [t]).getLast? = some t := List.getLast?_concat
  rw [ofTokens_eq_all, terminated_of_semicolon hlast ht, ← hall, hts, List.append_assoc, List.append_assoc,
    all_closed hclosed, List.singleton_append, all_semicolon hrun ht]
  rfl

end Segment

/-! ## Outputs -/

theorem Output.withoutComments_ofSegments (comments : Bool) (ss : List Segment) :
    (ofSegments comments ss).withoutComments = ofSegments false ss := by
  cases comments with
  | true => exact (ofSegments_without_comments ss).symm
  | false =>
    rw [ofSegments_without_comments, withoutComments, withoutComments, Script.located_ofLocated, List.filter_filter]
    simp only [Bool.and_self]

/-- With a semicolon behind it or not, a stream comes to the same statements, comments apart, and to the same
diagnostics, of which the last moves to the semicolon if it was at the end of input. -/
theorem parseTokens_append_semicolon (comments : Bool) {ts : List Token} (h : ∀ x ∈ ts, x.kind ≠ .endOfInput)
    {t : Token} (ht : t.kind = .semicolon) :
    (parseTokens ⟨comments, none⟩ (ts ++ [t])).withoutComments.script =
        (parseTokens ⟨comments, none⟩ ts).withoutComments.script ∧
      Diagnostic.MovedLast (Token.ending ts) t (parseTokens ⟨comments, none⟩ ts).diagnostics
        (parseTokens ⟨comments, none⟩ (ts ++ [t])).diagnostics := by
  obtain ⟨closed, run, p, hclosed, hrun, hts, hended⟩ := Segment.ofTokens_append_semicolon h ht
  have he := Token.ending_kind ts
  rw [parseTokens_unlimited_eq, parseTokens_unlimited_eq, Output.withoutComments_ofSegments,
    Output.withoutComments_ofSegments, hts, hended]
  constructor
  · have hlast : Segment.located false ⟨[], .endOfInput p⟩ (Segment.answer ⟨[], .endOfInput p⟩) = [] := rfl
    simp only [Output.ofSegments, List.flatMap_append, List.flatMap_cons, List.flatMap_nil, List.append_nil, hlast,
      Segment.located_semicolon he ht]
  · have hnone : (Segment.answer ⟨[], .endOfInput p⟩).diagnostic? = none := rfl
    have hfront : ∀ d ∈ closed.filterMap (fun s => s.answer.diagnostic?), d.kind ≠ .unterminated := by
      intro d hd
      obtain ⟨s, hs, hd⟩ := List.mem_filterMap.mp hd
      exact Segment.kind_ne_unterminated (hclosed s hs) hd
    have hmoved := (Segment.movedLast_answer hrun he ht).append hfront
    simpa only [Output.ofSegments, List.filterMap_eq_flatMap_toList, List.flatMap_append, List.flatMap_cons,
      List.flatMap_nil, hnone, Option.toList_none, List.append_nil] using hmoved

/-- A bare `load` with a comment behind it, which is at fault where its semicolon is or else at the end of input. -/
theorem parseTokens_append_semicolon_bare_load :
    let ts : List Token := [⟨.keyword .drop, "drop".toList, ⟨0, 1, 0⟩⟩, ⟨.semicolon, [';'], ⟨4, 1, 4⟩⟩,
      ⟨.keyword .load, "load".toList, ⟨5, 1, 5⟩⟩, ⟨.lineComment, "--".toList, ⟨9, 1, 9⟩⟩]
    let t : Token := ⟨.semicolon, [';'], ⟨12, 2, 0⟩⟩
    (∀ x ∈ ts, x.kind ≠ .endOfInput) ∧ t.kind = .semicolon ∧
      (parseTokens ⟨true, none⟩ (ts ++ [t])).withoutComments.script =
        ⟨[.verbatim .drop "drop".toList], [⟨0, 1, 0⟩]⟩ ∧
      ∃ d d', (parseTokens ⟨true, none⟩ ts).diagnostics = [d] ∧
        (parseTokens ⟨true, none⟩ (ts ++ [t])).diagnostics = [d'] ∧
        Diagnostic.MovedLast ⟨.endOfInput, [], ⟨11, 1, 11⟩⟩ t [d] [d'] := by
  intro ts t
  have h : ∀ x ∈ ts, x.kind ≠ .endOfInput := by decide
  obtain ⟨hscript, hmoved⟩ := parseTokens_append_semicolon true h (t := t) rfl
  exact ⟨h, rfl, hscript.trans (by decide), _, _, by rfl, by rfl, hmoved⟩

end PipelineScript
