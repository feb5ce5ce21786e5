import Mathlib.Data.List.TakeWhile
import PipelineScript.Proofs.Reading.Content
import PipelineScript.Proofs.Reading.Unlimited
import PipelineScript.Proofs.Rendering.Queries

/-!
# Reading back what was written

Main statements: `readsBack_iff` and `parse_render`.
-/

namespace PipelineScript

open Syntax

structure Yields (os : List Outcome) (ss : List Statement) : Prop where
  sound : os.filterMap Outcome.diagnostic? = []
  statements : (os.filterMap Outcome.located?).map (·.2) = ss

def commentStatements (ts : List Token) : List Statement :=
  (Segment.comments ts).map fun t => .comment t.lexeme

theorem commentStatements_append (ts us : List Token) :
    commentStatements (ts ++ us) = commentStatements ts ++ commentStatements us := by
  simp [commentStatements, Segment.comments]

namespace Yields

variable {os us : List Outcome} {ss xs : List Statement}

theorem append_iff (h : Yields os ss) : Yields (os ++ us) (ss ++ xs) ↔ Yields us xs := by
  constructor
  · rintro ⟨hd, hs⟩
    rw [List.filterMap_append, h.sound] at hd
    rw [List.filterMap_append, List.map_append, h.statements] at hs
    exact ⟨hd, List.append_cancel_left hs⟩
  · rintro ⟨hd, hs⟩
    constructor
    · rw [List.filterMap_append, h.sound, hd, List.append_nil]
    · rw [List.filterMap_append, List.map_append, h.statements, hs]

theorem comments (ts : List Token) : Yields (Outcome.comments ts) (commentStatements ts) where
  sound := by simp [Outcome.comments, Outcome.diagnostic?, List.filterMap_map, Function.comp_def]
  statements := by
    simp [Outcome.comments, commentStatements, Outcome.located?, List.filterMap_map, Function.comp_def]

theorem statement (head : Token) (s : Statement) : Yields [.statement head s] [s] := ⟨rfl, rfl⟩

end Yields

def Reads (ts : List Token) (ss : List Statement) : Prop := Yields ((Segment.all ts).flatMap Segment.report) ss

theorem parse_iff_reads (source : Text) (ss : List Statement) :
    (parse source).diagnostics = [] ∧ (parse source).script.statements = ss ↔ Reads (tokenize source) ss := by
  have hkeeps : ∀ os : List Outcome, os.filter (Output.keeps {}) = os := fun os =>
    List.filter_eq_self.mpr fun _ _ => rfl
  rw [parse, parseWith, parseTokens_unlimited rfl, Segment.ofTokens_eq_all, terminated_tokenize]
  simp only [Output.ofOutcomes, hkeeps, Script.ofLocated]
  exact ⟨fun h => ⟨h.1, h.2⟩, fun h => ⟨h.sound, h.statements⟩⟩

theorem piece_of_tokensAt {p : Position} {t : Text} {ts us : List Token} (h : tokensAt p t = ts ++ us)
    (hi : ∀ x ∈ ts, x.IsInner) : Piece ts where
  inner := hi
  named x hx _ := by
    have hm : x ∈ tokensAt p t := h ▸ List.mem_append_left us hx
    rw [tokensAt_eq_append] at hm
    rcases List.mem_append.mp hm with hm | hm
    · exact (mem_tokensWithin hm).2
    · obtain rfl := List.mem_singleton.mp hm
      exact absurd rfl (hi _ hx).2

section
variable {lead : List Token} (hl : ∀ t ∈ lead, t.isSignificant = false) {head : Token}
  (hh : head.isSignificant = true) (others : List Token) (terminator : Token)
include hl hh

theorem report_of_read {s : Statement} (hr : readStatement head others = .ok s) :
    Segment.report ⟨lead ++ head :: others, terminator⟩ =
      Outcome.comments lead ++ .statement head s ::
        Outcome.comments (Segment.tail ⟨lead ++ head :: others, terminator⟩) := by
  rw [Segment.report, Segment.content, Segment.body_eq hl hh]
  simp only [hr, Segment.lead_eq hl hh]

theorem report_of_failure {f : Failure} (hr : readStatement head others = .error f) :
    ∃ d r, Segment.report ⟨lead ++ head :: others, terminator⟩ = Outcome.comments lead ++ [.fault head d r] := by
  rw [Segment.report, Segment.content, Segment.body_eq hl hh]
  simp only [hr, Segment.lead_eq hl hh]
  exact ⟨_, _, rfl⟩

end

theorem reads_end {lead : List Token} (hl : ∀ t ∈ lead, t.isSignificant = false) (p : Position) :
    Reads (lead ++ tokensAt p []) (commentStatements lead) := by
  have hd : ∀ t ∈ lead, (!t.isSignificant) = true := fun t ht => by rw [hl t ht]; rfl
  have hbody : Segment.body ⟨lead, .endOfInput p⟩ = [] := List.dropWhile_eq_nil_iff.mpr hd
  have hlead : Segment.lead ⟨lead, .endOfInput p⟩ = lead := List.takeWhile_eq_self_iff.mpr hd
  have hi : ∀ t ∈ lead, t.IsInner := fun t ht => Token.isInner_of_not_significant (hl t ht)
  rw [Reads, tokensAt_nil, Segment.all_endOfInput hi rfl, List.flatMap_cons, List.flatMap_nil, List.append_nil,
    Segment.report, Segment.content, hbody, hlead]
  exact Yields.comments lead

/-! ## One written statement at a time -/

theorem written_comment (text : Text) (ss : List Statement) :
    written (.comment text :: ss) = text ++ '\n' :: written ss := by
  rw [written, List.flatMap_cons]
  exact List.append_assoc ..

theorem written_statement {s : Statement} (hc : s.isComment = false) (ss : List Statement) :
    written (s :: ss) = s.render ++ ';' :: '\n' :: written ss := by
  rw [written, List.flatMap_cons, Script.renderLine, hc, List.append_assoc]
  rfl

theorem tokensAt_newline {ss : List Statement} (h : ∀ s ∈ ss, s.IsReadable) (p : Position) :
    tokensAt p ('\n' :: written ss) = ⟨.whitespace, ['\n'], p⟩ :: tokensAt (p.past ['\n']) (written ss) := by
  have hs : scan '\n' (written ss) = (.whitespace, 0) := by
    rw [scan, opening_blank Text.isBlank_newline, Opening.extent]
    cases ss with
    | nil => rfl
    | cons s ss =>
      obtain ⟨c, u, hcu, hc⟩ := Statement.solid_render (h s List.mem_cons_self)
      rw [written, List.flatMap_cons, Script.renderLine, hcu]
      simp [hc]
  rw [tokensAt_cons, firstToken, afterFirst, hs]
  rfl

theorem tokensAt_comment {text rest : Text} (h : IsLineComment text) (p : Position) :
    tokensAt p (text ++ '\n' :: rest) = ⟨.lineComment, text, p⟩ :: tokensAt (p.past text) ('\n' :: rest) := by
  obtain ⟨c, u, rfl, hc⟩ : ∃ c u, text = c :: c :: u ∧ (c = '-' ∨ c = '/') := by
    obtain ⟨u, hu⟩ | ⟨u, hu⟩ := h.1
    · exact ⟨'-', u, hu.symm, .inl rfl⟩
    · exact ⟨'/', u, hu.symm, .inr rfl⟩
  have hn : ∀ d ∈ c :: u, d ≠ '\n' := fun d hd e => h.2 (e ▸ List.mem_cons_of_mem c hd)
  have hs : scan c (c :: u ++ '\n' :: rest) = (.lineComment, (c :: u).length) := by
    rw [scan, List.cons_append, opening_line hc, Opening.extent, ← List.cons_append,
      List.takeWhile_append_of_pos (by simpa using hn)]
    simp
  exact tokensAt_of_scan hs p

theorem tokensAt_semicolon (p : Position) (t : Text) :
    tokensAt p (';' :: t) = ⟨.semicolon, [';'], p⟩ :: tokensAt (p.past [';']) t := by
  have hs : scan ';' t = (.semicolon, 0) := by rw [scan, opening_semicolon]; rfl
  rw [tokensAt_cons, firstToken, afterFirst, hs]
  rfl

section
variable {lead : List Token} (hl : ∀ t ∈ lead, t.isSignificant = false) {ss : List Statement}
  (h : ∀ s ∈ ss, s.IsReadable) (p : Position)
include hl h

theorem reads_comment {text : Text} (ht : IsLineComment text) (xs : List Statement) :
    ∃ lead' q, (∀ t ∈ lead', t.isSignificant = false) ∧
      commentStatements lead' = commentStatements lead ++ [.comment text] ∧
      (Reads (lead ++ tokensAt p (written (.comment text :: ss))) xs ↔
        Reads (lead' ++ tokensAt q (written ss)) xs) := by
  refine ⟨lead ++ [⟨.lineComment, text, p⟩, ⟨.whitespace, ['\n'], p.past text⟩], (p.past text).past ['\n'], ?_, ?_, ?_⟩
  · intro t hm
    rcases List.mem_append.mp hm with hm | hm
    · exact hl t hm
    · simp only [List.mem_cons, List.not_mem_nil, or_false] at hm
      rcases hm with rfl | rfl <;> rfl
  · rw [commentStatements_append]
    rfl
  · rw [written_comment, tokensAt_comment ht, tokensAt_newline h, List.append_assoc]
    rfl

theorem reads_statement {s : Statement} (hc : s.isComment = false)
    (hs : s.ReadsBack (';' :: '\n' :: written ss)) (xs : List Statement) :
    ∃ lead' q, (∀ t ∈ lead', t.isSignificant = false) ∧ commentStatements lead' = [] ∧
      (Reads (lead ++ tokensAt p (written (s :: ss))) (commentStatements lead ++ s.normal :: xs) ↔
        Reads (lead' ++ tokensAt q (written ss)) xs) := by
  obtain ⟨head, others, htok, hh, hi, t, hy, hst⟩ := hs p
  have hread : readStatement head others = .ok s.normal := by
    rw [← hst]
    exact readStatement_complete (piece_of_tokensAt htok hi) (Statement.dropWhile_of_significant hh others) hy
  have hinner : ∀ t ∈ lead ++ head :: others, t.IsInner :=
    List.forall_mem_append.mpr ⟨fun t ht => Token.isInner_of_not_significant (hl t ht), hi⟩
  obtain ⟨q, hq⟩ : ∃ q : Position, q = (p.past s.render).past [';'] := ⟨_, rfl⟩
  refine ⟨[⟨.whitespace, ['\n'], q⟩], q.past ['\n'], ?_, rfl, ?_⟩
  · intro t ht
    obtain rfl := List.mem_singleton.mp ht
    rfl
  · rw [written_statement hc, htok, tokensAt_semicolon, tokensAt_newline h, ← List.append_assoc, ← hq, Reads,
      Segment.all_semicolon hinner rfl, List.flatMap_cons, report_of_read hl hh _ _ hread, List.append_assoc,
      (Yields.comments lead).append_iff]
    exact (Yields.statement head s.normal).append_iff

omit h in
theorem not_reads_statement {s : Statement} (hs : s.IsReadable) {q : Query} (hq : s.query? = some q)
    (hu : ¬ StaysOpen q.text (q.tail ++ ';' :: '\n' :: written ss)) (xs : List Statement) :
    ¬ Reads (lead ++ tokensAt p (written (s :: ss))) (commentStatements lead ++ s.normal :: xs) := by
  have hc : s.isComment = false := by cases s <;> first | rfl | cases hq
  have hr : Breaks (';' :: '\n' :: written ss) := breaks_cons (by decide) _
  have hquery := Statement.isQuery_of_query? hs hq
  obtain ⟨ts, big, us, htok, hbig, hlt, hgt, stray, vs, hwithin, hk⟩ :=
    exists_overrun (Statement.breaks_of_query? hq hr) (p := p) (mt staysOpen_iff.mpr hu)
  -- the head of the query comes before the token that reaches past its end
  obtain ⟨head, others, hts, hhead⟩ := hquery.exists_head_of_append hwithin (by rw [hk]; nofun)
  subst hts
  have hh := Statement.isSignificant_of_keyword hhead
  have hothers : ∀ t ∈ head :: others, t.IsInner := fun t ht =>
    hquery.inner p t (by rw [hwithin]; exact List.mem_append_left _ ht)
  have hinner : ∀ t ∈ lead ++ (head :: others) ++ [big], t.IsInner := by
    simp only [List.forall_mem_append, List.forall_mem_singleton]
    exact ⟨⟨fun t ht => Token.isInner_of_not_significant (hl t ht), hothers⟩, hbig⟩
  intro hreads
  have hstream : lead ++ (head :: others ++ big :: us) = lead ++ (head :: others) ++ [big] ++ us := by simp
  obtain ⟨run, hrun⟩ : ∃ run, run = (Segment.cut us).1.tokens := ⟨_, rfl⟩
  have htokens : lead ++ (head :: others) ++ [big] ++ run = lead ++ head :: (others ++ big :: run) := by simp
  rw [written_statement hc, Statement.render_of_query hq, List.append_assoc, htok, Reads, hstream,
    Segment.all_run hinner, List.flatMap_cons, ← hrun, htokens] at hreads
  cases hread : readStatement head (others ++ big :: run) with
  | error f =>
    obtain ⟨d, r, hreport⟩ := report_of_failure hl hh _ (Segment.cut us).1.terminator hread
    rw [hreport, List.append_assoc, (Yields.comments lead).append_iff] at hreads
    cases hreads.sound
  | ok st =>
    rw [report_of_read hl hh _ _ hread, List.append_assoc, (Yields.comments lead).append_iff] at hreads
    have hst : st = s.normal := (List.cons.inj hreads.statements).1
    obtain ⟨ys, hys, htext⟩ := Statement.exists_prefix_of_read hq hhead (hst ▸ hread)
    exact length_text_ne hlt hgt hys (congrArg List.length htext)

end

/-! ## Whole scripts -/

theorem reads_iff {ss : List Statement} (h : ∀ s ∈ ss, s.IsReadable) {lead : List Token}
    (hl : ∀ t ∈ lead, t.isSignificant = false) (p : Position) :
    Reads (lead ++ tokensAt p (written ss)) (commentStatements lead ++ ss.map Statement.normal) ↔ StayOpen ss := by
  induction ss generalizing lead p with
  | nil =>
    rw [List.map_nil, List.append_nil]
    exact iff_of_true (reads_end hl p) trivial
  | cons s ss ih =>
    have hs := h s List.mem_cons_self
    have hss : ∀ x ∈ ss, x.IsReadable := fun x hx => h x (List.mem_cons_of_mem s hx)
    cases hc : s.isComment with
    | true =>
      cases s with
      | comment text =>
        obtain ⟨lead', q, hl', hlead, hiff⟩ := reads_comment hl hss p hs _
        have hstay : StayOpen (.comment text :: ss) ↔ StayOpen ss := and_iff_right nofun
        rw [hiff, hstay, ← ih hss hl' q, hlead, List.append_assoc]
        rfl
      | _ => cases hc
    | false =>
      by_cases hq : ∀ q, s.query? = some q → StaysOpen q.text (q.tail ++ ';' :: '\n' :: written ss)
      · have hback := Statement.readsBack hs hc (breaks_cons (by decide) _) hq
        obtain ⟨lead', q, hl', hlead, hiff⟩ := reads_statement hl hss p hc hback (ss.map Statement.normal)
        have hstay : StayOpen (s :: ss) ↔ StayOpen ss := and_iff_right hq
        rw [List.map_cons, hiff, hstay, ← ih hss hl' q, hlead, List.nil_append]
      · refine iff_of_false ?_ fun hstay => hq hstay.1
        obtain ⟨q, hn⟩ := not_forall.mp hq
        obtain ⟨hsq, hu⟩ := Classical.not_imp.mp hn
        exact not_reads_statement hl p hs hsq hu _

theorem readsBack_iff {s : Script} (h : ∀ x ∈ s.statements, x.IsReadable) :
    ((parse s.render).diagnostics = [] ∧
        (parse s.render).script.statements = s.statements.map Statement.normal) ↔ StayOpen s.statements := by
  rw [parse_iff_reads]
  exact @reads_iff s.statements h [] nofun .start

theorem stayOpen_of_opensNothing {ss : List Statement}
    (h : ∀ s ∈ ss, ∀ q, s.query? = some q → OpensNothing q.text) : StayOpen ss := by
  induction ss with
  | nil => trivial
  | cons s ss ih =>
    refine ⟨fun q hq => ?_, ih fun x hx => h x (List.mem_cons_of_mem s hx)⟩
    exact (h s List.mem_cons_self q hq).staysOpen (Statement.breaks_of_query? hq (breaks_cons (by decide) _))

theorem parse_render {s : Script} (h : ∀ x ∈ s.statements, x.IsReadable)
    (ho : ∀ x ∈ s.statements, ∀ q, x.query? = some q → OpensNothing q.text) :
    (parse s.render).diagnostics = [] ∧
      (parse s.render).script.statements = s.statements.map Statement.normal ∧
      (parse s.render).script.render = s.render := by
  obtain ⟨hd, hs⟩ := (readsBack_iff h).mpr (stayOpen_of_opensNothing ho)
  refine ⟨hd, hs, ?_⟩
  rw [Script.render, hs, Script.render_normal]
  rfl

/-- Names that need quotes, a key that is a keyword, a query with a stray character, a connection name of one part and
a function name that is not written. -/
theorem parse_render_quotes_added :
    let target : FormatPath := ⟨.bare "m".toList, .bare "p".toList⟩
    let s : Script := ⟨[
      .comment "-- daily".toList,
      .load ⟨.bare "csv".toList, .bare "in put".toList⟩
        ⟨some .conditions, some ⟨.bare "as".toList, "a\"b\n".toList⟩, []⟩ (.bare "t".toList),
      .select "select '?' -- here\n from t where ?".toList (.bare "r".toList),
      .setting ⟨[.bare "a".toList, .bare "b".toList]⟩ (.block "it's;\n".toList) .empty,
      .connect (.bare "jdbc".toList) .empty (some (.dotted ⟨[.bare "db".toList]⟩)),
      .registration .unregister target (some (.bare "f".toList)) .empty], []⟩
    (∀ x ∈ s.statements, x.IsReadable) ∧
      (∀ x ∈ s.statements, ∀ q, x.query? = some q → OpensNothing q.text) ∧
      (parse s.render).diagnostics = [] ∧
      (parse s.render).script.statements = [
        .comment "-- daily".toList,
        .load ⟨.bare "csv".toList, .backquoted "in put".toList⟩
          ⟨some .conditions, some ⟨.backquoted "as".toList, "a\"b\n".toList⟩, []⟩ (.bare "t".toList),
        .select "select '?' -- here\n from t where ?".toList (.bare "r".toList),
        .setting ⟨[.bare "a".toList, .bare "b".toList]⟩ (.block "it's;\n".toList) .empty,
        .connect (.bare "jdbc".toList) .empty (some (.name (.bare "db".toList))),
        .registration .unregister target none .empty] ∧
      (parse s.render).script.render = s.render := by
  intro target s
  have h : ∀ x ∈ s.statements, x.IsReadable := by decide +kernel
  have ho : ∀ x ∈ s.statements, ∀ q ∈ x.query?, OpensNothing q.text := by decide +kernel
  obtain ⟨hd, hs, hr⟩ := parse_render h ho
  exact ⟨h, ho, hd, hs.trans (by decide +kernel), hr⟩

end PipelineScript
