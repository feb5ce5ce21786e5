import PipelineScript.Proofs.Lexing.Stream
import PipelineScript.Proofs.Reading.Unlimited
import PipelineScript.Proofs.Syntax.Statements

/-!
# Accepted texts

They are the yields of trees. Main statement: `parseWith_derives`.
-/

namespace PipelineScript

open Syntax

namespace Segment

def stated (os : List Outcome) : List (Position × Statement) :=
  (os.filterMap Outcome.located?).filter fun l => !l.2.isComment

theorem stated_append (os us : List Outcome) : stated (os ++ us) = stated os ++ stated us := by
  simp [stated]

theorem stated_comments (ts : List Token) : stated (Outcome.comments ts) = [] := by
  refine List.filter_eq_nil_iff.mpr fun l hl => ?_
  obtain ⟨o, ho, hlo⟩ := List.mem_filterMap.mp hl
  obtain ⟨t, -, rfl⟩ := List.mem_map.mp ho
  obtain rfl := Option.some.inj hlo
  simp [Statement.isComment]

theorem stated_filter_keeps (settings : Settings) (os : List Outcome) :
    stated (os.filter (Output.keeps settings)) = stated os := by
  induction os with
  | nil => rfl
  | cons o os ih =>
    by_cases ho : Output.keeps settings o = true
    · rw [List.filter_cons_of_pos ho, ← List.singleton_append, stated_append, ih, ← stated_append]
      rfl
    · rw [List.filter_cons_of_neg ho, ih]
      cases o with
      | comment t => simp [stated, Outcome.located?, Statement.isComment]
      | statement head st => simp [Output.keeps, Outcome.isComment] at ho
      | fault head d r => simp [Output.keeps, Outcome.isComment] at ho

theorem body_eq_nil {s : Segment} (h : s.body = []) : Token.significant s.tokens = [] := by
  rw [← Token.significant_dropWhile]
  exact congrArg Token.significant h

theorem stated_report_of_tree {s : Segment} (hp : Piece s.tokens) {t : Tree}
    (ht : t.yield = Token.significant s.tokens) :
    stated s.report = [(t.head.position, t.statement s.tokens)] := by
  cases hb : s.body with
  | nil =>
    rw [body_eq_nil hb] at ht
    cases ht
  | cons head rest =>
    have hh : t.head = head := (List.cons.inj (ht.trans (significant_eq hb))).1
    have hc : s.content = .statement head (t.statement s.tokens) := by
      rw [content, hb]
      simp only [readStatement_complete hp hb ht]
    rw [report, hc]
    simp only
    rw [stated_append, stated_comments, List.nil_append, ← List.singleton_append, stated_append,
      stated_comments, hh]
    simp [stated, Outcome.located?, t.isComment_statement]

theorem stated_report_of_none {s : Segment} (hp : Piece s.tokens)
    (h : ∀ t : Tree, t.yield ≠ Token.significant s.tokens) : stated s.report = [] := by
  rw [report, content]
  cases hb : s.body with
  | nil => exact stated_comments _
  | cons head rest =>
    cases hr : readStatement head rest with
    | ok st =>
      obtain ⟨t, hy, -⟩ := readStatement_sound hp hb hr
      exact absurd hy (h t)
    | error f =>
      simp only [hr]
      rw [stated_append, stated_comments]
      rfl

/-! ## All segments -/

theorem exists_derivation :
    ∃ derivation : Segment → Option Tree, ∀ s t, derivation s = some t ↔ t.yield = Token.significant s.tokens := by
  have h : ∀ s : Segment, ∃ o : Option Tree, ∀ t, o = some t ↔ t.yield = Token.significant s.tokens := by
    intro s
    by_cases he : ∃ t : Tree, t.yield = Token.significant s.tokens
    · -- the grammar is unambiguous, so there is no other tree
      obtain ⟨u, hu⟩ := he
      refine ⟨some u, fun t => ⟨fun h => ?_, fun h => ?_⟩⟩
      · rw [← Option.some.inj h, hu]
      · rw [Tree.eq_of_yield (hu.trans h.symm)]
    · exact ⟨none, fun t => ⟨nofun, fun h => absurd ⟨t, h⟩ he⟩⟩
  exact ⟨fun s => (h s).choose, fun s => (h s).choose_spec⟩

theorem stated_reports {derivation : Segment → Option Tree}
    (hd : ∀ s t, derivation s = some t ↔ t.yield = Token.significant s.tokens) :
    ∀ {ss : List Segment}, (∀ s ∈ ss, Piece s.tokens) → stated (ss.flatMap report) =
      ss.filterMap fun s => (derivation s).map fun t => (t.head.position, t.statement s.tokens)
  | [], _ => rfl
  | s :: ss, hp => by
    have hs := hp s List.mem_cons_self
    have ih := stated_reports hd fun x hx => hp x (List.mem_cons_of_mem _ hx)
    rw [List.flatMap_cons, stated_append, ih]
    cases ht : derivation s with
    | some t =>
      rw [stated_report_of_tree hs ((hd s t).mp ht), List.filterMap_cons_some (by rw [ht]; rfl)]
      rfl
    | none =>
      have hn : ∀ t : Tree, t.yield ≠ Token.significant s.tokens := fun t h => by
        rw [(hd s t).mpr h] at ht
        cases ht
      rw [stated_report_of_none hs hn, List.filterMap_cons_none (by rw [ht]; rfl)]
      rfl

theorem piece_tokenize {source : Text} {s : Segment} (hs : s ∈ ofTokens (tokenize source)) : Piece s.tokens where
  inner := (cuts_tokenize source).inner s hs
  named _ ht _ := (mem_tokensWithin (mem_tokenize hs ht)).2

end Segment

theorem parseWith_derives (comments : Bool) (source : Text) :
    Segment.Cuts (Segment.ofTokens (tokenize source)) (tokenize source) ∧
    ∃ derivation : Segment → Option Tree,
      (∀ s t, derivation s = some t ↔ t.yield = Token.significant s.tokens) ∧
      (parseWith ⟨comments, none⟩ source).script.located.filter (fun l => !l.2.isComment) =
        (Segment.ofTokens (tokenize source)).filterMap fun s =>
          (derivation s).map fun t => (t.head.position, t.statement s.tokens) := by
  obtain ⟨derivation, hd⟩ := Segment.exists_derivation
  refine ⟨Segment.cuts_tokenize source, derivation, hd, ?_⟩
  rw [parseWith, parseTokens_unlimited rfl, Output.located_ofOutcomes]
  exact (Segment.stated_filter_keeps _ _).trans (Segment.stated_reports hd fun s hs => Segment.piece_tokenize hs)

end PipelineScript
