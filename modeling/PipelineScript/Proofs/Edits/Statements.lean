import PipelineScript.Proofs.Edits.Basic
import PipelineScript.Proofs.Syntax.Queries

/-!
# Statements of edited tokens

Where an edit changes no significant token, both versions of a statement are read
alike, up to the text that is kept. Main statement: `readStatement_tokens`.
-/

namespace PipelineScript

open Syntax

namespace Edit

/-- A part of an edit from a kept significant token at `p` through a kept significant token. -/
structure IsRun (p : Position) (run : List Edit) : Prop where
  first : ∃ t rest, run = kept t :: rest ∧ t.isSignificant = true ∧ t.position = p
  last : ∃ front t, run = front ++ [kept t] ∧ t.isSignificant = true

/-- The statement of either version: text that it keeps is that of one run of the edit, and all else is the same. -/
inductive Reads (p : Position) (es : List Edit) : (Version → Statement) → Prop
  | same {s : Statement} (h : s.text? = none) : Reads p es fun _ => s
  | select {run : List Edit} (h : IsRun p run) (hr : run <:+: es) (table : Name) :
    Reads p es fun v => .select (Token.text (tokens v run)) table
  | verbatim {run : List Edit} (h : IsRun p run) (hr : run <:+: es) (kind : Verbatim) :
    Reads p es fun v => .verbatim kind (Token.text (tokens v run))

theorem Reads.mono {p : Position} {es ds : List Edit} {s : Version → Statement} (h : Reads p es s) (hs : es <:+: ds) :
    Reads p ds s := by
  cases h with
  | same h => exact .same h
  | select h hr table => exact .select h (hr.trans hs) table
  | verbatim h hr kind => exact .verbatim h (hr.trans hs) kind

section
variable {head : Token} (hh : head.isSignificant = true) {es : List Edit}
  (hc : ∀ t ∈ changed es, t.isSignificant = false)
include hh

theorem isRun_of_split {front back : List Edit} {last : Token} (h : kept head :: es = front ++ kept last :: back)
    (hl : last.isSignificant = true) : IsRun head.position (front ++ [kept last]) := by
  refine ⟨?_, front, last, rfl, hl⟩
  cases front with
  | nil =>
    obtain ⟨hk, -⟩ := List.cons.inj h
    obtain rfl := Edit.kept.inj hk
    exact ⟨head, [], rfl, hh, rfl⟩
  | cons e front =>
    obtain ⟨rfl, -⟩ := List.cons.inj h
    exact ⟨head, front ++ [kept last], rfl, hh, rfl⟩

include hc

theorem splitLast?_body : ∃ front last back, kept head :: es = front ++ kept last :: back ∧ last.isSignificant = true ∧
    ∀ v, Token.splitLast? (head :: tokens v es) = some (tokens v front, last) := by
  have hc : ∀ t ∈ changed (kept head :: es), t.isSignificant = false := hc
  rcases splitLast?_tokens hc with hnone | ⟨front, last, back, hsplit, hl, -, hv⟩
  · have hgap := Token.splitLast?_eq_none.mp (hnone .before)
    rw [tokens_kept, Token.significant_cons hh] at hgap
    cases hgap
  · refine ⟨front, last, back, hsplit, hl, fun v => ?_⟩
    rw [← tokens_kept]
    exact hv v

theorem verbatimStatement_tokens (kind : Verbatim) :
    Reads head.position (kept head :: es) fun v => verbatimStatement kind (head :: tokens v es) := by
  obtain ⟨front, last, back, hsplit, hl, hv⟩ := splitLast?_body hh hc
  have hrun : front ++ [kept last] <:+: kept head :: es := ⟨[], back, by rw [hsplit]; simp⟩
  have htext : (fun v => verbatimStatement kind (head :: tokens v es)) =
      fun v => .verbatim kind (Token.text (tokens v (front ++ [kept last]))) := by
    funext v
    rw [verbatimStatement, Token.trimEnd, hv v, tokens_split]
    rfl
  rw [htext]
  exact .verbatim (isRun_of_split hh hsplit hl) hrun kind

theorem selectStatement?_tokens : (∀ v, selectStatement? (head :: tokens v es) = none) ∨
    ∃ s, Reads head.position (kept head :: es) s ∧ ∀ v, selectStatement? (head :: tokens v es) = some (s v) := by
  obtain ⟨front, last, back, hsplit, hl, hlast⟩ := splitLast?_body hh hc
  have hc : ∀ t ∈ changed (kept head :: es), t.isSignificant = false := hc
  rw [hsplit, changed_append] at hc
  have hfront : ∀ t ∈ changed front, t.isSignificant = false := fun t ht => hc t (List.mem_append_left _ ht)
  simp only [selectStatement?, hlast, Option.bind_eq_bind, Option.bind_some]
  cases last.resultName? with
  | none => exact .inl fun _ => rfl
  | some table =>
    simp only [Option.bind_some]
    rcases splitLast?_tokens hfront with hnone | ⟨query, link, back₁, rfl, -, -, hlink⟩
    · exact .inl fun v => by rw [hnone v]; rfl
    · simp only [hlink, Option.bind_some]
      rw [changed_append] at hfront
      have hquery : ∀ t ∈ changed query, t.isSignificant = false := fun t ht => hfront t (List.mem_append_left _ ht)
      by_cases hg : link.isKeyword .as = true
      · have hguard : (guard (link.isKeyword .as = true) : Option Unit) = some () := if_pos hg
        simp only [hguard, Option.bind_some]
        rcases splitLast?_tokens hquery with hnone | ⟨before, stop, back₂, rfl, hs, -, hstop⟩
        · exact .inl fun v => by rw [hnone v]; rfl
        · have hrun : kept head :: es =
              before ++ kept stop :: (back₂ ++ kept link :: (back₁ ++ kept last :: back)) := by
            rw [hsplit]
            simp only [List.append_assoc, List.cons_append]
          have hwithin : before ++ [kept stop] <:+: kept head :: es := ⟨[], _, by
            rw [hrun, List.nil_append, List.append_assoc]
            rfl⟩
          refine .inr ⟨_, .select (isRun_of_split hh hrun hs) hwithin table, fun v => ?_⟩
          rw [hstop v, tokens_split]
          rfl
      · exact .inl fun v => by simp [hg]

end

theorem readStatement_tokens {head : Token} (hh : head.isSignificant = true) {es : List Edit}
    (hc : ∀ t ∈ changed es, t.isSignificant = false) :
    (∃ f, ∀ v, readStatement head (tokens v es) = .error f) ∨
      ∃ s, Reads head.position (kept head :: es) s ∧ ∀ v, readStatement head (tokens v es) = .ok (s v) := by
  have hsame (v : Version) : Token.significant (tokens v es) = Token.significant (tokens .before es) :=
    significant_tokens_eq v .before hc
  unfold readStatement
  cases hf : head.form? with
  | none =>
    refine .inl ⟨⟨.notAStatement, head :: Token.significant (tokens .before es)⟩, fun v => ?_⟩
    simp only [Token.significant_cons hh, hsame v]
  | some form =>
    cases form with
    | structured rule =>
      simp only [hsame]
      cases hr : rule.complete (Token.significant (tokens .before es)) with
      | error f => exact .inl ⟨f, fun _ => rfl⟩
      | ok s => exact .inr ⟨fun _ => s, .same (text?_of_structured hf hr), fun _ => rfl⟩
    | verbatim kind => exact .inr ⟨_, verbatimStatement_tokens hh hc kind, fun _ => rfl⟩
    | query =>
      rcases selectStatement?_tokens hh hc with hnone | ⟨s, hs, hv⟩
      · exact .inl ⟨⟨.unexpected .queryResult, []⟩, fun v => by simp only [hnone v]⟩
      · exact .inr ⟨s, hs, fun v => by simp only [hv v]⟩

end Edit

end PipelineScript
