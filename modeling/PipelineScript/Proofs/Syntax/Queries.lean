import PipelineScript.Proofs.Syntax.Statements

/-!
# Statements that keep text

The text of a query is that of its tokens from the head through one that is
significant. Main statement: `readStatement_text`.
-/

namespace PipelineScript

open Syntax

def Statement.text? : Statement → Option Text
  | .select sql _ => some sql
  | .verbatim _ body => some body
  | _ => none

theorem Statement.text?_of_isComment {s : Statement} (h : s.isComment = true) : s.text? = none := by
  cases s with
  | comment => rfl
  | _ => cases h

namespace Syntax

theorem text?_of_structured {head : Token} {rule : Rule Statement} (hf : head.form? = some (.structured rule))
    {w : List Token} {s : Statement} (h : rule.complete w = .ok s) : s.text? = none := by
  obtain ⟨t, hy, rfl⟩ := form_sound [] hf (Rule.complete_eq_ok.mp h)
  clear h
  have hhead : t.head = head := (List.cons.inj hy).1
  rw [← hhead, Token.form?] at hf
  cases t with
  | select h =>
    rw [Tree.head, List.mem_singleton.mp h.mem] at hf
    cases hf
  | verbatim h =>
    rw [Tree.head, h.kind_eq] at hf
    cases hc : h.choice <;> rw [hc] at hf <;> cases hf
  | _ => rfl

end Syntax

/-- What stands behind the text that a statement keeps. -/
inductive Statement.KeptBefore (rest : List Token) : Statement → Prop
  | verbatim (kind : Verbatim) (body : Text) (h : Token.significant rest = []) : KeptBefore rest (.verbatim kind body)
  | select (sql : Text) {link name : Token} (h : Token.significant rest = [link, name])
    (hl : link.kind = .keyword .as) (hn : IsIdent name) :
    KeptBefore rest (.select sql ⟨name.value, name.kind == .backquoted⟩)

theorem readStatement_text {head : Token} (hh : head.isSignificant = true) {rest : List Token} {s : Statement}
    (h : readStatement head rest = .ok s) {text : Text} (ht : s.text? = some text) :
    ∃ before stop after, head :: rest = before ++ stop :: after ∧ stop.isSignificant = true ∧
      text = Token.text (before ++ [stop]) ∧ s.KeptBefore after := by
  unfold readStatement at h
  split at h
  · cases h
  · next rule hf =>
    rw [text?_of_structured hf h] at ht
    cases ht
  · next kind hf =>
    obtain rfl := Except.ok.inj h
    cases hlast : Token.splitLast? (head :: rest) with
    | none =>
      have hnone := Token.splitLast?_eq_none.mp hlast
      rw [Token.significant_cons hh] at hnone
      cases hnone
    | some p =>
      obtain ⟨before, stop⟩ := p
      obtain ⟨after, hsplit, hstop, hafter⟩ := Token.splitLast?_eq_some hlast
      refine ⟨before, stop, after, hsplit, hstop, ?_, .verbatim kind _ hafter⟩
      rw [← Option.some.inj ht, Token.trimEnd, hlast]
  · next hf =>
    split at h
    · next s' hs =>
      obtain rfl := Except.ok.inj h
      obtain ⟨before, stop, after, link, name, hsplit, hstop, hafter, hlink, hname, rfl⟩ :=
        selectStatement?_eq_some hs
      exact ⟨before, stop, after, hsplit, hstop, (Option.some.inj ht).symm, .select _ hafter hlink hname⟩
    · cases h

end PipelineScript
