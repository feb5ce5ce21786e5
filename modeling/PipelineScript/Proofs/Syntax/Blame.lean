import PipelineScript.Proofs.Syntax.Lookahead
import PipelineScript.Proofs.Syntax.Statements

/-!
# What a refused statement blames

Main statements: `foresees_complete` and `blames_readStatement`.
-/

namespace PipelineScript

open Syntax

def Syntax.sentences : Set (List Token) := Set.range Tree.yield

namespace Rule

/-! ## Statements in parts -/

def behind (h : Token) : Set (List Token) := {w | h :: w ∈ sentences}

theorem foresees_load (h : Terminal [.keyword .load]) : Foresees load (behind h.token) := by
  refine foresees_formatPath.bind formatPath_parses (fun p => ⟨_, .load h p default default default, rfl⟩) fun p => ?_
  refine foresees_clause.bind clause_parses (fun o => ⟨_, .load h p o default default, rfl⟩) fun o => ?_
  refine (foresees_terminal _ _).bind (expect_parses _ _) (fun l => ⟨_, .load h p o l default, rfl⟩) fun l => ?_
  exact (foresees_ident _).bind (name_parses _) (fun n => ⟨_, .load h p o l n, rfl⟩) fun n => foresees_pure _

theorem foresees_save (h : Terminal [.keyword .save]) : Foresees save (behind h.token) := by
  refine (foresees_readAll _).bind modes_parses
    (fun ms => ⟨_, .save h ms default default default default none, rfl⟩) fun ms => ?_
  refine (foresees_ident _).bind (name_parses _) (fun n => ⟨_, .save h ms n default default default none, rfl⟩)
    fun n => ?_
  refine (foresees_terminal _ _).bind (expect_parses _ _) (fun l => ⟨_, .save h ms n l default default none, rfl⟩)
    fun l => ?_
  refine foresees_formatPath.bind formatPath_parses (fun p => ⟨_, .save h ms n l p default none, rfl⟩) fun p => ?_
  refine foresees_clause.bind clause_parses (fun o => ⟨_, .save h ms n l p o none, rfl⟩) fun o => ?_
  exact (foresees_after column_iff (foresees_ident _)).bind column_parses
    (fun c => ⟨[], .save h ms n l p o c, by rw [List.append_nil]; rfl⟩) fun c => foresees_pure _

theorem foresees_setting (h : Terminal [.keyword .set]) : Foresees setting (behind h.token) := by
  refine (foresees_dottedName _).bind (dottedName_parses _)
    (fun k => ⟨_, .setting h k default default default, rfl⟩) fun k => ?_
  refine (foresees_terminal _ _).bind (expect_parses _ _) (fun e => ⟨_, .setting h k e default default, rfl⟩)
    fun e => ?_
  refine foresees_settingValue.bind settingValue_parses (fun v => ⟨_, .setting h k e v default, rfl⟩) fun v => ?_
  exact foresees_clause.bind clause_parses (fun o => ⟨[], .setting h k e v o, by rw [List.append_nil]; rfl⟩)
    fun o => foresees_pure _

theorem foresees_connect (h : Terminal [.keyword .connect]) : Foresees connect (behind h.token) := by
  refine (foresees_ident _).bind (name_parses _) (fun n => ⟨_, .connect h n default none, rfl⟩) fun n => ?_
  refine foresees_clause.bind clause_parses (fun o => ⟨_, .connect h n o none, rfl⟩) fun o => ?_
  exact (foresees_after (beq_kind_iff (.keyword .as)) (foresees_dottedName _)).bind database_parses
    (fun d => ⟨[], .connect h n o d, by rw [List.append_nil]; rfl⟩) fun d => foresees_pure _

theorem foresees_model (h : Choice ModelAction fun a => .keyword a.keyword) :
    Foresees (model h.choice) (behind h.token) := by
  refine (foresees_ident _).bind (name_parses _) (fun n => ⟨_, .model h n default default default, rfl⟩) fun n => ?_
  refine (foresees_terminal _ _).bind (expect_parses _ _) (fun l => ⟨_, .model h n l default default, rfl⟩)
    fun l => ?_
  refine foresees_formatPath.bind formatPath_parses (fun p => ⟨_, .model h n l p default, rfl⟩) fun p => ?_
  exact foresees_clause.bind clause_parses (fun o => ⟨[], .model h n l p o, by rw [List.append_nil]; rfl⟩)
    fun o => foresees_pure _

theorem foresees_register (h : Terminal [.keyword .register]) : Foresees register (behind h.token) := by
  refine foresees_formatPath.bind formatPath_parses (fun p => ⟨_, .register h p default default default, rfl⟩)
    fun p => ?_
  refine (foresees_terminal _ _).bind (expect_parses _ _) (fun l => ⟨_, .register h p l default default, rfl⟩)
    fun l => ?_
  refine (foresees_ident _).bind (name_parses _) (fun n => ⟨_, .register h p l n default, rfl⟩) fun n => ?_
  exact foresees_clause.bind clause_parses (fun o => ⟨[], .register h p l n o, by rw [List.append_nil]; rfl⟩)
    fun o => foresees_pure _

theorem foresees_unregister (h : Terminal [.keyword .unregister]) : Foresees unregister (behind h.token) := by
  refine foresees_formatPath.bind formatPath_parses (fun p => ⟨_, .unregister h p default, rfl⟩) fun p => ?_
  exact foresees_clause.bind clause_parses (fun o => ⟨[], .unregister h p o, by rw [List.append_nil]; rfl⟩)
    fun o => foresees_pure _

theorem foresees_inclusion (h : Terminal [.keyword .include]) : Foresees inclusion (behind h.token) := by
  refine foresees_formatPath.bind formatPath_parses (fun p => ⟨_, .inclusion h p default, rfl⟩) fun p => ?_
  exact foresees_clause.bind clause_parses (fun o => ⟨[], .inclusion h p o, by rw [List.append_nil]; rfl⟩)
    fun o => foresees_pure _

theorem foresees_form {head : Token} {rule : Rule Statement} (hf : head.form? = some (.structured rule)) :
    Foresees rule (behind head) := by
  unfold Token.form? at hf
  cases hk : head.kind with
  | keyword k =>
    rw [hk] at hf
    have hm : head.kind ∈ [Token.Kind.keyword k] := List.mem_singleton.mpr hk
    cases k <;> simp only [Keyword.form?, Option.some.injEq, Form.structured.injEq, reduceCtorEq] at hf
    case load => subst hf; exact foresees_load ⟨head, hm⟩
    case save => subst hf; exact foresees_save ⟨head, hm⟩
    case set => subst hf; exact foresees_setting ⟨head, hm⟩
    case connect => subst hf; exact foresees_connect ⟨head, hm⟩
    case train => subst hf; exact foresees_model ⟨.train, head, hk⟩
    case run => subst hf; exact foresees_model ⟨.run, head, hk⟩
    case register => subst hf; exact foresees_register ⟨head, hm⟩
    case unregister => subst hf; exact foresees_unregister ⟨head, hm⟩
    case «include» => subst hf; exact foresees_inclusion ⟨head, hm⟩
  | _ => rw [hk] at hf; cases hf

theorem Foresees.complete {rule : Rule Statement} {L : Set (List Token)} (h : Foresees rule L)
    (hs : ∀ {c a}, rule c = .ok (a, []) → c ∈ L) {w : List Token} {f : Failure} (hf : rule.complete w = .error f) :
    ∃ before, Viable L before ∧ f.Behind before w ∧
      ∀ t rest, w = before ++ t :: rest → ∀ v, ∃ f', rule.complete (before ++ t :: v) = .error f' := by
  rw [Rule.complete] at hf
  cases hr : rule w with
  | error g =>
    rw [hr] at hf
    obtain rfl := Except.error.inj hf
    obtain ⟨before, hb, hg, hall⟩ := (h w).refused hr
    refine ⟨before, hb, hg, fun t rest ht v => ?_⟩
    obtain ⟨f', hf'⟩ := hall t rest ht v
    exact ⟨f', by rw [Rule.complete, hf']⟩
  | ok p =>
    obtain ⟨a, r⟩ := p
    obtain ⟨c, rfl, hc⟩ := (h w).taken hr
    cases r with
    | nil =>
      rw [hr] at hf
      cases hf
    | cons t r =>
      rw [hr] at hf
      obtain rfl := Except.error.inj hf
      have hnil := hc [] (startsAs_nil _)
      rw [List.append_nil] at hnil
      refine ⟨c, ⟨c, hs hnil, List.prefix_refl c⟩, ?_, fun x rest hx v => ?_⟩
      · simpa using (Failure.behind_unexpected .terminator (t :: r)).append c
      · obtain ⟨rfl, rfl⟩ := List.cons.inj (List.append_cancel_left hx)
        exact ⟨_, by rw [Rule.complete, hc _ (startsAs_cons t v r)]⟩

end Rule

theorem Syntax.foresees_complete {head : Token} {rule : Rule Statement} (hf : head.form? = some (.structured rule))
    {w : List Token} {f : Failure} (h : rule.complete w = .error f) :
    ∃ before, Viable (Rule.behind head) before ∧ f.Behind before w ∧
      ∀ t rest, w = before ++ t :: rest → ∀ v, ∃ f', rule.complete (before ++ t :: v) = .error f' := by
  refine (Rule.foresees_form hf).complete (fun hc => ?_) h
  obtain ⟨t, ht, -⟩ := form_sound [] hf hc
  exact ⟨t, ht⟩

def Failure.Blames (f : Failure) (w : List Token) : Prop := ∀ e : Token, f.offender e ∈ w ++ [e]

theorem Failure.Blames.mono {f : Failure} {w v : List Token} (h : f.Blames w) (hs : ∀ t ∈ w, t ∈ v) : f.Blames v := by
  intro e
  rcases List.mem_append.mp (h e) with ht | ht
  · exact List.mem_append_left _ (hs _ ht)
  · exact List.mem_append_right _ ht

theorem Failure.Behind.blames {f : Failure} {before w : List Token} (h : f.Behind before w) : f.Blames w := by
  intro e
  obtain ⟨rest, hr⟩ := h.front e
  exact hr ▸ List.mem_append_right before List.mem_cons_self

/-! ## Whole statements -/

theorem isComment_selectStatement? {ts : List Token} {s : Statement} (h : selectStatement? ts = some s) :
    s.isComment = false := by
  simp only [selectStatement?, Option.bind_eq_bind, Option.bind_eq_some_iff] at h
  obtain ⟨_, -, _, -, _, -, _, -, _, -, hs⟩ := h
  obtain rfl := Option.some.inj hs
  rfl

theorem readStatement_not_comment {head : Token} {rest : List Token} {s : Statement}
    (h : readStatement head rest = .ok s) : s.isComment = false := by
  unfold readStatement at h
  split at h
  · cases h
  · next rule hf =>
    obtain ⟨t, -, rfl⟩ := form_sound [] hf (Rule.complete_eq_ok.mp h)
    exact t.isComment_statement []
  · exact Except.ok.inj h ▸ rfl
  · split at h
    · next hs => exact Except.ok.inj h ▸ isComment_selectStatement? hs
    · cases h

theorem blames_significant {head : Token} {rest : List Token} {f : Failure}
    (h : readStatement head rest = .error f) : f.Blames (Token.significant (head :: rest)) := by
  unfold readStatement at h
  split at h
  · obtain rfl := Except.error.inj h
    intro e
    cases hs : Token.significant (head :: rest) with
    | nil => exact List.mem_append_right _ (List.mem_singleton.mpr rfl)
    | cons t w => exact List.mem_append_left _ List.mem_cons_self
  · next rule hf =>
    obtain ⟨before, -, hb, -⟩ := foresees_complete hf h
    exact hb.blames.mono ((List.sublist_cons_self head rest).filter _).subset
  · cases h
  · split at h
    · cases h
    · exact Except.error.inj h ▸ (Failure.behind_unexpected .queryResult []).blames.mono nofun

theorem blames_readStatement {head : Token} {rest : List Token} {f : Failure}
    (h : readStatement head rest = .error f) : f.Blames (head :: rest) :=
  (blames_significant h).mono fun _ ht => (List.mem_filter.mp ht).1

end PipelineScript
