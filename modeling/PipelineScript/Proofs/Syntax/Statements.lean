import Mathlib.Data.Option.Basic
import PipelineScript.Proofs.Syntax.Phrases
import PipelineScript.Proofs.Syntax.SourceText

/-!
# What is read as a statement

The tokens of a segment are read as a statement if and only if their significant
ones are the yield of a tree. Main statement: `readStatement_eq_ok`.
-/

namespace PipelineScript

open Syntax

theorem Token.form?_verbatim {t : Token} {k : Verbatim} :
    t.form? = some (.verbatim k) ↔ t.kind = .keyword k.keyword := by
  unfold Token.form?
  cases t.kind with
  | keyword w => cases w <;> cases k <;> simp [Keyword.form?, Verbatim.keyword]
  | _ => simp

theorem Token.form?_query {t : Token} : t.form? = some .query ↔ t.kind = .keyword .select := by
  unfold Token.form?
  cases t.kind with
  | keyword w => cases w <;> simp [Keyword.form?]
  | _ => simp

theorem Token.writeMode?_eq_some {t : Token} {m : WriteMode} :
    t.writeMode? = some m ↔ t.kind = .keyword m.keyword := by
  unfold Token.writeMode?
  split <;> cases m <;> simp_all [WriteMode.keyword]

namespace Rule

theorem complete_eq_ok {α : Type} {rule : Rule α} {w : List Token} {a : α} :
    rule.complete w = .ok a ↔ rule w = .ok (a, []) := by
  unfold complete
  split <;> simp_all

theorem modes_parses : Parses (readAll Token.writeMode?)
    (fun cs : List (Choice WriteMode fun m => .keyword m.keyword) => cs.flatMap fun c => [c.token])
    (List.map Choice.choice) [.keyword .overwrite, .keyword .append, .keyword .errorIfExists, .keyword .ignore] :=
  readAll_parses Token.writeMode?_eq_some fun m => by cases m <;> simp [WriteMode.keyword]

theorem column_iff (k : Token.Kind) : (k == .keyword .partitionBy || k == .keyword .as) = true ↔
    k ∈ [Token.Kind.keyword .partitionBy, .keyword .as] := by
  simp

theorem column_parses : Parses (after (fun k => k == .keyword .partitionBy || k == .keyword .as) (name .columnName))
    (fun c : Option (Terminal [.keyword .partitionBy, .keyword .as] × Ident) =>
      c.toList.flatMap (announced fun i : Ident => [i.token]))
    (Option.map fun c => c.2.name) [.keyword .partitionBy, .keyword .as] :=
  after_parses column_iff (name_parses .columnName)

theorem database_parses : Parses (after (· == .keyword .as) (dottedName .connectionName))
    (fun d : Option (As × Dotted) => d.toList.flatMap (announced Dotted.yield)) (Option.map fun d => d.2.ast)
    [.keyword .as, .dot] :=
  after_parses (beq_kind_iff (.keyword .as)) (dottedName_parses .connectionName)

/-! ## Each rule reads the trees of one production -/

variable (ts : List Token)

theorem load_sound (h : Terminal [.keyword .load]) {w : List Token} {s : Statement} (hw : load w = .ok (s, [])) :
    ∃ t : Tree, t.yield = h.token :: w ∧ t.statement ts = s := by
  obtain ⟨p, r₁, rfl, h₁⟩ := formatPath_parses.of_bind hw
  obtain ⟨o, r₂, rfl, h₂⟩ := clause_parses.of_bind h₁
  obtain ⟨l, r₃, rfl, h₃⟩ := (expect_parses .asTable (.keyword .as)).of_bind h₂
  obtain ⟨n, r₄, rfl, h₄⟩ := (name_parses .tableName).of_bind h₃
  obtain ⟨rfl, rfl⟩ := pure_eq_ok.mp h₄
  exact ⟨.load h p o l n, rfl, rfl⟩

theorem load_complete (p : Path) (o : Options) (l : As) (n : Ident) :
    load (p.yield ++ (o.yield ++ [l.token, n.token])) = .ok (.load p.ast o.ast n.name, []) := by
  rw [load, bind_of_ok _ (formatPath_parses.complete p (by simp [Avoids])),
    bind_of_ok _ (clause_parses.complete o (l.avoids _ (by decide))), keyword,
    bind_of_ok _ (expect_terminal .asTable l _), bind_of_ok _ (name_ident .tableName n _)]
  rfl

theorem save_sound (h : Terminal [.keyword .save]) {w : List Token} {s : Statement} (hw : save w = .ok (s, [])) :
    ∃ t : Tree, t.yield = h.token :: w ∧ t.statement ts = s := by
  obtain ⟨cs, r₁, rfl, h₁⟩ := modes_parses.of_bind hw
  obtain ⟨n, r₂, rfl, h₂⟩ := (name_parses .tableName).of_bind h₁
  obtain ⟨l, r₃, rfl, h₃⟩ := (expect_parses .asSink (.keyword .as)).of_bind h₂
  obtain ⟨p, r₄, rfl, h₄⟩ := formatPath_parses.of_bind h₃
  obtain ⟨o, r₅, rfl, h₅⟩ := clause_parses.of_bind h₄
  obtain ⟨c, r₆, rfl, h₆⟩ := column_parses.of_bind h₅
  obtain ⟨rfl, rfl⟩ := pure_eq_ok.mp h₆
  refine ⟨.save h cs n l p o c, ?_, rfl⟩
  rw [List.append_nil]
  rfl

theorem save_complete (cs : List (Choice WriteMode fun m => .keyword m.keyword)) (n : Ident) (l : As) (p : Path)
    (o : Options) (c : Option (Terminal [.keyword .partitionBy, .keyword .as] × Ident)) :
    save (cs.flatMap (fun m => [m.token]) ++ n.token :: l.token ::
        (p.yield ++ (o.yield ++ c.toList.flatMap fun c => [c.1.token, c.2.token]))) =
      .ok (.save (cs.map Choice.choice) n.name p.ast o.ast (c.map fun c => c.2.name), []) := by
  have hc := column_parses.complete_end c
  rw [save, bind_of_ok _ (modes_parses.complete cs (n.avoids _ (by decide))),
    bind_of_ok _ (name_ident .tableName n _), keyword, bind_of_ok _ (expect_terminal .asSink l _),
    bind_of_ok _ (formatPath_parses.complete p (by simp [Avoids])),
    bind_of_ok _ (clause_parses.complete o (column_avoids c))]
  exact bind_of_ok (fun c => pure (Statement.save (cs.map Choice.choice) n.name p.ast o.ast c)) hc

theorem setting_sound (h : Terminal [.keyword .set]) {w : List Token} {s : Statement}
    (hw : setting w = .ok (s, [])) : ∃ t : Tree, t.yield = h.token :: w ∧ t.statement ts = s := by
  obtain ⟨k, r₁, rfl, h₁⟩ := (dottedName_parses .settingKey).of_bind hw
  obtain ⟨e, r₂, rfl, h₂⟩ := (expect_parses .settingEquals .equals).of_bind h₁
  obtain ⟨v, r₃, rfl, h₃⟩ := settingValue_parses.of_bind h₂
  obtain ⟨o, r₄, rfl, h₄⟩ := clause_parses.of_bind h₃
  obtain ⟨rfl, rfl⟩ := pure_eq_ok.mp h₄
  refine ⟨.setting h k e v o, ?_, rfl⟩
  rw [List.append_nil]
  rfl

theorem setting_complete (k : Dotted) (e : Terminal [.equals]) (v : Value) (o : Options) :
    setting (k.yield ++ e.token :: (v.yield ++ o.yield)) = .ok (.setting k.ast v.ast o.ast, []) := by
  have ho : Avoids [.dot] o.yield := by simpa using o.yield_avoids (avoids_nil _) (by decide)
  rw [setting, bind_of_ok _ ((dottedName_parses _).complete k (e.avoids _ (by decide))),
    bind_of_ok _ (expect_terminal .settingEquals e _), bind_of_ok _ (settingValue_parses.complete v ho),
    bind_of_ok _ (clause_parses.complete_end o)]
  rfl

theorem connect_sound (h : Terminal [.keyword .connect]) {w : List Token} {s : Statement}
    (hw : connect w = .ok (s, [])) : ∃ t : Tree, t.yield = h.token :: w ∧ t.statement ts = s := by
  obtain ⟨n, r₁, rfl, h₁⟩ := (name_parses .connectorFormat).of_bind hw
  obtain ⟨o, r₂, rfl, h₂⟩ := clause_parses.of_bind h₁
  obtain ⟨d, r₃, rfl, h₃⟩ := database_parses.of_bind h₂
  obtain ⟨rfl, rfl⟩ := pure_eq_ok.mp h₃
  refine ⟨.connect h n o d, ?_, ?_⟩
  · rw [List.append_nil]
    rfl
  · simp [Tree.statement, Function.comp_def]

theorem connect_complete (n : Ident) (o : Options) (d : Option (As × Dotted)) :
    connect (n.token :: (o.yield ++ d.toList.flatMap fun d => d.1.token :: d.2.yield)) =
      .ok (.connect n.name o.ast (d.map fun d => .ofDotted d.2.ast), []) := by
  have hd := database_parses.complete_end d
  rw [connect, bind_of_ok _ (name_ident .connectorFormat n _),
    bind_of_ok _ (clause_parses.complete o (database_avoids d))]
  refine (bind_of_ok (fun d => pure (Statement.connect n.name o.ast (d.map Database.ofDotted))) hd).trans ?_
  simp [Function.comp_def]

theorem model_sound (a : ModelAction) (h : Token) (hh : h.kind = .keyword a.keyword) {w : List Token}
    {s : Statement} (hw : model a w = .ok (s, [])) : ∃ t : Tree, t.yield = h :: w ∧ t.statement ts = s := by
  obtain ⟨n, r₁, rfl, h₁⟩ := (name_parses .tableName).of_bind hw
  obtain ⟨l, r₂, rfl, h₂⟩ := (expect_parses .asAlgorithm (.keyword .as)).of_bind h₁
  obtain ⟨p, r₃, rfl, h₃⟩ := formatPath_parses.of_bind h₂
  obtain ⟨o, r₄, rfl, h₄⟩ := clause_parses.of_bind h₃
  obtain ⟨rfl, rfl⟩ := pure_eq_ok.mp h₄
  refine ⟨.model ⟨a, h, hh⟩ n l p o, ?_, rfl⟩
  rw [List.append_nil]
  rfl

theorem model_complete (a : ModelAction) (n : Ident) (l : As) (p : Path) (o : Options) :
    model a (n.token :: l.token :: (p.yield ++ o.yield)) = .ok (.model a n.name p.ast o.ast, []) := by
  rw [model, bind_of_ok _ (name_ident .tableName n _), keyword, bind_of_ok _ (expect_terminal .asAlgorithm l _),
    bind_of_ok _ (formatPath_parses.complete p (by simp [Avoids])), bind_of_ok _ (clause_parses.complete_end o)]
  rfl

theorem register_sound (h : Terminal [.keyword .register]) {w : List Token} {s : Statement}
    (hw : register w = .ok (s, [])) : ∃ t : Tree, t.yield = h.token :: w ∧ t.statement ts = s := by
  obtain ⟨p, r₁, rfl, h₁⟩ := formatPath_parses.of_bind hw
  obtain ⟨l, r₂, rfl, h₂⟩ := (expect_parses .asFunction (.keyword .as)).of_bind h₁
  obtain ⟨n, r₃, rfl, h₃⟩ := (name_parses .functionName).of_bind h₂
  obtain ⟨o, r₄, rfl, h₄⟩ := clause_parses.of_bind h₃
  obtain ⟨rfl, rfl⟩ := pure_eq_ok.mp h₄
  refine ⟨.register h p l n o, ?_, rfl⟩
  rw [List.append_nil]
  rfl

theorem register_complete (p : Path) (l : As) (n : Ident) (o : Options) :
    register (p.yield ++ l.token :: n.token :: o.yield) =
      .ok (.registration .register p.ast (some n.name) o.ast, []) := by
  rw [register, bind_of_ok _ (formatPath_parses.complete p (by simp [Avoids])), keyword,
    bind_of_ok _ (expect_terminal .asFunction l _), bind_of_ok _ (name_ident .functionName n _),
    bind_of_ok _ (clause_parses.complete_end o)]
  rfl

theorem unregister_sound (h : Terminal [.keyword .unregister]) {w : List Token} {s : Statement}
    (hw : unregister w = .ok (s, [])) : ∃ t : Tree, t.yield = h.token :: w ∧ t.statement ts = s := by
  obtain ⟨p, r₁, rfl, h₁⟩ := formatPath_parses.of_bind hw
  obtain ⟨o, r₂, rfl, h₂⟩ := clause_parses.of_bind h₁
  obtain ⟨rfl, rfl⟩ := pure_eq_ok.mp h₂
  refine ⟨.unregister h p o, ?_, rfl⟩
  rw [List.append_nil]
  rfl

theorem unregister_complete (p : Path) (o : Options) :
    unregister (p.yield ++ o.yield) = .ok (.registration .unregister p.ast none o.ast, []) := by
  rw [unregister, bind_of_ok _ (formatPath_parses.complete p (by simp [Avoids])),
    bind_of_ok _ (clause_parses.complete_end o)]
  rfl

theorem inclusion_sound (h : Terminal [.keyword .include]) {w : List Token} {s : Statement}
    (hw : inclusion w = .ok (s, [])) : ∃ t : Tree, t.yield = h.token :: w ∧ t.statement ts = s := by
  obtain ⟨p, r₁, rfl, h₁⟩ := formatPath_parses.of_bind hw
  obtain ⟨o, r₂, rfl, h₂⟩ := clause_parses.of_bind h₁
  obtain ⟨rfl, rfl⟩ := pure_eq_ok.mp h₂
  refine ⟨.inclusion h p o, ?_, rfl⟩
  rw [List.append_nil]
  rfl

theorem inclusion_complete (p : Path) (o : Options) :
    inclusion (p.yield ++ o.yield) = .ok (.inclusion p.ast o.ast, []) := by
  rw [inclusion, bind_of_ok _ (formatPath_parses.complete p (by simp [Avoids])),
    bind_of_ok _ (clause_parses.complete_end o)]
  rfl

end Rule

namespace Syntax

/-! ## Statements in parts -/

theorem form_sound (ts : List Token) {head : Token} {rule : Rule Statement}
    (hf : head.form? = some (.structured rule)) {w : List Token} {s : Statement} (hw : rule w = .ok (s, [])) :
    ∃ t : Tree, t.yield = head :: w ∧ t.statement ts = s := by
  unfold Token.form? at hf
  cases hk : head.kind with
  | keyword k =>
    rw [hk] at hf
    have hm : head.kind ∈ [Token.Kind.keyword k] := List.mem_singleton.mpr hk
    cases k <;> simp only [Keyword.form?, Option.some.injEq, Form.structured.injEq, reduceCtorEq] at hf
    case load => subst hf; exact Rule.load_sound ts ⟨head, hm⟩ hw
    case save => subst hf; exact Rule.save_sound ts ⟨head, hm⟩ hw
    case set => subst hf; exact Rule.setting_sound ts ⟨head, hm⟩ hw
    case connect => subst hf; exact Rule.connect_sound ts ⟨head, hm⟩ hw
    case train => subst hf; exact Rule.model_sound ts .train head hk hw
    case run => subst hf; exact Rule.model_sound ts .run head hk hw
    case register => subst hf; exact Rule.register_sound ts ⟨head, hm⟩ hw
    case unregister => subst hf; exact Rule.unregister_sound ts ⟨head, hm⟩ hw
    case «include» => subst hf; exact Rule.inclusion_sound ts ⟨head, hm⟩ hw
  | _ => rw [hk] at hf; cases hf

inductive Tree.HasForm (t : Tree) : Form → Prop
  | structured {rule : Rule Statement} (h : ∀ ts, rule t.rest = .ok (t.statement ts, [])) :
    HasForm t (.structured rule)
  | query {h : Terminal [.keyword .select]} {query : List Word} {link : As} {table : Ident}
    (ht : t = .select h query link table) : HasForm t .query
  | verbatim {h : Choice Verbatim fun k => .keyword k.keyword} {words : List Word} (ht : t = .verbatim h words) :
    HasForm t (.verbatim h.choice)

theorem Tree.hasForm (t : Tree) : ∃ form, t.head.form? = some form ∧ t.HasForm form := by
  have single {k : Keyword} (h : Terminal [.keyword k]) : h.token.form? = k.form? := by
    rw [Token.form?, List.mem_singleton.mp h.mem]
  cases t with
  | load h => exact ⟨_, single h, .structured fun _ => Rule.load_complete ..⟩
  | save h => exact ⟨_, single h, .structured fun _ => Rule.save_complete ..⟩
  | setting h => exact ⟨_, single h, .structured fun _ => Rule.setting_complete ..⟩
  | connect h => exact ⟨_, single h, .structured fun _ => Rule.connect_complete ..⟩
  | model h =>
    refine ⟨.structured (.model h.choice), ?_, .structured fun _ => Rule.model_complete ..⟩
    rw [Tree.head, Token.form?, h.kind_eq]
    cases h.choice <;> rfl
  | register h => exact ⟨_, single h, .structured fun _ => Rule.register_complete ..⟩
  | unregister h => exact ⟨_, single h, .structured fun _ => Rule.unregister_complete ..⟩
  | inclusion h => exact ⟨_, single h, .structured fun _ => Rule.inclusion_complete ..⟩
  | select h => exact ⟨_, single h, .query rfl⟩
  | verbatim h => exact ⟨_, Token.form?_verbatim.mpr h.kind_eq, .verbatim rfl⟩

/-! ## Statements kept as text -/

theorem exists_words : ∀ {w : List Token}, (∀ t ∈ w, t.isSignificant = true ∧ t.IsInner) →
    ∃ ws : List Word, ws.map Word.token = w
  | [], _ => ⟨[], rfl⟩
  | t :: w, h => by
    obtain ⟨ht, hi⟩ := h t List.mem_cons_self
    obtain ⟨ws, rfl⟩ := exists_words fun x hx => h x (List.mem_cons_of_mem _ hx)
    exact ⟨⟨t, ht, hi⟩ :: ws, rfl⟩

theorem resultName?_eq_some {t : Token} {n : Name} (hi : t.kind = .identifier → t.lexeme ≠ []) :
    t.resultName? = some n ↔ t.name? = some n := by
  unfold Token.resultName?
  split
  · next hv =>
    have hv := List.isEmpty_iff.mp hv
    constructor
    · intro h; cases h
    · intro h
      obtain ⟨hid | ⟨-, hne⟩, -⟩ := Rule.name?_eq_some.mp h
      · exact absurd (by simpa [Token.value, hid] using hv) (hi hid)
      · exact absurd hv hne
  · rfl

theorem selectStatement?_eq_some {ts : List Token} {s : Statement} (h : selectStatement? ts = some s) :
    ∃ (before : List Token) (stop : Token) (rest : List Token) (link name : Token),
      ts = before ++ stop :: rest ∧ stop.isSignificant = true ∧ Token.significant rest = [link, name] ∧
        link.kind = .keyword .as ∧ IsIdent name ∧
        s = .select (Token.text (before ++ [stop])) ⟨name.value, name.kind == .backquoted⟩ := by
  simp only [selectStatement?, Option.bind_eq_bind, Option.bind_eq_some_iff, Prod.exists] at h
  obtain ⟨front, last, hlast, table, htable, query, link, hlink, _, hguard, before, stop, hstop, hs⟩ := h
  obtain ⟨a₀, rfl, hl, ha₀⟩ := Token.splitLast?_eq_some hlast
  obtain ⟨a₁, rfl, hln, ha₁⟩ := Token.splitLast?_eq_some hlink
  obtain ⟨a₂, rfl, hst, ha₂⟩ := Token.splitLast?_eq_some hstop
  have has : link.kind = .keyword .as := by
    simpa [Token.isKeyword] using (Option.guard_eq_some' _).mp hguard
  have hname : last.name? = some table := by
    unfold Token.resultName? at htable
    split at htable
    · cases htable
    · exact htable
  obtain ⟨hid, rfl⟩ := Rule.name?_eq_some.mp hname
  refine ⟨before, stop, a₂ ++ link :: (a₁ ++ last :: a₀), link, last, ?_, hst, ?_, has, hid, ?_⟩
  · simp only [List.append_assoc, List.cons_append]
  · rw [Token.significant_append, ha₂, Token.significant_cons hln, Token.significant_append, ha₁,
      Token.significant_cons hl, ha₀]
    rfl
  · exact (Option.some.inj hs).symm

section
variable {ts rest : List Token} {head : Token} (hb : (ts.dropWhile fun t => !t.isSignificant) = head :: rest)
include hb

theorem head_significant : head.isSignificant = true := by
  have h := List.head_dropWhile_not (fun t : Token => !t.isSignificant) (l := ts) (by simp [hb])
  simpa [hb] using h

theorem significant_eq : Token.significant ts = head :: Token.significant rest := by
  rw [← Token.significant_dropWhile, hb, Token.significant_cons (head_significant hb)]

theorem sourceText_eq (n : Nat) : Token.sourceText n ts = Token.text (Token.takeSignificant n (head :: rest)) := by
  rw [Token.sourceText, hb]

theorem verbatim_statement (c : Choice Verbatim fun k => .keyword k.keyword) {ws : List Word}
    (hw : ws.map Word.token = Token.significant rest) :
    (Tree.verbatim c ws).statement ts = verbatimStatement c.choice (head :: rest) := by
  have hn : ws.length + 1 = (Token.significant (head :: rest)).length := by
    rw [Token.significant_cons (head_significant hb), ← hw, List.length_cons, List.length_map]
  rw [Tree.statement, sourceText_eq hb, hn, Token.takeSignificant_all]
  rfl

theorem select_statement (h : Terminal [.keyword .select]) (l : As) (n : Ident) {ws : List Word}
    {before after : List Token} {stop : Token} (hts : head :: rest = before ++ stop :: after)
    (hs : stop.isSignificant = true) (hw : h.token :: ws.map Word.token = Token.significant before ++ [stop]) :
    (Tree.select h ws l n).statement ts = .select (Token.text (before ++ [stop])) n.name := by
  have hn : ws.length + 1 = (Token.significant before).length + 1 := by
    simpa using congrArg List.length hw
  rw [Tree.statement, sourceText_eq hb, hn, hts, Token.takeSignificant_append hs]

theorem select_sound (hk : head.kind = .keyword .select) (hi : ∀ t ∈ head :: rest, t.IsInner) {s : Statement}
    (h : selectStatement? (head :: rest) = some s) :
    ∃ t : Tree, t.yield = Token.significant ts ∧ t.statement ts = s := by
  have hc := head_significant hb
  obtain ⟨before, stop, after, link, last, hts, hst, hafter, has, hid, rfl⟩ := selectStatement?_eq_some h
  have hsig : Token.significant (head :: rest) = Token.significant before ++ [stop, link, last] := by
    rw [hts, Token.significant_append, Token.significant_cons hst, hafter]
  -- the first of these tokens is the head, the others up to the link are the query
  obtain ⟨w, hw⟩ : ∃ w, Token.significant before ++ [stop] = head :: w := by
    rw [Token.significant_cons hc] at hsig
    cases hbf : Token.significant before with
    | nil => rw [hbf] at hsig; exact ⟨[], by rw [(List.cons.inj hsig).1]; rfl⟩
    | cons x xs => rw [hbf] at hsig; exact ⟨xs ++ [stop], by rw [(List.cons.inj hsig).1]; rfl⟩
  have hmem : ∀ t ∈ w, t.isSignificant = true ∧ t.IsInner := by
    intro t ht
    have ht : t ∈ Token.significant (head :: rest) := by
      rw [hsig, show [stop, link, last] = [stop] ++ [link, last] from rfl, ← List.append_assoc, hw]
      simp [ht]
    have := List.mem_filter.mp ht
    exact ⟨this.2, hi t this.1⟩
  obtain ⟨ws, rfl⟩ := exists_words hmem
  refine ⟨.select ⟨head, List.mem_singleton.mpr hk⟩ ws ⟨link, List.mem_singleton.mpr has⟩ ⟨last, hid⟩, ?_, ?_⟩
  · have hy : Token.significant before ++ [stop, link, last] = head :: ws.map Word.token ++ [link, last] := by
      rw [← hw, List.append_assoc]
      rfl
    rw [significant_eq hb, ← Token.significant_cons hc, hsig, hy]
    rfl
  · rw [select_statement hb _ _ _ (by simpa [List.append_assoc] using hts) hst hw.symm]
    rfl

theorem select_complete (hn : ∀ t ∈ ts, t.kind = .identifier → t.lexeme ≠ []) (h : Terminal [.keyword .select])
    (ws : List Word) (l : As) (n : Ident) (hy : (Tree.select h ws l n).yield = Token.significant ts) :
    selectStatement? (head :: rest) = some ((Tree.select h ws l n).statement ts) := by
  have hsig : Token.significant (head :: rest) = (h.token :: ws.map Word.token ++ [l.token]) ++ [n.token] := by
    rw [Token.significant_cons (head_significant hb), ← significant_eq hb, ← hy]
    simp [Tree.yield, Tree.head, Tree.rest]
  obtain ⟨front, a₀, hts, hl, hfront, ha₀⟩ := Token.exists_last hsig
  obtain ⟨query, a₁, rfl, hln, hquery, ha₁⟩ := Token.exists_last hfront
  obtain ⟨w, stop, hw⟩ : ∃ w stop, h.token :: ws.map Word.token = w ++ [stop] :=
    ⟨_, _, (List.dropLast_concat_getLast (List.cons_ne_nil _ _)).symm⟩
  obtain ⟨before, a₂, rfl, hst, hbefore, ha₂⟩ := Token.exists_last (hquery.trans hw)
  have hmem : n.token ∈ ts := by
    have : n.token ∈ Token.significant ts := by simp [← hy, Tree.yield, Tree.rest]
    exact (List.mem_filter.mp this).1
  have htable : n.token.resultName? = some n.name :=
    (resultName?_eq_some (hn _ hmem)).mpr (Rule.name?_eq_some.mpr ⟨n.isIdent, rfl⟩)
  have hlink : l.token.isKeyword .as = true := by simp [Token.isKeyword, List.mem_singleton.mp l.mem]
  rw [select_statement hb h l n (by simpa [List.append_assoc] using hts) hst (by rw [hbefore, hw])]
  simp only [selectStatement?, Option.bind_eq_bind]
  rw [hts, Token.splitLast?_append hl ha₀, Option.bind_some, htable, Option.bind_some,
    Token.splitLast?_append hln ha₁, Option.bind_some, Token.splitLast?_append hst ha₂]
  rw [(Option.guard_eq_some' ()).mpr hlink]
  rfl

/-! ## Any statement -/

theorem verbatim_sound {k : Verbatim} (hk : head.kind = .keyword k.keyword) (hi : ∀ t ∈ head :: rest, t.IsInner) :
    ∃ t : Tree, t.yield = Token.significant ts ∧ t.statement ts = verbatimStatement k (head :: rest) := by
  have hmem : ∀ t ∈ Token.significant rest, t.isSignificant = true ∧ t.IsInner := fun t ht =>
    ⟨(List.mem_filter.mp ht).2, hi t (List.mem_cons_of_mem _ (List.mem_filter.mp ht).1)⟩
  obtain ⟨ws, hw⟩ := exists_words hmem
  refine ⟨.verbatim ⟨k, head, hk⟩ ws, ?_, verbatim_statement hb _ hw⟩
  rw [significant_eq hb, ← hw]
  rfl

theorem structured_sound {rule : Rule Statement} (hf : head.form? = some (.structured rule)) {s : Statement}
    (h : rule.complete (Token.significant rest) = .ok s) :
    ∃ t : Tree, t.yield = Token.significant ts ∧ t.statement ts = s := by
  rw [significant_eq hb]
  exact form_sound ts hf (Rule.complete_eq_ok.mp h)

end

/-- The tokens of one segment, as far as a lexer promises them. -/
structure Piece (ts : List Token) : Prop where
  inner : ∀ t ∈ ts, t.IsInner
  named : ∀ t ∈ ts, t.kind = .identifier → t.lexeme ≠ []

theorem readStatement_sound {ts rest : List Token} {head : Token} (hp : Piece ts)
    (hb : (ts.dropWhile fun t => !t.isSignificant) = head :: rest) {s : Statement}
    (h : readStatement head rest = .ok s) : ∃ t : Tree, t.yield = Token.significant ts ∧ t.statement ts = s := by
  have hi : ∀ t ∈ head :: rest, t.IsInner := fun t ht =>
    hp.inner t ((List.dropWhile_sublist fun t : Token => !t.isSignificant).mem (hb ▸ ht))
  unfold readStatement at h
  split at h
  · cases h
  · next rule hf => exact structured_sound hb hf h
  · next k hf =>
    obtain rfl := Except.ok.inj h
    exact verbatim_sound hb (Token.form?_verbatim.mp hf) hi
  · next hf =>
    split at h
    · next s' hs =>
      obtain rfl := Except.ok.inj h
      exact select_sound hb (Token.form?_query.mp hf) hi hs
    · cases h

theorem readStatement_complete {ts rest : List Token} {head : Token} (hp : Piece ts)
    (hb : (ts.dropWhile fun t => !t.isSignificant) = head :: rest) {t : Tree}
    (hy : t.yield = Token.significant ts) : readStatement head rest = .ok (t.statement ts) := by
  obtain ⟨hh, hr⟩ := List.cons.inj (hy.trans (significant_eq hb))
  obtain ⟨form, hf, hform⟩ := t.hasForm
  rw [hh] at hf
  cases hform with
  | structured h =>
    rw [readStatement, hf]
    exact Rule.complete_eq_ok.mpr (hr ▸ h ts)
  | query ht =>
    subst ht
    rw [readStatement, hf, select_complete hb hp.named _ _ _ _ hy]
  | verbatim ht =>
    subst ht
    rw [readStatement, hf, verbatim_statement hb _ hr]

theorem readStatement_eq_ok {ts rest : List Token} {head : Token} (hp : Piece ts)
    (hb : (ts.dropWhile fun t => !t.isSignificant) = head :: rest) {s : Statement} :
    readStatement head rest = .ok s ↔ ∃ t : Tree, t.yield = Token.significant ts ∧ t.statement ts = s := by
  constructor
  · exact readStatement_sound hp hb
  · rintro ⟨t, hy, rfl⟩
    exact readStatement_complete hp hb hy

end Syntax

end PipelineScript
