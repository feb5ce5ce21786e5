import PipelineScript.Proofs.Reading.Ordered
import PipelineScript.Proofs.Rendering.Lexed
import PipelineScript.Proofs.Rendering.RoundTrip
import PipelineScript.Proofs.Syntax.Acceptance

/-!
# Scripts that come from a text

They are readable and normal. Main statement: `parse_render_parse_iff`.
-/

namespace PipelineScript

open Syntax

/-! ## Query text cut out of a source text -/

theorem scan_quote {c : Char} {t : Text} (hc : c = '\x27' ∨ c = '\x60') :
    (scan c t).1 ∈ [Token.Kind.string, .blockString, .backquoted, .unrecognized] := by
  have hm := makes_scan c t
  rcases hc with rfl | rfl
  · by_cases hq : t.take 2 = ['\x27', '\x27']
    · have ho : opening '\x27' t = .block := by simp [opening, Text.isBlank, Text.blankRanges, hq]
      rw [ho] at hm
      rcases hm with hm | hm <;> simp [hm]
    · have ho : opening '\x27' t = .quote := by simp [opening, Text.isBlank, Text.blankRanges, hq]
      rw [ho] at hm
      rcases hm with hm | hm <;> simp [hm]
  · rw [opening_backquote] at hm
    rcases hm with hm | hm <;> simp [hm]

theorem head_text_ne {p : Position} {s : Text} {ts us : List Token} {x : Token} (h : tokensAt p s = ts ++ x :: us)
    (hx : x.kind ∉ [Token.Kind.string, .blockString, .backquoted, .unrecognized]) :
    (Token.text (x :: us)).head? ≠ some '\x27' ∧ (Token.text (x :: us)).head? ≠ some '\x60' := by
  have hs := tokensAt_suffix h (List.cons_ne_nil x us)
  cases ht : Token.text (x :: us) with
  | nil => exact ⟨nofun, nofun⟩
  | cons c t =>
    rw [ht, tokensAt_cons] at hs
    rw [← (List.cons.inj hs).1] at hx
    constructor <;> (intro hc; obtain rfl := Option.some.inj hc; exact hx (scan_quote (by simp)))

theorem isQuery_text {p : Position} {s : Text} {pre ts us : List Token} {x head : Token} {others : List Token}
    {k : Keyword} (h : tokensAt p s = pre ++ (ts ++ x :: us))
    (hx : x.kind ∉ [Token.Kind.string, .blockString, .backquoted, .unrecognized]) (hts : ts = head :: others)
    (hk : head.kind = .keyword k) (hi : ∀ t ∈ ts, t.IsInner)
    (hl : ∀ t, ts.getLast? = some t → t.isSignificant = true) : IsQuery k (Token.text ts) := by
  have hne : ts ++ x :: us ≠ [] := by simp
  obtain ⟨hq, hb⟩ := head_text_ne (by rw [h, List.append_assoc]) hx
  have hwithin := tokensWithin_text (tokensAt_suffix h hne) (List.cons_ne_nil x us) hq hb
  subst hts
  exact isQuery_of_tokensWithin hwithin hk hi hl

theorem exists_follower {after : List Token} {terminator : Token} (post : List Token) (ht : ¬ terminator.IsInner)
    (ha : ∀ a, (Token.significant after).head? = some a → ∃ k, a.kind = .keyword k) :
    ∃ x us, after ++ terminator :: post = x :: us ∧
      x.kind ∉ [Token.Kind.string, .blockString, .backquoted, .unrecognized] := by
  cases after with
  | nil =>
    refine ⟨terminator, post, rfl, fun hm => ht ?_⟩
    simp only [List.mem_cons, List.not_mem_nil, or_false] at hm
    constructor <;> (intro hk; rw [hk] at hm; simp at hm)
  | cons a after =>
    refine ⟨a, after ++ terminator :: post, rfl, ?_⟩
    cases hs : a.isSignificant with
    | true =>
      obtain ⟨k, hk⟩ := ha a (by rw [Token.significant_cons hs]; rfl)
      simp [hk]
    | false =>
      -- trivia is of none of these kinds
      intro hm
      simp only [List.mem_cons, List.not_mem_nil, or_false] at hm
      rw [Token.isSignificant] at hs
      rcases hm with hk | hk | hk | hk <;> (rw [hk] at hs; cases hs)

/-! ## Statements of each form -/

def Syntax.Tree.IsSettled (ts : List Token) (t : Tree) : Prop :=
  (t.statement ts).IsReadable ∧ (t.statement ts).normal = t.statement ts

section
variable {ts : List Token} {o : Options} {l : As}

theorem settled_load {h : Terminal [.keyword .load]} {p : Path} {i : Ident}
    (hlex : ∀ x ∈ (Tree.load h p o l i).rest, x.IsLexed) : (Tree.load h p o l i).IsSettled ts := by
  simp only [Tree.rest, List.forall_mem_append, List.forall_mem_cons] at hlex
  obtain ⟨hp, ho, -, hi, -⟩ := hlex
  obtain ⟨hp, hp'⟩ := Path.readable hp
  obtain ⟨ho, ho'⟩ := Options.readable ho
  obtain ⟨hi, hi'⟩ := Ident.readable hi
  exact ⟨⟨hp, ho, hi⟩, by rw [Tree.statement, Statement.normal, hp', ho', hi']⟩

theorem settled_save {h : Terminal [.keyword .save]} {modes : List (Choice WriteMode fun m => .keyword m.keyword)}
    {i : Ident} {p : Path} {c : Option (Terminal [.keyword .partitionBy, .keyword .as] × Ident)}
    (hlex : ∀ x ∈ (Tree.save h modes i l p o c).rest, x.IsLexed) : (Tree.save h modes i l p o c).IsSettled ts := by
  simp only [Tree.rest, List.forall_mem_append, List.forall_mem_cons] at hlex
  obtain ⟨-, hi, -, hp, ho, hc⟩ := hlex
  obtain ⟨hi, hi'⟩ := Ident.readable hi
  obtain ⟨hp, hp'⟩ := Path.readable hp
  obtain ⟨ho, ho'⟩ := Options.readable ho
  cases c with
  | none => exact ⟨⟨hi, hp, ho, by simp⟩, by rw [Tree.statement, Statement.normal, hi', hp', ho']; rfl⟩
  | some c =>
    obtain ⟨hc, hc'⟩ := Ident.readable (i := c.2) (hc _ (by simp))
    refine ⟨⟨hi, hp, ho, fun n hn => ?_⟩, ?_⟩
    · obtain rfl := Option.some.inj hn
      exact hc
    · rw [Tree.statement, Statement.normal, hi', hp', ho', Option.map_some, Option.map_some, hc']

theorem settled_select {h : Terminal [.keyword .select]} {ws : List Word} {i : Ident}
    (hlex : ∀ x ∈ (Tree.select h ws l i).rest, x.IsLexed) (hq : IsQuery .select (Token.sourceText (ws.length + 1) ts)) :
    (Tree.select h ws l i).IsSettled ts := by
  simp only [Tree.rest, List.forall_mem_append, List.forall_mem_cons] at hlex
  obtain ⟨-, -, hi, -⟩ := hlex
  obtain ⟨hi, hi'⟩ := Ident.readable hi
  exact ⟨⟨hq, hi⟩, by rw [Tree.statement, Statement.normal, hi']⟩

theorem settled_setting {h : Terminal [.keyword .set]} {k : Dotted} {e : Terminal [.equals]} {v : Value}
    (hlex : ∀ x ∈ (Tree.setting h k e v o).rest, x.IsLexed) : (Tree.setting h k e v o).IsSettled ts := by
  simp only [Tree.rest, List.forall_mem_append, List.forall_mem_cons] at hlex
  obtain ⟨hk, -, hv, ho⟩ := hlex
  obtain ⟨hk, hk'⟩ := Dotted.readable hk
  obtain ⟨hv, hv'⟩ := Value.readable hv
  obtain ⟨ho, ho'⟩ := Options.readable ho
  exact ⟨⟨hk, hv, ho⟩, by rw [Tree.statement, Statement.normal, hk', hv', ho']⟩

theorem settled_connect {h : Terminal [.keyword .connect]} {i : Ident} {d : Option (As × Dotted)}
    (hlex : ∀ x ∈ (Tree.connect h i o d).rest, x.IsLexed) : (Tree.connect h i o d).IsSettled ts := by
  simp only [Tree.rest, List.forall_mem_append, List.forall_mem_cons] at hlex
  obtain ⟨hi, ho, hd⟩ := hlex
  obtain ⟨hi, hi'⟩ := Ident.readable hi
  obtain ⟨ho, ho'⟩ := Options.readable ho
  cases d with
  | none => exact ⟨⟨hi, ho, by simp⟩, by rw [Tree.statement, Statement.normal, hi', ho']; rfl⟩
  | some d =>
    obtain ⟨hd, hd'⟩ := Dotted.readable_database (d := d.2) fun x hx => hd x (by simp [hx])
    refine ⟨⟨hi, ho, fun n hn => ?_⟩, ?_⟩
    · obtain rfl := Option.some.inj hn
      exact hd
    · rw [Tree.statement, Statement.normal, hi', ho', Option.map_some, Option.map_some, hd']

theorem settled_model {h : Choice ModelAction fun a => .keyword a.keyword} {i : Ident} {p : Path}
    (hlex : ∀ x ∈ (Tree.model h i l p o).rest, x.IsLexed) : (Tree.model h i l p o).IsSettled ts := by
  simp only [Tree.rest, List.forall_mem_append, List.forall_mem_cons] at hlex
  obtain ⟨hi, -, hp, ho⟩ := hlex
  obtain ⟨hi, hi'⟩ := Ident.readable hi
  obtain ⟨hp, hp'⟩ := Path.readable hp
  obtain ⟨ho, ho'⟩ := Options.readable ho
  exact ⟨⟨hi, hp, ho⟩, by rw [Tree.statement, Statement.normal, hi', hp', ho']⟩

theorem settled_register {h : Terminal [.keyword .register]} {p : Path} {i : Ident}
    (hlex : ∀ x ∈ (Tree.register h p l i o).rest, x.IsLexed) : (Tree.register h p l i o).IsSettled ts := by
  simp only [Tree.rest, List.forall_mem_append, List.forall_mem_cons] at hlex
  obtain ⟨hp, -, hi, ho⟩ := hlex
  obtain ⟨hp, hp'⟩ := Path.readable hp
  obtain ⟨hi, hi'⟩ := Ident.readable hi
  obtain ⟨ho, ho'⟩ := Options.readable ho
  refine ⟨⟨hp, ho, fun _ => ⟨_, rfl, hi⟩⟩, ?_⟩
  rw [Tree.statement, Statement.normal, hp', ho', Option.map_some, hi']

theorem settled_unregister {h : Terminal [.keyword .unregister]} {p : Path}
    (hlex : ∀ x ∈ (Tree.unregister h p o).rest, x.IsLexed) : (Tree.unregister h p o).IsSettled ts := by
  simp only [Tree.rest, List.forall_mem_append] at hlex
  obtain ⟨hp, hp'⟩ := Path.readable hlex.1
  obtain ⟨ho, ho'⟩ := Options.readable hlex.2
  exact ⟨⟨hp, ho, by simp⟩, by rw [Tree.statement, Statement.normal, hp', ho']⟩

theorem settled_inclusion {h : Terminal [.keyword .include]} {p : Path}
    (hlex : ∀ x ∈ (Tree.inclusion h p o).rest, x.IsLexed) : (Tree.inclusion h p o).IsSettled ts := by
  simp only [Tree.rest, List.forall_mem_append] at hlex
  obtain ⟨hp, hp'⟩ := Path.readable hlex.1
  obtain ⟨ho, ho'⟩ := Options.readable hlex.2
  exact ⟨⟨hp, ho⟩, by rw [Tree.statement, Statement.normal, hp', ho']⟩

end

section
variable {source : Text} {s : Segment} (hs : s ∈ Segment.ofTokens (tokenize source))
include hs

theorem isQuery_of_segment {head : Token} {rest before after : List Token} {stop : Token} {k : Keyword}
    (hb : s.body = head :: rest) (hk : head.kind = .keyword k) (hsplit : head :: rest = before ++ stop :: after)
    (hstop : stop.isSignificant = true)
    (ha : ∀ a, (Token.significant after).head? = some a → ∃ k, a.kind = .keyword k) :
    IsQuery k (Token.text (before ++ [stop])) := by
  have hc := Segment.cuts_tokenize source
  obtain ⟨pre, post, hctx⟩ := Segment.exists_context hs
  obtain ⟨x, us, hx, hxk⟩ := exists_follower post (hc.ended s hs) ha
  have htokens : s.tokens = s.lead ++ (before ++ [stop] ++ after) := by
    rw [← s.lead_append_body, hb, hsplit]
    simp
  have htok : tokensAt .start source = (pre ++ s.lead) ++ ((before ++ [stop]) ++ x :: us) := by
    rw [← hx, ← tokenize, hctx, htokens]
    simp
  obtain ⟨others, hothers⟩ : ∃ others, before ++ [stop] = head :: others := by
    cases before with
    | nil => exact ⟨[], by rw [(List.cons.inj hsplit).1]; rfl⟩
    | cons y ys => exact ⟨ys ++ [stop], by rw [(List.cons.inj hsplit).1]; rfl⟩
  refine isQuery_text htok hxk hothers hk (fun t ht => hc.inner s hs t ?_) fun t ht => ?_
  · rw [htokens]
    exact List.mem_append_right _ (List.mem_append_left _ ht)
  · rw [List.getLast?_concat] at ht
    obtain rfl := Option.some.inj ht
    exact hstop

/-! ## Statements of one segment -/

theorem isQuery_of_tree {t : Tree} (ht : t.yield = Token.significant s.tokens) {q : Query}
    (hq : (t.statement s.tokens).query? = some q) : IsQuery q.head q.text := by
  obtain ⟨head, rest, hb⟩ : ∃ head rest, s.body = head :: rest := by
    cases hb : s.body with
    | nil => rw [Segment.body_eq_nil hb] at ht; cases ht
    | cons head rest => exact ⟨head, rest, rfl⟩
  have hsig : Token.significant (head :: rest) = t.yield := by
    rw [ht, ← Token.significant_dropWhile s.tokens, ← hb]
    rfl
  have hhead : t.head = head := (List.cons.inj (ht.trans (significant_eq hb))).1
  cases t with
  | select h ws l i =>
    have hk : head.kind = .keyword .select := hhead ▸ List.mem_singleton.mp h.mem
    obtain ⟨w, stop, hw⟩ : ∃ w stop, h.token :: ws.map Word.token = w ++ [stop] :=
      ⟨_, _, (List.dropLast_concat_getLast (List.cons_ne_nil _ _)).symm⟩
    have hyield : Token.significant (head :: rest) = w ++ stop :: [l.token, i.token] := by
      rw [hsig, List.append_cons w, ← hw]
      rfl
    obtain ⟨before, after, hsplit, hstop, hbefore, hafter⟩ := Token.exists_split hyield
    rw [select_statement hb h l i hsplit hstop (by rw [hbefore, hw])] at hq
    obtain rfl := Option.some.inj hq
    refine isQuery_of_segment hs hb hk hsplit hstop fun a ha => ?_
    rw [hafter] at ha
    exact ⟨.as, Option.some.inj ha ▸ List.mem_singleton.mp l.mem⟩
  | verbatim c ws =>
    have hk : head.kind = .keyword c.choice.keyword := hhead ▸ c.kind_eq
    obtain ⟨w, stop, hw⟩ : ∃ w stop, c.token :: ws.map Word.token = w ++ [stop] :=
      ⟨_, _, (List.dropLast_concat_getLast (List.cons_ne_nil _ _)).symm⟩
    obtain ⟨before, after, hsplit, hstop, -, hafter⟩ := Token.exists_split (hsig.trans hw)
    have hws : ws.map Word.token = Token.significant rest :=
      (List.cons.inj (ht.trans (significant_eq hb))).2
    rw [verbatim_statement hb c hws, verbatimStatement, hsplit, Token.trimEnd,
      Token.splitLast?_append hstop hafter] at hq
    obtain rfl := Option.some.inj hq
    refine isQuery_of_segment hs hb hk hsplit hstop fun a ha => ?_
    rw [hafter] at ha
    cases ha
  | _ => cases hq

theorem isLexed_of_segment {t : Token} (ht : t ∈ s.tokens) : t.IsLexed :=
  isLexed_of_mem (Segment.mem_tokenize hs ht)

theorem readable_of_tree {t : Tree} (ht : t.yield = Token.significant s.tokens) : t.IsSettled s.tokens := by
  have hlex : ∀ x ∈ t.rest, x.IsLexed := fun x hx => by
    have hx : x ∈ Token.significant s.tokens := ht ▸ List.mem_cons_of_mem t.head hx
    exact isLexed_of_segment hs (List.mem_filter.mp hx).1
  have hq := fun q => isQuery_of_tree hs ht (q := q)
  cases t with
  | load => exact settled_load hlex
  | save => exact settled_save hlex
  | select => exact settled_select hlex (hq _ rfl)
  | verbatim => exact ⟨hq _ rfl, rfl⟩
  | setting => exact settled_setting hlex
  | connect => exact settled_connect hlex
  | model => exact settled_model hlex
  | register => exact settled_register hlex
  | unregister => exact settled_unregister hlex
  | inclusion => exact settled_inclusion hlex

theorem readable_of_comments {ts : List Token} (hts : ∀ t ∈ ts, t ∈ s.tokens) {o : Outcome}
    (ho : o ∈ Outcome.comments ts) {l : Position × Statement} (hl : o.located? = some l) :
    l.2.IsReadable ∧ l.2.normal = l.2 := by
  obtain ⟨t, ht, rfl⟩ := List.mem_map.mp ho
  obtain ⟨hm, hk⟩ := List.mem_filter.mp ht
  obtain rfl := Option.some.inj hl
  exact ⟨(isLexed_of_segment hs (hts t hm)).line_comment (by simpa using hk), rfl⟩

theorem readable_of_report {o : Outcome} (ho : o ∈ s.report) {l : Position × Statement} (hl : o.located? = some l) :
    l.2.IsReadable ∧ l.2.normal = l.2 := by
  have hlead : ∀ t ∈ s.lead, t ∈ s.tokens := fun t ht => (List.takeWhile_sublist _).mem ht
  have htail : ∀ t ∈ s.tail, t ∈ s.tokens := fun t ht => by
    unfold Segment.tail at ht
    split at ht
    · cases ht
    · exact List.mem_of_mem_drop ht
  unfold Segment.report Segment.content at ho
  cases hb : s.body with
  | nil =>
    rw [hb] at ho
    exact readable_of_comments hs hlead ho hl
  | cons head rest =>
    cases hr : readStatement head rest with
    | ok st =>
      simp only [hb, hr] at ho
      rcases List.mem_append.mp ho with ho | ho
      · exact readable_of_comments hs hlead ho hl
      · rcases List.mem_cons.mp ho with rfl | ho
        · obtain rfl := Option.some.inj hl
          obtain ⟨t, hy, rfl⟩ := readStatement_sound (Segment.piece_tokenize hs) hb hr
          exact readable_of_tree hs hy
        · exact readable_of_comments hs htail ho hl
    | error f =>
      simp only [hb, hr] at ho
      rcases List.mem_append.mp ho with ho | ho
      · exact readable_of_comments hs hlead ho hl
      · obtain rfl := List.mem_singleton.mp ho
        cases hl

end

/-! ## The law of reading back -/

theorem readable_of_parseWith {settings : Settings} {source : Text} {x : Statement}
    (hx : x ∈ (parseWith settings source).script.statements) : x.IsReadable ∧ x.normal = x := by
  obtain ⟨read, rest, hss, hread⟩ := exists_parseTokens settings (tokenize source)
  rw [parseWith, located_parseTokens hread] at hx
  obtain ⟨l, hl, rfl⟩ := List.mem_map.mp hx
  obtain ⟨s, hs, hls⟩ := List.mem_flatMap.mp hl
  obtain ⟨o, ho, hlo⟩ := List.mem_filterMap.mp hls
  exact readable_of_report (hss ▸ List.mem_append_left rest hs) (List.mem_filter.mp ho).1 hlo

theorem parse_render_parse_iff (source : Text) :
    ((parse (parse source).script.render).diagnostics = [] ∧
        (parse (parse source).script.render).script.statements = (parse source).script.statements) ↔
      StayOpen (parse source).script.statements := by
  have hx : ∀ x ∈ (parse source).script.statements, x.IsReadable ∧ x.normal = x := fun x => readable_of_parseWith
  have hnormal : (parse source).script.statements.map Statement.normal = (parse source).script.statements :=
    (List.map_congr_left fun x hm => (hx x hm).2).trans (List.map_id _)
  rw [← readsBack_iff fun x hm => (hx x hm).1, hnormal]

/-- The quote in the query is closed by the one that the option value is written with. -/
theorem parse_render_parse_takes_in :
    let source := "insert \" ; load a.b where k='v' as t;".toList
    ¬ ((parse (parse source).script.render).diagnostics = [] ∧
      (parse (parse source).script.render).script.statements = (parse source).script.statements) := by
  decide +kernel

end PipelineScript
