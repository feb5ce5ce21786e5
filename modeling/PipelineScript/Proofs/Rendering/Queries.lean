import PipelineScript.Proofs.Rendering.Statements

/-!
# Written query text

Query text is read back as the same text if what is unrecognized in it stays so;
otherwise a literal or a comment reaches past its end.
-/

namespace PipelineScript

open Syntax

theorem kinds_tokensWithin (p q : Position) (t : Text) :
    (tokensWithin p t).map Token.kind = (tokensWithin q t).map Token.kind := by
  fun_induction tokensWithin p t generalizing q with
  | case1 p => rw [tokensWithin_nil]
  | case2 p c t ih =>
    rw [tokensWithin_cons, List.map_cons, List.map_cons, ih]
    rfl

theorem exists_same_kind {ts us : List Token} (hk : ts.map Token.kind = us.map Token.kind) {t : Token} (ht : t ∈ ts) :
    ∃ u ∈ us, u.kind = t.kind := by
  have hm : t.kind ∈ us.map Token.kind := hk ▸ List.mem_map_of_mem ht
  exact List.mem_map.mp hm

theorem significant_last_of_kinds {ts us : List Token} (hk : ts.map Token.kind = us.map Token.kind)
    (hu : ∀ u, us.getLast? = some u → u.isSignificant = true) {t : Token} (ht : ts.getLast? = some t) :
    t.isSignificant = true := by
  have hm : (us.map Token.kind).getLast? = some t.kind := by
    rw [← hk, List.getLast?_map, ht]
    rfl
  rw [List.getLast?_map] at hm
  obtain ⟨u, hlast, huk⟩ := Option.map_eq_some_iff.mp hm
  have hs := hu u hlast
  rw [Token.isSignificant] at hs ⊢
  rwa [← huk]

namespace IsQuery

variable {k : Keyword} {query : Text} (h : IsQuery k query) (p : Position)
include h

theorem exists_head : ∃ head rest, tokensWithin p query = head :: rest ∧ head.kind = .keyword k := by
  have hk := h.head
  rw [tokenize, tokensAt_eq_append, ← List.head?_map, List.map_append, kinds_tokensWithin .start p] at hk
  cases ht : tokensWithin p query with
  | nil => rw [ht] at hk; cases hk
  | cons head rest => rw [ht] at hk; exact ⟨head, rest, rfl, Option.some.inj hk⟩

omit p in
theorem exists_head_of_append {p : Position} {ts us : List Token} {t : Token}
    (ht : tokensWithin p query = ts ++ t :: us) (hk : t.kind ≠ .keyword k) :
    ∃ head others, ts = head :: others ∧ head.kind = .keyword k := by
  obtain ⟨head, others, hts, hhead⟩ := h.exists_head p
  rw [ht] at hts
  cases ts with
  | nil => exact absurd ((List.cons.inj hts).1 ▸ hhead) hk
  | cons x ts => exact ⟨x, ts, rfl, (List.cons.inj hts).1 ▸ hhead⟩

theorem inner : ∀ t ∈ tokensWithin p query, t.IsInner := by
  intro t ht
  refine ⟨fun hk => ?_, (mem_tokensWithin ht).1⟩
  obtain ⟨u, hu, huk⟩ := exists_same_kind (kinds_tokensWithin p .start query) ht
  refine h.undivided u ?_ (huk.trans hk)
  rw [tokenize, tokensAt_eq_append]
  exact List.mem_append_left _ hu

theorem significant_last {t : Token} (ht : (tokensWithin p query).getLast? = some t) : t.isSignificant = true := by
  refine significant_last_of_kinds (kinds_tokensWithin p .start query) (fun u hu => h.last u ?_) ht
  rw [dropLast_tokenize]
  exact hu

theorem exists_last : ∃ before stop, tokensWithin p query = before ++ [stop] ∧ stop.isSignificant = true := by
  obtain ⟨head, rest, ht, -⟩ := h.exists_head p
  have hne : tokensWithin p query ≠ [] := by rw [ht]; exact List.cons_ne_nil _ _
  refine ⟨_, _, (List.dropLast_concat_getLast hne).symm, ?_⟩
  exact h.significant_last p (List.getLast?_eq_some_getLast hne)

theorem solid : Solid query := by
  obtain ⟨head, others, ht, hk⟩ := h.exists_head .start
  cases query with
  | nil => rw [tokensWithin_nil] at ht; cases ht
  | cons c t =>
    refine ⟨c, t, rfl, ?_⟩
    rw [tokensWithin_cons] at ht
    have hs : (scan c t).1 = .keyword k := by
      rw [← hk, ← (List.cons.inj ht).1]
      rfl
    cases hb : Text.isBlank c with
    | false => rfl
    | true =>
      have hm := makes_scan c t
      rw [opening_blank hb, hs] at hm
      cases hm

end IsQuery

theorem isQuery_of_tokensWithin {k : Keyword} {query : Text} {p : Position} {head : Token} {others : List Token}
    (ht : tokensWithin p query = head :: others) (hk : head.kind = .keyword k)
    (hi : ∀ t ∈ head :: others, t.IsInner)
    (hl : ∀ t, (head :: others).getLast? = some t → t.isSignificant = true) : IsQuery k query := by
  have hkinds := kinds_tokensWithin .start p query
  rw [ht] at hkinds
  refine ⟨?_, fun t hm hs => ?_, fun t hlast => ?_⟩
  · obtain ⟨x, xs, hx, hxk, -⟩ := List.map_eq_cons_iff.mp hkinds
    rw [tokenize, tokensAt_eq_append, hx]
    exact congrArg some (hxk.trans hk)
  · rw [tokenize, tokensAt_eq_append] at hm
    rcases List.mem_append.mp hm with hm | hm
    · obtain ⟨u, hu, huk⟩ := exists_same_kind hkinds hm
      exact (hi u hu).1 (huk.trans hs)
    · obtain rfl := List.mem_singleton.mp hm
      cases hs
  · rw [dropLast_tokenize] at hlast
    exact significant_last_of_kinds hkinds hl hlast

/-! ## Reading back one statement -/

/-- With `rest` behind it, the written statement is a run of tokens that one tree derives. -/
def Statement.ReadsBack (s : Statement) (rest : Text) : Prop :=
  ∀ p, ∃ head others, tokensAt p (s.render ++ rest) = head :: others ++ tokensAt (p.past s.render) rest ∧
    head.isSignificant = true ∧ (∀ t ∈ head :: others, t.IsInner) ∧
    ∃ t : Tree, t.yield = Token.significant (head :: others) ∧ t.statement (head :: others) = s.normal

namespace Statement

theorem isSignificant_of_word {c : Char} (hc : Text.isWordChar c = true) (p : Position) (t : Text) :
    (firstToken p c t).isSignificant = true := by
  have hm := makes_scan c t
  rw [opening_word hc] at hm
  rw [Token.isSignificant, firstToken]
  rcases hm with ⟨k, hk⟩ | hk <;> (rw [hk]; rfl)

theorem readsBack_of_prints {s : Statement} {k : Keyword} {u rest : Text} (hk : s.render = word k ++ u)
    (h : Prints s.render rest (Derived s)) : s.ReadsBack rest := by
  intro p
  obtain ⟨ts, hts, hi, t, hy, hs⟩ := h p
  obtain ⟨c, v, hcv, hc, -⟩ := k.canonical_eq_cons
  cases ts with
  | nil => cases hy
  | cons head others =>
    refine ⟨head, others, hts, ?_, hi, t, hy.symm, hs _⟩
    rw [hk, hcv, List.cons_append, List.cons_append, tokensAt_cons] at hts
    rw [← (List.cons.inj hts).1]
    exact isSignificant_of_word hc p _

theorem dropWhile_of_significant {head : Token} (h : head.isSignificant = true) (rest : List Token) :
    ((head :: rest).dropWhile fun t => !t.isSignificant) = head :: rest := by
  simp [h]

theorem isSignificant_of_keyword {t : Token} {k : Keyword} (h : t.kind = .keyword k) : t.isSignificant = true := by
  rw [Token.isSignificant, h]
  rfl

theorem words_of_inner {ts : List Token} (h : ∀ t ∈ ts, t.IsInner) :
    ∃ ws : List Word, ws.map Word.token = Token.significant ts :=
  exists_words fun t ht => ⟨(List.mem_filter.mp ht).2, h t (List.mem_filter.mp ht).1⟩

theorem readsBack_verbatim {kind : Verbatim} {body rest : Text} (h : IsQuery kind.keyword body)
    (hr : Breaks rest) (hu : Undisturbed rest body) : (verbatim kind body).ReadsBack rest := by
  intro p
  have hin := h.inner p
  obtain ⟨head, others, hts, hk⟩ := h.exists_head p
  obtain ⟨before, stop, hlast, hstop⟩ := h.exists_last p
  have htok := tokensAt_append hr hu fun x hx => h.significant_last p hx
  have hhead := isSignificant_of_keyword hk
  rw [hts] at hin htok
  obtain ⟨ws, hws⟩ := words_of_inner fun t ht => hin t (List.mem_cons_of_mem head ht)
  refine ⟨head, others, htok, hhead, hin, .verbatim ⟨kind, head, hk⟩ ws, ?_, ?_⟩
  · rw [Token.significant_cons hhead, ← hws]
    rfl
  · rw [verbatim_statement (dropWhile_of_significant hhead others) _ hws, verbatimStatement, ← hts, hlast,
      Token.trimEnd, Token.splitLast?_append hstop rfl before]
    simp only
    rw [← hlast, text_tokensWithin]
    rfl

theorem readsBack_select {sql rest : Text} {table : Name} (h : IsQuery .select sql) (ht : table.IsReadable)
    (hr : Breaks rest) (hu : Undisturbed (asText ++ table.render ++ rest) sql) :
    (select sql table).ReadsBack rest := by
  intro p
  have hin := h.inner p
  obtain ⟨head, others, hts, hk⟩ := h.exists_head p
  obtain ⟨before, stop, hlast, hstop⟩ := h.exists_last p
  have hbreaks : Breaks (asText ++ table.render ++ rest) := by
    rw [List.append_assoc]
    exact breaks_asText _
  have htok := tokensAt_append hbreaks hu fun x hx => h.significant_last p hx
  have hhead := isSignificant_of_keyword hk
  rw [hts] at hin htok
  obtain ⟨us, hus, hi, l, _, hsig, i, rfl, hname⟩ := (Name.prints ht hr).linked (Name.solid_render ht) (p.past sql)
  obtain ⟨ws, hws⟩ := words_of_inner fun t hm => hin t (List.mem_cons_of_mem head hm)
  refine ⟨head, others ++ us, ?_, hhead, ?_, .select ⟨head, List.mem_singleton.mpr hk⟩ ws l i, ?_, ?_⟩
  · rw [render, List.append_assoc, List.append_assoc, ← List.append_assoc asText, htok, hus, ← List.append_assoc,
      ← Position.past_append, ← List.append_assoc sql]
    rfl
  · intro t hm
    rw [← List.cons_append] at hm
    rcases List.mem_append.mp hm with hm | hm
    · exact hin t hm
    · exact hi t hm
  · rw [Token.significant_cons hhead, Token.significant_append, ← hws, hsig]
    rfl
  · have hbefore : head :: (others ++ us) = before ++ stop :: us := by
      rw [← List.cons_append, ← hts, hlast, List.append_assoc]
      rfl
    have hquery : head :: ws.map Word.token = Token.significant before ++ [stop] := by
      rw [hws, ← Token.significant_cons hhead, ← hts, hlast, Token.significant_append, Token.significant_cons hstop]
      rfl
    rw [select_statement (dropWhile_of_significant hhead _) _ _ _ hbefore hstop hquery, ← hlast,
      text_tokensWithin, hname]
    rfl

theorem exists_word {s : Statement} (hc : s.isComment = false) (hq : s.query? = none) :
    ∃ k u, s.render = word k ++ u := by
  cases s with
  | select sql table => cases hq
  | verbatim kind body => cases hq
  | comment text => cases hc
  | registration kind target function options =>
    cases kind <;> (simp only [render, List.append_assoc]; exact ⟨_, _, rfl⟩)
  | _ => simp only [render, List.append_assoc]; exact ⟨_, _, rfl⟩

theorem prints {s : Statement} (hs : s.IsReadable) (hc : s.isComment = false) (hq : s.query? = none) {rest : Text}
    (hr : Breaks rest) : Prints s.render rest (Derived s) := by
  cases s with
  | load source options table => exact prints_load hr hs.1 hs.2.1 hs.2.2
  | save modes table sink options column => exact prints_save hr modes hs.1 hs.2.1 hs.2.2.1 hs.2.2.2
  | setting key value options => exact prints_setting hr hs.1 hs.2.1 hs.2.2
  | connect format options database => exact prints_connect hr hs.1 hs.2.1 hs.2.2
  | model action table target options => exact prints_model hr action hs.1 hs.2.1 hs.2.2
  | registration kind target function options =>
    cases kind with
    | register =>
      obtain ⟨f, rfl, hf⟩ := hs.2.2 rfl
      exact prints_register hr hs.1 hf hs.2.1
    | unregister => exact prints_unregister hr function hs.1 hs.2.1
  | inclusion target options => exact prints_inclusion hr hs.1 hs.2
  | select sql table => cases hq
  | verbatim kind body => cases hq
  | comment text => cases hc

theorem readsBack {s : Statement} (hs : s.IsReadable) (hc : s.isComment = false) {rest : Text} (hr : Breaks rest)
    (hq : ∀ q, s.query? = some q → StaysOpen q.text (q.tail ++ rest)) : s.ReadsBack rest := by
  cases h : s.query? with
  | none =>
    obtain ⟨k, u, hk⟩ := exists_word hc h
    exact readsBack_of_prints hk (prints hs hc h hr)
  | some q =>
    have hu := staysOpen_iff.mp (hq q h)
    cases s with
    | select sql table =>
      obtain rfl := Option.some.inj h
      exact readsBack_select hs.1 hs.2 hr hu
    | verbatim kind body =>
      obtain rfl := Option.some.inj h
      exact readsBack_verbatim hs hr hu
    | _ => cases h

/-! ## Query text that does not stay open -/

theorem isQuery_of_query? {s : Statement} (hs : s.IsReadable) {q : Query} (h : s.query? = some q) :
    IsQuery q.head q.text := by
  cases s with
  | select sql table =>
    obtain rfl := Option.some.inj h
    exact hs.1
  | verbatim kind body =>
    obtain rfl := Option.some.inj h
    exact hs
  | _ => cases h

theorem breaks_of_query? {s : Statement} {q : Query} (h : s.query? = some q) {rest : Text} (hr : Breaks rest) :
    Breaks (q.tail ++ rest) := by
  cases s with
  | select sql table =>
    obtain rfl := Option.some.inj h
    rw [List.append_assoc]
    exact breaks_asText _
  | verbatim kind body =>
    obtain rfl := Option.some.inj h
    exact hr
  | _ => cases h

theorem solid_render {s : Statement} (hs : s.IsReadable) : Solid s.render := by
  cases hc : s.isComment with
  | true =>
    cases s with
    | comment text =>
      obtain ⟨u, rfl⟩ | ⟨u, rfl⟩ := hs.1
      · exact ⟨'-', _, rfl, by decide⟩
      · exact ⟨'/', _, rfl, by decide⟩
    | _ => cases hc
  | false =>
    cases hq : s.query? with
    | none =>
      obtain ⟨k, u, hk⟩ := exists_word hc hq
      rw [hk]
      exact k.solid_word.append u
    | some q =>
      rw [render_of_query hq]
      exact (isQuery_of_query? hs hq).solid.append _

theorem exists_prefix_of_read {s : Statement} {q : Query} (hq : s.query? = some q) {head : Token}
    {others : List Token} (hk : head.kind = .keyword q.head) (h : readStatement head others = .ok s.normal) :
    ∃ xs, xs <+: head :: others ∧ Token.text xs = q.text := by
  cases s with
  | select sql table =>
    obtain rfl := Option.some.inj hq
    rw [readStatement, Token.form?_query.mpr hk] at h
    simp only at h
    split at h
    · next s' hs =>
      obtain rfl := Except.ok.inj h
      simp only [selectStatement?, Option.bind_eq_bind, Option.bind_eq_some_iff, Prod.exists] at hs
      obtain ⟨front, last, hlast, table', -, query, link, hlink, _, -, before, stop, hstop, hs⟩ := hs
      refine ⟨before ++ [stop], ?_, (Statement.select.inj (Option.some.inj hs)).1⟩
      exact (Token.isPrefix_of_splitLast? hstop).trans
        ((List.prefix_append _ _).trans (Token.isPrefix_of_splitLast? hlink) |>.trans
          ((List.prefix_append _ _).trans (Token.isPrefix_of_splitLast? hlast)))
    · cases h
  | verbatim kind body =>
    obtain rfl := Option.some.inj hq
    rw [readStatement, Token.form?_verbatim.mpr hk] at h
    refine ⟨Token.trimEnd (head :: others), Token.trimEnd_isPrefix _, ?_⟩
    exact (Statement.verbatim.inj (Except.ok.inj h)).2
  | _ => cases hq

end Statement

theorem length_text_ne {ts us xs : List Token} {big : Token} {n : Nat} (hlt : (Token.text ts).length < n)
    (hgt : n < (Token.text ts).length + big.lexeme.length) (hx : xs <+: ts ++ big :: us) :
    (Token.text xs).length ≠ n := by
  have hb : ts ++ [big] <+: ts ++ big :: us := by
    rw [List.append_cons ts big us]
    exact List.prefix_append _ _
  rcases List.prefix_or_prefix_of_prefix hx hb with h | h
  · rcases List.prefix_concat_iff.mp h with rfl | ⟨zs, rfl⟩
    · simp only [Token.text_append, List.length_append]
      simp only [Token.text, List.flatMap_cons, List.flatMap_nil, List.append_nil] at hgt ⊢
      omega
    · rw [Token.text_append, List.length_append] at hlt
      omega
  · obtain ⟨zs, rfl⟩ := h
    simp only [Token.text_append, List.length_append]
    simp only [Token.text, List.flatMap_cons, List.flatMap_nil, List.append_nil] at hgt ⊢
    omega

end PipelineScript
