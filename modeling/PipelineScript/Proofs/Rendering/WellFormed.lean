import PipelineScript.Proofs.Rendering.Parsed

/-!
# What a parsed script is made of

Main statement: `parseWith_wellFormed`.
-/

namespace PipelineScript

open Syntax

structure Name.IsWellFormed (n : Name) : Prop where
  nonempty : n.value ≠ []
  word : n.quoted = false → ∀ c ∈ n.value, c.isAlphanum = true ∨ c = '_'
  free : n.quoted = false → ∀ k : Keyword, n.value ∉ k.spellings

def DottedName.IsWellFormed (d : DottedName) : Prop := d.parts ≠ [] ∧ ∀ n ∈ d.parts, n.IsWellFormed

def FormatPath.IsWellFormed (f : FormatPath) : Prop := f.format.IsWellFormed ∧ f.path.IsWellFormed

def Database.IsWellFormed : Database → Prop
  | name n => n.IsWellFormed
  | dotted d => 2 ≤ d.parts.length ∧ d.IsWellFormed

def Clause.IsWellFormed (c : Clause) : Prop := ∀ a ∈ c.assignments, a.key.IsWellFormed

def SetValue.IsWellFormed : SetValue → Prop
  | name n => n.IsWellFormed
  | string _ => True
  | block v => Literal.Block.IsPlain v

def Keyword.Opens (k : Keyword) (query : Text) : Prop := (∃ w ∈ k.spellings, w <+: query) ∧ IsQuery k query

def Statement.IsWellFormed : Statement → Prop
  | load source options table => source.IsWellFormed ∧ options.IsWellFormed ∧ table.IsWellFormed
  | save _ table sink options column =>
    table.IsWellFormed ∧ sink.IsWellFormed ∧ options.IsWellFormed ∧ ∀ n ∈ column, n.IsWellFormed
  | select sql table => Keyword.select.Opens sql ∧ table.IsWellFormed
  | verbatim kind body => kind.keyword.Opens body
  | setting key value options => key.IsWellFormed ∧ value.IsWellFormed ∧ options.IsWellFormed
  | connect format options database =>
    format.IsWellFormed ∧ options.IsWellFormed ∧ ∀ d ∈ database, d.IsWellFormed
  | model _ table target options => table.IsWellFormed ∧ target.IsWellFormed ∧ options.IsWellFormed
  | registration kind target function options =>
    target.IsWellFormed ∧ options.IsWellFormed ∧ (∀ f ∈ function, f.IsWellFormed) ∧
      (function.isSome = true ↔ kind = .register)
  | inclusion target options => target.IsWellFormed ∧ options.IsWellFormed
  | comment text => IsLineComment text

/-! ## Readable statements in normal form -/

theorem Name.wellFormed {n : Name} (h : n.IsReadable) (hn : n.normal = n) : n.IsWellFormed := by
  have hquotes (hq : n.quoted = false) : needsQuotes n.value = false := by
    have hnq := congrArg Name.quoted hn
    rw [normal, hq, Bool.false_or] at hnq
    exact hnq
  refine ⟨h, fun hq c hc => ?_, fun hq k hk => ?_⟩
  · have hw := hquotes hq
    simp only [needsQuotes, Bool.or_eq_false_iff, Bool.not_eq_false', Text.isWord, Bool.and_eq_true,
      List.all_eq_true] at hw
    simpa [Text.isWordChar] using hw.1.2 c hc
  · have hw := hquotes hq
    rw [needsQuotes, Keyword.ofWord?_eq_some_iff.mpr hk, Option.isSome_some, Bool.or_true] at hw
    cases hw

theorem DottedName.wellFormed {d : DottedName} (h : d.IsReadable) (hn : d.normal = d) : d.IsWellFormed := by
  have hparts := List.map_inj_left.mp ((congrArg DottedName.parts hn).trans (List.map_id _).symm)
  exact ⟨h.1, fun n hm => Name.wellFormed (h.2 n hm) (hparts n hm)⟩

theorem FormatPath.wellFormed {f : FormatPath} (h : f.IsReadable) (hn : f.normal = f) : f.IsWellFormed :=
  ⟨Name.wellFormed h.1 (congrArg FormatPath.format hn), Name.wellFormed h.2 (congrArg FormatPath.path hn)⟩

theorem Database.eq_of_ofDotted {d e : DottedName} (h : ofDotted d = dotted e) : d = e ∧ ∀ n, d ≠ ⟨[n]⟩ := by
  unfold ofDotted at h
  split at h
  · cases h
  · next hd => exact ⟨Database.dotted.inj h, hd⟩

theorem Database.wellFormed {d : Database} (h : d.IsReadable) (hn : d.normal = d) : d.IsWellFormed := by
  cases d with
  | name n => exact Name.wellFormed h (Database.name.inj hn)
  | dotted d =>
    obtain ⟨hnormal, hone⟩ := eq_of_ofDotted hn
    refine ⟨?_, DottedName.wellFormed h hnormal⟩
    rw [hnormal] at hone
    obtain ⟨parts⟩ := d
    match parts, h.1, hone with
    | [n], _, hone => exact absurd rfl (hone n)
    | n :: m :: ps, _, _ => simp

theorem Clause.wellFormed {c : Clause} (h : c.IsReadable) (hn : c.normal = c) : c.IsWellFormed := by
  have hfilters := List.map_inj_left.mp ((congrArg Clause.filters hn).trans (List.map_id _).symm)
  have hfirst := congrArg Clause.first hn
  intro a ha
  have hnormal : a.normal = a := by
    rcases List.mem_append.mp ha with hm | hm
    · have hc := Option.mem_toList.mp hm
      rw [normal, hc] at hfirst
      exact Option.some.inj hfirst
    · exact hfilters a hm
  exact Name.wellFormed (h a ha) (congrArg Assignment.key hnormal)

theorem SetValue.wellFormed {v : SetValue} (h : v.IsReadable) (hn : v.normal = v) : v.IsWellFormed := by
  cases v with
  | name d => exact DottedName.wellFormed h (SetValue.name.inj hn)
  | string v => trivial
  | block v => exact h

theorem IsQuery.opens {k : Keyword} {query : Text} (h : IsQuery k query) : k.Opens query := by
  refine ⟨?_, h⟩
  have hhead := h.head
  cases query with
  | nil =>
    rw [tokenize, tokensAt_nil] at hhead
    cases hhead
  | cons c t =>
    rw [tokenize, tokensAt_cons] at hhead
    have hlexed : (firstToken .start c t).IsLexed := ⟨_, _, _, rfl⟩
    exact ⟨_, hlexed.keyword (Option.some.inj hhead), _, firstToken_append_afterFirst .start c t⟩

theorem forall_mem_of_map {α : Type} {P : α → Prop} {f : α → α} {o : Option α} (ho : o.map f = o)
    (h : ∀ a ∈ o, f a = a → P a) : ∀ a ∈ o, P a := by
  intro a ha
  refine h a ha ?_
  rw [ha] at ho
  exact Option.some.inj ho

theorem Statement.wellFormed {s : Statement} (h : s.IsReadable) (hn : s.normal = s) : s.IsWellFormed := by
  cases s with
  | load source options table =>
    obtain ⟨hs, ho, ht⟩ := Statement.load.inj hn
    exact ⟨FormatPath.wellFormed h.1 hs, Clause.wellFormed h.2.1 ho, Name.wellFormed h.2.2 ht⟩
  | save modes table sink options column =>
    obtain ⟨-, ht, hs, ho, hc⟩ := Statement.save.inj hn
    exact ⟨Name.wellFormed h.1 ht, FormatPath.wellFormed h.2.1 hs, Clause.wellFormed h.2.2.1 ho,
      forall_mem_of_map hc fun n hm => Name.wellFormed (h.2.2.2 n hm)⟩
  | select sql table => exact ⟨h.1.opens, Name.wellFormed h.2 (Statement.select.inj hn).2⟩
  | verbatim kind body => exact IsQuery.opens h
  | setting key value options =>
    obtain ⟨hk, hv, ho⟩ := Statement.setting.inj hn
    exact ⟨DottedName.wellFormed h.1 hk, SetValue.wellFormed h.2.1 hv, Clause.wellFormed h.2.2 ho⟩
  | connect format options database =>
    obtain ⟨hf, ho, hd⟩ := Statement.connect.inj hn
    exact ⟨Name.wellFormed h.1 hf, Clause.wellFormed h.2.1 ho,
      forall_mem_of_map hd fun d hm => Database.wellFormed (h.2.2 d hm)⟩
  | model action table target options =>
    obtain ⟨-, ht, hp, ho⟩ := Statement.model.inj hn
    exact ⟨Name.wellFormed h.1 ht, FormatPath.wellFormed h.2.1 hp, Clause.wellFormed h.2.2 ho⟩
  | registration kind target function options =>
    cases kind with
    | register =>
      obtain ⟨-, ht, hf, ho⟩ := Statement.registration.inj hn
      obtain ⟨f, rfl, hr⟩ := h.2.2 rfl
      refine ⟨FormatPath.wellFormed h.1 ht, Clause.wellFormed h.2.1 ho, ?_, by simp⟩
      refine forall_mem_of_map hf fun n hm => Name.wellFormed ?_
      exact Option.some.inj hm ▸ hr
    | unregister =>
      obtain ⟨-, ht, rfl, ho⟩ := Statement.registration.inj hn
      exact ⟨FormatPath.wellFormed h.1 ht, Clause.wellFormed h.2.1 ho, nofun, by simp⟩
  | inclusion target options =>
    obtain ⟨ht, ho⟩ := Statement.inclusion.inj hn
    exact ⟨FormatPath.wellFormed h.1 ht, Clause.wellFormed h.2 ho⟩
  | comment text => exact h

/-! ## Where statements stand -/

inductive Statement.HeadedBy : Statement → Token → Prop
  | keyword {s : Statement} {t : Token} {k : Keyword} (hs : s.keyword? = some k) (ht : t.kind = .keyword k) :
    HeadedBy s t
  | comment (t : Token) : HeadedBy (.comment t.lexeme) t

structure Heads (l : Position × Statement) (t : Token) : Prop where
  position : l.1 = t.position
  headed : l.2.HeadedBy t

theorem Syntax.Tree.headedBy (ts : List Token) (t : Tree) : (t.statement ts).HeadedBy t.head := by
  cases t with
  | verbatim h | model h => exact .keyword rfl h.kind_eq
  | load h | save h | select h | setting h | connect h | register h | unregister h | inclusion h =>
    exact .keyword rfl (List.mem_singleton.mp h.mem)

namespace Segment

theorem heads_commentsAt (comments : Bool) (ts : List Token) : Token.Marks Heads (commentsAt comments ts) ts := by
  unfold commentsAt
  split
  · refine ⟨ts.filter fun t => t.kind == .lineComment, List.filter_sublist, ?_⟩
    exact List.forall₂_map_left_iff.mpr (List.forall₂_same.mpr fun t _ => ⟨rfl, .comment t⟩)
  · exact .nil _ _

theorem heads_report {s : Segment} (hp : Piece s.tokens) (comments : Bool) :
    Token.Marks Heads (Outcome.located comments s.report) s.tokens := by
  have hlead : Token.Marks Heads (commentsAt comments s.lead) s.lead := heads_commentsAt ..
  unfold report
  cases hb : s.body with
  | nil =>
    rw [content_blank hb, tokens_of_nil hb]
    simp only [Outcome.located_comments]
    exact hlead
  | cons head rest =>
    have htokens : s.tokens = s.lead ++ ([head] ++ rest) := by rw [List.singleton_append, ← hb, s.lead_append_body]
    cases hr : readStatement head rest with
    | ok st =>
      obtain ⟨t, hy, rfl⟩ := readStatement_sound hp hb hr
      have hhead : t.head = head := (List.cons.inj (hy.trans (significant_tokens hb))).1
      have htail : Token.Marks Heads (commentsAt comments s.tail) rest := by
        rw [tail_eq hb]
        split
        · rw [show commentsAt comments [] = [] by simp [commentsAt]]
          exact .nil _ _
        · exact (heads_commentsAt ..).of_sublist (Token.trailer_sublist (isSignificant_head hb) rest)
      have hstatement : Token.Marks Heads [(head.position, t.statement s.tokens)] [head] :=
        ⟨[head], List.Sublist.refl _, .cons ⟨rfl, hhead ▸ t.headedBy s.tokens⟩ .nil⟩
      have hmarks := hlead.append (hstatement.append htail)
      rw [← htokens] at hmarks
      rw [content_statement hb hr]
      simp only [Outcome.located_append, Outcome.located_comments, Outcome.located_statement]
      exact hmarks
    | error f =>
      rw [content_fault hb hr, htokens]
      simp only [Outcome.located_append, Outcome.located_comments, Outcome.located_fault]
      exact hlead.append (.nil _ _)

end Segment

/-! ## The script of a text -/

theorem heads_parseWith (settings : Settings) (source : Text) :
    Token.Marks Heads (parseWith settings source).script.located (tokenize source) := by
  obtain ⟨read, rest, hss, hread⟩ := exists_parseTokens settings (tokenize source)
  have hstream := (Segment.cuts_tokenize source).stream_eq
  rw [hss, List.flatMap_append] at hstream
  rw [parseWith, located_parseTokens hread, Script.located_ofLocated, ← hstream]
  refine (Token.Marks.flatMap fun s hs => ?_).of_sublist (List.sublist_append_left ..)
  have hp := Segment.piece_tokenize (hss ▸ List.mem_append_left rest hs)
  exact (Segment.heads_report hp _).of_sublist (List.sublist_append_left ..)

/-- The text starts with the head of the statement: with a spelling of its keyword, or with the whole comment. -/
def Statement.Starts (s : Statement) (text : Text) : Prop :=
  (∃ k, s.keyword? = some k ∧ ∃ w ∈ k.spellings, w <+: text) ∨ ∃ t, s = .comment t ∧ t <+: text

theorem Statement.HeadedBy.starts {s : Statement} {t : Token} (h : s.HeadedBy t) {source : Text}
    (ht : t ∈ tokenize source) :
    ∃ before rest, source = before ++ rest ∧ t.position = Position.start.past before ∧ s.Starts rest := by
  obtain ⟨pre, post, hsplit⟩ := List.append_of_mem ht
  have htext := text_tokensAt .start source
  rw [show tokensAt .start source = pre ++ t :: post from hsplit, Token.text_append] at htext
  refine ⟨Token.text pre, Token.text (t :: post), htext.symm, position_eq_past hsplit, ?_⟩
  have hlexeme : t.lexeme <+: Token.text (t :: post) := List.prefix_append ..
  cases h with
  | @keyword s t k hs hk =>
    rw [tokenize, tokensAt_eq_append] at ht
    rcases List.mem_append.mp ht with hm | hm
    · exact .inl ⟨k, hs, _, (isLexed_of_mem hm).keyword hk, hlexeme⟩
    · rw [List.mem_singleton.mp hm] at hk
      cases hk
  | comment => exact .inr ⟨_, rfl, hlexeme⟩

theorem parseWith_wellFormed (settings : Settings) (source : Text) :
    (parseWith settings source).script.statements.length = (parseWith settings source).script.positions.length ∧
    (parseWith settings source).script.positions.Pairwise (fun p q => p.offset < q.offset) ∧
    ∀ l ∈ (parseWith settings source).script.located, l.2.IsWellFormed ∧
      ∃ before rest, source = before ++ rest ∧ l.1 = Position.start.past before ∧ l.2.Starts rest := by
  obtain ⟨read, rest, hss, hread⟩ := exists_parseTokens settings (tokenize source)
  have hscript := located_parseTokens hread
  have hheads := heads_parseWith settings source
  refine ⟨?_, ?_, fun l hl => ⟨?_, ?_⟩⟩
  · rw [parseWith, hscript, Script.ofLocated, List.length_map, List.length_map]
  · have hordered := hheads.offsets Prod.fst fun l t h => h.position
    rw [parseWith, hscript] at hordered ⊢
    rw [Script.located_ofLocated] at hordered
    exact List.pairwise_map.mpr hordered
  · have hm := List.of_mem_zip hl
    have hx := readable_of_parseWith hm.2
    exact Statement.wellFormed hx.1 hx.2
  · obtain ⟨t, ht, hlt⟩ := hheads.exists_mem hl
    rw [hlt.position]
    exact hlt.headed.starts ht

end PipelineScript
