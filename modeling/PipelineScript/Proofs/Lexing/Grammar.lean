import PipelineScript.Proofs.Lexing.Context
import PipelineScript.Proofs.Lexing.Delimiters
import PipelineScript.Proofs.Lexing.Positions

/-!
# The lexical grammar

The tokens of a text, without a scanner. Main statement: `tokenize_classifies`.
-/

namespace PipelineScript

open scoped Computability

/-- `l` is the longest start of `r` of characters with the property `p`, and there is at least one. -/
structure IsRun (p : Char → Bool) (l r : Text) : Prop where
  nonempty : l ≠ []
  inside : ∀ c ∈ l, p c = true
  maximal : ∃ rest, r = l ++ rest ∧ ∀ c ∈ rest.head?, p c = false

/-- A text `r` starts with the token of kind `k` and lexeme `l`. -/
inductive Recognizes (r : Text) : Token.Kind → Text → Prop
  | whitespace {l : Text} (h : IsRun Text.isBlank l r) : Recognizes r .whitespace l
  | lineComment {l : Text} (ho : ['-', '-'] <+: r ∨ ['/', '/'] <+: r)
      (h : IsRun (fun c => decide (c ≠ '\n')) l r) : Recognizes r .lineComment l
  | bracketed {n : Nat} (ho : ['/', '*'] <+: r) (h : IsLeast {i | 2 ≤ i ∧ ['*', '/'] <+: r.drop i} n) :
      Recognizes r (if r.take (n + 2) = ['/', '*', '*', '/'] then .emptyComment else .bracketedComment) (r.take (n + 2))
  | block {n : Nat} (ho : ['\x27', '\x27', '\x27'] <+: r)
      (h : IsLeast {i | 3 ≤ i ∧ ['\x27', '\x27', '\x27'] <+: r.drop i} n) : Recognizes r .blockString (r.take (n + 3))
  | string {q : Char} {l : Text} (hq : q = '"' ∨ q = '\x27') (ho : ¬ ['\x27', '\x27', '\x27'] <+: r)
      (hl : l ∈ ({[q]} * Literal.Quoted.closed q : Language Char)) (hr : l <+: r)
      (h : ∀ l' ∈ ({[q]} * Literal.Quoted.closed q : Language Char), l' <+: r → l.length ≤ l'.length) :
      Recognizes r .string l
  | backquoted {l rest : Text} (hl : l ∈ ({['\x60']} * Literal.Backquoted.closed : Language Char))
      (hr : r = l ++ rest) (h : rest.head? ≠ some '\x60') : Recognizes r .backquoted l
  | keyword {l : Text} {k : Keyword} (h : IsRun Text.isWordChar l r) (hk : Keyword.ofWord? l = some k) :
      Recognizes r (.keyword k) l
  | identifier {l : Text} (h : IsRun Text.isWordChar l r) (hk : Keyword.ofWord? l = none) : Recognizes r .identifier l
  | dot (h : ['.'] <+: r) : Recognizes r .dot ['.']
  | semicolon (h : [';'] <+: r) : Recognizes r .semicolon [';']
  | equals (h : ['='] <+: r) : Recognizes r .equals ['=']

/-- The token that a text starts with: one that is recognized, or else its first character. -/
def Classifies (r : Text) (k : Token.Kind) (l : Text) : Prop :=
  Recognizes r k l ∨ (∀ k' l', ¬ Recognizes r k' l') ∧ k = .unrecognized ∧ l = r.take 1

theorem Recognizes.ne_unrecognized {r : Text} {k : Token.Kind} {l : Text} (h : Recognizes r k l) :
    k ≠ .unrecognized := by
  cases h with
  | bracketed => split <;> decide
  | _ => exact nofun

theorem isRun_iff {p : Char → Bool} {c : Char} {l t : Text} :
    IsRun p l (c :: t) ↔ p c = true ∧ l = c :: t.takeWhile p := by
  constructor
  · rintro ⟨hne, hin, rest, hr, hrest⟩
    cases l with
    | nil => exact absurd rfl hne
    | cons d l =>
      rw [List.cons_append] at hr
      obtain ⟨rfl, rfl⟩ := List.cons.inj hr
      have hstop : rest.takeWhile p = [] := by
        cases rest with
        | nil => rfl
        | cons x rest => exact List.takeWhile_cons_of_neg (by simp [hrest x rfl])
      refine ⟨hin c List.mem_cons_self, ?_⟩
      rw [List.takeWhile_append_of_pos fun x hx => hin x (List.mem_cons_of_mem c hx), hstop, List.append_nil]
  · rintro ⟨hc, rfl⟩
    refine ⟨List.cons_ne_nil _ _, ?_, t.dropWhile p, ?_, ?_⟩
    · rintro x (_ | ⟨_, hx⟩)
      · exact hc
      · exact List.all_eq_true.mp List.all_takeWhile x hx
    · rw [List.cons_append, List.takeWhile_append_dropWhile]
    · intro x hx
      cases hd : t.dropWhile p with
      | nil => rw [hd] at hx; cases hx
      | cons y u =>
        rw [hd] at hx
        obtain rfl : y = x := Option.some.inj hx
        have := List.head_dropWhile_not p (l := t) (by simp [hd])
        simpa [hd] using this

theorem closes_iff {d : Text} {close? : Text → Option Nat} (hs : Literal.Seeks d close?) (start t : Text) {m : Nat} :
    close? t = some m ↔
      ∃ n, IsLeast {i | start.length ≤ i ∧ d <+: (start ++ t).drop i} n ∧ n + d.length = start.length + m := by
  rw [hs.eq_some_iff]
  constructor
  · rintro ⟨i, hi, rfl⟩
    exact ⟨start.length + i, (Literal.isLeast_places_append d start t).mpr hi, Nat.add_assoc ..⟩
  · rintro ⟨n, hn, hm⟩
    obtain ⟨i, rfl⟩ := Nat.exists_eq_add_of_le hn.1.1
    exact ⟨i, (Literal.isLeast_places_append d start t).mp hn, by omega⟩

theorem mem_opened {q : Char} {L : Language Char} {l : Text} :
    l ∈ ({[q]} * L : Language Char) ↔ ∃ m ∈ L, l = q :: m := by
  rw [Language.mem_mul]
  constructor
  · rintro ⟨a, ha, m, hm, rfl⟩
    obtain rfl : a = [q] := ha
    exact ⟨m, hm, rfl⟩
  · rintro ⟨m, hm, rfl⟩
    exact ⟨[q], rfl, m, hm, rfl⟩

theorem opening_bracket (t : Text) : opening '/' ('*' :: t) = .bracket := by
  simp [opening, Text.isBlank, Text.blankRanges]

theorem opening_apostrophe {t : Text} (h : ¬ ['\x27', '\x27', '\x27'] <+: '\x27' :: t) : opening '\x27' t = .quote := by
  have ht : t.take 2 ≠ ['\x27', '\x27'] := fun ht =>
    h ⟨t.drop 2, congrArg (List.cons _) (by rw [← ht]; exact List.take_append_drop 2 t)⟩
  simp [opening, Text.isBlank, Text.blankRanges, ht]

/-! ## What is scanned is recognized -/

section
variable {c : Char} {t : Text}

def Sound (c : Char) (t : Text) (s : Token.Kind × Nat) : Prop :=
  s.1 ≠ .unrecognized → Recognizes (c :: t) s.1 (c :: t.take s.2)

theorem emptyComment_iff {u : Text} {n : Nat} (hc : Literal.Comment.close? u = some n) :
    ('/' :: '*' :: u).take (n + 2) = ['/', '*', '*', '/'] ↔ some n = some 2 := by
  constructor
  · intro h
    have hlen := congrArg List.length h
    have := Literal.Comment.close?_le hc
    simp only [List.length_take, List.length_cons, List.length_nil] at hlen
    exact congrArg some (by omega)
  · intro h
    obtain rfl := Option.some.inj h
    obtain ⟨i, ⟨hi, -⟩, h₂⟩ := Literal.Comment.seeks.eq_some_iff.mp hc
    obtain rfl : i = 0 := by simpa using h₂
    obtain ⟨v, rfl⟩ : ['*', '/'] <+: u := hi
    rfl

theorem sound_bracket (u : Text) : Sound '/' ('*' :: u) (scanComment u) := by
  unfold scanComment Sound
  cases hc : Literal.Comment.close? u with
  | none => exact fun h => absurd rfl h
  | some m =>
    intro _
    obtain ⟨n, hn, hm⟩ := (closes_iff Literal.Comment.seeks ['/', '*'] u).mp hc
    simp only [List.length_cons, List.length_nil] at hm
    obtain rfl : n = m := by omega
    have hrec := Recognizes.bracketed (r := '/' :: '*' :: u) ⟨u, rfl⟩ hn
    simp only [emptyComment_iff hc] at hrec
    simp only [scanClosed, Nat.add_comm 1 n]
    exact hrec

theorem sound_block (u : Text) :
    Sound '\x27' ('\x27' :: '\x27' :: u) (scanClosed .blockString 2 (Literal.Block.close? u)) := by
  unfold Sound
  cases hc : Literal.Block.close? u with
  | none => exact fun h => absurd rfl h
  | some m =>
    intro _
    obtain ⟨n, hn, hm⟩ := (closes_iff Literal.Block.seeks ['\x27', '\x27', '\x27'] u).mp hc
    simp only [List.length_cons, List.length_nil] at hm
    obtain rfl : n = m := by omega
    have hrec := Recognizes.block (r := '\x27' :: '\x27' :: '\x27' :: u) ⟨u, rfl⟩ hn
    simp only [scanClosed, Nat.add_comm 2 n]
    exact hrec

theorem sound_quote {q : Char} (hq : q = '"' ∨ q = '\x27') (ho : ¬ ['\x27', '\x27', '\x27'] <+: q :: t) :
    Sound q t (scanClosed .string 0 (Literal.Quoted.close? q t)) := by
  unfold Sound
  cases hc : Literal.Quoted.close? q t with
  | none => exact fun h => absurd rfl h
  | some n =>
    intro _
    obtain ⟨hmem, hle⟩ := Literal.Quoted.close?_sound q hc
    have hne : q ≠ '\\' := by rcases hq with rfl | rfl <;> decide
    simp only [scanClosed, Nat.zero_add]
    refine .string hq ho (mem_opened.mpr ⟨_, hmem, rfl⟩) ((List.cons_prefix_cons).mpr ⟨rfl, List.take_prefix n t⟩) ?_
    -- no other word is a start of the text, so none is a shorter one
    intro l hl hpre
    obtain ⟨m, hm, rfl⟩ := mem_opened.mp hl
    obtain ⟨rest, rfl⟩ := (List.cons_prefix_cons.mp hpre).2
    rw [Literal.Quoted.close?_complete hne hm] at hc
    obtain rfl := Option.some.inj hc
    simp

theorem sound_backquote : Sound '\x60' t (scanClosed .backquoted 0 (Literal.Backquoted.close? t)) := by
  unfold Sound
  cases hc : Literal.Backquoted.close? t with
  | none => exact fun h => absurd rfl h
  | some n =>
    intro _
    obtain ⟨hmem, -, hrest⟩ := Literal.Backquoted.close?_sound hc
    simp only [scanClosed, Nat.zero_add]
    exact .backquoted (mem_opened.mpr ⟨_, hmem, rfl⟩) (by rw [List.cons_append, List.take_append_drop]) hrest

theorem sound_word (h : Text.isWordChar c = true) : Sound c t (scanWord c t) := by
  intro _
  have hrun : IsRun Text.isWordChar (c :: t.takeWhile Text.isWordChar) (c :: t) := isRun_iff.mpr ⟨h, rfl⟩
  unfold scanWord
  simp only
  split
  · next k hk =>
    rw [take_takeWhile]
    exact .keyword hrun hk
  · next hk =>
    rw [take_takeWhile]
    exact .identifier hrun hk

theorem sound_blank (h : Text.isBlank c = true) :
    Sound c t (.whitespace, (t.takeWhile Text.isBlank).length) := by
  intro _
  rw [take_takeWhile]
  exact .whitespace (isRun_iff.mpr ⟨h, rfl⟩)

theorem sound_line (h : c = '-' ∨ c = '/') (u : Text) :
    Sound c (c :: u) (.lineComment, ((c :: u).takeWhile (· ≠ '\n')).length) := by
  intro _
  rw [take_takeWhile]
  refine .lineComment (h.imp ?_ ?_) (isRun_iff.mpr ⟨?_, rfl⟩)
  · rintro rfl
    exact ⟨u, rfl⟩
  · rintro rfl
    exact ⟨u, rfl⟩
  · rcases h with rfl | rfl <;> decide

theorem sound_single {k : Token.Kind} (h : (Opening.single k).Needs c t) : Sound c t (k, 0) := by
  intro _
  obtain ⟨rfl, rfl⟩ | ⟨rfl, rfl⟩ | ⟨rfl, rfl⟩ := h
  · exact .dot ⟨t, rfl⟩
  · exact .semicolon ⟨t, rfl⟩
  · exact .equals ⟨t, rfl⟩

theorem sound_scan (c : Char) (t : Text) : Sound c t (scan c t) := by
  have hneeds := opening_needs c t
  rw [scan]
  cases ho : opening c t with
  | blank =>
    rw [ho] at hneeds
    exact sound_blank hneeds
  | line =>
    rw [ho] at hneeds
    obtain ⟨hc, ht⟩ := hneeds
    obtain ⟨u, rfl⟩ := List.head?_eq_some_iff.mp ht
    exact sound_line hc u
  | bracket =>
    rw [ho] at hneeds
    obtain ⟨rfl, ht⟩ := hneeds
    obtain ⟨u, rfl⟩ := List.head?_eq_some_iff.mp ht
    exact sound_bracket u
  | single k =>
    rw [ho] at hneeds
    exact sound_single hneeds
  | block =>
    rw [ho] at hneeds
    obtain ⟨rfl, ht⟩ := hneeds
    obtain ⟨u, rfl⟩ : ['\x27', '\x27'] <+: t := ht ▸ List.take_prefix 2 t
    exact sound_block u
  | quote =>
    rw [ho] at hneeds
    refine sound_quote hneeds fun hpre => ?_
    obtain ⟨u, hu⟩ := hpre
    obtain ⟨rfl, rfl⟩ := List.cons.inj hu
    cases (opening_block u).symm.trans ho
  | backquote =>
    rw [ho] at hneeds
    obtain rfl : c = '\x60' := hneeds
    exact sound_backquote
  | word =>
    rw [ho] at hneeds
    exact sound_word hneeds
  | stray => exact fun h => absurd rfl h

end

/-! ## What is recognized is scanned -/

def Found (c : Char) (t : Text) (k : Token.Kind) (l : Text) : Prop := (scan c t).1 = k ∧ c :: t.take (scan c t).2 = l

section
variable {c : Char} {t : Text}

theorem found_of_opening {o : Opening} (ho : opening c t = o) {k : Token.Kind} {n : Nat}
    (he : o.extent c t = (k, n)) : Found c t k (c :: t.take n) := by
  rw [Found, scan, ho, he]
  exact ⟨rfl, rfl⟩

theorem found_bracket {u : Text} {n : Nat} (h : IsLeast {i | 2 ≤ i ∧ ['*', '/'] <+: ('/' :: '*' :: u).drop i} n) :
    Found '/' ('*' :: u)
      (if ('/' :: '*' :: u).take (n + 2) = ['/', '*', '*', '/'] then .emptyComment else .bracketedComment)
      (('/' :: '*' :: u).take (n + 2)) := by
  have hc : Literal.Comment.close? u = some n :=
    (closes_iff Literal.Comment.seeks ['/', '*'] u).mpr ⟨n, h, Nat.add_comm ..⟩
  simp only [emptyComment_iff hc]
  refine found_of_opening (n := n + 1) (opening_bracket u) ?_
  simp only [Opening.extent, scanComment, List.drop_succ_cons, List.drop_zero, hc, scanClosed, Nat.add_comm 1 n]

theorem found_block {u : Text} {n : Nat}
    (h : IsLeast {i | 3 ≤ i ∧ ['\x27', '\x27', '\x27'] <+: ('\x27' :: '\x27' :: '\x27' :: u).drop i} n) :
    Found '\x27' ('\x27' :: '\x27' :: u) .blockString (('\x27' :: '\x27' :: '\x27' :: u).take (n + 3)) := by
  have hc : Literal.Block.close? u = some n :=
    (closes_iff Literal.Block.seeks ['\x27', '\x27', '\x27'] u).mpr ⟨n, h, Nat.add_comm ..⟩
  refine found_of_opening (n := n + 2) (opening_block u) ?_
  simp only [Opening.extent, List.drop_succ_cons, List.drop_zero, hc, scanClosed, Nat.add_comm 2 n]

theorem found_quote {q : Char} (hq : q = '"' ∨ q = '\x27') {m rest : Text}
    (ho : ¬ ['\x27', '\x27', '\x27'] <+: q :: (m ++ rest)) (hm : m ∈ Literal.Quoted.closed q) :
    Found q (m ++ rest) .string (q :: m) := by
  have hopening : opening q (m ++ rest) = .quote := by
    rcases hq with rfl | rfl
    · exact opening_quote _
    · exact opening_apostrophe ho
  have hne : q ≠ '\\' := by rcases hq with rfl | rfl <;> decide
  have hfound : Found q (m ++ rest) .string (q :: (m ++ rest).take m.length) := by
    refine found_of_opening hopening ?_
    rw [Opening.extent, Literal.Quoted.close?_complete hne hm, scanClosed, Nat.zero_add]
  rwa [List.take_left] at hfound

theorem found_backquote {m rest : Text} (hm : m ∈ Literal.Backquoted.closed) (hr : rest.head? ≠ some '\x60') :
    Found '\x60' (m ++ rest) .backquoted ('\x60' :: m) := by
  have hfound : Found '\x60' (m ++ rest) .backquoted ('\x60' :: (m ++ rest).take m.length) := by
    refine found_of_opening (opening_backquote _) ?_
    rw [Opening.extent, Literal.Backquoted.close?_complete hm hr, scanClosed, Nat.zero_add]
  rwa [List.take_left] at hfound

theorem found_run {p : Char → Bool} {o : Opening} (ho : opening c t = o) {k : Token.Kind}
    (he : o.extent c t = (k, (t.takeWhile p).length)) : Found c t k (c :: t.takeWhile p) := by
  have hfound := found_of_opening ho he
  rwa [take_takeWhile] at hfound

theorem Recognizes.found {k : Token.Kind} {l : Text} (h : Recognizes (c :: t) k l) : Found c t k l := by
  cases h with
  | whitespace h =>
    obtain ⟨hc, rfl⟩ := isRun_iff.mp h
    exact found_run (opening_blank hc t) rfl
  | lineComment ho h =>
    obtain ⟨-, rfl⟩ := isRun_iff.mp h
    obtain ⟨hc, u, rfl⟩ : (c = '-' ∨ c = '/') ∧ ∃ u, t = c :: u := by
      rcases ho with ⟨u, hu⟩ | ⟨u, hu⟩ <;> obtain ⟨rfl, rfl⟩ := List.cons.inj hu
      · exact ⟨.inl rfl, u, rfl⟩
      · exact ⟨.inr rfl, u, rfl⟩
    exact found_run (opening_line hc u) rfl
  | bracketed ho h =>
    obtain ⟨u, hu⟩ := ho
    obtain ⟨rfl, rfl⟩ := List.cons.inj hu
    exact found_bracket h
  | block ho h =>
    obtain ⟨u, hu⟩ := ho
    obtain ⟨rfl, rfl⟩ := List.cons.inj hu
    exact found_block h
  | string hq ho hl hr =>
    obtain ⟨m, hm, rfl⟩ := mem_opened.mp hl
    obtain ⟨rfl, rest, rfl⟩ := List.cons_prefix_cons.mp hr
    exact found_quote hq ho hm
  | backquoted hl hr h =>
    obtain ⟨m, hm, rfl⟩ := mem_opened.mp hl
    obtain ⟨rfl, rfl⟩ := List.cons.inj hr
    exact found_backquote hm h
  | keyword h hk =>
    obtain ⟨hc, rfl⟩ := isRun_iff.mp h
    exact found_run (opening_word hc t) (by simp only [Opening.extent, scanWord, hk])
  | identifier h hk =>
    obtain ⟨hc, rfl⟩ := isRun_iff.mp h
    exact found_run (opening_word hc t) (by simp only [Opening.extent, scanWord, hk])
  | dot h =>
    obtain ⟨rfl, -⟩ := List.cons_prefix_cons.mp h
    exact found_of_opening (opening_dot _) rfl
  | semicolon h =>
    obtain ⟨rfl, -⟩ := List.cons_prefix_cons.mp h
    exact found_of_opening (opening_semicolon _) rfl
  | equals h =>
    obtain ⟨rfl, -⟩ := List.cons_prefix_cons.mp h
    exact found_of_opening (opening_equals _) rfl

end

theorem classifies_iff (c : Char) (t : Text) (k : Token.Kind) (l : Text) :
    Classifies (c :: t) k l ↔ Found c t k l := by
  constructor
  · rintro (h | ⟨hnone, rfl, rfl⟩)
    · exact h.found
    · have hk : (scan c t).1 = .unrecognized :=
        Classical.not_not.mp fun hk => hnone _ _ (sound_scan c t hk)
      exact ⟨hk, by rw [scan_unrecognized hk]; rfl⟩
  · rintro ⟨rfl, rfl⟩
    by_cases hk : (scan c t).1 = .unrecognized
    · refine .inr ⟨fun k' l' h => h.ne_unrecognized ?_, hk, by rw [scan_unrecognized hk]; rfl⟩
      rw [← h.found.1, hk]
    · exact .inl (sound_scan c t hk)

section
variable {p : Position} {source : Text} {before : List Token} {t : Token} {after : List Token}
  (h : tokensAt p source = before ++ t :: after)
include h

theorem drop_text : source.drop (Token.text before).length = Token.text (t :: after) := by
  have htext : source = Token.text before ++ Token.text (t :: after) := by
    rw [← Token.text_append, ← h, text_tokensAt]
  rw [htext, List.drop_left]

theorem token_eq_firstToken {c : Char} {r : Text} (hr : source.drop (Token.text before).length = c :: r) :
    t = firstToken t.position c r := by
  have hrest := tokensAt_suffix h (List.cons_ne_nil t after)
  rw [← drop_text h, hr, tokensAt_cons] at hrest
  rw [← (List.cons.inj hrest).1]
  rfl

theorem exists_text (ht : t.kind ≠ .endOfInput) : ∃ c r, source.drop (Token.text before).length = c :: r := by
  cases hr : source.drop (Token.text before).length with
  | nil =>
    have hrest := tokensAt_suffix h (List.cons_ne_nil t after)
    rw [← drop_text h, hr, tokensAt_nil] at hrest
    exact absurd (by rw [← (List.cons.inj hrest).1]; rfl) ht
  | cons c r => exact ⟨c, r, rfl⟩

theorem kind_eq_endOfInput_iff : t.kind = .endOfInput ↔ source.drop (Token.text before).length = [] := by
  constructor
  · intro ht
    cases hr : source.drop (Token.text before).length with
    | nil => rfl
    | cons c r =>
      rw [token_eq_firstToken h hr, firstToken] at ht
      exact absurd ht (scan_ne_endOfInput c r)
  · intro hr
    by_contra ht
    obtain ⟨c, r, hc⟩ := exists_text h ht
    rw [hr] at hc
    cases hc

end

theorem scan_nul (t : Text) : scan '\x00' t = (.unrecognized, 0) := by
  have ho : opening '\x00' t = .stray := by
    simp [opening, Text.isBlank, Text.blankRanges, Text.isWordChar]
  rw [scan, ho]
  rfl

/-- Every token but the end of input is the one that the grammar gives for the text left to lex. The end of input
stands where no text is left, so a NUL character ends nothing: a token that starts with one is that character alone. -/
theorem tokenize_classifies (source : Text) :
    (∀ before t after, tokenize source = before ++ t :: after → t.kind ≠ .endOfInput →
      ∀ k l, Classifies (source.drop (Token.text before).length) k l ↔ k = t.kind ∧ l = t.lexeme) ∧
    (∀ before t after, tokenize source = before ++ t :: after →
      (t.kind = .endOfInput ↔ source.drop (Token.text before).length = [])) ∧
    ∀ before t after, tokenize source = before ++ t :: after →
      (source.drop (Token.text before).length).head? = some '\x00' → t.kind = .unrecognized ∧ t.lexeme = ['\x00'] := by
  refine ⟨fun before t after h ht k l => ?_, fun before t after h => kind_eq_endOfInput_iff h,
    fun before t after h hnul => ?_⟩
  · obtain ⟨c, r, hr⟩ := exists_text h ht
    rw [hr, classifies_iff, Found, token_eq_firstToken h hr]
    exact and_congr eq_comm eq_comm
  · obtain ⟨r, hr⟩ := List.head?_eq_some_iff.mp hnul
    rw [token_eq_firstToken h hr, firstToken, scan_nul]
    exact ⟨rfl, rfl⟩

end PipelineScript
