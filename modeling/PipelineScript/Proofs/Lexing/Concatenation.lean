import PipelineScript.Proofs.Lexing.Open
import PipelineScript.Proofs.Lexing.Positions

/-!
# One text behind another

A text that ends with a semicolon, and leaves nothing open, is lexed in front of
any other text as it is alone. Main statement: `tokenize_append`.
-/

namespace PipelineScript

theorem opening_append_of_lt {c : Char} {t : Text} (h : (scan c t).2 < t.length) (rest : Text) :
    opening c (t ++ rest) = opening c t := by
  match t with
  | [] => exact absurd h (Nat.not_lt_zero _)
  | d :: u =>
    have hhead : (d :: u ++ rest).head? = (d :: u).head? := rfl
    have hquotes : (c = '\x27' ∧ (d :: u ++ rest).take 2 = ['\x27', '\x27']) ↔
        (c = '\x27' ∧ (d :: u).take 2 = ['\x27', '\x27']) := by
      cases u with
      | cons e u => rfl
      | nil =>
        -- two quotes alone are a string that takes all of the text
        have hd : c = '\x27' → d ≠ '\x27' := by
          rintro rfl rfl
          exact absurd h (by decide)
        constructor
        · rintro ⟨hc, hq⟩
          exact absurd (List.cons.inj hq).1 (hd hc)
        · rintro ⟨hc, hq⟩
          exact absurd (List.cons.inj hq).1 (hd hc)
    unfold opening
    simp only [hhead, hquotes]

theorem Opening.close?_append_of_lt {c : Char} {o : Opening} {s : Search} (h : o.search? c = some s) {t : Text}
    {n : Nat} (hc : s.close? t = some n) (hn : n < t.length) (rest : Text) : s.close? (t ++ rest) = some n := by
  cases o <;> simp only [search?, Option.some.injEq, reduceCtorEq] at h <;> subst h
  · exact ((Literal.Comment.extends_append rest).closed hc).2
  · exact ((Literal.Block.extends_append rest).closed hc).2
  · exact ((Literal.Quoted.extends_append c rest).closed hc).2
  · exact Literal.Backquoted.close?_append_of_lt rest hc hn

theorem scan_append_of_lt {c : Char} {t : Text} (h : (scan c t).2 < t.length)
    (ho : (scan c t).1 = .unrecognized → opening c t = .stray) (rest : Text) : scan c (t ++ rest) = scan c t := by
  have hopening := opening_append_of_lt h rest
  simp only [scan, hopening] at h ho ⊢
  cases hs : (opening c t).search? c with
  | some s =>
    rw [Opening.extent_of_search hs] at h ho
    rw [Opening.extent_of_search hs, Opening.extent_of_search hs]
    have hskip := skip_le_length hs
    unfold Search.extent at h ho ⊢
    rw [List.drop_append_of_le_length hskip]
    cases hc : s.close? (t.drop s.skip) with
    | none =>
      rw [hc] at ho
      rw [ho rfl] at hs
      cases hs
    | some n =>
      rw [hc] at h
      have hfits : s.skip + n < t.length := h
      have hn : n < (t.drop s.skip).length := by
        rw [List.length_drop]
        omega
      rw [Opening.close?_append_of_lt hs hc hn]
  | none =>
    cases hcase : opening c t with
    | blank | line =>
      rw [hcase] at h
      simp only [Opening.extent, takeWhile_append_of_ne (Nat.ne_of_lt h)]
    | word =>
      rw [hcase, Opening.extent, scanWord_snd] at h
      simp only [Opening.extent, scanWord, takeWhile_append_of_ne (Nat.ne_of_lt h)]
    | single k => rfl
    | stray => rfl
    | bracket | block | quote | backquote => rw [hcase] at hs; cases hs

theorem scan_semicolon_append {c : Char} (h : (scan c []).1 = .semicolon) (rest : Text) :
    scan c ([] ++ rest) = scan c [] := by
  have hm := makes_scan c []
  rw [h] at hm
  cases ho : opening c [] with
  | single k =>
    rw [ho] at hm
    obtain rfl : Token.Kind.semicolon = k := hm
    obtain ⟨-, hk⟩ | ⟨rfl, -⟩ | ⟨-, hk⟩ := Opening.needs_of_eq ho
    · cases hk
    · rw [scan, scan, opening_semicolon, opening_semicolon]
      rfl
    · cases hk
  | _ => rw [ho] at hm; simp [Opening.Makes] at hm

/-! ## Texts that end with a semicolon -/

theorem getLast?_tokensWithin (p : Position) {c : Char} {t : Text} (h : afterFirst c t ≠ []) :
    (firstToken p c t :: tokensWithin (firstToken p c t).endPosition (afterFirst c t)).getLast? =
      (tokensWithin (firstToken p c t).endPosition (afterFirst c t)).getLast? := by
  cases hl : (tokensWithin (firstToken p c t).endPosition (afterFirst c t)).getLast? with
  | none =>
    have htext := text_tokensWithin (firstToken p c t).endPosition (afterFirst c t)
    rw [List.getLast?_eq_none_iff.mp hl] at htext
    exact absurd htext.symm h
  | some x => rw [List.getLast?_cons, hl, Option.getD_some]

section
variable {p : Position} {c : Char} {t : Text}

theorem scan_append_of_last {x : Token} (hend : (scan c t).2 = t.length)
    (hx : (firstToken p c t :: tokensWithin (firstToken p c t).endPosition (afterFirst c t)).getLast? = some x)
    (hk : x.kind = .semicolon) (b : Text) : scan c (t ++ b) = scan c t := by
  rw [afterFirst_eq_nil.mpr hend, tokensWithin_nil] at hx
  obtain rfl := Option.some.inj hx
  have hnil := scan_semicolon hk
  obtain rfl : t = [] := List.length_eq_zero_iff.mp (hend ▸ hnil)
  exact scan_semicolon_append hk b

theorem scan_append_of_not_last (hend : (scan c t).2 ≠ t.length)
    (ho : ∀ ts x us d, tokensAt p (c :: t) = ts ++ x :: us → x.kind = .unrecognized → x.lexeme = [d] →
      opening d (Token.text us) = .stray) (b : Text) : scan c (t ++ b) = scan c t := by
  refine scan_append_of_lt (Nat.lt_of_le_of_ne (scan_length_le c t) hend) (fun hk => ?_) b
  have hzero := scan_unrecognized hk
  have hopening := ho [] _ _ c (tokensAt_cons p c t) hk (by rw [firstToken, hzero, List.take_zero])
  rwa [text_tokensAt, afterFirst, hzero, List.drop_zero] at hopening

end

theorem tokensAt_append_of_semicolon {p : Position} {a : Text}
    (hlast : ∃ t, (tokensWithin p a).getLast? = some t ∧ t.kind = .semicolon)
    (ho : ∀ ts t us c, tokensAt p a = ts ++ t :: us → t.kind = .unrecognized → t.lexeme = [c] →
      opening c (Token.text us) = .stray) (b : Text) :
    tokensAt p (a ++ b) = tokensWithin p a ++ tokensAt (p.past a) b := by
  fun_induction tokensWithin p a with
  | case1 p =>
    obtain ⟨t, ht, -⟩ := hlast
    cases ht
  | case2 p c t ih =>
    obtain ⟨x, hx, hk⟩ := hlast
    have hscan : scan c (t ++ b) = scan c t := by
      by_cases hend : (scan c t).2 = t.length
      · exact scan_append_of_last hend hx hk b
      · exact scan_append_of_not_last hend ho b
    rw [List.cons_append, tokensAt_cons, firstToken_append hscan, afterFirst_append hscan]
    by_cases hend : afterFirst c t = []
    · rw [hend, tokensWithin_nil, List.nil_append, List.cons_append, List.nil_append, ← past_firstToken, hend,
        Position.past_nil]
    · have hothers := ih ⟨x, getLast?_tokensWithin p hend ▸ hx, hk⟩ fun ts x us d hsplit hk hl =>
        ho (firstToken p c t :: ts) x us d (by rw [tokensAt_cons, hsplit]; rfl) hk hl
      rw [hothers, past_firstToken, List.cons_append]

/-! ## Further on -/

/-- A position in a text, once `a` stands in front of it: the bytes and lines of `a` are added, and on the first line
the characters that stand behind the last line feed of `a`. -/
def Position.behind (a : Text) (p : Position) : Position where
  offset := (String.ofList a).utf8ByteSize + p.offset
  line := a.count '\n' + p.line
  column := if p.line = 1 then (a.rtakeWhile fun c => decide (c ≠ '\n')).length + p.column else p.column

def Token.behind (a : Text) (t : Token) : Token := { t with position := t.position.behind a }

theorem Position.start_behind (a : Text) : start.behind a = start.past a := by
  rw [past_start, behind, start, Nat.add_comm (a.count '\n')]
  rfl

theorem Position.next_behind {p : Position} (hp : 1 ≤ p.line) (a : Text) (c : Char) :
    (p.next c).behind a = (p.behind a).next c := by
  unfold next
  by_cases hc : c = '\n'
  · have hline : p.line + 1 ≠ 1 := by omega
    simp only [if_pos hc, behind, if_neg hline, Nat.add_assoc]
  · simp only [if_neg hc, behind, Nat.add_assoc]
    split <;> rfl

theorem Position.le_next_line (p : Position) (c : Char) : p.line ≤ (p.next c).line := by
  unfold next
  split
  · exact Nat.le_succ _
  · exact Nat.le_refl _

theorem Position.le_past_line (t : Text) : ∀ p : Position, p.line ≤ (p.past t).line := by
  induction t with
  | nil => exact fun p => Nat.le_refl _
  | cons c t ih => exact fun p => Nat.le_trans (p.le_next_line c) (ih (p.next c))

theorem Position.past_behind (a t : Text) : ∀ {p : Position}, 1 ≤ p.line →
    (p.past t).behind a = (p.behind a).past t := by
  induction t with
  | nil => exact fun _ => rfl
  | cons c t ih =>
    intro p hp
    rw [past_cons, past_cons, ← next_behind hp]
    exact ih (Nat.le_trans hp (p.le_next_line c))

theorem tokensAt_behind (a : Text) {p : Position} (hp : 1 ≤ p.line) (b : Text) :
    tokensAt (p.behind a) b = (tokensAt p b).map (Token.behind a) := by
  fun_induction tokensAt p b with
  | case1 p => rw [tokensAt_nil]; rfl
  | case2 p c t ih =>
    have hfirst : firstToken (p.behind a) c t = (firstToken p c t).behind a := rfl
    have hend : (firstToken (p.behind a) c t).endPosition = (firstToken p c t).endPosition.behind a :=
      (Position.past_behind a _ hp).symm
    rw [tokensAt_cons, hend, ih (Nat.le_trans hp (Position.le_past_line _ p)), hfirst, List.map_cons]

theorem tokenize_append {a : Text} (hlast : ∃ t, (tokenize a).dropLast.getLast? = some t ∧ t.kind = .semicolon)
    (ho : OpensNothing a) (b : Text) :
    tokenize (a ++ b) = (tokenize a).dropLast ++ (tokenize b).map (Token.behind a) := by
  rw [dropLast_tokenize] at hlast ⊢
  unfold tokenize
  rw [tokensAt_append_of_semicolon hlast (fun ts t us c hts hk hl => (ho.stray hts hk hl).1) b,
    ← Position.start_behind, tokensAt_behind a (Nat.le_refl 1)]

/-- Stray characters and a comment over two lines in front, and behind them a name whose backquote stands at once. -/
theorem tokenize_append_backquoted :
    let a := "? - /*é\n*/x;".toList
    let b := "`y\n` z".toList
    (∃ t, (tokenize a).dropLast.getLast? = some t ∧ t.kind = .semicolon) ∧ OpensNothing a ∧
      tokenize (a ++ b) = (tokenize a).dropLast ++
        [⟨.backquoted, "`y\n`".toList, ⟨13, 2, 4⟩⟩, ⟨.whitespace, [' '], ⟨17, 3, 1⟩⟩, ⟨.identifier, ['z'], ⟨18, 3, 2⟩⟩,
          .endOfInput ⟨19, 3, 3⟩] := by
  intro a b
  have hlast : ∃ t, (tokenize a).dropLast.getLast? = some t ∧ t.kind = .semicolon :=
    ⟨⟨.semicolon, [';'], ⟨12, 2, 3⟩⟩, by decide +kernel, rfl⟩
  have ho : OpensNothing a := by decide +kernel
  exact ⟨hlast, ho, (tokenize_append hlast ho b).trans (congrArg _ (by decide +kernel))⟩

end PipelineScript
