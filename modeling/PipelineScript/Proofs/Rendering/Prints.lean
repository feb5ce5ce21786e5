import PipelineScript.Proofs.Lexing.Encoded
import PipelineScript.Proofs.Rendering.Normal
import PipelineScript.Proofs.Rendering.Readable
import PipelineScript.Proofs.Syntax.SourceText

/-!
# Written tokens

`Prints u rest P`: the text `u`, with `rest` behind it, is lexed into tokens of
its own, and the significant ones among them satisfy `P`.
-/

namespace PipelineScript

open Syntax

def Prints (u rest : Text) (P : List Token → Prop) : Prop :=
  ∀ p, ∃ ts, tokensAt p (u ++ rest) = ts ++ tokensAt (p.past u) rest ∧ (∀ t ∈ ts, t.IsInner) ∧
    P (Token.significant ts)

def Solid (t : Text) : Prop := ∃ c u, t = c :: u ∧ Text.isBlank c = false

theorem Solid.append {t : Text} (h : Solid t) (rest : Text) : Solid (t ++ rest) := by
  obtain ⟨c, u, rfl, hc⟩ := h
  exact ⟨c, u ++ rest, rfl, hc⟩

namespace Prints

variable {u v rest : Text} {P Q : List Token → Prop}

theorem mono (h : Prints u rest P) (hPQ : ∀ w, P w → Q w) : Prints u rest Q := by
  intro p
  obtain ⟨ts, hts, hi, hP⟩ := h p
  exact ⟨ts, hts, hi, hPQ _ hP⟩

theorem append (hu : Prints u (v ++ rest) P) (hv : Prints v rest Q) :
    Prints (u ++ v) rest fun w => ∃ a b, w = a ++ b ∧ P a ∧ Q b := by
  intro p
  obtain ⟨ts, hts, hi, hP⟩ := hu p
  obtain ⟨us, hus, hj, hQ⟩ := hv (p.past u)
  refine ⟨ts ++ us, ?_, ?_, _, _, Token.significant_append ts us, hP, hQ⟩
  · rw [List.append_assoc, hts, hus, List.append_assoc, Position.past_append]
  · intro t ht
    rcases List.mem_append.mp ht with ht | ht
    · exact hi t ht
    · exact hj t ht

theorem nil (rest : Text) : Prints [] rest fun w => w = [] :=
  fun _ => ⟨[], rfl, nofun, rfl⟩

theorem significant {c : Char} {t : Text} {k : Token.Kind} (hs : scan c (t ++ rest) = (k, t.length))
    (hi : k ≠ .semicolon ∧ k ≠ .endOfInput) (hk : k.isSignificant = true) :
    Prints (c :: t) rest fun w => ∃ x : Token, w = [x] ∧ x.kind = k ∧ x.lexeme = c :: t := by
  intro p
  refine ⟨[⟨k, c :: t, p⟩], tokensAt_of_scan hs p, ?_, ⟨k, c :: t, p⟩, ?_, rfl, rfl⟩
  · intro x hm
    obtain rfl := List.mem_singleton.mp hm
    exact hi
  · exact Token.significant_cons (t := ⟨k, c :: t, p⟩) hk []

theorem scan_blank (hr : Solid rest) {c : Char} (hc : Text.isBlank c = true) :
    scan c ([] ++ rest) = (.whitespace, 0) := by
  obtain ⟨d, u, rfl, hd⟩ := hr
  rw [scan, opening_blank hc]
  simp [Opening.extent, hd]

theorem blank (hr : Solid rest) : Prints [' '] rest fun w => w = [] := by
  intro p
  have hs := scan_blank hr (c := ' ') (by decide)
  refine ⟨[⟨.whitespace, [' '], p⟩], tokensAt_of_scan hs p, ?_, rfl⟩
  intro x hm
  obtain rfl := List.mem_singleton.mp hm
  exact ⟨nofun, nofun⟩

theorem spaced (hu : Solid u) (h : Prints u rest P) : Prints (' ' :: u) rest P := by
  refine mono (append (blank (hu.append rest)) h) ?_
  rintro _ ⟨_, b, rfl, rfl, hb⟩
  exact hb

theorem dot (rest : Text) : Prints ['.'] rest fun w => ∃ t : Terminal [.dot], w = [t.token] := by
  have hs : scan '.' ([] ++ rest) = (.dot, 0) := by rw [scan, opening_dot]; rfl
  refine mono (significant (t := []) hs (by simp) rfl) ?_
  rintro _ ⟨x, rfl, hk, -⟩
  exact ⟨⟨x, List.mem_singleton.mpr hk⟩, rfl⟩

theorem equals (rest : Text) : Prints ['='] rest fun w => ∃ t : Terminal [.equals], w = [t.token] := by
  have hs : scan '=' ([] ++ rest) = (.equals, 0) := by rw [scan, opening_equals]; rfl
  refine mono (significant (t := []) hs (by simp) rfl) ?_
  rintro _ ⟨x, rfl, hk, -⟩
  exact ⟨⟨x, List.mem_singleton.mpr hk⟩, rfl⟩

end Prints

/-! ## Words -/

theorem takeWhile_word_append {t rest : Text} (ht : t.all Text.isWordChar = true) (hr : Breaks rest) :
    (t ++ rest).takeWhile Text.isWordChar = t := by
  rw [List.takeWhile_append_of_pos (by simpa using ht), hr.takeWhile_word, List.append_nil]

theorem scan_word {c : Char} {t rest : Text} (hc : Text.isWordChar c = true) (ht : t.all Text.isWordChar = true)
    (hr : Breaks rest) : scan c (t ++ rest) =
      (match Keyword.ofWord? (c :: t) with | some k => .keyword k | none => .identifier, t.length) := by
  rw [scan, opening_word hc, Opening.extent, scanWord, takeWhile_word_append ht hr]
  cases Keyword.ofWord? (c :: t) <;> rfl

theorem Keyword.canonical_eq_cons (k : Keyword) : ∃ c t, Statement.word k = c :: t ∧
    Text.isWordChar c = true ∧ t.all Text.isWordChar = true ∧ ofWord? (c :: t) = some k := by
  have hw : ofWord? (Statement.word k) = some k := ofWord?_eq_some_iff.mpr List.mem_cons_self
  have ha : (Statement.word k).all Text.isWordChar = true := by cases k <;> decide
  have hne : Statement.word k ≠ [] := by cases k <;> decide
  obtain ⟨c, t, hct⟩ := List.exists_cons_of_ne_nil hne
  rw [hct] at ha hw
  rw [List.all_cons, Bool.and_eq_true] at ha
  exact ⟨c, t, hct, ha.1, ha.2, hw⟩

theorem isBlank_of_isWordChar {c : Char} (h : Text.isWordChar c = true) : Text.isBlank c = false := by
  cases hb : Text.isBlank c with
  | false => rfl
  | true => rw [Text.isWordChar_of_isBlank hb] at h; cases h

theorem Keyword.solid_word (k : Keyword) : Solid (Statement.word k) := by
  obtain ⟨c, t, h, hc, -⟩ := k.canonical_eq_cons
  exact ⟨c, t, h, isBlank_of_isWordChar hc⟩

theorem Prints.keyword (k : Keyword) {rest : Text} (hr : Breaks rest) :
    Prints (Statement.word k) rest fun w => ∃ t : Token, w = [t] ∧ t.kind = .keyword k := by
  obtain ⟨c, t, h, hc, ht, hk⟩ := k.canonical_eq_cons
  have hs := scan_word hc ht hr
  rw [hk] at hs
  rw [h]
  refine (Prints.significant hs (by simp) rfl).mono ?_
  rintro _ ⟨x, rfl, hx, -⟩
  exact ⟨x, rfl, hx⟩

theorem Prints.terminal (k : Keyword) {rest : Text} (hr : Breaks rest) :
    Prints (Statement.word k) rest fun w => ∃ t : Terminal [.keyword k], w = [t.token] := by
  refine (Prints.keyword k hr).mono ?_
  rintro _ ⟨x, rfl, hx⟩
  exact ⟨⟨x, List.mem_singleton.mpr hx⟩, rfl⟩

theorem Prints.terminal_spaced (k : Keyword) {rest : Text} (hr : Solid rest) :
    Prints (' ' :: (Statement.word k ++ [' '])) rest fun w => ∃ t : Terminal [.keyword k], w = [t.token] := by
  refine Prints.spaced (k.solid_word.append _) ?_
  refine ((Prints.terminal k (breaks_cons (by simp) rest)).append (Prints.blank hr)).mono ?_
  rintro _ ⟨_, _, rfl, ⟨t, rfl⟩, rfl⟩
  exact ⟨t, rfl⟩

/-! ## Names -/

theorem Syntax.Ident.name_eq (i : Ident) {v : Text} {b : Bool} (hv : i.token.value = v)
    (hb : (i.token.kind == .backquoted) = b) : i.name = ⟨v, b⟩ := by
  rw [← hv, ← hb]
  rfl

namespace Name

theorem solid_render {n : Name} (h : n.IsReadable) : Solid n.render := by
  unfold render
  split
  · exact ⟨'\x60', _, rfl, by decide⟩
  · next hq =>
    obtain ⟨c, t, hct⟩ := List.exists_cons_of_ne_nil h
    refine ⟨c, t, hct, isBlank_of_isWordChar ?_⟩
    simp only [needsQuotes, Text.isWord, hct, List.all_cons] at hq
    simp only [List.isEmpty_cons, Bool.not_false, Bool.true_and, Bool.or_eq_true, Bool.not_eq_true', not_or,
      Bool.not_eq_false, Bool.and_eq_true] at hq
    exact hq.2.1.1

theorem prints_quoted {n : Name} (h : n.IsReadable) (hq : (n.quoted || needsQuotes n.value) = true) {rest : Text}
    (hr : Breaks rest) : Prints n.render rest fun w => ∃ i : Ident, w = [i.token] ∧ i.name = n.normal := by
  have hs := scan_backquoted n.value (hr.head_ne (by decide))
  have hrender : n.render = Literal.Backquoted.encode n.value := by rw [render, if_pos hq]
  rw [hrender]
  refine (Prints.significant hs (by simp) rfl).mono ?_
  rintro _ ⟨x, rfl, hk, hx⟩
  have hv : x.value = n.value := by
    rw [Token.value, hk, hx]
    exact Literal.Backquoted.decode_encode n.value
  refine ⟨⟨x, .inr ⟨hk, fun he => h (hv.symm.trans he)⟩⟩, rfl, ?_⟩
  rw [normal, hq]
  exact Ident.name_eq _ hv (beq_iff_eq.mpr hk)

theorem prints_bare {n : Name} (hq : (n.quoted || needsQuotes n.value) = false) {rest : Text} (hr : Breaks rest) :
    Prints n.render rest fun w => ∃ i : Ident, w = [i.token] ∧ i.name = n.normal := by
  obtain ⟨c, t, hn, hc, ht, hk⟩ : ∃ c t, n.value = c :: t ∧ Text.isWordChar c = true ∧
      t.all Text.isWordChar = true ∧ Keyword.ofWord? (c :: t) = none := by
    have hw := (Bool.or_eq_false_iff.mp hq).2
    simp only [needsQuotes, Text.isWord, Bool.or_eq_false_iff, Bool.not_eq_false', Bool.and_eq_true,
      Bool.not_eq_true', List.isEmpty_eq_false_iff] at hw
    obtain ⟨⟨hne, ha⟩, hk⟩ := hw
    obtain ⟨c, t, hct⟩ := List.exists_cons_of_ne_nil hne
    rw [hct, List.all_cons, Bool.and_eq_true] at ha
    rw [hct, Option.isSome_eq_false_iff, Option.isNone_iff_eq_none] at hk
    exact ⟨c, t, hct, ha.1, ha.2, hk⟩
  have hs := scan_word hc ht hr
  rw [hk] at hs
  have hrender : n.render = c :: t := by rw [render, hq, hn]; rfl
  rw [hrender]
  refine (Prints.significant hs (by simp) rfl).mono ?_
  rintro _ ⟨x, rfl, hx, hl⟩
  refine ⟨⟨x, .inl hx⟩, rfl, ?_⟩
  have hv : x.value = n.value := by rw [Token.value, hx, hl, hn]
  rw [normal, hq]
  exact Ident.name_eq _ hv (by simp [hx])

theorem prints {n : Name} (h : n.IsReadable) {rest : Text} (hr : Breaks rest) :
    Prints n.render rest fun w => ∃ i : Ident, w = [i.token] ∧ i.name = n.normal := by
  cases hq : n.quoted || needsQuotes n.value with
  | true => exact prints_quoted h hq hr
  | false => exact prints_bare hq hr

end Name

namespace Prints

theorem string (v rest : Text) :
    Prints (Literal.Quoted.encode v) rest fun w => ∃ t : Terminal [.string], w = [t.token] ∧ t.token.value = v := by
  refine mono (significant (scan_quoted v rest) (by simp) rfl) ?_
  rintro _ ⟨x, rfl, hk, hx⟩
  have hv : x.value = v := by
    rw [Token.value, hk, hx]
    exact Literal.Quoted.decode_encode v
  exact ⟨⟨x, List.mem_singleton.mpr hk⟩, rfl, hv⟩

theorem block {v : Text} (h : Literal.Block.IsPlain v) (rest : Text) :
    Prints (Literal.Block.encode v) rest fun w =>
      ∃ t : Terminal [.blockString], w = [t.token] ∧ t.token.value = v := by
  have hs : scan '\x27' ('\x27' :: '\x27' :: (v ++ ['\x27', '\x27', '\x27']) ++ rest) =
      (.blockString, ('\x27' :: '\x27' :: (v ++ ['\x27', '\x27', '\x27'])).length) := by
    rw [scan, List.cons_append, List.cons_append, opening_block, Opening.extent, List.append_assoc]
    have hc := Literal.Block.close?_of_isPlain rest h
    simp only [List.drop_succ_cons, List.drop_zero, List.cons_append, List.nil_append, hc, scanClosed,
      List.length_cons, List.length_append, List.length_nil, Prod.mk.injEq, true_and]
    omega
  refine mono (significant hs (by simp) rfl) ?_
  rintro _ ⟨x, rfl, hk, hx⟩
  have hv : x.value = v := by
    rw [Token.value, hk, hx]
    exact Literal.Block.decode_encode v
  exact ⟨⟨x, List.mem_singleton.mpr hk⟩, rfl, hv⟩

end Prints

end PipelineScript
