import PipelineScript.Token.Lexer

/-!
# How a token starts

Which rule scans a token is settled by its first character and the two behind it.
-/

namespace PipelineScript

theorem take_takeWhile (p : Char → Bool) (t : Text) : t.take (t.takeWhile p).length = t.takeWhile p :=
  (List.prefix_iff_eq_take.mp (List.takeWhile_prefix p)).symm

def Opening.Needs (c : Char) (t : Text) : Opening → Prop
  | blank => Text.isBlank c = true
  | line => (c = '-' ∨ c = '/') ∧ t.head? = some c
  | bracket => c = '/' ∧ t.head? = some '*'
  | single kind => c = '.' ∧ kind = .dot ∨ c = ';' ∧ kind = .semicolon ∨ c = '=' ∧ kind = .equals
  | block => c = '\x27' ∧ t.take 2 = ['\x27', '\x27']
  | quote => c = '"' ∨ c = '\x27'
  | backquote => c = '\x60'
  | word => Text.isWordChar c = true
  | stray => True

theorem Opening.needs_ite {c : Char} {t : Text} {p : Prop} [Decidable p] {o o' : Opening}
    (h : p → o.Needs c t) (h' : ¬ p → o'.Needs c t) : (if p then o else o').Needs c t := by
  by_cases hp : p
  · rw [if_pos hp]
    exact h hp
  · rw [if_neg hp]
    exact h' hp

theorem opening_needs (c : Char) (t : Text) : (opening c t).Needs c t := by
  unfold opening
  refine Opening.needs_ite id fun _ => Opening.needs_ite id fun _ => Opening.needs_ite id fun _ => ?_
  refine Opening.needs_ite (fun h => .inl ⟨h, rfl⟩) fun _ => ?_
  refine Opening.needs_ite (fun h => .inr (.inl ⟨h, rfl⟩)) fun _ => ?_
  refine Opening.needs_ite (fun h => .inr (.inr ⟨h, rfl⟩)) fun _ => ?_
  refine Opening.needs_ite id fun _ => Opening.needs_ite id fun _ => Opening.needs_ite id fun _ => ?_
  exact Opening.needs_ite id fun _ => trivial

theorem Opening.needs_of_eq {c : Char} {t : Text} {o : Opening} (h : opening c t = o) : o.Needs c t :=
  h ▸ opening_needs c t

theorem opening_blank {c : Char} (h : Text.isBlank c = true) (t : Text) : opening c t = .blank := if_pos h

theorem opening_word {c : Char} (h : Text.isWordChar c = true) (t : Text) : opening c t = .word := by
  have hb : Text.isBlank c = false := by
    cases hb : Text.isBlank c with
    | false => rfl
    | true => rw [Text.isWordChar_of_isBlank hb] at h; cases h
  have hne : ∀ d, Text.isWordChar d = false → c ≠ d := fun d hd e => by
    rw [e, hd] at h
    cases h
  simp [opening, hb, h, hne '-' (by decide), hne '/' (by decide), hne '.' (by decide), hne ';' (by decide),
    hne '=' (by decide), hne '\x27' (by decide), hne '"' (by decide), hne '\x60' (by decide)]

theorem opening_line {c : Char} (h : c = '-' ∨ c = '/') (t : Text) : opening c (c :: t) = .line := by
  rcases h with rfl | rfl <;> simp [opening, Text.isBlank, Text.blankRanges]

theorem opening_quote (t : Text) : opening '"' t = .quote := by
  simp [opening, Text.isBlank, Text.blankRanges]

theorem opening_backquote (t : Text) : opening '\x60' t = .backquote := by
  simp [opening, Text.isBlank, Text.blankRanges]

theorem opening_block (t : Text) : opening '\x27' ('\x27' :: '\x27' :: t) = .block := by
  simp [opening, Text.isBlank, Text.blankRanges]

theorem opening_dot (t : Text) : opening '.' t = .single .dot := by
  simp [opening, Text.isBlank, Text.blankRanges]

theorem opening_equals (t : Text) : opening '=' t = .single .equals := by
  simp [opening, Text.isBlank, Text.blankRanges]

theorem opening_semicolon (t : Text) : opening ';' t = .single .semicolon := by
  simp [opening, Text.isBlank, Text.blankRanges]

theorem opening_single {c : Char} {t : Text} {k : Token.Kind} (h : opening c t = .single k) :
    k = .dot ∨ k = .semicolon ∨ k = .equals :=
  (Opening.needs_of_eq h).imp And.right (Or.imp And.right And.right)

/-! ## The kinds that a rule makes -/

def Opening.Makes (k : Token.Kind) : Opening → Prop
  | blank => k = .whitespace
  | line => k = .lineComment
  | bracket => k = .emptyComment ∨ k = .bracketedComment ∨ k = .unrecognized
  | single kind => k = kind
  | block => k = .blockString ∨ k = .unrecognized
  | quote => k = .string ∨ k = .unrecognized
  | backquote => k = .backquoted ∨ k = .unrecognized
  | word => (∃ w, k = .keyword w) ∨ k = .identifier
  | stray => k = .unrecognized

theorem scanClosed_makes (k : Token.Kind) (n : Nat) (o : Option Nat) :
    (scanClosed k n o).1 = k ∨ (scanClosed k n o).1 = .unrecognized := by
  cases o
  · exact .inr rfl
  · exact .inl rfl

theorem scanWord_snd (c : Char) (t : Text) : (scanWord c t).2 = (t.takeWhile Text.isWordChar).length := by
  simp only [scanWord]
  split <;> rfl

theorem scanWord_ne_unrecognized (c : Char) (t : Text) : (scanWord c t).1 ≠ .unrecognized := by
  simp only [scanWord]
  split <;> simp

theorem Opening.makes_extent (c : Char) (t : Text) (o : Opening) : o.Makes (o.extent c t).1 := by
  cases o with
  | bracket =>
    simp only [Makes, extent, scanComment]
    split
    · exact (scanClosed_makes ..).imp_right .inr
    · exact .inr (scanClosed_makes ..)
  | block | quote | backquote => exact scanClosed_makes ..
  | word =>
    simp only [Makes, extent, scanWord]
    split
    · exact .inl ⟨_, rfl⟩
    · exact .inr rfl
  | blank | line | single | stray => exact rfl

theorem makes_scan (c : Char) (t : Text) : (opening c t).Makes (scan c t).1 := by
  rw [scan]
  exact Opening.makes_extent ..

theorem opening_of_kind {c : Char} {t : Text} {k : Token.Kind} {o : Opening} (h : (scan c t).1 = k)
    (hk : k ∉ [Token.Kind.dot, .semicolon, .equals])
    (ho : ∀ o' : Opening, o'.Makes k → (∀ k', o' ≠ .single k') → o' = o) : opening c t = o := by
  have hm := makes_scan c t
  rw [h] at hm
  refine ho _ hm fun k' hs => hk ?_
  rw [hs] at hm
  rw [show k = k' from hm]
  simpa using opening_single hs

theorem opening_eq_stray {c : Char} {t : Text} (h : (scan c t).1 = .unrecognized)
    (hd : c ≠ '"') (hs : c ≠ '\x27') (hb : c ≠ '\x60') (hc : ¬ (c = '/' ∧ t.head? = some '*')) :
    opening c t = .stray := by
  have hm := makes_scan c t
  rw [h] at hm
  cases ho : opening c t with
  | stray => rfl
  | bracket => exact absurd (Opening.needs_of_eq ho) hc
  | block => exact absurd (Opening.needs_of_eq ho).1 hs
  | quote => rcases Opening.needs_of_eq ho with e | e <;> contradiction
  | backquote => exact absurd (Opening.needs_of_eq ho) hb
  | single k => rcases opening_single ho with rfl | rfl | rfl <;> (rw [ho] at hm; cases hm)
  | blank | line | word => rw [ho] at hm; simp [Opening.Makes] at hm

theorem scan_ne_endOfInput (c : Char) (t : Text) : (scan c t).1 ≠ .endOfInput := by
  intro h
  have hm := makes_scan c t
  rw [h] at hm
  cases ho : opening c t with
  | single k => rcases opening_single ho with rfl | rfl | rfl <;> (rw [ho] at hm; cases hm)
  | _ => rw [ho] at hm; simp [Opening.Makes] at hm

theorem scan_semicolon {c : Char} {t : Text} (h : (scan c t).1 = .semicolon) : (scan c t).2 = 0 := by
  have hm := makes_scan c t
  rw [h] at hm
  cases ho : opening c t with
  | single k => rw [scan, ho]; rfl
  | _ => rw [ho] at hm; simp [Opening.Makes] at hm

end PipelineScript
