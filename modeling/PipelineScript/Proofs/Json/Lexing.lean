import Mathlib.Data.List.Chain
import Mathlib.Data.Option.Basic
import PipelineScript.Proofs.Json.Written

/-!
# Lexing written values

In the lexemes of a value no number stands right behind another one, so a text
that writes it is cut into these lexemes again. Main statement: `parse?_written`.
-/

namespace PipelineScript.Json

/-! ## Texts -/

theorem hexValue?_hexDigit : ∀ n < 32, hexValue? '0' '0' (hexDigit (n / 16)) (hexDigit (n % 16)) = some n := by
  decide

theorem codePoints?_short {c e : Char} (he : escaped? e = some c) (hu : e ≠ 'u') (u : Text) :
    codePoints? ('\\' :: e :: u) = (codePoints? u).map fun r => (c.toNat :: r.1, r.2 + 2) := by
  rw [codePoints?.eq_def]
  simp [he, hu, Option.map_eq_bind]

theorem codePoints?_hex {a b c d : Char} {p : Nat} (hp : hexValue? a b c d = some p) (u : Text) :
    codePoints? ('\\' :: 'u' :: a :: b :: c :: d :: u) = (codePoints? u).map fun r => (p :: r.1, r.2 + 6) := by
  rw [codePoints?.eq_def]
  simp [hp, Option.map_eq_bind]

theorem codePoints?_plain {c : Char} (hq : c ≠ '"') (hs : c ≠ '\\') (hc : 32 ≤ c.toNat) (u : Text) :
    codePoints? (c :: u) = (codePoints? u).map fun r => (c.toNat :: r.1, r.2 + 1) := by
  rw [codePoints?.eq_def]
  simp [hq, hs, Nat.not_lt.mpr hc]

theorem codePoints?_quote (u : Text) : codePoints? ('"' :: u) = some ([], 1) := by
  rw [codePoints?.eq_def]
  rfl

theorem codePoints?_escapeChar (c : Char) (u : Text) : codePoints? (escapeChar c ++ u) =
    (codePoints? u).map fun r => (c.toNat :: r.1, r.2 + (escapeChar c).length) := by
  unfold escapeChar
  split
  · exact codePoints?_short rfl (by decide) u
  · exact codePoints?_short rfl (by decide) u
  · exact codePoints?_short rfl (by decide) u
  · exact codePoints?_short rfl (by decide) u
  · exact codePoints?_short rfl (by decide) u
  · exact codePoints?_short rfl (by decide) u
  · exact codePoints?_short rfl (by decide) u
  · next hq hs _ _ _ _ _ =>
    split
    · next hc => exact codePoints?_hex (hexValue?_hexDigit c.toNat hc) u
    · next hc => exact codePoints?_plain hq hs (Nat.le_of_not_lt hc) u

theorem codePoints?_escaped (rest : Text) : ∀ t : Text, codePoints? (t.flatMap escapeChar ++ '"' :: rest) =
    some (t.map Char.toNat, (t.flatMap escapeChar).length + 1)
  | [] => codePoints?_quote rest
  | c :: t => by
    rw [List.flatMap_cons, List.append_assoc, codePoints?_escapeChar, codePoints?_escaped rest t, Option.map_some,
      List.map_cons, List.length_append]
    congr 2
    omega

theorem not_surrogate (c : Char) : isHighSurrogate c.toNat = false ∧ isLowSurrogate c.toNat = false := by
  have hv : c.toNat < 0xD800 ∨ 0xDFFF < c.toNat ∧ c.toNat < 0x110000 := c.valid
  simp only [isHighSurrogate, isLowSurrogate, Bool.and_eq_false_iff, decide_eq_false_iff_not]
  omega

theorem characters?_map : ∀ t : Text, characters? (t.map Char.toNat) = some t
  | [] => rfl
  | [c] => by simp [characters?, not_surrogate, Char.ofNat_toNat]
  | c :: d :: t => by
    have ht := characters?_map (d :: t)
    rw [List.map_cons] at ht
    simp [characters?, not_surrogate, Char.ofNat_toNat, ht]

/-! ## Numbers -/

def continuesNumber (c : Char) : Bool := c.isDigit || c == '.' || c == 'e' || c == 'E'

theorem continuesNumber_of_isBlank {c : Char} (h : isBlank c = true) : continuesNumber c = false := by
  simp only [isBlank, Bool.or_eq_true, beq_iff_eq] at h
  rcases h with ((rfl | rfl) | rfl) | rfl <;> rfl

theorem toList_toString (n : Nat) : (toString n).toList = Nat.toDigits 10 n := by
  rw [Nat.toString_eq_ofList_toDigits, String.toList_ofList]

theorem isDigit_toDigits (n : Nat) : ∀ c ∈ Nat.toDigits 10 n, c.isDigit = true :=
  fun _ hc => Nat.isDigit_of_mem_toDigits (by omega) (by omega) hc

theorem digitsValue_toDigits (n : Nat) : Number.digitsValue (Nat.toDigits 10 n) = n := by
  have h := Nat.ofDigitChars_ten_toDigits (n := n)
  rwa [Nat.ofDigitChars_eq_foldl] at h

theorem eq_zero_of_toDigits (n : Nat) {t : Text} (h : Nat.toDigits 10 n = '0' :: t) : n = 0 := by
  -- the first digit of a number of several digits is that of its tenth
  induction n using Nat.strongRecOn generalizing t with
  | _ n ih =>
    rcases Nat.lt_or_ge n 10 with hn | hn
    · rw [Nat.toDigits_of_lt_base hn] at h
      have hd : Nat.digitChar n = '0' := List.head_eq_of_cons_eq h
      exact (by decide : ∀ d < 10, Nat.digitChar d = '0' → d = 0) n hn hd
    · rw [Nat.toDigits_of_base_le (by omega) hn] at h
      obtain ⟨c, u, hu⟩ := List.exists_cons_of_ne_nil (Nat.toDigits_ne_nil (n := n / 10) (b := 10))
      rw [hu, List.cons_append] at h
      have := ih (n / 10) (by omega) (List.head_eq_of_cons_eq h ▸ hu)
      omega

def EndsNumber (rest : Text) : Prop := ∀ c ∈ rest.head?, continuesNumber c = false

theorem takeWhile_digits {ds rest : Text} (hds : ∀ c ∈ ds, c.isDigit = true) (hrest : EndsNumber rest) :
    (ds ++ rest).takeWhile Char.isDigit = ds := by
  have h : rest.takeWhile Char.isDigit = [] := by
    cases rest with
    | nil => rfl
    | cons c rest =>
      have hc := hrest c rfl
      simp only [continuesNumber, Bool.or_eq_false_iff] at hc
      rw [List.takeWhile_cons_of_neg (by simp [hc])]
  rw [List.takeWhile_append_of_pos hds, h, List.append_nil]

theorem unsignedWidth?_digits {ds rest : Text} (hds : ∀ c ∈ ds, c.isDigit = true) (hne : ds ≠ [])
    (hzero : ∀ t, ds = '0' :: t → t = []) (hrest : EndsNumber rest) :
    Number.unsignedWidth? (ds ++ rest) = some (ds.length, true) := by
  have hwhole : Number.wholeWidth? (ds ++ rest) = some ds.length := by
    unfold Number.wholeWidth?
    split
    · next t h =>
      obtain ⟨d, ds, rfl⟩ := List.exists_cons_of_ne_nil hne
      obtain rfl : d = '0' := List.head_eq_of_cons_eq h
      rw [hzero ds rfl]
      rfl
    · rw [Number.digitsWidth, takeWhile_digits hds hrest, if_neg (by simpa using hne)]
  have hfraction : Number.fractionWidth? rest = some 0 := by
    unfold Number.fractionWidth?
    split
    · exact absurd (hrest '.' rfl) (by decide)
    · rfl
  have hexponent : Number.exponentWidth? rest = some 0 := by
    unfold Number.exponentWidth?
    split
    · rfl
    · next c t =>
      have hc := hrest c rfl
      rw [if_neg]
      rintro (rfl | rfl) <;> exact absurd hc (by decide)
  simp [Number.unsignedWidth?, hwhole, hfraction, hexponent]

theorem number?_toDigits (n : Nat) {rest : Text} (hrest : EndsNumber rest) :
    number? (Nat.toDigits 10 n ++ rest) = some (nat n, (Nat.toDigits 10 n).length) := by
  have hds := isDigit_toDigits n
  have hne : Nat.toDigits 10 n ≠ [] := Nat.toDigits_ne_nil
  have hwidth := unsignedWidth?_digits hds hne (fun t ht => by
    rw [eq_zero_of_toDigits n ht, Nat.toDigits_zero] at ht
    exact (List.tail_eq_of_cons_eq ht).symm) hrest
  unfold number?
  split
  · next u h =>
    obtain ⟨c, t, ht⟩ := List.exists_cons_of_ne_nil hne
    rw [ht, List.cons_append] at h
    obtain rfl : c = '-' := List.head_eq_of_cons_eq h
    exact absurd (hds '-' (ht ▸ List.mem_cons_self)) (by decide)
  · simp [hwidth, digitsValue_toDigits]

inductive Lexeme.IsLegible : Lexeme → Prop
  | openObject : IsLegible .openObject
  | closeObject : IsLegible .closeObject
  | openArray : IsLegible .openArray
  | closeArray : IsLegible .closeArray
  | colon : IsLegible .colon
  | comma : IsLegible .comma
  | null : IsLegible (.atom null)
  | bool (b : Bool) : IsLegible (.atom (bool b))
  | nat (n : Nat) : IsLegible (.atom (nat n))
  | string (t : Text) : IsLegible (.string (some t))

def Lexeme.isNumber : Lexeme → Bool
  | atom (nat _) => true
  | _ => false

theorem lexeme?_digit {c : Char} (hc : c.isDigit = true) (t : Text) :
    lexeme? c t = (number? (c :: t)).map fun r => (.atom r.1, r.2 - 1) := by
  unfold lexeme?
  split <;> first | rfl | exact absurd hc (by decide)

theorem lexeme?_written {l : Lexeme} (hl : l.IsLegible) {rest : Text} (hrest : l.isNumber = true → EndsNumber rest) :
    ∃ c w, l.written = c :: w ∧ isBlank c = false ∧ lexeme? c (w ++ rest) = some (l, w.length) := by
  cases hl with
  | openObject | closeObject | openArray | closeArray | colon | comma => exact ⟨_, _, rfl, rfl, rfl⟩
  | null => exact ⟨'n', ['u', 'l', 'l'], rfl, rfl, rfl⟩
  | bool b =>
    cases b with
    | false => exact ⟨'f', ['a', 'l', 's', 'e'], rfl, rfl, rfl⟩
    | true => exact ⟨'t', ['r', 'u', 'e'], rfl, rfl, rfl⟩
  | nat n =>
    obtain ⟨c, w, hn⟩ := List.exists_cons_of_ne_nil (Nat.toDigits_ne_nil (n := n) (b := 10))
    have hc : c.isDigit = true := isDigit_toDigits n c (hn ▸ List.mem_cons_self)
    have h := number?_toDigits n (hrest rfl)
    rw [hn, List.cons_append] at h
    have hblank : isBlank c = false := by
      rw [Bool.eq_false_iff]
      intro hb
      simpa [continuesNumber, hc] using continuesNumber_of_isBlank hb
    exact ⟨c, w, (toList_toString n).trans hn, hblank, by rw [lexeme?_digit hc, h]; rfl⟩
  | string t =>
    refine ⟨'"', t.flatMap escapeChar ++ ['"'], rfl, rfl, ?_⟩
    simp [lexeme?, codePoints?_escaped rest t, characters?_map]

/-! ## Texts of lexemes -/

theorem lexemes?_blanks {blanks : Text} (hb : ∀ c ∈ blanks, isBlank c = true) (t : Text) :
    lexemes? (blanks ++ t) = lexemes? t := by
  induction blanks with
  | nil => rfl
  | cons c cs ih =>
    rw [List.cons_append, lexemes?, if_pos (hb c List.mem_cons_self)]
    exact ih fun d hd => hb d (List.mem_cons_of_mem c hd)

def Apart : List Lexeme → Prop := List.IsChain fun l m => l.isNumber = true → m.isNumber = false

theorem endsNumber_written {l : Lexeme} (hl : l.IsLegible) (hn : l.isNumber = false) (rest : Text) :
    EndsNumber (l.written ++ rest) := by
  intro c hc
  cases hl with
  | openObject | closeObject | openArray | closeArray | colon | comma | null | string =>
    obtain rfl := Option.some.inj hc
    rfl
  | bool b => cases b <;> (obtain rfl := Option.some.inj hc; rfl)
  | nat => cases hn

theorem EndsNumber.blanks_append {blanks : Text} (hb : ∀ c ∈ blanks, isBlank c = true) {rest : Text}
    (h : EndsNumber rest) : EndsNumber (blanks ++ rest) := by
  cases blanks with
  | nil => exact h
  | cons c blanks =>
    intro d hd
    obtain rfl := Option.some.inj hd
    exact continuesNumber_of_isBlank (hb c List.mem_cons_self)

theorem Spaced.endsNumber {ls : List Lexeme} {t : Text} (h : Spaced ls t) (hls : ∀ l ∈ ls, l.IsLegible)
    (hhead : ∀ l ∈ ls.head?, l.isNumber = false) : EndsNumber t := by
  cases h with
  | nil hb =>
    have hend : EndsNumber [] := nofun
    simpa using hend.blanks_append hb
  | cons hb l h => exact (endsNumber_written (hls l List.mem_cons_self) (hhead l rfl) _).blanks_append hb

theorem lexemes?_spaced {ls : List Lexeme} {t : Text} (h : Spaced ls t) (hls : ∀ l ∈ ls, l.IsLegible)
    (ha : Apart ls) : lexemes? t = some ls := by
  induction h with
  | nil hb =>
    have h := lexemes?_blanks hb []
    rwa [List.append_nil, lexemes?] at h
  | @cons blanks hb l ls t h ih =>
    have hrest : ∀ m ∈ ls, m.IsLegible := fun m hm => hls m (List.mem_cons_of_mem l hm)
    -- no number follows a number, so what does follow it cannot continue it
    have hend : l.isNumber = true → EndsNumber t := fun hn =>
      h.endsNumber hrest fun m hm => (List.isChain_cons.mp ha).1 m hm hn
    obtain ⟨c, w, hw, hblank, hlex⟩ := lexeme?_written (hls l List.mem_cons_self) hend
    rw [lexemes?_blanks hb, hw, List.cons_append, lexemes?, if_neg (by simp [hblank]), hlex]
    simp [ih hrest (List.isChain_cons.mp ha).2]

def Closing (ls : List Lexeme) : Prop := Apart ls ∧ ∀ l ∈ ls.head?, l.isNumber = false

theorem Closing.cons {l : Lexeme} (hl : l.isNumber = false) {ls : List Lexeme} (h : Apart ls) : Closing (l :: ls) := by
  refine ⟨List.isChain_cons.mpr ⟨fun m _ hn => ?_, h⟩, fun m hm => ?_⟩
  · exact absurd (hl ▸ hn) Bool.false_ne_true
  · obtain rfl := Option.some.inj hm
    exact hl

theorem Closing.apart_cons {ls : List Lexeme} (h : Closing ls) (l : Lexeme) : Apart (l :: ls) :=
  List.isChain_cons.mpr ⟨fun m hm _ => h.2 m hm, h.1⟩

mutual

theorem apart_lexemes {rest : List Lexeme} (h : Closing rest) : ∀ j : Json, Apart (j.lexemes ++ rest)
  | array [] => (Closing.cons rfl (h.apart_cons .closeArray)).1
  | array (j :: js) => by
    have hjs := apart_lexemes (closing_furtherItems h js) j
    rw [← List.append_assoc] at hjs
    exact (Closing.cons (l := .openArray) rfl hjs).1
  | object [] => (Closing.cons rfl (h.apart_cons .closeObject)).1
  | object ((k, j) :: ms) => by
    have hms := apart_lexemes (closing_furtherMembers h ms) j
    rw [← List.append_assoc] at hms
    have hk := Closing.cons (l := .string (some k)) rfl (Closing.cons (l := .colon) rfl hms).1
    exact (Closing.cons (l := .openObject) rfl hk.1).1
  | text t => h.apart_cons (.string (some t))
  | null | bool _ | nat _ | otherNumber _ | broken => h.apart_cons (.atom _)

theorem closing_furtherItems {rest : List Lexeme} (h : Closing rest) : ∀ js : List Json,
    Closing (furtherItems js ++ rest)
  | [] => .cons rfl h.1
  | j :: js => by
    have hjs := apart_lexemes (closing_furtherItems h js) j
    rw [← List.append_assoc] at hjs
    exact Closing.cons (l := .comma) rfl hjs

theorem closing_furtherMembers {rest : List Lexeme} (h : Closing rest) : ∀ ms : List (Text × Json),
    Closing (furtherMembers ms ++ rest)
  | [] => .cons rfl h.1
  | (k, j) :: ms => by
    have hms := apart_lexemes (closing_furtherMembers h ms) j
    rw [← List.append_assoc] at hms
    have hk := Closing.cons (l := .string (some k)) rfl (Closing.cons (l := .colon) rfl hms).1
    exact Closing.cons (l := .comma) rfl hk.1

end

theorem parse?_written {j : Json} (hj : ∀ l ∈ j.lexemes, l.IsLegible) {t : Text} (h : Written j t) :
    parse? t = some j := by
  have ha : Apart j.lexemes := by
    have hend : Closing [] := ⟨.nil, nofun⟩
    have ha := apart_lexemes hend j
    rwa [List.append_nil] at ha
  rw [parse?, lexemes?_spaced h hj ha]
  exact ofLexemes?_lexemes j

end PipelineScript.Json
