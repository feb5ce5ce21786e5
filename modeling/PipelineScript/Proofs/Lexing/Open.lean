import Mathlib.Data.List.Infix
import PipelineScript.Proofs.Lexing.InPlace

/-!
# What a text leaves open

A literal or a comment that is not closed leaves its first character
unrecognized, and text behind it may close it after all.
-/

namespace PipelineScript

/-- No literal and no comment is opened and left open. -/
def OpensNothing (query : Text) : Prop :=
  ∀ ts t us, tokenize query = ts ++ t :: us → t.kind = .unrecognized →
    t.lexeme ≠ ['"'] ∧ t.lexeme ≠ ['\x27'] ∧ t.lexeme ≠ ['\x60'] ∧
      ¬ (t.lexeme = ['/'] ∧ (Token.text us).head? = some '*')

instance (query : Text) : Decidable (OpensNothing query) :=
  decidable_of_iff (∀ l ∈ (tokenize query).tails, ∀ t ∈ l.head?, t.kind = .unrecognized →
      t.lexeme ≠ ['"'] ∧ t.lexeme ≠ ['\x27'] ∧ t.lexeme ≠ ['\x60'] ∧
        ¬ (t.lexeme = ['/'] ∧ (Token.text l.tail).head? = some '*')) <| by
    constructor
    · intro h ts t us htok
      exact h (t :: us) ((List.mem_tails _ _).mpr ⟨ts, htok.symm⟩) t rfl
    · intro h l hl t ht
      obtain ⟨ts, hts⟩ := (List.mem_tails _ _).mp hl
      cases l with
      | nil => cases ht
      | cons x us =>
        obtain rfl := Option.some.inj ht
        exact h ts x us hts.symm

/-- What is left unrecognized in the text is left unrecognized when `rest` follows. -/
def StaysOpen (query rest : Text) : Prop :=
  ∀ ts t us c, tokenize query = ts ++ t :: us → t.kind = .unrecognized → t.lexeme = [c] →
    (scan c (Token.text us ++ rest)).1 = .unrecognized

theorem staysOpen_iff {query rest : Text} : StaysOpen query rest ↔ Undisturbed rest query :=
  (undisturbed_iff .start query).symm

theorem OpensNothing.stray {query : Text} (h : OpensNothing query) {ts us : List Token} {t : Token} {c : Char}
    (htok : tokenize query = ts ++ t :: us) (hk : t.kind = .unrecognized) (hl : t.lexeme = [c]) :
    opening c (Token.text us) = .stray ∧ (scan c (Token.text us)).1 = .unrecognized := by
  obtain ⟨hd, hs, hb, hc⟩ := h ts t us htok hk
  rw [hl] at hd hs hb hc
  have hone : Token.text (t :: us) = c :: Token.text us := by
    rw [Token.text, List.flatMap_cons, hl]
    rfl
  have hfirst := tokensAt_suffix htok (List.cons_ne_nil t us)
  rw [hone, tokensAt_cons] at hfirst
  have hscan : (scan c (Token.text us)).1 = .unrecognized := by
    rw [← hk, ← (List.cons.inj hfirst).1]
    rfl
  exact ⟨opening_eq_stray hscan (fun e => hd (e ▸ rfl)) (fun e => hs (e ▸ rfl)) (fun e => hb (e ▸ rfl))
    fun e => hc ⟨e.1 ▸ rfl, e.2⟩, hscan⟩

theorem OpensNothing.staysOpen {query rest : Text} (h : OpensNothing query) (hr : Breaks rest) :
    StaysOpen query rest := by
  intro ts t us c htok hk hl
  obtain ⟨hstray, hscan⟩ := h.stray htok hk hl
  rw [scan_append_stray hr hstray, hscan]

end PipelineScript
