import PipelineScript.Proofs.Lexing.Context
import PipelineScript.Proofs.Lexing.Stream

/-!
# A text in a longer text

A text is lexed in place as it is alone, unless one of its unrecognized
characters turns into an opening delimiter.
-/

namespace PipelineScript

theorem scan_length_le (c : Char) (t : Text) : (scan c t).2 ≤ t.length := by
  rw [scan]
  cases hs : (opening c t).search? c with
  | some s =>
    rw [Opening.extent_of_search hs]
    unfold Search.extent
    cases hc : s.close? (t.drop s.skip) with
    | none => exact Nat.zero_le _
    | some n =>
      have he : Literal.Extends s.close? [] := Opening.extends_of_search hs (by simp)
      have hn := (he.closed hc).1
      have hk := skip_le_length hs
      rw [List.length_drop] at hn
      simp only
      omega
  | none =>
    cases ho : opening c t with
    | blank | line => exact (List.takeWhile_prefix _).length_le
    | word =>
      rw [Opening.extent, scanWord_snd]
      exact (List.takeWhile_prefix _).length_le
    | single k => exact Nat.zero_le _
    | stray => exact Nat.zero_le _
    | bracket | block | quote | backquote => rw [ho] at hs; cases hs

theorem length_afterFirst (c : Char) (t : Text) : (afterFirst c t).length = t.length - (scan c t).2 :=
  List.length_drop ..

theorem afterFirst_eq_nil {c : Char} {t : Text} : afterFirst c t = [] ↔ (scan c t).2 = t.length := by
  have := scan_length_le c t
  rw [← List.length_eq_zero_iff, length_afterFirst]
  omega

section
variable {c : Char} {t rest : Text} (h : scan c (t ++ rest) = scan c t)
include h

theorem firstToken_append (p : Position) : firstToken p c (t ++ rest) = firstToken p c t := by
  unfold firstToken
  rw [h, List.take_append_of_le_length (scan_length_le c t)]

theorem afterFirst_append : afterFirst c (t ++ rest) = afterFirst c t ++ rest := by
  unfold afterFirst
  rw [h, List.drop_append_of_le_length (scan_length_le c t)]

end

theorem tokensAt_cons (p : Position) (c : Char) (t : Text) :
    tokensAt p (c :: t) = firstToken p c t :: tokensAt (firstToken p c t).endPosition (afterFirst c t) := by
  rw [tokensAt]

theorem tokensAt_nil (p : Position) : tokensAt p [] = [.endOfInput p] := by rw [tokensAt]

/-! ## All tokens -/

def Undisturbed (rest : Text) : Text → Prop
  | [] => True
  | c :: t =>
    ((scan c t).1 = .unrecognized → (scan c (t ++ rest)).1 = .unrecognized) ∧ Undisturbed rest (afterFirst c t)
termination_by t => t.length
decreasing_by exact Nat.lt_succ_of_le (length_afterFirst_le c t)

theorem undisturbed_cons {rest : Text} {c : Char} {t : Text} : Undisturbed rest (c :: t) ↔
    ((scan c t).1 = .unrecognized → (scan c (t ++ rest)).1 = .unrecognized) ∧ Undisturbed rest (afterFirst c t) := by
  rw [Undisturbed]

theorem undisturbed_nil (rest : Text) : Undisturbed rest [] := by
  rw [Undisturbed]
  trivial

theorem scan_append_of_undisturbed {c : Char} {t rest : Text} (hr : Breaks rest)
    (hu : (scan c t).1 = .unrecognized → (scan c (t ++ rest)).1 = .unrecognized)
    (hend : (scan c t).2 = t.length → (scan c t).1.isSignificant = true) : scan c (t ++ rest) = scan c t := by
  by_cases hk : (scan c t).1 = .unrecognized
  · have h := hu hk
    exact Prod.ext (h.trans hk.symm) ((scan_unrecognized h).trans (scan_unrecognized hk).symm)
  · exact scan_append hr hk hend

theorem undisturbed_iff {rest : Text} (p : Position) (b : Text) : Undisturbed rest b ↔
    ∀ ts t us c, tokensAt p b = ts ++ t :: us → t.kind = .unrecognized → t.lexeme = [c] →
      (scan c (Token.text us ++ rest)).1 = .unrecognized := by
  fun_induction tokensAt p b with
  | case1 p =>
    refine ⟨fun _ ts t us c h hk _ => ?_, fun _ => undisturbed_nil rest⟩
    have ht : t ∈ [Token.endOfInput p] := h ▸ List.mem_append_right ts List.mem_cons_self
    obtain rfl := List.mem_singleton.mp ht
    cases hk
  | case2 p d u ih =>
    rw [undisturbed_cons, ih]
    constructor
    · rintro ⟨hd, hu⟩ ts t us c h hk hl
      cases ts with
      | cons x ts => exact hu ts t us c (List.cons.inj h).2 hk hl
      | nil =>
        obtain ⟨rfl, rfl⟩ := List.cons.inj h
        have hc : d = c := (List.cons.inj hl).1
        rw [text_tokensAt, ← hc, afterFirst, scan_unrecognized hk, List.drop_zero]
        exact hd hk
    · intro h
      refine ⟨fun hk => ?_, fun ts t us c ht hk hl => h (_ :: ts) t us c (by rw [ht]; rfl) hk hl⟩
      have := h [] _ _ d rfl hk (by rw [firstToken, scan_unrecognized hk, List.take_zero])
      rwa [text_tokensAt, afterFirst, scan_unrecognized hk, List.drop_zero] at this

theorem tokensAt_append {rest : Text} (hr : Breaks rest) {p : Position} {b : Text} (hu : Undisturbed rest b)
    (hl : ∀ x, (tokensWithin p b).getLast? = some x → x.isSignificant = true) :
    tokensAt p (b ++ rest) = tokensWithin p b ++ tokensAt (p.past b) rest := by
  fun_induction tokensWithin p b with
  | case1 p => rfl
  | case2 p c t ih =>
    obtain ⟨hc, hu⟩ := undisturbed_cons.mp hu
    have hend : (scan c t).2 = t.length → (scan c t).1.isSignificant = true := fun he => by
      rw [afterFirst_eq_nil.mpr he, tokensWithin_nil] at hl
      exact hl _ rfl
    have hs := scan_append_of_undisturbed hr hc hend
    have hl' : ∀ x, (tokensWithin (firstToken p c t).endPosition (afterFirst c t)).getLast? = some x →
        x.isSignificant = true := fun x hx => hl x (by rw [List.getLast?_cons, hx]; rfl)
    rw [List.cons_append, tokensAt_cons, firstToken_append hs, afterFirst_append hs, ih hu hl',
      past_firstToken, List.cons_append]

/-- In place of an unrecognized character of the text stands a token that reaches past the end of the text. -/
theorem exists_overrun {rest : Text} (hr : Breaks rest) {p : Position} {b : Text} (hu : ¬ Undisturbed rest b) :
    ∃ ts big us, tokensAt p (b ++ rest) = ts ++ big :: us ∧ big.IsInner ∧ (Token.text ts).length < b.length ∧
      b.length < (Token.text ts).length + big.lexeme.length ∧
      ∃ stray vs, tokensWithin p b = ts ++ stray :: vs ∧ stray.kind = .unrecognized := by
  fun_induction tokensWithin p b with
  | case1 p => exact absurd (undisturbed_nil rest) hu
  | case2 p c t ih =>
    by_cases hc : (scan c t).1 = .unrecognized → (scan c (t ++ rest)).1 = .unrecognized
    · have hu : ¬ Undisturbed rest (afterFirst c t) := fun h => hu (undisturbed_cons.mpr ⟨hc, h⟩)
      have hend : (scan c t).2 ≠ t.length := fun he => hu (by rw [afterFirst_eq_nil.mpr he]; exact undisturbed_nil _)
      have hs := scan_append_of_undisturbed hr hc fun he => absurd he hend
      obtain ⟨ts, big, us, hts, hi, hlt, hgt, stray, vs, hvs, hk⟩ := ih hu
      have hlen := congrArg List.length (firstToken_append_afterFirst p c t)
      rw [List.length_append] at hlen
      refine ⟨firstToken p c t :: ts, big, us, ?_, hi, ?_, ?_, stray, vs, by rw [hvs]; rfl, hk⟩
      · rw [List.cons_append, tokensAt_cons, firstToken_append hs, afterFirst_append hs, hts, List.cons_append]
      · simp only [Token.text, List.flatMap_cons, List.length_append] at hlt ⊢
        omega
      · simp only [Token.text, List.flatMap_cons, List.length_append] at hgt ⊢
        omega
    · obtain ⟨hk, hn⟩ := Classical.not_imp.mp hc
      have hover := scan_overruns hr hk hn
      have hle := scan_length_le c (t ++ rest)
      refine ⟨[], firstToken p c (t ++ rest), _, tokensAt_cons p c (t ++ rest), ⟨fun h => ?_, ?_⟩, Nat.succ_pos _, ?_,
        firstToken p c t, _, rfl, hk⟩
      · rw [scan_semicolon h] at hover
        exact absurd hover (Nat.not_lt_zero _)
      · exact scan_ne_endOfInput c (t ++ rest)
      · simp only [Token.text, List.flatMap_nil, List.length_nil, firstToken, List.length_cons, List.length_take]
        omega

/-! ## Tokens cut out of a longer text -/

theorem tokensAt_suffix {p : Position} {s : Text} {ts us : List Token} (h : tokensAt p s = ts ++ us) (hu : us ≠ []) :
    tokensAt (p.past (Token.text ts)) (Token.text us) = us := by
  induction ts generalizing p s with
  | nil =>
    rw [List.nil_append] at h
    rw [← h, text_tokensAt]
    exact rfl
  | cons t ts ih =>
    cases s with
    | nil =>
      rw [tokensAt_nil, List.cons_append] at h
      have := (List.cons.inj h).2
      exact absurd (List.append_eq_nil_iff.mp this.symm).2 hu
    | cons c s =>
      rw [tokensAt_cons, List.cons_append] at h
      obtain ⟨rfl, h₁⟩ := List.cons.inj h
      have := ih h₁
      rwa [Token.endPosition, ← Position.past_append] at this

theorem tokensWithin_text {p : Position} {s : Text} {ts us : List Token} (h : tokensAt p s = ts ++ us)
    (hu : us ≠ []) (hq : (Token.text us).head? ≠ some '\x27') (hb : (Token.text us).head? ≠ some '\x60') :
    tokensWithin p (Token.text ts) = ts := by
  induction ts generalizing p s with
  | nil => exact tokensWithin_nil p
  | cons t ts ih =>
    cases s with
    | nil =>
      rw [tokensAt_nil, List.cons_append] at h
      have := (List.cons.inj h).2
      exact absurd (List.append_eq_nil_iff.mp this.symm).2 hu
    | cons c s =>
      rw [tokensAt_cons, List.cons_append] at h
      obtain ⟨rfl, h₁⟩ := List.cons.inj h
      have hafter : afterFirst c s = Token.text ts ++ Token.text us := by
        rw [← text_tokensAt _ (afterFirst c s), h₁, Token.text_append]
      have hlen : (s.take (scan c s).2).length = (scan c s).2 := by
        rw [List.length_take, Nat.min_eq_left (scan_length_le c s)]
      -- the part of `s` that these tokens cover
      obtain ⟨v, hv⟩ : ∃ v, v = s.take (scan c s).2 ++ Token.text ts := ⟨_, rfl⟩
      have hs : s = v ++ Token.text us := by
        rw [hv, List.append_assoc, ← hafter, afterFirst, List.take_append_drop]
      have hscan : scan c (v ++ Token.text us) = scan c v := by
        refine (scan_restrict hq hb ?_).symm
        rw [← hs, hv, List.length_append]
        omega
      have hfirst : firstToken p c s = firstToken p c v := by rw [hs, firstToken_append hscan]
      have hrest : afterFirst c v = Token.text ts := by
        rw [afterFirst, ← hscan, ← hs, hv]
        exact List.drop_left' hlen
      have htext : Token.text (firstToken p c s :: ts) = c :: v := by
        rw [hv]
        rfl
      rw [htext, tokensWithin_cons, ← hfirst, hrest, ih h₁]

end PipelineScript
