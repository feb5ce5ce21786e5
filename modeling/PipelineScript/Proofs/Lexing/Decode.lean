import Mathlib.Data.List.Infix
import PipelineScript.Literal.Backquoted
import PipelineScript.Literal.Block
import PipelineScript.Literal.Quoted

/-!
# Values behind delimiters

What stood between delimiters is given back, for each kind of literal.
-/

namespace PipelineScript

namespace Text

theorem byteLength_reverse (t : Text) : byteLength t.reverse = byteLength t := by
  induction t with
  | nil => rfl
  | cons c t ih =>
    simp only [List.reverse_cons, byteLength_append, ih, byteLength_cons, byteLength_nil]
    omega

theorem dropBytes_append : ∀ s t : Text, dropBytes (byteLength s) (s ++ t) = t
  | [], t => dropBytes_zero t
  | c :: s, t => by
    obtain ⟨n, hn⟩ := Nat.exists_eq_succ_of_ne_zero (Nat.pos_iff_ne_zero.mp c.utf8Size_pos)
    have hlen : byteLength (c :: s) = n + byteLength s + 1 := by
      rw [byteLength_cons, hn]
      omega
    have hrest : n + byteLength s + 1 - c.utf8Size = byteLength s := by omega
    rw [hlen, List.cons_append, dropBytes, hrest, dropBytes_append]

theorem strip_append {s t : Text} (h : byteLength s = byteLength t) (v : Text) :
    strip (byteLength s) (s ++ v ++ t) = v := by
  have hlen : ¬ byteLength (s ++ v ++ t) < 2 * byteLength s := by
    rw [byteLength_append, byteLength_append]
    omega
  rw [strip, if_neg hlen, List.append_assoc, dropBytes_append, List.reverse_append, h,
    ← byteLength_reverse t, dropBytes_append, List.reverse_reverse]

end Text

namespace Literal

theorem Quoted.decode_encode (v : Text) : decode (encode v) = v := by
  have h := Text.strip_append (s := ['"']) (t := ['"']) rfl (escape v)
  rw [decode, encode]
  exact (congrArg unescape h).trans (unescape_escape v)

theorem Backquoted.decode_encode (v : Text) : decode (encode v) = v := by
  have h := Text.strip_append (s := ['\x60']) (t := ['\x60']) rfl (double v)
  rw [decode, encode]
  exact (congrArg undouble h).trans (undouble_double v)

namespace Block

theorem decode_encode (v : Text) : decode (encode v) = v :=
  Text.strip_append (s := ['\x27', '\x27', '\x27']) (t := ['\x27', '\x27', '\x27']) rfl v

/-- A text without three quotes in a row that does not end in a quote. -/
structure IsPlain (v : Text) : Prop where
  undelimited : ¬ ['\x27', '\x27', '\x27'] <:+: v
  last : v.getLast? ≠ some '\x27'

instance (v : Text) : Decidable (IsPlain v) :=
  decidable_of_iff (¬ ['\x27', '\x27', '\x27'] <:+: v ∧ v.getLast? ≠ some '\x27')
    ⟨fun h => ⟨h.1, h.2⟩, fun h => ⟨h.undelimited, h.last⟩⟩

theorem IsPlain.tail {c : Char} {v : Text} (h : IsPlain (c :: v)) : IsPlain v where
  undelimited hv := h.undelimited (hv.trans (List.suffix_cons c v).isInfix)
  last hv := h.last (by rw [List.getLast?_cons, hv]; rfl)

theorem close?_of_isPlain (rest : Text) : ∀ {v : Text}, IsPlain v →
    close? (v ++ '\x27' :: '\x27' :: '\x27' :: rest) = some (v.length + 3)
  | [], _ => rfl
  | c :: v, h => by
    have hq : ¬ (c = '\x27' ∧ (v ++ '\x27' :: '\x27' :: '\x27' :: rest).take 2 = ['\x27', '\x27']) := by
      rintro ⟨rfl, ht⟩
      match v with
      | [] => exact h.last rfl
      | [d] =>
        obtain rfl := (List.cons.inj ht).1
        exact h.last rfl
      | d :: e :: v =>
        obtain ⟨rfl, he⟩ := List.cons.inj ht
        obtain rfl := (List.cons.inj he).1
        exact h.undelimited (List.prefix_append ['\x27', '\x27', '\x27'] v).isInfix
    rw [List.cons_append, close?, if_neg hq, close?_of_isPlain rest h.tail]
    rfl

theorem isPlain_of_close? : ∀ {t : Text} {n : Nat}, close? t = some n →
    ∃ v rest, t = v ++ '\x27' :: '\x27' :: '\x27' :: rest ∧ n = v.length + 3 ∧ IsPlain v
  | c :: t, n, h => by
    rw [close?] at h
    split at h
    · next hq =>
      obtain rfl := Option.some.inj h
      obtain ⟨rfl, ht⟩ := hq
      match t with
      | d :: e :: t =>
        obtain ⟨rfl, he⟩ := List.cons.inj ht
        obtain rfl := (List.cons.inj he).1
        exact ⟨[], t, rfl, rfl, by simp, by simp⟩
    · next hq =>
      obtain ⟨m, hm, rfl⟩ := Option.map_eq_some_iff.mp h
      obtain ⟨v, rest, rfl, rfl, hv⟩ := isPlain_of_close? hm
      refine ⟨c :: v, rest, rfl, rfl, ?_, ?_⟩
      · intro hi
        rcases List.infix_cons_iff.mp hi with hp | hi
        · obtain ⟨u, hu⟩ := hp
          obtain ⟨rfl, rfl⟩ := List.cons.inj hu
          exact hq ⟨rfl, rfl⟩
        · exact hv.undelimited hi
      · intro hl
        cases hv' : v.getLast? with
        | some d =>
          rw [List.getLast?_cons, hv'] at hl
          exact hv.last (hv'.trans hl)
        | none =>
          obtain rfl := List.getLast?_eq_none_iff.mp hv'
          obtain rfl := Option.some.inj hl
          exact hq ⟨rfl, rfl⟩

end Block

end Literal

end PipelineScript
