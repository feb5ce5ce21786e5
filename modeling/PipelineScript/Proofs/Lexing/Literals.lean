import PipelineScript.Literal.Backquoted
import PipelineScript.Literal.Block
import PipelineScript.Literal.Comment
import PipelineScript.Literal.Quoted

/-!
# Literals in a longer text

A literal that closes within a text closes there whatever follows the text.
-/

namespace PipelineScript.Literal

structure Extends (close? : Text → Option Nat) (rest : Text) : Prop where
  closed : ∀ {t : Text} {n : Nat}, close? t = some n → n ≤ t.length ∧ close? (t ++ rest) = some n
  unclosed : ∀ {t : Text} {n : Nat}, close? t = none → close? (t ++ rest) = some n → t.length < n

theorem Extends.restrict {close? : Text → Option Nat} {rest t : Text} (h : Extends close? rest) {n : Nat}
    (hc : close? (t ++ rest) = some n) (hn : n ≤ t.length) : close? t = some n := by
  cases ht : close? t with
  | none => exact absurd (h.unclosed ht hc) (by omega)
  | some m => rw [← hc, (h.closed ht).2]

theorem Extends.none_of_append {close? : Text → Option Nat} {rest t : Text} (h : Extends close? rest)
    (hc : close? (t ++ rest) = none) : close? t = none := by
  cases ht : close? t with
  | none => rfl
  | some m =>
    rw [(h.closed ht).2] at hc
    cases hc

namespace Quoted

theorem close?_append (q : Char) (rest : Text) : ∀ {t : Text} {n : Nat}, close? q t = some n →
    n ≤ t.length ∧ close? q (t ++ rest) = some n := by
  intro t
  fun_induction close? q t with
  | case1 => exact nofun
  | case2 => exact nofun
  | case3 c u ih =>
    intro n h
    obtain ⟨m, hm, rfl⟩ := Option.map_eq_some_iff.mp h
    obtain ⟨hle, hc⟩ := ih hm
    refine ⟨by simp only [List.length_cons]; omega, ?_⟩
    rw [List.cons_append, List.cons_append, close?_backslash, hc]
    rfl
  | case4 t hb =>
    intro n h
    obtain rfl := Option.some.inj h
    exact ⟨by simp, by rw [List.cons_append, close?_cons hb, if_pos rfl]⟩
  | case5 c t hb hq ih =>
    intro n h
    obtain ⟨m, hm, rfl⟩ := Option.map_eq_some_iff.mp h
    obtain ⟨hle, hc⟩ := ih hm
    refine ⟨by simp only [List.length_cons]; omega, ?_⟩
    rw [List.cons_append, close?_cons hb, if_neg hq, hc]
    rfl

theorem close?_pos {q : Char} {t : Text} {n : Nat} (h : close? q t = some n) : 0 < n := by
  revert h
  fun_cases close? q t <;> grind [Option.map_eq_some_iff]

theorem lt_of_close?_append (q : Char) (rest : Text) : ∀ {t : Text} {n : Nat}, close? q t = none →
    close? q (t ++ rest) = some n → t.length < n := by
  intro t
  fun_induction close? q t with
  | case1 => exact fun _ h => close?_pos h
  | case2 =>
    intro n _ h
    cases rest with
    | nil => cases h
    | cons d u =>
      rw [List.cons_append, List.nil_append, close?_backslash] at h
      obtain ⟨m, -, rfl⟩ := Option.map_eq_some_iff.mp h
      simp
  | case3 c u ih =>
    intro n hn h
    rw [List.cons_append, List.cons_append, close?_backslash] at h
    obtain ⟨m, hm, rfl⟩ := Option.map_eq_some_iff.mp h
    have := ih (Option.map_eq_none_iff.mp hn) hm
    simp only [List.length_cons]
    omega
  | case4 t hb => exact nofun
  | case5 c t hb hq ih =>
    intro n hn h
    rw [List.cons_append, close?_cons hb, if_neg hq] at h
    obtain ⟨m, hm, rfl⟩ := Option.map_eq_some_iff.mp h
    have := ih (Option.map_eq_none_iff.mp hn) hm
    simp only [List.length_cons]
    omega

theorem extends_append (q : Char) (rest : Text) : Extends (close? q) rest :=
  ⟨close?_append q rest, lt_of_close?_append q rest⟩

end Quoted

namespace Backquoted

theorem close?_append {rest : Text} (hr : rest.head? ≠ some '\x60') : ∀ {t : Text} {n : Nat}, close? t = some n →
    n ≤ t.length ∧ close? (t ++ rest) = some n := by
  intro t
  fun_induction close? t with
  | case1 => exact nofun
  | case2 =>
    intro n h
    obtain rfl := Option.some.inj h
    exact ⟨Nat.le_refl 1, close?_single hr⟩
  | case3 u ih =>
    intro n h
    obtain ⟨m, hm, rfl⟩ := Option.map_eq_some_iff.mp h
    obtain ⟨hle, hc⟩ := ih hm
    refine ⟨by simp only [List.length_cons]; omega, ?_⟩
    rw [List.cons_append, List.cons_append, close?_pair, hc]
    rfl
  | case4 d u hd =>
    intro n h
    obtain rfl := Option.some.inj h
    refine ⟨by simp, ?_⟩
    rw [List.cons_append, close?_single (by simpa using hd)]
  | case5 c t hc ih =>
    intro n h
    obtain ⟨m, hm, rfl⟩ := Option.map_eq_some_iff.mp h
    obtain ⟨hle, hm⟩ := ih hm
    refine ⟨by simp only [List.length_cons]; omega, ?_⟩
    rw [List.cons_append, close?_cons hc, hm]
    rfl

theorem close?_append_of_lt (rest : Text) : ∀ {t : Text} {n : Nat}, close? t = some n → n < t.length →
    close? (t ++ rest) = some n := by
  intro t
  fun_induction close? t with
  | case1 => exact nofun
  | case2 =>
    intro n h hn
    obtain rfl := Option.some.inj h
    exact absurd hn (Nat.lt_irrefl 1)
  | case3 u ih =>
    intro n h hn
    obtain ⟨m, hm, rfl⟩ := Option.map_eq_some_iff.mp h
    simp only [List.length_cons] at hn
    rw [List.cons_append, List.cons_append, close?_pair, ih hm (by omega)]
    rfl
  | case4 d u hd =>
    intro n h _
    obtain rfl := Option.some.inj h
    rw [List.cons_append, close?_single (by simpa using hd)]
  | case5 c t hc ih =>
    intro n h hn
    obtain ⟨m, hm, rfl⟩ := Option.map_eq_some_iff.mp h
    simp only [List.length_cons] at hn
    rw [List.cons_append, close?_cons hc, ih hm (by omega)]
    rfl

theorem close?_pos {t : Text} {n : Nat} (h : close? t = some n) : 0 < n := by
  revert h
  fun_cases close? t <;> grind [Option.map_eq_some_iff]

theorem lt_of_close?_append (rest : Text) : ∀ {t : Text} {n : Nat}, close? t = none →
    close? (t ++ rest) = some n → t.length < n := by
  intro t
  fun_induction close? t with
  | case1 => exact fun _ h => close?_pos h
  | case2 => exact nofun
  | case3 u ih =>
    intro n hn h
    rw [List.cons_append, List.cons_append, close?_pair] at h
    obtain ⟨m, hm, rfl⟩ := Option.map_eq_some_iff.mp h
    have := ih (Option.map_eq_none_iff.mp hn) hm
    simp only [List.length_cons]
    omega
  | case4 d u hd => exact nofun
  | case5 c t hc ih =>
    intro n hn h
    rw [List.cons_append, close?_cons hc] at h
    obtain ⟨m, hm, rfl⟩ := Option.map_eq_some_iff.mp h
    have := ih (Option.map_eq_none_iff.mp hn) hm
    simp only [List.length_cons]
    omega

theorem extends_append {rest : Text} (hr : rest.head? ≠ some '\x60') : Extends close? rest :=
  ⟨close?_append hr, lt_of_close?_append rest⟩

end Backquoted

namespace Block

theorem close?_le {t : Text} {n : Nat} (h : close? t = some n) : 3 ≤ n ∧ n ≤ t.length := by
  induction t generalizing n with
  | nil => cases h
  | cons c t ih =>
    rw [close?] at h
    split at h
    · next hq =>
      obtain rfl := Option.some.inj h
      have := congrArg List.length hq.2
      simp only [List.length_take, List.length_cons, List.length_nil] at this ⊢
      omega
    · obtain ⟨m, hm, rfl⟩ := Option.map_eq_some_iff.mp h
      have := ih hm
      simp only [List.length_cons]
      omega

theorem close?_append (rest : Text) {t : Text} {n : Nat} (h : close? t = some n) : close? (t ++ rest) = some n := by
  induction t generalizing n with
  | nil => cases h
  | cons c t ih =>
    have hle := close?_le h
    rw [close?] at h
    rw [List.cons_append, close?, List.take_append_of_le_length (by simp only [List.length_cons] at hle; omega)]
    split at h
    · next hq => rwa [if_pos hq]
    · next hq =>
      obtain ⟨m, hm, rfl⟩ := Option.map_eq_some_iff.mp h
      rw [if_neg hq, ih hm]
      rfl

theorem lt_of_close?_append (rest : Text) {t : Text} {n : Nat} (ht : close? t = none)
    (h : close? (t ++ rest) = some n) : t.length < n := by
  induction t generalizing n with
  | nil =>
    have := (close?_le h).1
    simp only [List.length_nil]
    omega
  | cons c t ih =>
    rw [close?] at ht
    rw [List.cons_append, close?] at h
    split at ht
    · cases ht
    · next hq =>
      have hm := Option.map_eq_none_iff.mp ht
      split at h
      · next hq' =>
        -- the quotes reach into the rest
        obtain rfl := Option.some.inj h
        by_cases hl : 2 ≤ t.length
        · rw [List.take_append_of_le_length hl] at hq'
          exact absurd hq' hq
        · simp only [List.length_cons]
          omega
      · obtain ⟨m, hm', rfl⟩ := Option.map_eq_some_iff.mp h
        have := ih hm hm'
        simp only [List.length_cons]
        omega

theorem extends_append (rest : Text) : Extends close? rest :=
  ⟨fun h => ⟨(close?_le h).2, close?_append rest h⟩, lt_of_close?_append rest⟩

end Block

namespace Comment

theorem close?_le {t : Text} {n : Nat} (h : close? t = some n) : 2 ≤ n ∧ n ≤ t.length := by
  induction t generalizing n with
  | nil => cases h
  | cons c t ih =>
    rw [close?] at h
    split at h
    · next hs =>
      obtain rfl := Option.some.inj h
      cases t with
      | nil => simp at hs
      | cons d t => simp
    · obtain ⟨m, hm, rfl⟩ := Option.map_eq_some_iff.mp h
      have := ih hm
      simp only [List.length_cons]
      omega

theorem close?_append (rest : Text) {t : Text} {n : Nat} (h : close? t = some n) : close? (t ++ rest) = some n := by
  induction t generalizing n with
  | nil => cases h
  | cons c t ih =>
    have hle := close?_le h
    rw [close?] at h
    have hd : (t ++ rest).head? = t.head? := by
      cases t with
      | nil => exact absurd hle (by simp only [List.length_cons, List.length_nil]; omega)
      | cons d t => rfl
    rw [List.cons_append, close?, hd]
    split at h
    · next hs => rwa [if_pos hs]
    · next hs =>
      obtain ⟨m, hm, rfl⟩ := Option.map_eq_some_iff.mp h
      rw [if_neg hs, ih hm]
      rfl

theorem lt_of_close?_append (rest : Text) {t : Text} {n : Nat} (ht : close? t = none)
    (h : close? (t ++ rest) = some n) : t.length < n := by
  induction t generalizing n with
  | nil =>
    have := (close?_le h).1
    simp only [List.length_nil]
    omega
  | cons c t ih =>
    rw [close?] at ht
    rw [List.cons_append, close?] at h
    split at ht
    · cases ht
    · next hs =>
      have hm := Option.map_eq_none_iff.mp ht
      split at h
      · next hs' =>
        obtain rfl := Option.some.inj h
        cases t with
        | nil => simp
        | cons d t => exact absurd hs' hs
      · obtain ⟨m, hm', rfl⟩ := Option.map_eq_some_iff.mp h
        have := ih hm hm'
        simp only [List.length_cons]
        omega

theorem extends_append (rest : Text) : Extends close? rest :=
  ⟨fun h => ⟨(close?_le h).2, close?_append rest h⟩, lt_of_close?_append rest⟩

end Comment

end PipelineScript.Literal
