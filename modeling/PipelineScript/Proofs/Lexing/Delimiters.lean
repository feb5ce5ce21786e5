import Mathlib.Computability.Language
import Mathlib.Order.Bounds.Defs
import PipelineScript.Literal.Backquoted
import PipelineScript.Literal.Block
import PipelineScript.Literal.Comment
import PipelineScript.Literal.Quoted

/-!
# Where literals close

A comment and a block string close at the first place of their delimiter, a
string and a backquoted name where a word of their language ends.
-/

namespace PipelineScript.Literal

open scoped Computability

/-! ## The first place of a delimiter -/

/-- A search that counts the characters through the first place where `d` stands. -/
structure Seeks (d : Text) (close? : Text → Option Nat) : Prop where
  nonempty : d ≠ []
  nil : close? [] = none
  found : ∀ {c t}, d <+: c :: t → close? (c :: t) = some d.length
  passed : ∀ {c t}, ¬ d <+: c :: t → close? (c :: t) = (close? t).map (· + 1)

def places (d t : Text) : Set Nat := {i | d <+: t.drop i}

theorem mem_places_succ {d t : Text} {c : Char} {i : Nat} : i + 1 ∈ places d (c :: t) ↔ i ∈ places d t := Iff.rfl

theorem isLeast_places_succ {d t : Text} {c : Char} (h : ¬ d <+: c :: t) {i : Nat} :
    IsLeast (places d (c :: t)) (i + 1) ↔ IsLeast (places d t) i := by
  constructor
  · rintro ⟨hi, hleast⟩
    refine ⟨mem_places_succ.mp hi, fun j hj => ?_⟩
    exact Nat.le_of_succ_le_succ (hleast (mem_places_succ.mpr hj))
  · rintro ⟨hi, hleast⟩
    refine ⟨mem_places_succ.mpr hi, fun j hj => ?_⟩
    cases j with
    | zero => exact absurd hj h
    | succ j => exact Nat.succ_le_succ (hleast (mem_places_succ.mp hj))

theorem Seeks.eq_some_iff {d : Text} {close? : Text → Option Nat} (hs : Seeks d close?) :
    ∀ {t : Text} {n : Nat}, close? t = some n ↔ ∃ i, IsLeast (places d t) i ∧ n = i + d.length
  | [], n => by
    rw [hs.nil]
    refine ⟨nofun, ?_⟩
    rintro ⟨i, ⟨hi, -⟩, -⟩
    exact absurd (List.prefix_nil.mp (by simpa [places] using hi)) hs.nonempty
  | c :: t, n => by
    by_cases hd : d <+: c :: t
    · rw [hs.found hd]
      constructor
      · intro h
        exact ⟨0, ⟨hd, fun _ _ => Nat.zero_le _⟩, by rw [Nat.zero_add, Option.some.inj h]⟩
      · rintro ⟨i, ⟨-, hleast⟩, rfl⟩
        obtain rfl := Nat.le_zero.mp (hleast hd)
        rw [Nat.zero_add]
    · rw [hs.passed hd, Option.map_eq_some_iff]
      constructor
      · rintro ⟨m, hm, rfl⟩
        obtain ⟨i, hi, rfl⟩ := hs.eq_some_iff.mp hm
        exact ⟨i + 1, (isLeast_places_succ hd).mpr hi, Nat.add_right_comm ..⟩
      · rintro ⟨i, hi, rfl⟩
        cases i with
        | zero => exact absurd hi.1 hd
        | succ i =>
          have ht := hs.eq_some_iff.mpr ⟨i, (isLeast_places_succ hd).mp hi, rfl⟩
          exact ⟨i + d.length, ht, Nat.add_right_comm ..⟩

theorem isLeast_places_append (d opening t : Text) {i : Nat} :
    IsLeast {k | opening.length ≤ k ∧ k ∈ places d (opening ++ t)} (opening.length + i) ↔ IsLeast (places d t) i := by
  have hplace : ∀ k, opening.length + k ∈ places d (opening ++ t) ↔ k ∈ places d t := fun k => by
    simp only [places, Set.mem_ofPred_eq, List.drop_append, List.drop_eq_nil_of_le (Nat.le_add_right opening.length k),
      Nat.add_sub_cancel_left, List.nil_append]
  constructor
  · rintro ⟨⟨-, hi⟩, hleast⟩
    refine ⟨(hplace i).mp hi, fun k hk => ?_⟩
    have := hleast ⟨Nat.le_add_right _ _, (hplace k).mpr hk⟩
    omega
  · rintro ⟨hi, hleast⟩
    refine ⟨⟨Nat.le_add_right _ _, (hplace i).mpr hi⟩, ?_⟩
    rintro k ⟨hk, hplaces⟩
    obtain ⟨j, rfl⟩ := Nat.exists_eq_add_of_le hk
    have := hleast ((hplace j).mp hplaces)
    omega

theorem Comment.seeks : Seeks ['*', '/'] Comment.close? where
  nonempty := by decide
  nil := rfl
  found {c t} h := by
    obtain ⟨u, hu⟩ := h
    obtain ⟨rfl, rfl⟩ := List.cons.inj hu
    exact if_pos ⟨rfl, rfl⟩
  passed {c t} h := by
    refine if_neg fun ⟨hc, ht⟩ => h ?_
    obtain ⟨u, rfl⟩ := List.head?_eq_some_iff.mp ht
    exact ⟨u, by rw [hc]; rfl⟩

theorem Block.seeks : Seeks ['\x27', '\x27', '\x27'] Block.close? where
  nonempty := by decide
  nil := rfl
  found {c t} h := by
    obtain ⟨u, hu⟩ := h
    obtain ⟨rfl, rfl⟩ := List.cons.inj hu
    exact if_pos ⟨rfl, rfl⟩
  passed {c t} h := by
    refine if_neg fun ⟨hc, ht⟩ => h ⟨t.drop 2, ?_⟩
    rw [hc]
    exact congrArg (List.cons _) (by rw [← ht]; exact List.take_append_drop 2 t)

def Quoted.piece (q : Char) : Language Char := {l | (∃ c, c ≠ q ∧ c ≠ '\\' ∧ l = [c]) ∨ ∃ c, l = ['\\', c]}

def Quoted.closed (q : Char) : Language Char := (Quoted.piece q)∗ * {[q]}

def Backquoted.piece : Language Char := {l | (∃ c, c ≠ '\x60' ∧ l = [c]) ∨ l = ['\x60', '\x60']}

def Backquoted.closed : Language Char := Backquoted.piece∗ * {['\x60']}

section
variable {piece : Language Char} {q : Char}

theorem singleton_mem_closed : [q] ∈ piece∗ * {[q]} := Language.append_mem_mul (Language.nil_mem_kstar piece) rfl

theorem append_mem_closed {x l : Text} (hx : x ∈ piece) (hl : l ∈ piece∗ * {[q]}) : x ++ l ∈ piece∗ * {[q]} := by
  obtain ⟨a, ha, b, hb, rfl⟩ := Language.mem_mul.mp hl
  obtain ⟨ls, rfl, hls⟩ := Language.mem_kstar.mp ha
  rw [← List.append_assoc, ← List.flatten_cons]
  refine Language.append_mem_mul (Language.join_mem_kstar ?_) hb
  rintro y (_ | ⟨_, hy⟩)
  · exact hx
  · exact hls y hy

theorem closed_induction {P : Text → Prop} (hq : P [q]) (hx : ∀ {x l}, x ∈ piece → P l → P (x ++ l)) {l : Text}
    (hl : l ∈ piece∗ * {[q]}) : P l := by
  obtain ⟨a, ha, b, hb, rfl⟩ := Language.mem_mul.mp hl
  obtain ⟨ls, rfl, hls⟩ := Language.mem_kstar.mp ha
  obtain rfl : b = [q] := hb
  clear ha hl
  induction ls with
  | nil => exact hq
  | cons x ls ih =>
    rw [List.flatten_cons, List.append_assoc]
    exact hx (hls x List.mem_cons_self) (ih fun y hy => hls y (List.mem_cons_of_mem x hy))

end

namespace Quoted

theorem close?_sound (q : Char) : ∀ {t : Text} {n : Nat}, close? q t = some n →
    t.take n ∈ closed q ∧ n ≤ t.length := by
  intro t
  fun_induction close? q t with
  | case1 => exact nofun
  | case2 => exact nofun
  | case3 c u ih =>
    intro n h
    obtain ⟨m, hm, rfl⟩ := Option.map_eq_some_iff.mp h
    obtain ⟨hmem, hle⟩ := ih hm
    exact ⟨append_mem_closed (x := ['\\', c]) (.inr ⟨c, rfl⟩) hmem, by simp only [List.length_cons]; omega⟩
  | case4 t hb =>
    intro n h
    obtain rfl := Option.some.inj h
    exact ⟨singleton_mem_closed, by simp⟩
  | case5 c t hb hq ih =>
    intro n h
    obtain ⟨m, hm, rfl⟩ := Option.map_eq_some_iff.mp h
    obtain ⟨hmem, hle⟩ := ih hm
    exact ⟨append_mem_closed (x := [c]) (.inl ⟨c, hq, hb, rfl⟩) hmem, by simp only [List.length_cons]; omega⟩

theorem close?_complete {q : Char} (hq : q ≠ '\\') {l : Text} (hl : l ∈ closed q) (rest : Text) :
    close? q (l ++ rest) = some l.length := by
  refine closed_induction (P := fun l => close? q (l ++ rest) = some l.length) ?_ (fun {x l} hx ih => ?_) hl
  · exact (close?_cons hq rest).trans (if_pos rfl)
  · rcases hx with ⟨c, hc, hb, rfl⟩ | ⟨c, rfl⟩
    · show close? q (c :: (l ++ rest)) = _
      rw [close?_cons hb, if_neg hc, ih]
      rfl
    · show close? q ('\\' :: c :: (l ++ rest)) = _
      rw [close?_backslash, ih]
      rfl

end Quoted

namespace Backquoted

theorem close?_sound : ∀ {t : Text} {n : Nat}, close? t = some n →
    t.take n ∈ closed ∧ n ≤ t.length ∧ (t.drop n).head? ≠ some '\x60' := by
  intro t
  fun_induction close? t with
  | case1 => exact nofun
  | case2 =>
    intro n h
    obtain rfl := Option.some.inj h
    exact ⟨singleton_mem_closed, Nat.le_refl 1, nofun⟩
  | case3 u ih =>
    intro n h
    obtain ⟨m, hm, rfl⟩ := Option.map_eq_some_iff.mp h
    obtain ⟨hmem, hle, hhead⟩ := ih hm
    exact ⟨append_mem_closed (x := ['\x60', '\x60']) (.inr rfl) hmem, by simp only [List.length_cons]; omega, hhead⟩
  | case4 d u hd =>
    intro n h
    obtain rfl := Option.some.inj h
    exact ⟨singleton_mem_closed, by simp, by simpa using hd⟩
  | case5 c t hc ih =>
    intro n h
    obtain ⟨m, hm, rfl⟩ := Option.map_eq_some_iff.mp h
    obtain ⟨hmem, hle, hhead⟩ := ih hm
    exact ⟨append_mem_closed (x := [c]) (.inl ⟨c, hc, rfl⟩) hmem, by simp only [List.length_cons]; omega, hhead⟩

theorem close?_complete {l : Text} (hl : l ∈ closed) {rest : Text} (hr : rest.head? ≠ some '\x60') :
    close? (l ++ rest) = some l.length := by
  refine closed_induction (P := fun l => close? (l ++ rest) = some l.length) ?_ (fun {x l} hx ih => ?_) hl
  · exact close?_single hr
  · rcases hx with ⟨c, hc, rfl⟩ | rfl
    · show close? (c :: (l ++ rest)) = _
      rw [close?_cons hc, ih]
      rfl
    · show close? ('\x60' :: '\x60' :: (l ++ rest)) = _
      rw [close?_pair, ih]
      rfl

end Backquoted

end PipelineScript.Literal
