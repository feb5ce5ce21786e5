import Mathlib.Data.List.TakeWhile
import PipelineScript.Proofs.Json.Lexing

/-!
# Plain values

The values that scripts are made of. Main statement: `Plain.parse?_eq`.
-/

namespace PipelineScript

namespace Number

theorem foldl_digits_ge (t : Text) (n : Nat) : n ≤ t.foldl (fun n c => 10 * n + digitValue c) n := by
  induction t generalizing n with
  | nil => exact Nat.le_refl n
  | cons c t ih => exact Nat.le_trans (by omega) (ih (10 * n + digitValue c))

theorem absorb_eq (t : Text) (n : Nat) (h : t.foldl (fun n c => 10 * n + digitValue c) n < Nat.pow 2 64) :
    absorb n t = (t.foldl (fun n c => 10 * n + digitValue c) n, []) := by
  induction t generalizing n with
  | nil => rfl
  | cons c t ih =>
    have hc : 10 * n + digitValue c < Nat.pow 2 64 := Nat.lt_of_le_of_lt (foldl_digits_ge t _) h
    rw [absorb, if_pos hc]
    exact ih _ h

theorem round_le (n : Nat) : round n ≤ 2 * n := by
  rcases Nat.eq_zero_or_pos n with rfl | hn
  · exact (round_eq_self (by decide)).le
  · have hunit : Nat.pow 2 (n.log2 + 1 - significantBits) ≤ n :=
      Nat.le_trans (Nat.pow_le_pow_right (by omega) (by rw [significantBits]; omega)) (Nat.log2_self_le (by omega))
    have hbelow := Nat.div_mul_le_self n (Nat.pow 2 (n.log2 + 1 - significantBits))
    rw [round]
    split <;> omega

theorem isInRange_zero {n : Nat} (h : n < Nat.pow 2 64) : isInRange n 0 = true := by
  have hone : round 1 = 1 := round_eq_self (by decide)
  have hn := round_le n
  have hround := round_le (round n)
  have hsize : 66 ≤ sizeBits := by decide
  have hbits := Nat.pow_le_pow_right (n := 2) (by omega) hsize
  have hlt : round (round n) < 2 ^ sizeBits := by
    have : 4 * Nat.pow 2 64 = 2 ^ 66 := rfl
    omega
  simp [isInRange, hone, hlt, maxScale]

theorem ofText_digits {ds : Text} (hds : ∀ c ∈ ds, c.isDigit = true) : Parts.ofText ds = ⟨ds, [], 0⟩ := by
  have hsign : withoutSign ds = ds := by
    unfold withoutSign
    split
    · exact absurd (hds '-' List.mem_cons_self) (by decide)
    · rfl
  have htake : ds.takeWhile Char.isDigit = ds := List.takeWhile_eq_self_iff.mpr hds
  have hdrop : ds.dropWhile Char.isDigit = [] := List.dropWhile_eq_nil_iff.mpr hds
  simp [Parts.ofText, hsign, htake, hdrop, exponentOf, signedValue, digitsValue]

theorem fits_toString {n : Nat} (h : n < Nat.pow 2 64) : fits (toString n).toList = true := by
  have habsorb := absorb_eq (Nat.toDigits 10 n) 0
  rw [← digitsValue, Json.digitsValue_toDigits] at habsorb
  rw [Json.toList_toString]
  simp [fits, ofText_digits (Json.isDigit_toDigits n), Parts.scaled, habsorb h, absorb, isInRange_zero h]

end Number

namespace Json

/-- A value without broken texts, with whole numbers of 64 bits as its only numbers, and no deeper than `d`. -/
inductive Plain : Nat → Json → Prop
  | null {d : Nat} : Plain d null
  | bool {d : Nat} (b : Bool) : Plain d (bool b)
  | nat {d n : Nat} (h : n < Nat.pow 2 64) : Plain d (nat n)
  | text {d : Nat} (t : Text) : Plain d (text t)
  | array {d : Nat} {js : List Json} (h : ∀ j ∈ js, Plain d j) : Plain (d + 1) (array js)
  | object {d : Nat} {ms : List (Text × Json)} (h : ∀ m ∈ ms, Plain d m.2) : Plain (d + 1) (object ms)

attribute [simp] Plain.null Plain.bool Plain.nat Plain.text

namespace Plain

variable {d : Nat} {j : Json}

theorem record {ms : List (String × Json)} (h : ∀ m ∈ ms, Plain d m.2) : Plain (d + 1) (Json.record ms) := by
  refine .object fun m hm => ?_
  obtain ⟨n, hn, rfl⟩ := List.mem_map.mp hm
  exact h n hn

@[simp] theorem list {α : Type} {write : α → Json} {as : List α} (h : ∀ a ∈ as, Plain d (write a)) :
    Plain (d + 1) (.array (as.map write)) := by
  refine .array fun j hj => ?_
  obtain ⟨a, ha, rfl⟩ := List.mem_map.mp hj
  exact h a ha

@[simp] theorem orNull {α : Type} {write : α → Json} (h : ∀ a, Plain d (write a)) (o : Option α) :
    Plain d (.orNull (o.map write)) := by
  cases o with
  | none => exact .null
  | some a => exact h a

@[simp] theorem ofString (s : String) : Plain d (.ofString s) := .text s.toList

/-! ## What is read whole -/

theorem depthOfItems_le {js : List Json} (h : ∀ j ∈ js, j.depth ≤ d) : depthOfItems js ≤ d := by
  induction js with
  | nil => exact Nat.zero_le d
  | cons j js ih =>
    rw [depthOfItems]
    exact Nat.max_le.mpr ⟨h j List.mem_cons_self, ih fun i hi => h i (List.mem_cons_of_mem j hi)⟩

theorem depthOfMembers_le {ms : List (Text × Json)} (h : ∀ m ∈ ms, m.2.depth ≤ d) : depthOfMembers ms ≤ d := by
  induction ms with
  | nil => exact Nat.zero_le d
  | cons m ms ih =>
    rw [depthOfMembers]
    exact Nat.max_le.mpr ⟨h m List.mem_cons_self, ih fun i hi => h i (List.mem_cons_of_mem m hi)⟩

theorem depth_le (h : Plain d j) : j.depth ≤ d := by
  induction h with
  | null | bool | nat | text => simp [depth]
  | @array d js _ ih =>
    have := depthOfItems_le ih
    rw [depth]
    omega
  | @object d ms _ ih =>
    have := depthOfMembers_le ih
    rw [depth]
    omega

theorem areWellFormed_of_forall {js : List Json} (h : ∀ j ∈ js, j.isWellFormed = true) : areWellFormed js = true := by
  induction js with
  | nil => rfl
  | cons j js ih =>
    rw [areWellFormed, h j List.mem_cons_self, ih fun i hi => h i (List.mem_cons_of_mem j hi)]
    rfl

theorem haveWellFormed_of_forall {ms : List (Text × Json)} (h : ∀ m ∈ ms, m.2.isWellFormed = true) :
    haveWellFormed ms = true := by
  induction ms with
  | nil => rfl
  | cons m ms ih =>
    rw [haveWellFormed, h m List.mem_cons_self, ih fun i hi => h i (List.mem_cons_of_mem m hi)]
    rfl

theorem isWellFormed (h : Plain d j) : j.isWellFormed = true := by
  induction h with
  | null | bool | text => simp [Json.isWellFormed]
  | nat h =>
    rw [Json.isWellFormed]
    exact Number.fits_toString h
  | array _ ih =>
    rw [Json.isWellFormed]
    exact areWellFormed_of_forall ih
  | object _ ih =>
    rw [Json.isWellFormed]
    exact haveWellFormed_of_forall ih

/-! ## What is read lexeme by lexeme -/

theorem legible_furtherItems : ∀ {js : List Json}, (∀ j ∈ js, ∀ l ∈ j.lexemes, l.IsLegible) →
    ∀ l ∈ furtherItems js, l.IsLegible
  | [], _ => by simp [furtherItems, Lexeme.IsLegible.closeArray]
  | j :: js, h => by
    obtain ⟨hj, hjs⟩ := List.forall_mem_cons.mp h
    simp only [furtherItems, List.forall_mem_cons, List.forall_mem_append]
    exact ⟨.comma, hj, legible_furtherItems hjs⟩

theorem legible_furtherMembers : ∀ {ms : List (Text × Json)}, (∀ m ∈ ms, ∀ l ∈ m.2.lexemes, l.IsLegible) →
    ∀ l ∈ furtherMembers ms, l.IsLegible
  | [], _ => by simp [furtherMembers, Lexeme.IsLegible.closeObject]
  | (k, j) :: ms, h => by
    obtain ⟨hj, hms⟩ := List.forall_mem_cons.mp h
    simp only [furtherMembers, List.forall_mem_cons, List.forall_mem_append]
    exact ⟨.comma, .string k, .colon, hj, legible_furtherMembers hms⟩

theorem legible (h : Plain d j) : ∀ l ∈ j.lexemes, l.IsLegible := by
  induction h with
  | null => simp [lexemes, Lexeme.IsLegible.null]
  | bool b => simp [lexemes, Lexeme.IsLegible.bool]
  | @nat d n => simp [lexemes, Lexeme.IsLegible.nat]
  | text t => simp [lexemes, Lexeme.IsLegible.string]
  | @array d js _ ih =>
    cases js with
    | nil => simp [lexemes, Lexeme.IsLegible.openArray, Lexeme.IsLegible.closeArray]
    | cons j js =>
      obtain ⟨hj, hjs⟩ := List.forall_mem_cons.mp ih
      simp only [lexemes, List.forall_mem_cons, List.forall_mem_append]
      exact ⟨.openArray, hj, legible_furtherItems hjs⟩
  | @object d ms _ ih =>
    cases ms with
    | nil => simp [lexemes, Lexeme.IsLegible.openObject, Lexeme.IsLegible.closeObject]
    | cons m ms =>
      obtain ⟨hm, hms⟩ := List.forall_mem_cons.mp ih
      simp only [lexemes, List.forall_mem_cons, List.forall_mem_append]
      exact ⟨.openObject, .string m.1, .colon, hm, legible_furtherMembers hms⟩

theorem parse?_eq (h : Plain d j) {t : Text} (ht : Written j t) : parse? t = some j := parse?_written h.legible ht

end Plain

end Json

end PipelineScript
