import PipelineScript.Proofs.Reading.Segments
import PipelineScript.Proofs.Syntax.Statements

/-!
# What a segment holds

What was read of a segment is counted in significant tokens, and what is left of
it is behind as many of them.
-/

namespace PipelineScript

namespace Token

theorem significant_eq_nil {ts : List Token} : significant ts = [] ↔ ∀ t ∈ ts, t.isSignificant = false := by
  simp [significant]

theorem significant_cons_eq_nil {t : Token} {ts : List Token} (h : significant (t :: ts) = []) :
    t.isSignificant = false ∧ significant ts = [] := by
  have ht : t.isSignificant = false := by simpa using List.filter_eq_nil_iff.mp h t List.mem_cons_self
  exact ⟨ht, (significant_cons_of_not ht ts).symm.trans h⟩

/-! ## Behind the first significant tokens -/

@[simp] theorem dropSignificant_zero (ts : List Token) : dropSignificant 0 ts = ts := by cases ts <;> rfl

theorem dropSignificant_nil (n : Nat) : dropSignificant n [] = [] := by cases n <;> rfl

theorem dropSignificant_add (m n : Nat) : ∀ ts : List Token,
    dropSignificant (m + n) ts = dropSignificant n (dropSignificant m ts) := by
  induction m with
  | zero => intro ts; rw [Nat.zero_add, dropSignificant_zero]
  | succ m ihm =>
    intro ts
    induction ts with
    | nil => rw [dropSignificant_nil, dropSignificant_nil, dropSignificant_nil]
    | cons t ts ih =>
      rw [Nat.succ_add] at ih ⊢
      rw [dropSignificant, dropSignificant]
      cases t.isSignificant with
      | true => exact ihm ts
      | false => exact ih

theorem dropSignificant_gap {gap : List Token} (hg : significant gap = []) {t : Token} (ht : t.isSignificant = true)
    (n : Nat) (ts : List Token) : dropSignificant (n + 1) (gap ++ t :: ts) = dropSignificant n ts := by
  induction gap with
  | nil => rw [List.nil_append, dropSignificant, if_pos ht]
  | cons x gap ih =>
    obtain ⟨hx, hgap⟩ := significant_cons_eq_nil hg
    rw [List.cons_append, dropSignificant, if_neg (by simp [hx]), ih hgap]

theorem significant_dropSignificant (n : Nat) : ∀ ts : List Token,
    significant (dropSignificant n ts) = (significant ts).drop n := by
  induction n with
  | zero => intro ts; rw [dropSignificant_zero, List.drop_zero]
  | succ n ihn =>
    intro ts
    induction ts with
    | nil => rfl
    | cons t ts ih =>
      rw [dropSignificant]
      cases ht : t.isSignificant with
      | true =>
        rw [significant_cons ht, List.drop_succ_cons]
        exact ihn ts
      | false =>
        rw [significant_cons_of_not ht]
        exact ih

theorem takeSignificant_append_dropSignificant (n : Nat) : ∀ ts : List Token,
    takeSignificant n ts ++ dropSignificant n ts = ts := by
  induction n with
  | zero => intro ts; rw [takeSignificant_zero, dropSignificant_zero, List.nil_append]
  | succ n ihn =>
    intro ts
    induction ts with
    | nil => rfl
    | cons t ts ih =>
      rw [takeSignificant, dropSignificant, List.cons_append]
      cases t.isSignificant with
      | true => exact congrArg _ (ihn ts)
      | false => exact congrArg _ ih

theorem trailer_eq (ts : List Token) : trailer ts = dropSignificant (significant ts).length ts := by
  have h := takeSignificant_append_dropSignificant (significant ts).length ts
  rw [takeSignificant_all] at h
  calc trailer ts = (trimEnd ts ++ dropSignificant (significant ts).length ts).drop (trimEnd ts).length := by
        rw [h, trailer]
    _ = dropSignificant (significant ts).length ts := List.drop_left

theorem trailer_gap {gap : List Token} (hg : significant gap = []) {t : Token} (ht : t.isSignificant = true)
    (ts : List Token) : trailer (gap ++ t :: ts) = trailer (t :: ts) := by
  rw [trailer_eq, trailer_eq, significant_append, hg, List.nil_append, significant_cons ht, List.length_cons,
    dropSignificant_gap hg ht, dropSignificant, if_pos ht]

theorem significant_trailer (ts : List Token) : significant (trailer ts) = [] := by
  rw [trailer_eq, significant_dropSignificant, List.drop_length]

theorem trailer_sublist {head : Token} (hs : head.isSignificant = true) (rest : List Token) :
    (trailer (head :: rest)).Sublist rest := by
  rw [trailer_eq, significant_cons hs, List.length_cons, dropSignificant, if_pos hs]
  exact List.IsSuffix.sublist ⟨_, takeSignificant_append_dropSignificant (significant rest).length rest⟩

end Token

namespace Segment

variable {s : Segment} {head : Token} {rest : List Token}

theorem significant_lead (s : Segment) : Token.significant s.lead = [] := by
  have h := List.all_takeWhile (l := s.tokens) (p := fun t => !t.isSignificant)
  exact List.filter_eq_nil_iff.mpr fun t ht => by simpa using List.all_eq_true.mp h t ht

section
variable {lead others : List Token} (hl : ∀ t ∈ lead, t.isSignificant = false) (hh : head.isSignificant = true)
  (terminator : Token)
include hl hh

theorem lead_eq : Segment.lead ⟨lead ++ head :: others, terminator⟩ = lead := by
  have h : ∀ t ∈ lead, (!t.isSignificant) = true := fun t ht => by rw [hl t ht]; rfl
  rw [Segment.lead, List.takeWhile_append_of_pos h, List.takeWhile_cons_of_neg (by simp [hh]), List.append_nil]

theorem body_eq : Segment.body ⟨lead ++ head :: others, terminator⟩ = head :: others := by
  have h : ∀ t ∈ lead, (!t.isSignificant) = true := fun t ht => by rw [hl t ht]; rfl
  rw [Segment.body, List.dropWhile_append_of_pos h, List.dropWhile_cons_of_neg (by simp [hh])]

end

theorem isSignificant_head (hb : s.body = head :: rest) : head.isSignificant = true := Syntax.head_significant hb

theorem body_eq_nil_of_significant (h : Token.significant s.tokens = []) : s.body = [] := by
  cases hb : s.body with
  | nil => rfl
  | cons head rest =>
    rw [Syntax.significant_eq hb] at h
    cases h

theorem tokens_of_nil (hb : s.body = []) : s.tokens = s.lead := by
  rw [← s.lead_append_body, hb, List.append_nil]

theorem tail_eq (hb : s.body = head :: rest) : s.tail = if s.isClosed then [] else Token.trailer (head :: rest) := by
  rw [tail, ← s.lead_append_body, hb, Token.trailer_gap (significant_lead s) (isSignificant_head hb)]

theorem content_blank (hb : s.body = []) : s.content = .blank := by
  rw [content, hb]

theorem content_statement (hb : s.body = head :: rest) {st : Statement} (hs : readStatement head rest = .ok st) :
    s.content = .statement head st := by
  simp only [content, hb, hs]

theorem content_fault (hb : s.body = head :: rest) {f : Failure} (hf : readStatement head rest = .error f) :
    s.content = .fault head f := by
  simp only [content, hb, hf]

end Segment

end PipelineScript
