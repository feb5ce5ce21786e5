import PipelineScript.Proofs.Syntax.Tree

/-!
# Runs of tokens up to a significant one

`splitLast?` looks from the end of a run of tokens, `takeSignificant` counts from
its start. At a significant token both ways agree.
-/

namespace PipelineScript.Token

theorem significant_append (ts us : List Token) : significant (ts ++ us) = significant ts ++ significant us :=
  List.filter_append ..

theorem significant_cons {t : Token} (h : t.isSignificant = true) (ts : List Token) :
    significant (t :: ts) = t :: significant ts :=
  List.filter_cons_of_pos h

theorem significant_cons_of_not {t : Token} (h : t.isSignificant = false) (ts : List Token) :
    significant (t :: ts) = significant ts :=
  List.filter_cons_of_neg (by simp [h])

theorem significant_dropWhile (ts : List Token) :
    significant (ts.dropWhile fun t => !t.isSignificant) = significant ts := by
  induction ts with
  | nil => rfl
  | cons t ts ih =>
    cases h : t.isSignificant with
    | true => simp [h]
    | false => simpa [h, significant_cons_of_not h] using ih

theorem exists_split {ts w v : List Token} {t : Token} (h : significant ts = w ++ t :: v) :
    ∃ before after, ts = before ++ t :: after ∧ t.isSignificant = true ∧ significant before = w ∧
      significant after = v := by
  obtain ⟨before, us, rfl, hw, hus⟩ := List.filter_eq_append_iff.mp h
  obtain ⟨gap, after, rfl, hgap, ht, hv⟩ := List.filter_eq_cons_iff.mp hus
  refine ⟨before ++ gap, after, by rw [List.append_assoc], ht, ?_, hv⟩
  rw [significant_append, significant, hw, significant, List.filter_eq_nil_iff.mpr hgap, List.append_nil]

theorem splitLast?_eq_none {ts : List Token} : splitLast? ts = none ↔ significant ts = [] := by
  induction ts with
  | nil => simp [splitLast?, significant]
  | cons t ts ih =>
    rw [splitLast?]
    cases hs : splitLast? ts with
    | some p =>
      have hne : significant ts ≠ [] := fun h => by
        rw [ih.mpr h] at hs
        cases hs
      cases ht : t.isSignificant with
      | true => simp [significant_cons ht]
      | false => simpa [significant_cons_of_not ht] using hne
    | none =>
      have hn := ih.mp hs
      cases ht : t.isSignificant with
      | true => simp [significant_cons ht]
      | false => simpa [significant_cons_of_not ht] using hn

theorem splitLast?_append {last : Token} (hl : last.isSignificant = true) {after : List Token}
    (ha : significant after = []) : ∀ before : List Token,
    splitLast? (before ++ last :: after) = some (before, last)
  | [] => by simp [splitLast?, splitLast?_eq_none.mpr ha, hl]
  | t :: before => by rw [List.cons_append, splitLast?, splitLast?_append hl ha before]

theorem splitLast?_eq_some : ∀ {ts before : List Token} {last : Token}, splitLast? ts = some (before, last) →
    ∃ after, ts = before ++ last :: after ∧ last.isSignificant = true ∧ significant after = []
  | [], _, _, h => by cases h
  | t :: ts, before, last, h => by
    rw [splitLast?] at h
    cases hs : splitLast? ts with
    | some p =>
      rw [hs] at h
      obtain ⟨rfl, rfl⟩ := Prod.mk.inj (Option.some.inj h)
      obtain ⟨after, hts, hl, ha⟩ := splitLast?_eq_some hs
      exact ⟨after, by rw [List.cons_append, ← hts], hl, ha⟩
    | none =>
      rw [hs] at h
      simp only at h
      split at h
      · next ht =>
        obtain ⟨rfl, rfl⟩ := Prod.mk.inj (Option.some.inj h)
        exact ⟨ts, rfl, ht, splitLast?_eq_none.mp hs⟩
      · cases h

theorem isPrefix_of_splitLast? {ts before : List Token} {last : Token} (h : splitLast? ts = some (before, last)) :
    before ++ [last] <+: ts := by
  obtain ⟨after, rfl, -, -⟩ := splitLast?_eq_some h
  exact ⟨after, by rw [List.append_assoc]; rfl⟩

theorem trimEnd_isPrefix (ts : List Token) : trimEnd ts <+: ts := by
  unfold trimEnd
  split
  · next before last h => exact isPrefix_of_splitLast? h
  · exact List.nil_prefix

theorem exists_last {ts w : List Token} {t : Token} (h : significant ts = w ++ [t]) :
    ∃ before after, ts = before ++ t :: after ∧ t.isSignificant = true ∧ significant before = w ∧
      significant after = [] := by
  cases hs : splitLast? ts with
  | none => simp [splitLast?_eq_none.mp hs] at h
  | some p =>
    obtain ⟨before, last⟩ := p
    obtain ⟨after, rfl, hl, ha⟩ := splitLast?_eq_some hs
    rw [significant_append, significant_cons hl, ha] at h
    obtain ⟨hw, ht⟩ := List.append_inj' h rfl
    obtain rfl := (List.cons.inj ht).1
    exact ⟨before, after, rfl, hl, hw, ha⟩

@[simp] theorem takeSignificant_zero (ts : List Token) : takeSignificant 0 ts = [] := by cases ts <;> rfl

theorem takeSignificant_append {last : Token} (hl : last.isSignificant = true) (after : List Token) :
    ∀ before : List Token,
      takeSignificant ((significant before).length + 1) (before ++ last :: after) = before ++ [last]
  | [] => by simp [significant, takeSignificant, hl]
  | t :: before => by
    cases ht : t.isSignificant with
    | true =>
      rw [significant_cons ht, List.length_cons, List.cons_append, takeSignificant, if_pos ht,
        takeSignificant_append hl after before, List.cons_append]
    | false =>
      rw [significant_cons_of_not ht, List.cons_append, takeSignificant, if_neg (by simp [ht]),
        takeSignificant_append hl after before, List.cons_append]

theorem takeSignificant_all (ts : List Token) : takeSignificant (significant ts).length ts = trimEnd ts := by
  rw [trimEnd]
  cases hs : splitLast? ts with
  | none =>
    rw [splitLast?_eq_none.mp hs, List.length_nil, takeSignificant_zero]
  | some p =>
    obtain ⟨before, last⟩ := p
    obtain ⟨after, rfl, hl, ha⟩ := splitLast?_eq_some hs
    rw [significant_append, significant_cons hl, ha, List.length_append, List.length_singleton,
      takeSignificant_append hl]

end PipelineScript.Token
