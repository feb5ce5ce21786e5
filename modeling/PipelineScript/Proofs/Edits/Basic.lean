import PipelineScript.Proofs.Reading.Content

/-!
# Edits of a stream

An edit keeps, deletes or inserts a token at each step, so it has two versions.
Where it changes no significant token, both are split where the edit is.
-/

namespace PipelineScript

inductive Edit
  | kept (t : Token)
  | deleted (t : Token)
  | inserted (t : Token)

inductive Version
  | before
  | after

namespace Edit

def token? : Version → Edit → Option Token
  | _, kept t => some t
  | .before, deleted t => some t
  | .after, inserted t => some t
  | _, _ => none

def changed? : Edit → Option Token
  | kept _ => none
  | deleted t | inserted t => some t

def tokens (v : Version) (es : List Edit) : List Token := es.filterMap (token? v)

def changed (es : List Edit) : List Token := es.filterMap changed?

theorem tokens_of_some {v : Version} {e : Edit} {t : Token} (h : e.token? v = some t) (es : List Edit) :
    tokens v (e :: es) = t :: tokens v es :=
  List.filterMap_cons_some h

theorem tokens_of_none {v : Version} {e : Edit} (h : e.token? v = none) (es : List Edit) :
    tokens v (e :: es) = tokens v es :=
  List.filterMap_cons_none h

theorem tokens_kept (v : Version) (t : Token) (es : List Edit) : tokens v (kept t :: es) = t :: tokens v es :=
  tokens_of_some (by cases v <;> rfl) es

theorem tokens_append (v : Version) (es ds : List Edit) : tokens v (es ++ ds) = tokens v es ++ tokens v ds :=
  List.filterMap_append

theorem tokens_split (v : Version) (front back : List Edit) (t : Token) :
    tokens v (front ++ kept t :: back) = tokens v front ++ t :: tokens v back := by
  rw [tokens_append, tokens_kept]

theorem forall_changed_cons {P : Token → Prop} {e : Edit} {es : List Edit} :
    (∀ t ∈ changed (e :: es), P t) ↔ (∀ t, e.changed? = some t → P t) ∧ ∀ t ∈ changed es, P t := by
  cases e <;> simp [changed, changed?]

theorem changed_append (es ds : List Edit) : changed (es ++ ds) = changed es ++ changed ds := List.filterMap_append

theorem token?_eq_some {e : Edit} {v : Version} {t : Token} (h : e.token? v = some t) :
    e = kept t ∨ e.changed? = some t := by
  cases e <;> cases v <;> simp_all [token?, changed?]

theorem kept_or_all {P : Token → Prop} {e : Edit} (h : ∀ t, e.changed? = some t → P t) :
    (∃ t, e = kept t ∧ ¬ P t) ∨ ∀ v t, e.token? v = some t → P t := by
  by_cases hk : ∃ t, e = kept t ∧ ¬ P t
  · exact .inl hk
  · refine .inr fun v t ht => ?_
    rcases token?_eq_some ht with rfl | hc
    · by_contra hp
      exact hk ⟨t, rfl, hp⟩
    · exact h t hc

theorem filter_tokens_eq {P : Token → Bool} (v w : Version) : ∀ {es : List Edit}, (∀ t ∈ changed es, P t = false) →
    (tokens v es).filter P = (tokens w es).filter P
  | [], _ => rfl
  | e :: es, h => by
    obtain ⟨he, hes⟩ := forall_changed_cons.mp h
    have ih := filter_tokens_eq v w hes
    rcases kept_or_all he with ⟨t, rfl, -⟩ | hall
    · rw [tokens_kept, tokens_kept, List.filter_cons, List.filter_cons, ih]
    · have hskip (u : Version) : (tokens u (e :: es)).filter P = (tokens u es).filter P := by
        cases ht : e.token? u with
        | none => rw [tokens_of_none ht]
        | some t => rw [tokens_of_some ht, List.filter_cons_of_neg (by simp [hall u t ht])]
      rw [hskip, hskip, ih]

/-! ## Significant tokens -/

def IsGap (es : List Edit) : Prop := ∀ v, Token.significant (tokens v es) = []

theorem isGap_nil : IsGap [] := fun _ => rfl

theorem significant_tokens_cons {e : Edit} (h : ∀ v t, e.token? v = some t → t.isSignificant = false)
    (v : Version) (es : List Edit) : Token.significant (tokens v (e :: es)) = Token.significant (tokens v es) := by
  cases ht : e.token? v with
  | none => rw [tokens_of_none ht]
  | some t => rw [tokens_of_some ht, Token.significant_cons_of_not (h v t ht)]

theorem kept_or_idle {e : Edit} (h : ∀ t, e.changed? = some t → t.isSignificant = false) :
    (∃ t, e = kept t ∧ t.isSignificant = true) ∨ ∀ v t, e.token? v = some t → t.isSignificant = false := by
  simpa using kept_or_all h

theorem significant_tokens_eq (v w : Version) {es : List Edit} (h : ∀ t ∈ changed es, t.isSignificant = false) :
    Token.significant (tokens v es) = Token.significant (tokens w es) :=
  filter_tokens_eq v w h

theorem exists_last : ∀ {es : List Edit}, (∀ t ∈ changed es, t.isSignificant = false) →
    IsGap es ∨ ∃ front last back, es = front ++ kept last :: back ∧ last.isSignificant = true ∧ IsGap back
  | [], _ => .inl isGap_nil
  | e :: es, h => by
    obtain ⟨he, hes⟩ := forall_changed_cons.mp h
    rcases exists_last hes with hgap | ⟨front, last, back, rfl, hlast, hback⟩
    · rcases kept_or_idle he with ⟨t, rfl, ht⟩ | hidle
      · exact .inr ⟨[], t, es, rfl, ht, hgap⟩
      · exact .inl fun v => (significant_tokens_cons hidle v es).trans (hgap v)
    · exact .inr ⟨e :: front, last, back, rfl, hlast, hback⟩

theorem exists_first : ∀ {es : List Edit}, (∀ t ∈ changed es, t.isSignificant = false) →
    IsGap es ∨ ∃ front first back, es = front ++ kept first :: back ∧ first.isSignificant = true ∧ IsGap front
  | [], _ => .inl isGap_nil
  | e :: es, h => by
    obtain ⟨he, hes⟩ := forall_changed_cons.mp h
    rcases kept_or_idle he with ⟨t, rfl, ht⟩ | hidle
    · exact .inr ⟨[], t, es, rfl, ht, isGap_nil⟩
    · rcases exists_first hes with hgap | ⟨front, first, back, rfl, hfirst, hfront⟩
      · exact .inl fun v => (significant_tokens_cons hidle v es).trans (hgap v)
      · exact .inr ⟨e :: front, first, back, rfl, hfirst,
          fun v => (significant_tokens_cons hidle v front).trans (hfront v)⟩

theorem splitLast?_tokens {es : List Edit} (h : ∀ t ∈ changed es, t.isSignificant = false) :
    (∀ v, Token.splitLast? (tokens v es) = none) ∨
      ∃ front last back, es = front ++ kept last :: back ∧ last.isSignificant = true ∧ IsGap back ∧
        ∀ v, Token.splitLast? (tokens v es) = some (tokens v front, last) := by
  rcases exists_last h with hgap | ⟨front, last, back, rfl, hlast, hback⟩
  · exact .inl fun v => Token.splitLast?_eq_none.mpr (hgap v)
  · refine .inr ⟨front, last, back, rfl, hlast, hback, fun v => ?_⟩
    rw [tokens_split, Token.splitLast?_append hlast (hback v)]

end Edit

end PipelineScript
