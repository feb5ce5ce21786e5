import PipelineScript.Proofs.Lexing.Literals
import PipelineScript.Proofs.Lexing.Scan

/-!
# A token in a longer text

Only what is left unrecognized can change when more text follows: it may be an
opening delimiter that the text behind it closes.
-/

namespace PipelineScript

/-- A text that starts with a character no token before it can take in. -/
def Breaks (rest : Text) : Prop := ∀ d, rest.head? = some d → d ∈ [' ', '.', '=', ';', '\n']

theorem breaks_cons {d : Char} (h : d ∈ [' ', '.', '=', ';', '\n']) (t : Text) : Breaks (d :: t) := by
  intro e he
  obtain rfl := Option.some.inj he
  exact h

namespace Breaks

variable {rest : Text} (hr : Breaks rest)
include hr

theorem head_ne {d : Char} (hd : d ∉ [' ', '.', '=', ';', '\n']) : rest.head? ≠ some d :=
  fun h => hd (hr d h)

theorem takeWhile_word : rest.takeWhile Text.isWordChar = [] := by
  cases rest with
  | nil => rfl
  | cons d t =>
    have hd : Text.isWordChar d = false := by
      have := hr d rfl
      simp only [List.mem_cons, List.not_mem_nil, or_false] at this
      rcases this with rfl | rfl | rfl | rfl | rfl <;> decide
    simp [hd]

end Breaks

theorem head?_append_of_ne {t rest : Text} {d : Char} (hd : rest.head? ≠ some d) :
    (t ++ rest).head? = some d ↔ t.head? = some d := by
  cases t with
  | nil => simpa using hd
  | cons c t => rfl

theorem take_two_append {t rest : Text} {d : Char} (hd : rest.head? ≠ some d) :
    (t ++ rest).take 2 = [d, d] ↔ t.take 2 = [d, d] := by
  match t with
  | [] => cases rest <;> simp_all
  | [c] => cases rest <;> simp_all
  | _ :: _ :: _ => rfl

theorem opening_append {c : Char} {t rest : Text} (hd : rest.head? ≠ some '-') (hs : rest.head? ≠ some '/')
    (ha : rest.head? ≠ some '*') (hq : rest.head? ≠ some '\x27') : opening c (t ++ rest) = opening c t := by
  have hline : ((c = '-' ∨ c = '/') ∧ (t ++ rest).head? = some c) ↔ ((c = '-' ∨ c = '/') ∧ t.head? = some c) := by
    constructor <;> rintro ⟨rfl | rfl, h⟩
    · exact ⟨.inl rfl, (head?_append_of_ne hd).mp h⟩
    · exact ⟨.inr rfl, (head?_append_of_ne hs).mp h⟩
    · exact ⟨.inl rfl, (head?_append_of_ne hd).mpr h⟩
    · exact ⟨.inr rfl, (head?_append_of_ne hs).mpr h⟩
  unfold opening
  simp only [hline, head?_append_of_ne ha, take_two_append hq]

theorem Breaks.opening_append {rest : Text} (hr : Breaks rest) (c : Char) (t : Text) :
    opening c (t ++ rest) = opening c t :=
  PipelineScript.opening_append (hr.head_ne (by decide)) (hr.head_ne (by decide)) (hr.head_ne (by decide))
    (hr.head_ne (by decide))

theorem opening_cons_append {c : Char} (d : Char) {t rest : Text} (hq : rest.head? ≠ some '\x27') :
    opening c (d :: t ++ rest) = opening c (d :: t) := by
  have h : (d :: t ++ rest).head? = (d :: t).head? := rfl
  unfold opening
  rw [h]
  simp only [take_two_append hq]

/-! ## Rules that look for an end -/

structure Search where
  skip : Nat
  close? : Text → Option Nat
  kind : Nat → Token.Kind
  kind_ne : ∀ n, kind n ≠ .unrecognized

namespace Search

def extent (s : Search) (t : Text) : Token.Kind × Nat :=
  match s.close? (t.drop s.skip) with
  | some n => (s.kind n, s.skip + n)
  | none => (.unrecognized, 0)

def comment : Search where
  skip := 1
  close? := Literal.Comment.close?
  kind n := if n = 2 then .emptyComment else .bracketedComment
  kind_ne n := by split <;> exact nofun

def block : Search := ⟨2, Literal.Block.close?, fun _ => .blockString, nofun⟩

def quoted (q : Char) : Search := ⟨0, Literal.Quoted.close? q, fun _ => .string, nofun⟩

def backquoted : Search := ⟨0, Literal.Backquoted.close?, fun _ => .backquoted, nofun⟩

variable {s : Search} {t rest : Text} (he : Literal.Extends s.close? rest) (hs : s.skip ≤ t.length)
include he hs

theorem extent_append (hk : (s.extent t).1 ≠ .unrecognized) : s.extent (t ++ rest) = s.extent t := by
  unfold extent at hk ⊢
  rw [List.drop_append_of_le_length hs]
  cases hc : s.close? (t.drop s.skip) with
  | none => rw [hc] at hk; exact absurd rfl hk
  | some n => rw [(he.closed hc).2]

theorem extent_restrict (hn : (s.extent (t ++ rest)).2 ≤ t.length) : s.extent t = s.extent (t ++ rest) := by
  unfold extent at hn ⊢
  rw [List.drop_append_of_le_length hs] at hn ⊢
  cases hc : s.close? (t.drop s.skip ++ rest) with
  | none => rw [he.none_of_append hc]
  | some n =>
    rw [hc] at hn
    rw [he.restrict hc (by rw [List.length_drop]; exact Nat.le_sub_of_add_le' hn)]

theorem extent_overruns (ht : (s.extent t).1 = .unrecognized)
    (hu : (s.extent (t ++ rest)).1 ≠ .unrecognized) : t.length < (s.extent (t ++ rest)).2 := by
  unfold extent at *
  rw [List.drop_append_of_le_length hs] at *
  cases hc : s.close? (t.drop s.skip) with
  | some n => rw [hc] at ht; exact absurd ht (s.kind_ne n)
  | none =>
    cases hm : s.close? (t.drop s.skip ++ rest) with
    | none => rw [hm] at hu; exact absurd rfl hu
    | some m =>
      have := he.unclosed hc hm
      rw [List.length_drop] at this
      simp only
      omega

end Search

namespace Opening

def search? (c : Char) : Opening → Option Search
  | bracket => some .comment
  | block => some .block
  | quote => some (.quoted c)
  | backquote => some .backquoted
  | _ => none

theorem extent_of_search {c : Char} {o : Opening} {s : Search} (h : o.search? c = some s) (t : Text) :
    o.extent c t = s.extent t := by
  cases o <;> simp only [search?, Option.some.injEq, reduceCtorEq] at h <;> subst h
  · simp only [extent, scanComment, Search.extent, Search.comment]
    cases Literal.Comment.close? (t.drop 1) with
    | none => rfl
    | some n => simp [scanClosed]
  · simp only [extent, Search.extent, Search.block]
    cases Literal.Block.close? (t.drop 2) <;> rfl
  · simp only [extent, Search.extent, Search.quoted, List.drop_zero]
    cases Literal.Quoted.close? c t <;> rfl
  · simp only [extent, Search.extent, Search.backquoted, List.drop_zero]
    cases Literal.Backquoted.close? t <;> rfl

theorem extends_of_search {c : Char} {o : Opening} {s : Search} (h : o.search? c = some s) {rest : Text}
    (hr : rest.head? ≠ some '\x60') : Literal.Extends s.close? rest := by
  cases o <;> simp only [search?, Option.some.injEq, reduceCtorEq] at h <;> subst h
  · exact Literal.Comment.extends_append rest
  · exact Literal.Block.extends_append rest
  · exact Literal.Quoted.extends_append c rest
  · exact Literal.Backquoted.extends_append hr

end Opening

theorem skip_le_length {c : Char} {t : Text} {s : Search} (h : (opening c t).search? c = some s) :
    s.skip ≤ t.length := by
  cases ho : opening c t with
  | bracket =>
    rw [ho] at h
    obtain rfl := Option.some.inj h
    have := (Opening.needs_of_eq ho).2
    cases t with
    | nil => cases this
    | cons d t => exact Nat.succ_le_succ (Nat.zero_le _)
  | block =>
    rw [ho] at h
    obtain rfl := Option.some.inj h
    have hl := congrArg List.length (Opening.needs_of_eq ho).2
    rw [List.length_take] at hl
    have h₂ : min 2 t.length = 2 := hl
    show 2 ≤ t.length
    omega
  | quote | backquote =>
    rw [ho] at h
    obtain rfl := Option.some.inj h
    exact Nat.zero_le _
  | _ => rw [ho] at h; cases h

/-! ## Tokens in place -/

theorem takeWhile_append_of_ne {p : Char → Bool} {t : Text} (h : (t.takeWhile p).length ≠ t.length) (rest : Text) :
    (t ++ rest).takeWhile p = t.takeWhile p := by
  rw [List.takeWhile_append, if_neg h]

theorem takeWhile_append_of_length_le {p : Char → Bool} {t rest : Text}
    (h : ((t ++ rest).takeWhile p).length ≤ t.length) : (t ++ rest).takeWhile p = t.takeWhile p := by
  rw [List.takeWhile_append] at h ⊢
  split at h
  · next hl =>
    rw [if_pos hl]
    rw [List.length_append] at h
    have hn : (rest.takeWhile p).length = 0 := by omega
    rw [List.length_eq_zero_iff.mp hn, List.append_nil, (List.takeWhile_prefix p).eq_of_length hl]
  · next hl => rw [if_neg hl]

/-- A recognized token is the same where a break follows, unless it is trivia or a comment that the text ends in. -/
theorem scan_append {c : Char} {t rest : Text} (hr : Breaks rest) (hk : (scan c t).1 ≠ .unrecognized)
    (hend : (scan c t).2 = t.length → (scan c t).1.isSignificant = true) : scan c (t ++ rest) = scan c t := by
  simp only [scan, hr.opening_append] at hk hend ⊢
  cases hs : (opening c t).search? c with
  | some s =>
    rw [Opening.extent_of_search hs] at hk ⊢
    rw [Opening.extent_of_search hs]
    exact s.extent_append (Opening.extends_of_search hs (hr.head_ne (by decide))) (skip_le_length hs) hk
  | none =>
    cases ho : opening c t with
    | blank =>
      rw [ho] at hend
      have hne := fun h => Bool.false_ne_true (hend h)
      simp only [Opening.extent, takeWhile_append_of_ne hne]
    | line =>
      rw [ho] at hend
      have hne := fun h => Bool.false_ne_true (hend h)
      simp only [Opening.extent, takeWhile_append_of_ne hne]
    | single k => rfl
    | word =>
      have hw : (t ++ rest).takeWhile Text.isWordChar = t.takeWhile Text.isWordChar := by
        rw [List.takeWhile_append, hr.takeWhile_word, List.append_nil]
        split
        · next h => exact ((List.takeWhile_prefix _).eq_of_length h).symm
        · rfl
      simp only [Opening.extent, scanWord, hw]
    | stray => rw [ho] at hk; exact absurd rfl hk
    | bracket | block | quote | backquote => rw [ho] at hs; cases hs

theorem scan_append_stray {c : Char} {t rest : Text} (hr : Breaks rest)
    (ho : opening c t = .stray) : scan c (t ++ rest) = scan c t := by
  rw [scan, scan, hr.opening_append, ho]
  rfl

theorem scan_unrecognized {c : Char} {t : Text} (h : (scan c t).1 = .unrecognized) : (scan c t).2 = 0 := by
  rw [scan] at h ⊢
  cases hs : (opening c t).search? c with
  | some s =>
    rw [Opening.extent_of_search hs] at h ⊢
    unfold Search.extent at h ⊢
    cases hc : s.close? (t.drop s.skip) with
    | none => rfl
    | some n => rw [hc] at h; exact absurd h (s.kind_ne n)
  | none =>
    cases ho : opening c t with
    | single k => rfl
    | stray => rfl
    | blank => rw [ho] at h; cases h
    | line => rw [ho] at h; cases h
    | word => rw [ho] at h; exact absurd h (scanWord_ne_unrecognized c t)
    | bracket | block | quote | backquote => rw [ho] at hs; cases hs

theorem scan_overruns {c : Char} {t rest : Text} (hr : Breaks rest) (h : (scan c t).1 = .unrecognized)
    (hc : (scan c (t ++ rest)).1 ≠ .unrecognized) : t.length < (scan c (t ++ rest)).2 := by
  simp only [scan, hr.opening_append] at h hc ⊢
  cases hs : (opening c t).search? c with
  | some s =>
    rw [Opening.extent_of_search hs] at h hc ⊢
    exact s.extent_overruns (Opening.extends_of_search hs (hr.head_ne (by decide))) (skip_le_length hs) h hc
  | none =>
    cases ho : opening c t with
    | stray => rw [ho] at hc; exact absurd rfl hc
    | single k => rw [ho] at h hc; exact absurd h hc
    | blank => rw [ho] at h; cases h
    | line => rw [ho] at h; cases h
    | word => rw [ho] at h; exact absurd h (scanWord_ne_unrecognized c t)
    | bracket | block | quote | backquote => rw [ho] at hs; cases hs

theorem opening_restrict {c : Char} {t rest : Text} (hq : rest.head? ≠ some '\x27') :
    opening c (t ++ rest) = opening c t ∨
      t = [] ∧ (opening c rest = .line ∨ opening c rest = .bracket) := by
  cases t with
  | cons d t => exact .inl (opening_cons_append d hq)
  | nil =>
    by_cases hl : (c = '-' ∨ c = '/') ∧ rest.head? = some c
    · refine .inr ⟨rfl, .inl ?_⟩
      cases rest with
      | nil => cases hl.2
      | cons d u =>
        obtain rfl := Option.some.inj hl.2
        exact opening_line hl.1 u
    · by_cases hs : c = '/' ∧ rest.head? = some '*'
      · obtain ⟨rfl, hs⟩ := hs
        refine .inr ⟨rfl, .inr ?_⟩
        simp [opening, Text.isBlank, Text.blankRanges, hs]
      · refine .inl ?_
        unfold opening
        simp only [take_two_append hq]
        simp only [List.nil_append, if_neg hl, if_neg hs, List.head?_nil, reduceCtorEq, and_false, if_false]

theorem scan_nil_restrict {c : Char} {rest : Text} (hn : (scan c rest).2 = 0)
    (ho : opening c rest = .line ∨ opening c rest = .bracket) : scan c [] = scan c rest := by
  rcases ho with ho | ho
  · obtain ⟨hc, hr⟩ := Opening.needs_of_eq ho
    cases rest with
    | nil => cases hr
    | cons d u =>
      obtain rfl := Option.some.inj hr
      rw [scan, ho] at hn
      rcases hc with rfl | rfl <;> simp [Opening.extent] at hn
  · obtain ⟨rfl, -⟩ := Opening.needs_of_eq ho
    have he : scan '/' rest = scanComment (rest.drop 1) := by rw [scan, ho, Opening.extent]
    rw [he, scanComment] at hn ⊢
    cases hc : Literal.Comment.close? (rest.drop 1) with
    | none => decide
    | some n => rw [hc] at hn; simp [scanClosed] at hn

theorem scan_restrict {c : Char} {t rest : Text} (hq : rest.head? ≠ some '\x27') (hb : rest.head? ≠ some '\x60')
    (hn : (scan c (t ++ rest)).2 ≤ t.length) : scan c t = scan c (t ++ rest) := by
  rcases opening_restrict (c := c) (t := t) hq with he | ⟨rfl, ho⟩
  · simp only [scan, he] at hn ⊢
    cases hs : (opening c t).search? c with
    | some s =>
      rw [Opening.extent_of_search hs] at hn ⊢
      rw [Opening.extent_of_search hs]
      exact s.extent_restrict (Opening.extends_of_search hs hb) (skip_le_length hs) hn
    | none =>
      cases ho : opening c t with
      | blank =>
        rw [ho] at hn
        simp only [Opening.extent] at hn ⊢
        rw [takeWhile_append_of_length_le hn]
      | line =>
        rw [ho] at hn
        simp only [Opening.extent] at hn ⊢
        rw [takeWhile_append_of_length_le hn]
      | word =>
        rw [ho, Opening.extent, scanWord_snd] at hn
        simp only [Opening.extent, scanWord, takeWhile_append_of_length_le hn]
      | single k => rfl
      | stray => rfl
      | bracket | block | quote | backquote => rw [ho] at hs; cases hs
  · exact scan_nil_restrict (Nat.le_zero.mp hn) ho

end PipelineScript
