import Mathlib.Data.Option.Basic
import PipelineScript.Proofs.Cursor.Phrases

/-!
# Queries by their indices

Counted from the end, the indices of the significant tokens of a segment are
those at which `splitLast?` splits.
-/

namespace PipelineScript

namespace Token

def significantIndices (i : Nat) : List Token → List Nat
  | [] => []
  | t :: ts => if t.isSignificant then i :: significantIndices (i + 1) ts else significantIndices (i + 1) ts

theorem significantIndices_append (ts us : List Token) : ∀ i : Nat,
    significantIndices i (ts ++ us) = significantIndices i ts ++ significantIndices (i + ts.length) us := by
  induction ts with
  | nil => intro i; rfl
  | cons t ts ih =>
    intro i
    have hi : i + (t :: ts).length = i + 1 + ts.length := by rw [List.length_cons]; omega
    rw [List.cons_append, significantIndices, significantIndices, ih, hi]
    split <;> rfl

theorem significantIndices_eq_nil {ts : List Token} (h : significant ts = []) : ∀ i : Nat,
    significantIndices i ts = [] := by
  induction ts with
  | nil => intro i; rfl
  | cons t ts ih =>
    intro i
    obtain ⟨ht, hts⟩ := significant_cons_eq_nil h
    rw [significantIndices, if_neg (by simp [ht]), ih hts]

theorem significantIndices_of_splitLast? {ts before : List Token} {last : Token}
    (h : splitLast? ts = some (before, last)) (i : Nat) :
    significantIndices i ts = significantIndices i before ++ [i + before.length] := by
  obtain ⟨after, rfl, hl, ha⟩ := splitLast?_eq_some h
  rw [significantIndices_append, significantIndices, if_pos hl, significantIndices_eq_nil ha]

theorem significantIndices_of_none {ts : List Token} (h : splitLast? ts = none) (i : Nat) :
    significantIndices i ts = [] := significantIndices_eq_nil (splitLast?_eq_none.mp h) i

end Token

namespace Stands

variable {ts : List Token} {i : Nat} {u v w before : List Token} {last e : Token} {after : List Token}

theorem textBetween_run (h : Stands ts i (v ++ u) e after) (hv : v ≠ []) (j : Nat) :
    (Walk.textBetween i (i + (v.length - 1))).run ts j = .ok (.ok (Token.text v), j) := by
  have hpos := List.length_pos_iff.mpr hv
  have hlen := h.length_eq
  rw [List.length_append] at hlen
  have hslice : (ts.take (i + (v.length - 1) + 1)).drop i = v := by
    rw [show i + (v.length - 1) + 1 = i + v.length by omega, List.drop_take, h.drop_eq, List.append_assoc,
      show i + v.length - i = v.length by omega, List.take_left]
  simp only [Walk.textBetween]
  rw [if_pos ⟨by omega, by omega⟩, hslice]

theorem token_run {t : Token} (h : Stands ts i (v ++ t :: u) e after) (j : Nat) :
    (Walk.token (i + v.length)).run ts j = .ok (.ok t, j) := by
  have hget : ts[i + v.length]? = some t := by simp [h.getElem?_eq]
  simp only [Walk.token, Walk.tokenAt_eq_ok.mpr hget]

theorem of_splitLast? (h : Stands ts i (w ++ u) e after) (hs : Token.splitLast? w = some (before, last)) :
    ∃ v, Stands ts i (before ++ last :: v) e after := by
  obtain ⟨v, rfl, -, -⟩ := Token.splitLast?_eq_some hs
  exact ⟨v ++ u, by simpa using h⟩

theorem lastToken_run (h : Stands ts i (w ++ u) e after) (hs : Token.splitLast? w = some (before, last)) (j : Nat) :
    (Walk.token (i + before.length)).run ts j = .ok (.ok last, j) := by
  obtain ⟨v, hv⟩ := h.of_splitLast? hs
  exact hv.token_run j

theorem textThrough_run (h : Stands ts i (w ++ u) e after) (hs : Token.splitLast? w = some (before, last)) (j : Nat) :
    (Walk.textBetween i (i + before.length)).run ts j = .ok (.ok (Token.text (before ++ [last])), j) := by
  obtain ⟨v, hv⟩ := h.of_splitLast? hs
  have hv' : Stands ts i ((before ++ [last]) ++ v) e after := by simpa using hv
  simpa using hv'.textBetween_run (by simp) j

end Stands

namespace Walk

variable {ts : List Token} {i : Nat} {u : List Token} {e : Token} {after : List Token}

theorem inStatement_of_isInner {t : Token} (h : t.IsInner) : inStatement t = some () :=
  if_neg (not_or.mpr h)

theorem inStatement_of_ended (h : ¬ e.IsInner) : inStatement e = none :=
  if_pos (Token.kind_of_not_isInner h)

theorem bodyIndex_end (h : Stands ts i u e after) (hu : Token.significant u = []) :
    bodyIndex.walk.run ts i = .ok (.ok none, i) := by
  show (optional inStatement fun _ => previousIndex).run ts i = _
  rw [optional, peek_bind_run h, hu, List.headD_nil, inStatement_of_ended h.ended]
  rfl

theorem bodyIndex_next (h : Stands ts i u e after) {t : Token} {w : List Token}
    (hu : Token.significant u = t :: w) :
    ∃ j, bodyIndex.walk.run ts i = .ok (.ok (some j), j + 1) ∧
      Stands ts (j + 1) (Token.dropSignificant 1 u) e after := by
  obtain ⟨j, hj, hs, hinner⟩ := exists_next h hu
  refine ⟨j, ?_, hs⟩
  have hadvance : advance.run ts i = .ok (.ok t, j + 1) := by simp only [advance, hj, hinner.2, if_false]
  show (optional inStatement fun _ => previousIndex).run ts i = _
  rw [optional, peek_bind_run h, hu, List.headD_cons, inStatement_of_isInner hinner]
  simp only [bind_run, hadvance]
  rfl

theorem significantIndices_next (h : Stands ts i u e after) {t : Token} {w : List Token}
    (hu : Token.significant u = t :: w) {j : Nat} (hj : Stands ts (j + 1) (Token.dropSignificant 1 u) e after) :
    Token.significantIndices i u = j :: Token.significantIndices (j + 1) (Token.dropSignificant 1 u) := by
  have hindex := h.index_eq hj
  obtain ⟨gap, v, rfl, ht, hgap, -⟩ := Token.exists_split (w := []) hu
  rw [Token.dropSignificant_gap hgap ht, Token.dropSignificant_zero, List.length_append, List.length_cons] at hindex
  rw [Token.dropSignificant_gap hgap ht, Token.dropSignificant_zero, Token.significantIndices_append,
    Token.significantIndices_eq_nil hgap, List.nil_append, Token.significantIndices, if_pos ht,
    show i + gap.length = j by omega]

theorem meets_bodyIndices (h : Stands ts i u e after) :
    Meets bodyIndices ts i u e after (.ok (Token.significantIndices i u)) [] := by
  obtain ⟨n, hn⟩ : ∃ n, n = (Token.significant u).length := ⟨_, rfl⟩
  induction n generalizing i u with
  | zero =>
    have hu := List.length_eq_zero_iff.mp hn.symm
    refine Meets.of_run_eq (gather_run _ ts i) ?_
    rw [Token.significantIndices_eq_nil hu, ← hu]
    exact meets_here h (by rw [bind_run, bodyIndex_end h hu]; rfl)
  | succ n ih =>
    obtain ⟨t, w, hu⟩ := List.exists_cons_of_length_eq_add_one hn.symm
    obtain ⟨j, hj, hs⟩ := bodyIndex_next h hu
    have hsig : (Token.significant (Token.dropSignificant 1 u)).length = (Token.significant u).length - 1 := by
      rw [Token.significant_dropSignificant, List.length_drop]
    obtain ⟨m, k, hm, hw, hk, hrun⟩ := ih hs (by omega)
    refine ⟨1 + m, k, by omega, ?_, by rwa [Token.dropSignificant_add], ?_⟩
    · rw [hw, Token.significant_dropSignificant, List.drop_drop]
    · rw [bodyIndices, gather_run, bind_run, hj, significantIndices_next h hu hs]
      show (bodyIndices >>= fun js => pure (j :: js)).run ts (j + 1) = _
      rw [bind_run, hrun]
      rfl

theorem significantIndices_head {head : Token} (hh : head.isSignificant = true) (k : Nat) (u : List Token) :
    Token.significantIndices k (head :: u) = k :: Token.significantIndices (k + 1) u := by
  rw [Token.significantIndices, if_pos hh]

theorem exists_splitLast? {head : Token} (hh : head.isSignificant = true) (u : List Token) :
    ∃ front last, Token.splitLast? (head :: u) = some (front, last) := by
  cases hs : Token.splitLast? (head :: u) with
  | none => rw [Token.splitLast?_eq_none, Token.significant_cons hh] at hs; cases hs
  | some p => exact ⟨p.1, p.2, rfl⟩

theorem meets_verbatim {head : Token} (h : Stands ts i (head :: u) e after) (hh : head.isSignificant = true)
    (kind : Verbatim) :
    Meets (verbatim kind) ts (i + 1) u e after (.ok (verbatimStatement kind (head :: u))) [] := by
  obtain ⟨front, last, hs⟩ := exists_splitLast? hh u
  have hlast : (Token.significantIndices (i + 1) u).getLast?.getD i = i + front.length := by
    have := congrArg List.getLast? (Token.significantIndices_of_splitLast? hs i)
    rw [significantIndices_head hh, List.getLast?_cons, List.getLast?_concat] at this
    exact Option.some.inj this
  have hrun : (verbatim kind).run ts (i + 1) = (bodyIndices >>= fun others =>
      textBetween i (others.getLast?.getD i) >>= fun text => pure (Statement.verbatim kind text)).run ts (i + 1) := rfl
  refine Meets.of_run_eq hrun ((meets_bodyIndices h.next).bind fun {j u'} _ hj hu' => ?_)
  rw [hlast]
  have htext := Stands.textThrough_run (u := []) (by simpa using h) hs j
  refine (meets_here hj htext).bind fun _ hj' hu'' => ?_
  rw [verbatimStatement, Token.trimEnd, hs]
  exact meets_pure hj' (hu''.trans hu') _

/-! ## Queries with a named result -/

theorem fromEnd_run (l r : List Nat) (x : Nat) (ts : List Token) (j : Nat) :
    (fromEnd (l ++ x :: r) (r.length + 1)).run ts j = .ok (.ok x, j) := by
  have hget : (l ++ x :: r)[(l ++ x :: r).length - (r.length + 1)]? = some x := by simp
  have hle : r.length + 1 ≤ (l ++ x :: r).length := by simp
  simp only [fromEnd, if_pos hle, hget]

theorem resultName?_eq (t : Token) :
    t.resultName? = if t.kind.isName && !t.value.isEmpty then some (tableName t) else none := by
  unfold Token.resultName? Token.name? tableName
  cases hv : t.value.isEmpty with
  | true => simp
  | false => cases hk : t.kind <;> simp [Token.Kind.isName, Bool.false_eq_true]

structure EndsInThree (us before : List Token) (stop : Token) (query : List Token) (link : Token)
    (front : List Token) (last : Token) : Prop where
  last_eq : Token.splitLast? us = some (front, last)
  link_eq : Token.splitLast? front = some (query, link)
  stop_eq : Token.splitLast? query = some (before, stop)

section
variable {us before query front : List Token} {stop link last : Token}

theorem EndsInThree.indices_eq (h : EndsInThree us before stop query link front last) (i : Nat) :
    Token.significantIndices i us =
      Token.significantIndices i before ++ [i + before.length, i + query.length, i + front.length] := by
  rw [Token.significantIndices_of_splitLast? h.last_eq, Token.significantIndices_of_splitLast? h.link_eq,
    Token.significantIndices_of_splitLast? h.stop_eq]
  simp

theorem EndsInThree.selectStatement?_eq (h : EndsInThree us before stop query link front last) :
    selectStatement? us =
      if link.isKeyword .as then last.resultName?.map fun table => .select (Token.text (before ++ [stop])) table
      else none := by
  simp only [selectStatement?, h.last_eq, h.link_eq, h.stop_eq, Option.bind_eq_bind, Option.bind_some]
  cases last.resultName? with
  | none => simp
  | some n => cases link.isKeyword .as <;> rfl

theorem endsInThree_or (us : List Token) (i : Nat) :
    (∃ before stop query link front last, EndsInThree us before stop query link front last) ∨
      ((Token.significantIndices i us).length < 3 ∧ selectStatement? us = none) := by
  cases hl : Token.splitLast? us with
  | none =>
    refine .inr ⟨?_, by simp [selectStatement?, hl]⟩
    rw [Token.significantIndices_of_none hl]
    decide
  | some p =>
    obtain ⟨front, last⟩ := p
    cases hk : Token.splitLast? front with
    | none =>
      refine .inr ⟨?_, by simp [selectStatement?, hl, hk]⟩
      rw [Token.significantIndices_of_splitLast? hl, Token.significantIndices_of_none hk]
      simp
    | some p =>
      obtain ⟨query, link⟩ := p
      cases hs : Token.splitLast? query with
      | none =>
        refine .inr ⟨?_, by simp [selectStatement?, hl, hk, hs]⟩
        rw [Token.significantIndices_of_splitLast? hl, Token.significantIndices_of_splitLast? hk,
          Token.significantIndices_of_none hs]
        simp
      | some p => exact .inl ⟨p.1, p.2, query, link, front, last, hl, hk, hs⟩

end

theorem namesResult_run (h : Stands ts i u e after) (j : Nat) :
    (namesResult (Token.significantIndices i u)).run ts j = .ok (.ok (selectStatement? u).isSome, j) := by
  obtain ⟨before, stop, query, link, front, last, h₃⟩ | ⟨hshort, hnone⟩ := endsInThree_or u i
  · rw [h₃.indices_eq, namesResult, if_neg (by simp)]
    have hlink := (Stands.of_splitLast? (u := []) (by simpa using h) h₃.last_eq).elim fun _ hv =>
      hv.lastToken_run h₃.link_eq j
    have hlast := Stands.lastToken_run (u := []) (by simpa using h) h₃.last_eq j
    have hfrom₂ := fromEnd_run (Token.significantIndices i before ++ [i + before.length]) [i + front.length]
      (i + query.length) ts j
    have hfrom₁ := fromEnd_run (Token.significantIndices i before ++ [i + before.length, i + query.length]) []
      (i + front.length) ts j
    simp only [List.append_assoc, List.cons_append, List.nil_append, List.length_cons, List.length_nil,
      Nat.zero_add] at hfrom₁ hfrom₂
    rw [bind_run, hfrom₂]
    simp only [bind_run, hlink]
    rw [h₃.selectStatement?_eq, resultName?_eq]
    cases link.isKeyword .as with
    | false => rfl
    | true =>
      simp only [if_true, bind_run, hfrom₁, hlast]
      cases last.kind.isName && !last.value.isEmpty <;> rfl
  · rw [namesResult, if_pos hshort, hnone]
    rfl

theorem namedQuery_run (h : Stands ts i u e after) {s : Statement} (hs : selectStatement? u = some s) (j : Nat) :
    (namedQuery i (Token.significantIndices i u)).run ts j = .ok (.ok s, j) := by
  obtain ⟨before, stop, query, link, front, last, h₃⟩ | ⟨-, hnone⟩ := endsInThree_or u i
  · rw [h₃.selectStatement?_eq, resultName?_eq] at hs
    have hlast := Stands.lastToken_run (u := []) (by simpa using h) h₃.last_eq j
    have htext := (Stands.of_splitLast? (u := []) (by simpa using h) h₃.last_eq).elim fun _ hv =>
      (hv.of_splitLast? h₃.link_eq).elim fun _ hw => hw.textThrough_run h₃.stop_eq j
    have hfrom₁ := fromEnd_run (Token.significantIndices i before ++ [i + before.length, i + query.length]) []
      (i + front.length) ts j
    have hfrom₃ := fromEnd_run (Token.significantIndices i before) [i + query.length, i + front.length]
      (i + before.length) ts j
    simp only [List.append_assoc, List.cons_append, List.nil_append, List.length_cons, List.length_nil,
      Nat.zero_add] at hfrom₁ hfrom₃
    rw [h₃.indices_eq, namedQuery]
    simp only [bind_run, hfrom₁, hfrom₃, hlast, htext, pure_run]
    split at hs
    · split at hs
      · rw [Option.map_some] at hs
        rw [Option.some.inj hs]
      · cases hs
    · cases hs
  · rw [hnone] at hs
    cases hs

theorem meets_query {head : Token} (h : Stands ts i (head :: u) e after) (hh : head.isSignificant = true) :
    Meets query ts (i + 1) u e after
      (match selectStatement? (head :: u) with
        | some s => .ok s
        | none => .error (Failure.diagnostic ⟨.unexpected .queryResult, []⟩ e)) [] := by
  have hrun : query.run ts (i + 1) = (bodyIndices >>= fun others => namesResult (i :: others) >>= fun named =>
      if named then namedQuery i (i :: others) else unexpected .queryResult).run ts (i + 1) := rfl
  refine Meets.of_run_eq hrun ((meets_bodyIndices h.next).bind fun {j u'} _ hj hu => ?_)
  rw [← significantIndices_head hh]
  refine (meets_here hj (namesResult_run h j)).bind fun {k v} _ hk hv => ?_
  cases hs : selectStatement? (head :: u) with
  | some s =>
    rw [← hu, ← hv]
    exact meets_here hk (namedQuery_run h hs k)
  | none => exact meets_unexpected hk (hv.trans hu) .queryResult

end Walk

end PipelineScript
