import PipelineScript.Cursor
import PipelineScript.Proofs.Cursor.Statements

/-!
# Turns

What a run comes to is what its next turn finds, and then a run from there.
-/

namespace PipelineScript

namespace Turn

variable {settings : Settings} {reported : Nat} {ts : List Token} {i : Nat} {t : Token}

theorem take_trivia (hi : ts[i]? = some t) (ht : t.kind.isTrivia = true) :
    take settings reported ts i = take settings reported ts (i + 1) := by
  rw [take, take, Walk.skip_pass _ hi ht]

theorem take_at (hi : ts[i]? = some t) (ht : t.kind.isTrivia = false) :
    take settings reported ts i =
      match t.kind with
      | .endOfInput => .ok ⟨none, i, false⟩
      | .semicolon => .ok ⟨none, i + 1, true⟩
      | .lineComment => .ok ⟨some (.comment t), i + 1, true⟩
      | _ => atHead settings reported t ts i := by
  rw [take, Walk.skip_stop _ hi ht]
  cases hk : t.kind <;> simp only [Walk.tokenAt_eq_ok.mpr hi, hk]

theorem take_endOfInput (hi : ts[i]? = some t) (ht : t.kind = .endOfInput) :
    take settings reported ts i = .ok ⟨none, i, false⟩ := by
  rw [take_at hi (by rw [ht]; rfl), ht]

theorem take_semicolon (hi : ts[i]? = some t) (ht : t.kind = .semicolon) :
    take settings reported ts i = .ok ⟨none, i + 1, true⟩ := by
  rw [take_at hi (by rw [ht]; rfl), ht]

theorem take_comment (hi : ts[i]? = some t) (ht : t.kind = .lineComment) :
    take settings reported ts i = .ok ⟨some (.comment t), i + 1, true⟩ := by
  rw [take_at hi (by rw [ht]; rfl), ht]

theorem take_head (hi : ts[i]? = some t) (hs : t.isSignificant = true) (ht : t.IsInner) :
    take settings reported ts i = atHead settings reported t ts i := by
  cases hk : t.kind with
  | semicolon => exact absurd hk ht.1
  | endOfInput => exact absurd hk ht.2
  | lineComment | whitespace | emptyComment | bracketedComment =>
    simp [Token.isSignificant, hk, Token.Kind.isSignificant, Token.Kind.isTrivia] at hs
  | _ => rw [take_at hi (by rw [hk]; rfl), hk]

theorem synchronize_at (hi : ts[i]? = some t) (n : Nat) :
    Walk.synchronize ts i n =
      if t.kind = .endOfInput then .ok (i, n)
      else if t.kind = .semicolon then .ok (i + 1, n + 1)
      else Walk.synchronize ts (i + 1) (n + 1) := by
  rw [Walk.synchronize]
  split
  · next hn => rw [hn] at hi; cases hi
  · next x hx =>
    rw [hi] at hx
    rw [Option.some.inj hx]

theorem drop_past {u : List Token} {e : Token} {after : List Token} (h : Stands ts i u e after) :
    ts.drop (i + (u.length + if e.kind = .semicolon then 1 else 0)) =
      if e.kind = .semicolon then after else e :: after := by
  split
  · rw [← Nat.add_assoc]
    exact Walk.drop_behind h
  · have hend : Stands ts (i + u.length) [] e after := Stands.tail (by rwa [List.append_nil])
    exact hend.drop_eq

theorem synchronize_run {u : List Token} {e : Token} {after : List Token} (h : Stands ts i u e after) (n : Nat) :
    Walk.synchronize ts i n = .ok (i + (u.length + if e.kind = .semicolon then 1 else 0),
      n + (u.length + if e.kind = .semicolon then 1 else 0)) := by
  induction u generalizing i n with
  | nil =>
    rw [synchronize_at (Walk.getElem?_of_drop h.drop_eq)]
    rcases Token.kind_of_not_isInner h.ended with hk | hk <;> simp [hk]
  | cons x u ih =>
    have hx := h.inner x List.mem_cons_self
    rw [synchronize_at (Walk.getElem?_of_drop h.drop_eq), if_neg hx.2, if_neg hx.1, ih h.next, List.length_cons]
    exact congrArg Except.ok (Prod.ext (by simp only; omega) (by simp only; omega))

end Turn

namespace Cursor

variable {settings : Settings} {reported : Nat} {ts : List Token} {i j : Nat}

/-! ## One turn of a run -/

def prepend (os : List Outcome) (r : Except Fault (List Outcome × Nat)) : Except Fault (List Outcome × Nat) :=
  r.map fun p => (os ++ p.1, p.2)

theorem prepend_nil (r : Except Fault (List Outcome × Nat)) : prepend [] r = r := by cases r <;> rfl

theorem prepend_prepend (os us : List Outcome) (r : Except Fault (List Outcome × Nat)) :
    prepend os (prepend us r) = prepend (os ++ us) r := by
  cases r with
  | error f => rfl
  | ok p => simp [prepend, Except.map]

theorem turns_goesOn {o : Option Outcome} (h : Turn.take settings reported ts i = .ok ⟨o, j, true⟩) :
    turns settings ts reported i =
      prepend o.toList (turns settings ts (reported + (o.bind Outcome.diagnostic?).toList.length) j) := by
  rw [turns]
  split
  · next h' => rw [h] at h'; cases h'
  · next t h' =>
    rw [h] at h'
    obtain rfl := Except.ok.inj h'
    rw [dif_pos rfl]
    split <;> next hr => rw [hr]; rfl

theorem turns_stops {o : Option Outcome} (h : Turn.take settings reported ts i = .ok ⟨o, j, false⟩) :
    turns settings ts reported i = .ok (o.toList, j) := by
  rw [turns]
  split
  · next h' => rw [h] at h'; cases h'
  · next t h' =>
    rw [h] at h'
    obtain rfl := Except.ok.inj h'
    rw [dif_neg Bool.false_ne_true]

theorem turns_fails {f : Fault} (h : Turn.take settings reported ts i = .error f) :
    turns settings ts reported i = .error f := by
  rw [turns]
  split
  · next h' =>
    rw [h] at h'
    rw [Except.error.inj h']
  · next h' => rw [h] at h'; cases h'

theorem turns_congr {k : Nat} (h : Turn.take settings reported ts i = Turn.take settings reported ts k) :
    turns settings ts reported i = turns settings ts reported k := by
  cases hk : Turn.take settings reported ts k with
  | error f => rw [turns_fails hk, turns_fails (h.trans hk)]
  | ok t =>
    obtain ⟨o, j, goesOn⟩ := t
    cases goesOn with
    | true => rw [turns_goesOn hk, turns_goesOn (h.trans hk)]
    | false => rw [turns_stops hk, turns_stops (h.trans hk)]

theorem turns_lead {lead more : List Token} (hd : ts.drop i = lead ++ more)
    (hl : Token.significant lead = []) :
    turns settings ts reported i = prepend (Outcome.comments lead) (turns settings ts reported (i + lead.length)) := by
  induction lead generalizing i with
  | nil => exact (prepend_nil _).symm
  | cons t lead ih =>
    have hi := Walk.getElem?_of_drop hd
    obtain ⟨ht, hlead⟩ := Token.significant_cons_eq_nil hl
    have hrest := ih (Walk.drop_succ_of_drop hd) hlead
    rw [List.length_cons, show i + (lead.length + 1) = i + 1 + lead.length by omega]
    cases htrivia : t.kind.isTrivia with
    | true =>
      have hnot : t.kind ≠ .lineComment := fun hk => by rw [hk] at htrivia; cases htrivia
      have hcomments : Outcome.comments (t :: lead) = Outcome.comments lead := by
        simp [Outcome.comments, Segment.comments, hnot]
      rw [turns_congr (Turn.take_trivia hi htrivia), hrest, hcomments]
    | false =>
      have hk : t.kind = .lineComment := by
        unfold Token.isSignificant Token.Kind.isSignificant at ht
        split at ht
        · assumption
        · simp [htrivia] at ht
      have hcomments : Outcome.comments (t :: lead) = .comment t :: Outcome.comments lead := by
        simp [Outcome.comments, Segment.comments, hk]
      rw [turns_goesOn (Turn.take_comment hi hk), hcomments]
      exact (congrArg _ hrest).trans (prepend_prepend ..)

end Cursor

end PipelineScript
