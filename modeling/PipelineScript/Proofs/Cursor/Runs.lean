import PipelineScript.Proofs.Cursor.Turns
import PipelineScript.Proofs.Reading.Segments

/-!
# A run by its segments

A run goes through a stream segment by segment, as a reading does, and leaves
what the reading leaves. Main statement: `agrees_segments`.
-/

namespace PipelineScript

namespace Token

theorem suffix_of_inner {e : Token} (he : e.kind = .endOfInput) {junk v : List Token} :
    ∀ {u : List Token}, (∀ t ∈ u, t.kind ≠ .endOfInput) → e :: junk <:+ u ++ v → e :: junk <:+ v
  | [], _, h => h
  | t :: u, hu, h => by
    rcases List.suffix_cons_iff.mp (by simpa using h) with heq | hsuffix
    · obtain rfl := (List.cons.inj heq).1
      exact absurd he (hu _ List.mem_cons_self)
    · exact suffix_of_inner he (fun x hx => hu x (List.mem_cons_of_mem _ hx)) hsuffix

end Token

theorem exists_stands {ts : List Token} {i : Nat} {e : Token} (he : e.kind = .endOfInput) {junk : List Token}
    (h : e :: junk <:+ ts.drop i) : ∃ u x after, Stands ts i u x after := by
  obtain ⟨front, hd⟩ := h
  cases hfind : (ts.drop i).find? fun t => t.kind == .semicolon || t.kind == .endOfInput with
  | none =>
    have := List.find?_eq_none.mp hfind e (by rw [← hd]; simp)
    simp [he] at this
  | some x =>
    obtain ⟨hx, u, after, hsplit, hu⟩ := List.find?_eq_some_iff_append.mp hfind
    refine ⟨u, x, after, hsplit, fun t ht => ?_, fun hinner => ?_⟩
    · have := hu t ht
      simpa [Token.IsInner] using this
    · simp [hinner.1, hinner.2] at hx

/-- What holds in front of a segment if it holds behind the semicolon of the segment holds wherever an end of input is
ahead. -/
theorem piece_induction {ts : List Token} {e₀ : Token} (he₀ : e₀.kind = .endOfInput) {junk : List Token}
    {motive : Nat → Prop}
    (step : ∀ {i u e after}, Stands ts i u e after → e₀ :: junk <:+ e :: after →
      (e.kind = .semicolon → ∀ {j}, ts.drop j = after → motive j) → motive i)
    {i : Nat} (hlast : e₀ :: junk <:+ ts.drop i) : motive i := by
  obtain ⟨u, e, after, h⟩ := exists_stands he₀ hlast
  have hahead : e₀ :: junk <:+ e :: after :=
    Token.suffix_of_inner he₀ (fun t ht => (h.inner t ht).2) (h.drop_eq ▸ hlast)
  refine step h hahead fun hk {j} hd => piece_induction he₀ step ?_
  rw [hd]
  exact Token.suffix_of_inner he₀ (u := [e]) (by simp [hk]) hahead
termination_by ts.length - i
decreasing_by
  have hlen := h.length_eq
  have hdrop := congrArg List.length hd
  rw [List.length_drop] at hdrop
  omega

namespace Cursor

/-! ## One segment of a run -/

section
variable {settings : Settings} {reported : Nat} {ts : List Token} {i : Nat} {head : Token} {u rest : List Token}
  {e : Token} {after : List Token}

theorem turns_statement (h : Stands ts i (head :: rest) e after) (hh : head.isSignificant = true) {s : Statement}
    (hs : readStatement head rest = .ok s) :
    ∃ j, Walk.Passed ts j (head :: rest) e after ∧
      turns settings ts reported i = prepend [.statement head s] (turns settings ts reported j) := by
  have hends := Walk.ends_statement h hh
  rw [hs] at hends
  obtain ⟨j, hrun, hpassed⟩ := hends
  refine ⟨j, hpassed, ?_⟩
  have htake : Turn.take settings reported ts i = Turn.atHead settings reported head ts i :=
    Turn.take_head (Walk.getElem?_of_drop h.drop_eq) hh (h.inner head List.mem_cons_self)
  simp only [Turn.atHead, hrun] at htake
  exact turns_goesOn htake

theorem turns_end (h : Stands ts i [] e after) :
    ∃ j, ts.drop j = (if e.kind = .semicolon then after else e :: after) ∧
      turns settings ts reported i = turns settings ts reported j := by
  rcases Token.kind_of_not_isInner h.ended with hk | hk
  · refine ⟨i + 1, by rw [if_pos hk]; exact Walk.drop_succ_of_drop h.drop_eq, ?_⟩
    rw [turns_goesOn (Turn.take_semicolon (Walk.getElem?_of_drop h.drop_eq) hk)]
    exact prepend_nil _
  · exact ⟨i, by rw [if_neg (by simp [hk])]; exact h.drop_eq, rfl⟩

theorem turns_stopped (h : Stands ts i (head :: rest) e after) (hh : head.isSignificant = true) {f : Failure}
    (hf : readStatement head rest = .error f) (hr : settings.reaches (reported + 1) = true) :
    ∃ j, Stands ts j (Token.dropSignificant ((Token.significant (head :: rest)).length - f.unread.length)
        (head :: rest)) e after ∧
      turns settings ts reported i = .ok ([.fault head (f.diagnostic e) .stopped], j) := by
  have hends := Walk.ends_statement h hh
  rw [hf] at hends
  obtain ⟨j, hj, hrun⟩ := hends.exists_run
  refine ⟨j, hj, ?_⟩
  have htake : Turn.take settings reported ts i = Turn.atHead settings reported head ts i :=
    Turn.take_head (Walk.getElem?_of_drop h.drop_eq) hh (h.inner head List.mem_cons_self)
  simp only [Turn.atHead, hrun, hr, if_true] at htake
  exact turns_stops htake

theorem turns_skipped (h : Stands ts i (head :: rest) e after) (hh : head.isSignificant = true) {f : Failure}
    (hf : readStatement head rest = .error f) (hr : settings.reaches (reported + 1) = false) :
    ∃ j, ts.drop j = (if e.kind = .semicolon then after else e :: after) ∧
      turns settings ts reported i =
        prepend [.fault head (f.diagnostic e) (.skipped
          ((Token.dropSignificant ((Token.significant (head :: rest)).length - f.unread.length) (head :: rest)).length +
            if e.kind = .semicolon then 1 else 0))]
          (turns settings ts (reported + 1) j) := by
  have hends := Walk.ends_statement h hh
  rw [hf] at hends
  obtain ⟨k, hk, hrun⟩ := hends.exists_run
  have htake : Turn.take settings reported ts i = Turn.atHead settings reported head ts i :=
    Turn.take_head (Walk.getElem?_of_drop h.drop_eq) hh (h.inner head List.mem_cons_self)
  simp only [Turn.atHead, hrun, hr, Bool.false_eq_true, if_false, Turn.synchronize_run hk 0, Nat.zero_add] at htake
  exact ⟨_, Turn.drop_past hk, turns_goesOn htake⟩

end

/-! ## A run through the segments -/

structure Tracks (ending : List Token) (ts : List Token) (j : Nat) (ss : List Segment) : Prop where
  ahead : ending <:+ ts.drop j
  left : ss = Segment.all (ts.drop j) ∨ ss = [] ∧ ∃ e after, ts.drop j = e :: after ∧ e.kind = .endOfInput

/-- A run from index `i` on comes to what a reading has come to. -/
def Agrees (ending : List Token) (settings : Settings) (ts : List Token) (reported i : Nat) (r : Reading) : Prop :=
  ∃ j, turns settings ts reported i = .ok (r.outcomes, j) ∧ Tracks ending ts j r.remaining

def othersBehind (e : Token) (after : List Token) : List Segment :=
  if e.kind = .semicolon then Segment.all after else []

section
variable {settings : Settings} {reported reported' : Nat} {ending ts : List Token} {i j : Nat} {u gap : List Token}
  {e : Token} {after : List Token}

theorem all_eq_othersBehind (h : Stands ts i u e after) : Segment.all (ts.drop i) = ⟨u, e⟩ :: othersBehind e after := by
  rw [h.drop_eq, othersBehind]
  rcases Token.kind_of_not_isInner h.ended with hk | hk
  · rw [if_pos hk, Segment.all_semicolon h.inner hk]
  · rw [if_neg (by simp [hk]), Segment.all_endOfInput h.inner hk]

theorem Agrees.of_prepend {os : List Outcome} {r : Reading} (h : Agrees ending settings ts reported' j r)
    (ht : turns settings ts reported i = prepend os (turns settings ts reported' j)) :
    Agrees ending settings ts reported i (r.after os) := by
  obtain ⟨k, hk, htracks⟩ := h
  exact ⟨k, by rw [ht, hk]; rfl, htracks⟩

def GoesOn (ending : List Token) (settings : Settings) (ts : List Token) (e : Token) (after : List Token) : Prop :=
  ∀ {reported j gap}, Token.significant gap = [] →
    (ts.drop j = if e.kind = .semicolon then after else gap ++ e :: after) →
    Agrees ending settings ts reported j
      ((Reading.ofSegments settings reported (othersBehind e after)).after
        (Outcome.comments (if e.kind = .semicolon then [] else gap)))

theorem goesOn_of_others (he : ¬ e.IsInner) (hahead : ending <:+ e :: after)
    (hothers : ∀ {reported j}, e.kind = .semicolon → ts.drop j = after →
      Agrees ending settings ts reported j (Reading.ofSegments settings reported (Segment.all after))) :
    GoesOn ending settings ts e after := by
  intro reported j gap hgap hd
  rcases Token.kind_of_not_isInner he with hk | hk
  · rw [if_pos hk] at hd
    rw [othersBehind, if_pos hk, if_pos hk]
    exact hothers hk hd
  · have hne : e.kind ≠ .semicolon := by simp [hk]
    rw [if_neg hne] at hd
    have hend : ts.drop (j + gap.length) = e :: after := by rw [← List.drop_drop, hd, List.drop_left]
    rw [othersBehind, if_neg hne, if_neg hne]
    refine Agrees.of_prepend (r := ⟨[], []⟩) ⟨j + gap.length, ?_, ?_, ?_⟩ (turns_lead hd hgap)
    · exact turns_stops (Turn.take_endOfInput (Walk.getElem?_of_drop hend) hk)
    · rwa [hend]
    · exact .inr ⟨rfl, e, after, hend, hk⟩

theorem GoesOn.behind (hg : GoesOn ending settings ts e after)
    (hd : ts.drop j = if e.kind = .semicolon then after else e :: after) :
    Agrees ending settings ts reported j (Reading.ofSegments settings reported (othersBehind e after)) := by
  have h : Agrees ending settings ts reported j ((Reading.ofSegments settings reported (othersBehind e after)).after
      (Outcome.comments (if e.kind = .semicolon then [] else []))) := hg rfl hd
  rwa [ite_self] at h

variable {s : Segment} {head : Token} {rest : List Token}

theorem agrees_blank (h : Stands ts i s.tokens s.terminator after) (hg : GoesOn ending settings ts s.terminator after)
    (hb : s.body = []) :
    Agrees ending settings ts reported i
      (Reading.ofSegments settings reported (s :: othersBehind s.terminator after)) := by
  have hd : ts.drop i = s.lead ++ s.terminator :: after := by rw [h.drop_eq, Segment.tokens_of_nil hb]
  have hend : Stands ts (i + s.lead.length) [] s.terminator after :=
    ⟨by rw [← List.drop_drop, hd, List.drop_left]; rfl, nofun, h.ended⟩
  obtain ⟨j, hj, hturns⟩ := turns_end hend
  rw [Reading.ofSegments, Segment.content_blank hb]
  exact (hg.behind hj).of_prepend (by rw [turns_lead hd (Segment.significant_lead s), hturns])

theorem stands_body (h : Stands ts i s.tokens s.terminator after) :
    Stands ts (i + s.lead.length) s.body s.terminator after :=
  Stands.tail (by rwa [s.lead_append_body])

theorem turns_body (h : Stands ts i s.tokens s.terminator after) :
    turns settings ts reported i =
      prepend (Outcome.comments s.lead) (turns settings ts reported (i + s.lead.length)) := by
  have hd : ts.drop i = s.lead ++ (s.body ++ s.terminator :: after) := by
    rw [h.drop_eq, ← List.append_assoc, s.lead_append_body]
  exact turns_lead hd (Segment.significant_lead s)

theorem agrees_statement (h : Stands ts i s.tokens s.terminator after)
    (hg : GoesOn ending settings ts s.terminator after) (hb : s.body = head :: rest) {st : Statement}
    (hs : readStatement head rest = .ok st) :
    Agrees ending settings ts reported i
      (Reading.ofSegments settings reported (s :: othersBehind s.terminator after)) := by
  have hbody := stands_body h
  rw [hb] at hbody
  obtain ⟨j, hpassed, hturns⟩ := turns_statement hbody (Segment.isSignificant_head hb) hs
  have htail : s.tail = if s.terminator.kind = .semicolon then [] else Token.trailer (head :: rest) := by
    simp [Segment.tail_eq hb, Segment.isClosed]
  rw [Walk.Passed, ← Token.trailer_eq] at hpassed
  have hrest : Agrees ending settings ts reported j
      ((Reading.ofSegments settings reported (othersBehind s.terminator after)).after (Outcome.comments s.tail)) := by
    rw [htail]
    exact hg (Token.significant_trailer _) hpassed
  have hlead := (hrest.of_prepend hturns).of_prepend (turns_body h)
  rw [Reading.ofSegments, Segment.content_statement hb hs]
  simpa [Reading.after] using hlead

theorem agrees_fault (h : Stands ts i s.tokens s.terminator after) (hahead : ending <:+ s.terminator :: after)
    (hg : GoesOn ending settings ts s.terminator after) (hb : s.body = head :: rest) {f : Failure}
    (hf : readStatement head rest = .error f) :
    Agrees ending settings ts reported i
      (Reading.ofSegments settings reported (s :: othersBehind s.terminator after)) := by
  have hbody := stands_body h
  rw [hb] at hbody
  have hhead := Segment.isSignificant_head hb
  rw [Reading.ofSegments, Segment.content_fault hb hf]
  cases hr : settings.reaches (reported + 1) with
  | true =>
    obtain ⟨j, hj, hturns⟩ := turns_stopped hbody hhead hf hr
    rw [← hb] at hj
    refine ⟨j, ?_, ?_, ?_⟩
    · rw [turns_body h, hturns]
      rfl
    · rw [hj.drop_eq]
      exact hahead.trans (List.suffix_append ..)
    · exact .inl (all_eq_othersBehind hj).symm
  | false =>
    obtain ⟨j, hj, hturns⟩ := turns_skipped hbody hhead hf hr
    rw [← hb] at hturns
    have hlead := ((hg.behind hj).of_prepend hturns).of_prepend (turns_body h)
    simpa [Reading.after, Segment.unread, Segment.isClosed] using hlead

end

theorem agrees_segments {e₀ : Token} (he₀ : e₀.kind = .endOfInput) {junk : List Token} (settings : Settings)
    {ts : List Token} {i : Nat} (hlast : e₀ :: junk <:+ ts.drop i) : ∀ reported,
      Agrees (e₀ :: junk) settings ts reported i (Reading.ofSegments settings reported (Segment.all (ts.drop i))) := by
  refine piece_induction he₀ (motive := fun i => ∀ reported, Agrees (e₀ :: junk) settings ts reported i
    (Reading.ofSegments settings reported (Segment.all (ts.drop i))))
    (fun {i u e after} h hahead ih reported => ?_) hlast
  have hg : GoesOn (e₀ :: junk) settings ts e after := by
    refine goesOn_of_others h.ended hahead fun {reported' j} hk hd => ?_
    have hothers := ih hk hd reported'
    rwa [hd] at hothers
  rw [all_eq_othersBehind h]
  cases hb : (⟨u, e⟩ : Segment).body with
  | nil => exact agrees_blank (s := ⟨u, e⟩) h hg hb
  | cons head rest =>
    cases hs : readStatement head rest with
    | ok st => exact agrees_statement (s := ⟨u, e⟩) h hg hb hs
    | error f => exact agrees_fault (s := ⟨u, e⟩) h hahead hg hb hs

end Cursor

end PipelineScript
