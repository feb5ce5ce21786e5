import PipelineScript.Cursor.Walk
import PipelineScript.Proofs.Reading.Content
import PipelineScript.Proofs.Syntax.Phrases

/-!
# Walks that follow rules

A walk follows a rule if inside any segment it comes to the same result, or to the
diagnostic of the same failure, just behind the tokens that the rule has read.
-/

namespace PipelineScript

namespace Token

theorem kind_of_not_isInner {t : Token} (h : ¬ t.IsInner) : t.kind = .semicolon ∨ t.kind = .endOfInput := by
  by_cases hs : t.kind = .semicolon
  · exact .inl hs
  · by_cases he : t.kind = .endOfInput
    · exact .inr he
    · exact absurd ⟨hs, he⟩ h

theorem isSignificant_of_not_isInner {t : Token} (h : ¬ t.IsInner) : t.isSignificant = true := by
  cases ht : t.isSignificant with
  | true => rfl
  | false => exact absurd (isInner_of_not_significant ht) h

end Token

/-! ## Places in a stream -/

/-- At index `i` stand the tokens `u` of one segment, then the token `e` that ends it, then `after`. -/
structure Stands (ts : List Token) (i : Nat) (u : List Token) (e : Token) (after : List Token) : Prop where
  drop_eq : ts.drop i = u ++ e :: after
  inner : ∀ t ∈ u, t.IsInner
  ended : ¬ e.IsInner

namespace Stands

variable {ts : List Token} {i : Nat} {u : List Token} {e : Token} {after : List Token}

theorem getElem?_eq (h : Stands ts i u e after) (n : Nat) : ts[i + n]? = (u ++ e :: after)[n]? := by
  rw [← h.drop_eq, List.getElem?_drop]

theorem length_eq (h : Stands ts i u e after) : ts.length = i + u.length + 1 + after.length := by
  have := congrArg List.length h.drop_eq
  rw [List.length_drop, List.length_append, List.length_cons] at this
  omega

theorem tail {v : List Token} (h : Stands ts i (v ++ u) e after) : Stands ts (i + v.length) u e after where
  drop_eq := by rw [← List.drop_drop, h.drop_eq, List.append_assoc, List.drop_left]
  inner t ht := h.inner t (List.mem_append_right v ht)
  ended := h.ended

theorem next {t : Token} (h : Stands ts i (t :: u) e after) : Stands ts (i + 1) u e after := h.tail (v := [t])

theorem index_eq {j : Nat} {v : List Token} (h : Stands ts i u e after) (h' : Stands ts j v e after) :
    i + u.length = j + v.length := by
  have := h.length_eq
  have := h'.length_eq
  omega

end Stands

namespace Walk

theorem skip_pass (passes : Token → Bool) {ts : List Token} {i : Nat} {t : Token} (hi : ts[i]? = some t)
    (ht : passes t = true) : skip passes ts i = skip passes ts (i + 1) := by
  rw [skip]
  split
  · next hn => rw [hn] at hi; cases hi
  · next x hx =>
    rw [hi] at hx
    obtain rfl := Option.some.inj hx
    exact if_pos ht

theorem skip_stop (passes : Token → Bool) {ts : List Token} {i : Nat} {t : Token} (hi : ts[i]? = some t)
    (ht : passes t = false) : skip passes ts i = .ok i := by
  rw [skip]
  split
  · next hn => rw [hn] at hi; cases hi
  · next x hx =>
    rw [hi] at hx
    obtain rfl := Option.some.inj hx
    exact if_neg (by simp [ht])

theorem getElem?_of_drop {ts : List Token} {i : Nat} {t : Token} {v : List Token} (h : ts.drop i = t :: v) :
    ts[i]? = some t := by
  rw [← Nat.add_zero i, ← List.getElem?_drop, h]
  rfl

theorem drop_succ_of_drop {ts : List Token} {i : Nat} {t : Token} {v : List Token} (h : ts.drop i = t :: v) :
    ts.drop (i + 1) = v := by
  rw [← List.drop_drop, h]
  rfl

theorem skip_gap (passes : Token → Bool) {ts : List Token} {i : Nat} {gap v : List Token} {t : Token}
    (hd : ts.drop i = gap ++ t :: v) (hg : ∀ x ∈ gap, passes x = true) (ht : passes t = false) :
    skip passes ts i = .ok (i + gap.length) := by
  induction gap generalizing i with
  | nil => exact skip_stop passes (getElem?_of_drop hd) ht
  | cons x gap ih =>
    rw [skip_pass passes (getElem?_of_drop hd) (hg _ List.mem_cons_self),
      ih (drop_succ_of_drop hd) fun y hy => hg y (List.mem_cons_of_mem _ hy), List.length_cons]
    exact congrArg Except.ok (by omega)

variable {α β : Type}

section
variable {ts : List Token} {i : Nat} {u : List Token} {e : Token} {after : List Token}

/-- Inside a segment the walk comes to `r`, to the index just behind the significant tokens that are not in `w`. -/
def Meets (walk : Walk α) (ts : List Token) (i : Nat) (u : List Token) (e : Token) (after : List Token)
    (r : Except Diagnostic α) (w : List Token) : Prop :=
  ∃ n j, n ≤ (Token.significant u).length ∧ w = (Token.significant u).drop n ∧
    Stands ts j (Token.dropSignificant n u) e after ∧ walk.run ts i = .ok (r, j)

theorem meets_here (h : Stands ts i u e after) {walk : Walk α} {r : Except Diagnostic α}
    (hr : walk.run ts i = .ok (r, i)) : Meets walk ts i u e after r (Token.significant u) :=
  ⟨0, i, Nat.zero_le _, by rw [List.drop_zero], by rwa [Token.dropSignificant_zero], hr⟩

theorem Meets.bind {walk : Walk α} {next : α → Walk β} {a : α} {w v : List Token} {r : Except Diagnostic β}
    (h : Meets walk ts i u e after (.ok a) w)
    (hn : ∀ {j u'}, walk.run ts i = .ok (.ok a, j) → Stands ts j u' e after → Token.significant u' = w →
      Meets (next a) ts j u' e after r v) : Meets (walk >>= next) ts i u e after r v := by
  obtain ⟨m, j, hm, rfl, hj, hrun⟩ := h
  obtain ⟨n, k, hle, rfl, hk, hrun'⟩ := hn hrun hj (Token.significant_dropSignificant m u)
  rw [Token.significant_dropSignificant, List.length_drop] at hle
  refine ⟨m + n, k, by omega, ?_, ?_, ?_⟩
  · rw [Token.significant_dropSignificant, List.drop_drop]
  · rwa [Token.dropSignificant_add]
  · rw [bind_run, hrun]
    exact hrun'

theorem Meets.bind_error {walk : Walk α} {next : α → Walk β} {d : Diagnostic} {w : List Token}
    (h : Meets walk ts i u e after (.error d) w) : Meets (walk >>= next) ts i u e after (.error d) w := by
  obtain ⟨n, j, hn, hw, hj, hrun⟩ := h
  exact ⟨n, j, hn, hw, hj, by rw [bind_run, hrun]⟩

theorem Meets.of_run_eq {walk walk' : Walk α} {r : Except Diagnostic α} {w : List Token}
    (h : walk.run ts i = walk'.run ts i) (hw : Meets walk' ts i u e after r w) : Meets walk ts i u e after r w := by
  obtain ⟨n, j, hn, hw, hj, hrun⟩ := hw
  exact ⟨n, j, hn, hw, hj, h.trans hrun⟩

theorem Meets.exists_run {walk : Walk α} {r : Except Diagnostic α} {w : List Token}
    (h : Meets walk ts i u e after r w) :
    ∃ j, Stands ts j (Token.dropSignificant ((Token.significant u).length - w.length) u) e after ∧
      walk.run ts i = .ok (r, j) := by
  obtain ⟨n, j, hn, rfl, hj, hrun⟩ := h
  refine ⟨j, ?_, hrun⟩
  rwa [List.length_drop, Nat.sub_sub_self hn]

theorem meets_pure (h : Stands ts i u e after) {w : List Token} (hu : Token.significant u = w) (a : α) :
    Meets (pure a) ts i u e after (.ok a) w := by
  subst hu
  exact meets_here h rfl

theorem significantFrom_end (h : Stands ts i u e after) (hu : Token.significant u = []) :
    significantFrom ts i = .ok (e, i + u.length) := by
  have hskip := skip_gap (fun t => !t.isSignificant) h.drop_eq
    (fun x hx => by simpa using List.filter_eq_nil_iff.mp hu x hx)
    (by simp [Token.isSignificant_of_not_isInner h.ended])
  have hget : ts[i + u.length]? = some e := by simp [h.getElem?_eq]
  simp only [significantFrom, hskip, tokenAt_eq_ok.mpr hget]

theorem exists_next (h : Stands ts i u e after) {t : Token} {w : List Token} (hu : Token.significant u = t :: w) :
    ∃ j, significantFrom ts i = .ok (t, j) ∧ Stands ts (j + 1) (Token.dropSignificant 1 u) e after ∧ t.IsInner := by
  obtain ⟨gap, v, rfl, ht, hgap, -⟩ := Token.exists_split (w := []) hu
  have hd : ts.drop i = gap ++ t :: (v ++ e :: after) := by rw [h.drop_eq]; simp
  have hskip := skip_gap (fun t => !t.isSignificant) hd
    (fun x hx => by simpa using List.filter_eq_nil_iff.mp hgap x hx) (by simp [ht])
  have hget : ts[i + gap.length]? = some t := by simp [h.getElem?_eq]
  refine ⟨i + gap.length, by simp only [significantFrom, hskip, tokenAt_eq_ok.mpr hget], ?_,
    h.inner t (by simp)⟩
  rw [Token.dropSignificant_gap hgap ht, Token.dropSignificant_zero]
  exact h.tail.next

theorem peek_run (h : Stands ts i u e after) : peek.run ts i = .ok (.ok ((Token.significant u).headD e), i) := by
  cases hu : Token.significant u with
  | nil => simp only [peek, significantFrom_end h hu, List.headD_nil]
  | cons t w =>
    obtain ⟨j, hj, -, -⟩ := exists_next h hu
    simp only [peek, hj, List.headD_cons]

theorem peek_bind_run (h : Stands ts i u e after) (next : Token → Walk α) :
    (peek >>= next).run ts i = (next ((Token.significant u).headD e)).run ts i := by
  rw [bind_run, peek_run h]

theorem meets_advance (h : Stands ts i u e after) {t : Token} {w : List Token} (hu : Token.significant u = t :: w) :
    Meets advance ts i u e after (.ok t) w := by
  obtain ⟨j, hj, hs, hi⟩ := exists_next h hu
  exact ⟨1, j + 1, by simp [hu], by simp [hu], hs, by simp only [advance, hj, hi.2, if_false]⟩

theorem meets_unexpected (h : Stands ts i u e after) {w : List Token} (hu : Token.significant u = w)
    (wanted : Expectation) :
    Meets (unexpected wanted : Walk α) ts i u e after (.error (Failure.diagnostic ⟨.unexpected wanted, w⟩ e)) w := by
  subst hu
  refine meets_here h ?_
  rw [unexpected, peek_bind_run h]
  cases Token.significant u <;> rfl

end

/-! ## Following a rule -/

def verdict (e : Token) : Except Failure (α × List Token) → Except Diagnostic α
  | .ok (a, _) => .ok a
  | .error f => .error (f.diagnostic e)

def unread : Except Failure (α × List Token) → List Token
  | .ok (_, w) => w
  | .error f => f.unread

theorem Meets.map {ts : List Token} {i : Nat} {u : List Token} {e : Token} {after : List Token} {walk : Walk α}
    {x : Except Failure (α × List Token)} (h : Meets walk ts i u e after (verdict e x) (unread x)) (g : α → β) :
    Meets (walk >>= fun a => pure (g a)) ts i u e after (verdict e (x.map fun r => (g r.1, r.2)))
      (unread (x.map fun r => (g r.1, r.2))) := by
  cases x with
  | error f => exact h.bind_error
  | ok p => exact h.bind fun _ hj hu => meets_pure hj hu (g p.1)

structure Follows (walk : Walk α) (rule : Rule α) : Prop where
  meets : ∀ {ts i u e after}, Stands ts i u e after →
    Meets walk ts i u e after (verdict e (rule (Token.significant u))) (unread (rule (Token.significant u)))

theorem follows_pure (a : α) : Follows (pure a) (pure a) := ⟨fun h => meets_pure h rfl a⟩

theorem Follows.bind {walk : Walk α} {rule : Rule α} {next : α → Walk β} {rest : α → Rule β}
    (hw : Follows walk rule) (hn : ∀ a, Follows (next a) (rest a)) : Follows (walk >>= next) (rule >>= rest) := by
  refine ⟨fun {ts i u e after} h => ?_⟩
  have hm := hw.meets h
  rw [Rule.bind_run]
  cases hr : rule (Token.significant u) with
  | error f =>
    rw [hr] at hm
    exact hm.bind_error
  | ok p =>
    rw [hr] at hm
    refine hm.bind fun {j u'} _ hj hu => ?_
    have hm' := (hn p.1).meets hj
    rwa [hu] at hm'

end Walk

end PipelineScript
