import PipelineScript.Proofs.Cursor.Queries

/-!
# Statements by their indices

At the first significant token of a segment, a walk over a whole statement comes
to what `readStatement` gives for the segment.
-/

namespace PipelineScript.Walk

variable {α : Type}

def Passed (ts : List Token) (j : Nat) (u : List Token) (e : Token) (after : List Token) : Prop :=
  ts.drop j = if e.kind = .semicolon then after else Token.dropSignificant (Token.significant u).length u ++ e :: after

def Ends (walk : Walk α) (ts : List Token) (i : Nat) (u : List Token) (e : Token) (after : List Token) :
    Except Failure α → Prop
  | .ok a => ∃ j, walk.run ts i = .ok (.ok a, j) ∧ Passed ts j u e after
  | .error f => Meets walk ts i u e after (.error (f.diagnostic e)) f.unread

section
variable {ts : List Token} {i : Nat} {u : List Token} {e : Token} {after : List Token}

theorem ender_run (h : Stands ts i u e after) (hu : Token.significant u = []) :
    ender.run ts i = .ok (.ok (), if e.kind = .semicolon then i + u.length + 1 else i) := by
  rw [ender, peek_bind_run h, hu, List.headD_nil]
  rcases Token.kind_of_not_isInner h.ended with hk | hk
  · have hadvance : advance.run ts i = .ok (.ok e, i + u.length + 1) := by
      simp [advance, significantFrom_end h hu, hk]
    simp only [hk, bind_run, hadvance, if_true]
    rfl
  · simp only [hk, reduceCtorEq, if_false]
    rfl

theorem drop_behind (h : Stands ts i u e after) : ts.drop (i + u.length + 1) = after := by
  have h' : Stands ts (i + u.length) [] e after := Stands.tail (by simpa using h)
  rw [← List.drop_drop, h'.drop_eq]
  rfl

theorem meets_ender_unexpected (h : Stands ts i u e after) {t : Token} {w : List Token}
    (hu : Token.significant u = t :: w) :
    Meets ender ts i u e after (.error (Failure.diagnostic ⟨.unexpected .terminator, t :: w⟩ e)) (t :: w) := by
  obtain ⟨-, -, -, hinner⟩ := exists_next h hu
  refine Meets.of_run_eq (peek_bind_run h _) ?_
  rw [hu, List.headD_cons]
  split
  · next hk => exact absurd hk hinner.1
  · next hk => exact absurd hk hinner.2
  · exact meets_unexpected h hu .terminator

theorem ends_of_ok {walk : Walk α} {a : α} (h : Meets walk ts i u e after (.ok a) []) :
    Ends (ended walk) ts i u e after (.ok a) := by
  obtain ⟨n, j, hn, hw, hj, hrun⟩ := h
  have hlen : n = (Token.significant u).length := by
    have := congrArg List.length hw
    rw [List.length_drop, List.length_nil] at this
    omega
  have hu : Token.significant (Token.dropSignificant n u) = [] := by rw [Token.significant_dropSignificant, ← hw]
  refine ⟨_, by rw [ended, bind_run, hrun]; simp only [bind_run, ender_run hj hu]; rfl, ?_⟩
  subst hlen
  unfold Passed
  split
  · exact drop_behind hj
  · exact hj.drop_eq

theorem ends_of_unread {walk : Walk α} {a : α} {t : Token} {w : List Token}
    (h : Meets walk ts i u e after (.ok a) (t :: w)) :
    Ends (ended walk) ts i u e after (.error ⟨.unexpected .terminator, t :: w⟩) :=
  h.bind fun _ hj hu => (meets_ender_unexpected hj hu).bind_error

theorem ends_of_error {walk : Walk α} {f : Failure}
    (h : Meets walk ts i u e after (.error (f.diagnostic e)) f.unread) :
    Ends (ended walk) ts i u e after (.error f) := h.bind_error

theorem ends_complete {walk : Walk α} {rule : Rule α} (hw : Follows walk rule) (h : Stands ts i u e after) :
    Ends (ended walk) ts i u e after (rule.complete (Token.significant u)) := by
  have hm := hw.meets h
  rw [Rule.complete]
  cases hr : rule (Token.significant u) with
  | error f =>
    rw [hr] at hm
    exact ends_of_error hm
  | ok p =>
    obtain ⟨a, w⟩ := p
    rw [hr] at hm
    cases w with
    | nil => exact ends_of_ok hm
    | cons t w => exact ends_of_unread hm

end

/-! ## The head of a statement -/

inductive Reads : Option Form → Option (Walk Statement) → Prop
  | nothing : Reads none none
  | structured {rule : Rule Statement} {walk : Walk Statement} (h : Follows walk rule) :
    Reads (some (.structured rule)) (some walk)
  | query : Reads (some .query) (some query)
  | verbatim (kind : Verbatim) : Reads (some (.verbatim kind)) (some (verbatim kind))

theorem reads_afterHead? (k : Keyword) : Reads k.form? (afterHead? k) := by
  cases k with
  | load => exact .structured follows_load
  | save => exact .structured follows_save
  | select => exact .query
  | insert => exact .verbatim .insert
  | create => exact .verbatim .create
  | drop => exact .verbatim .drop
  | refresh => exact .verbatim .refresh
  | set => exact .structured follows_setting
  | connect => exact .structured follows_connect
  | train => exact .structured (follows_model .train)
  | run => exact .structured (follows_model .run)
  | register => exact .structured follows_register
  | unregister => exact .structured follows_unregister
  | «include» => exact .structured follows_inclusion
  | _ => exact .nothing

theorem reads_production? (t : Token) : Reads t.form? (production? t) := by
  unfold Token.form? production?
  cases t.kind with
  | keyword k => exact reads_afterHead? k
  | _ => exact .nothing

section
variable {ts : List Token} {i : Nat} {head : Token} {rest : List Token} {e : Token} {after : List Token}

theorem advance_head (h : Stands ts i (head :: rest) e after) (hh : head.isSignificant = true) :
    advance.run ts i = .ok (.ok head, i + 1) := by
  obtain ⟨j, hj, hs, hinner⟩ := exists_next h (Token.significant_cons hh rest)
  have hindex := h.index_eq hs
  rw [Token.dropSignificant, if_pos hh, Token.dropSignificant_zero, List.length_cons] at hindex
  obtain rfl : j = i := by omega
  simp only [advance, hj, hinner.2, if_false]

theorem statement_run (h : Stands ts i (head :: rest) e after) (hh : head.isSignificant = true) {walk : Walk Statement}
    (hp : production? head = some walk) : endedStatement.run ts i = (ended walk).run ts (i + 1) := by
  have hstatement : statement.run ts i = walk.run ts (i + 1) := by
    rw [statement, peek_bind_run h, Token.significant_cons hh, List.headD_cons, hp]
    simp only [bind_run, advance_head h hh]
  rw [endedStatement, ended, ended, bind_run, bind_run, hstatement]

theorem Ends.of_behind_head {walk walk' : Walk α} (hh : head.isSignificant = true)
    (hrun : walk.run ts i = walk'.run ts (i + 1)) {x : Except Failure α} (hx : Ends walk' ts (i + 1) rest e after x) :
    Ends walk ts i (head :: rest) e after x := by
  have hsig := Token.significant_cons hh rest
  have hdrop : ∀ n, Token.dropSignificant (n + 1) (head :: rest) = Token.dropSignificant n rest :=
    fun n => by rw [Token.dropSignificant, if_pos hh]
  cases x with
  | ok a =>
    obtain ⟨j, hj, hpassed⟩ := hx
    refine ⟨j, hrun.trans hj, ?_⟩
    rw [Passed, hsig, List.length_cons, hdrop]
    exact hpassed
  | error f =>
    obtain ⟨n, j, hn, hw, hj, hr⟩ := hx
    refine ⟨n + 1, j, ?_, ?_, ?_, hrun.trans hr⟩
    · rw [hsig, List.length_cons]
      omega
    · rw [hsig, List.drop_succ_cons, hw]
    · rwa [hdrop]

theorem ends_statement (h : Stands ts i (head :: rest) e after) (hh : head.isSignificant = true) :
    Ends endedStatement ts i (head :: rest) e after (readStatement head rest) := by
  have hreads := reads_production? head
  unfold readStatement
  generalize hf : head.form? = form at hreads
  generalize hp : production? head = walk at hreads
  cases hreads with
  | nothing =>
    have hmeets : Meets statement ts i (head :: rest) e after
        (.error (Failure.diagnostic ⟨.notAStatement, Token.significant (head :: rest)⟩ e))
        (Token.significant (head :: rest)) := by
      refine Meets.of_run_eq (peek_bind_run h _) ?_
      rw [Token.significant_cons hh, List.headD_cons, hp, ← Token.significant_cons hh]
      refine meets_here h ?_
      rw [Token.significant_cons hh]
      rfl
    exact ends_of_error hmeets
  | structured hw => exact (ends_complete hw h.next).of_behind_head hh (statement_run h hh hp)
  | query =>
    have hq := meets_query h hh
    refine Ends.of_behind_head hh (statement_run h hh hp) ?_
    simp only
    split
    · next s hs =>
      rw [hs] at hq
      exact ends_of_ok hq
    · next hs =>
      rw [hs] at hq
      exact ends_of_error hq
  | verbatim kind => exact (ends_of_ok (meets_verbatim h hh kind)).of_behind_head hh (statement_run h hh hp)

end

end PipelineScript.Walk
