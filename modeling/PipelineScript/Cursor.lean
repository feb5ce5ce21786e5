import PipelineScript.Cursor.Statement
import PipelineScript.Output

/-!
# Cursors

A run goes in turns, each from the index of the next token that is not used. It
leaves the cursor where it ends, for the next run.
-/

namespace PipelineScript

/-- Goes on past the next semicolon or up to an end of input; `skipped` counts the tokens passed. -/
def Walk.synchronize (ts : List Token) (i skipped : Nat) : Except Fault (Nat × Nat) :=
  match h : ts[i]? with
  | none => .error (.noToken i)
  | some t =>
    if t.kind = .endOfInput then .ok (i, skipped)
    else if t.kind = .semicolon then .ok (i + 1, skipped + 1)
    else synchronize ts (i + 1) (skipped + 1)
termination_by ts.length - i
decreasing_by
  have := (List.getElem?_eq_some_iff.mp h).1
  omega

/-- What one turn comes to: what it found, where it leaves the cursor and whether the run goes on. -/
structure Turn where
  outcome : Option Outcome
  index : Nat
  goesOn : Bool
  deriving Repr, DecidableEq

namespace Turn

open Walk

def atHead (settings : Settings) (reported : Nat) (head : Token) (ts : List Token) (i : Nat) : Except Fault Turn :=
  match endedStatement.run ts i with
  | .error f => .error f
  | .ok (.ok s, j) => .ok ⟨some (.statement head s), j, true⟩
  | .ok (.error d, j) =>
    if settings.reaches (reported + 1) then .ok ⟨some (.fault head d .stopped), j, false⟩
    else
      match synchronize ts j 0 with
      | .error f => .error f
      | .ok (k, skipped) => .ok ⟨some (.fault head d (.skipped skipped)), k, true⟩

/-- A turn from index `i` on, when `reported` faults have been found before. -/
def take (settings : Settings) (reported : Nat) (ts : List Token) (i : Nat) : Except Fault Turn :=
  match skip (fun t => t.kind.isTrivia) ts i with
  | .error f => .error f
  | .ok j =>
    match tokenAt ts j with
    | .error f => .error f
    | .ok head =>
      match head.kind with
      | .endOfInput => .ok ⟨none, j, false⟩
      | .semicolon => .ok ⟨none, j + 1, true⟩
      | .lineComment => .ok ⟨some (.comment head), j + 1, true⟩
      | _ => atHead settings reported head ts j

theorem lt_of_endedStatement {ts : List Token} {i j : Nat} {s : Statement}
    (h : endedStatement.run ts i = .ok (.ok s, j)) : i < j := by
  obtain ⟨s, k, hs, h₁⟩ := bind_eq_ok.mp h
  obtain ⟨u, l, he, h₂⟩ := bind_eq_ok.mp h₁
  cases h₂
  have hkj := ender.forward he
  obtain ⟨head, m, hm, h₃⟩ := bind_eq_ok.mp hs
  simp only [peek] at hm
  split at hm <;> cases hm
  next n hn =>
  have hin := (of_significantFrom hn).1
  cases hp : production? head with
  | none =>
    rw [hp] at h₃
    cases h₃
  | some walk =>
    have hend : head.kind ≠ .endOfInput := fun hend => by simp [production?, hend] at hp
    rw [hp] at h₃
    obtain ⟨t, k', ht, h₄⟩ := bind_eq_ok.mp h₃
    simp only [advance, hn, hend, if_false] at ht
    cases ht
    have := walk.forward h₄
    omega

theorem of_synchronize {ts : List Token} {i n j m : Nat} (h : synchronize ts i n = .ok (j, m)) :
    i ≤ j ∧ (i = j → ∃ t, ts[i]? = some t ∧ t.kind = .endOfInput) := by
  fun_induction synchronize ts i n with
  | case1 => cases h
  | case2 i n t ht he =>
    cases h
    exact ⟨Nat.le_refl _, fun _ => ⟨t, ht, he⟩⟩
  | case3 i n t ht he hs =>
    cases h
    exact ⟨Nat.le_succ _, by omega⟩
  | case4 i n t ht he hs ih =>
    have := (ih h).1
    exact ⟨by omega, by omega⟩

theorem atHead_ahead {settings : Settings} {reported : Nat} {head : Token} {ts : List Token} {i : Nat} {t : Turn}
    (hi : ts[i]? = some head) (hend : head.kind ≠ .endOfInput) (h : atHead settings reported head ts i = .ok t)
    (hgo : t.goesOn = true) : i < t.index := by
  unfold atHead at h
  split at h
  · cases h
  · next s j hs =>
    cases h
    exact lt_of_endedStatement hs
  · next d j hs =>
    have hij := endedStatement.forward hs
    split at h
    · cases h
      cases hgo
    · split at h
      · cases h
      · next k skipped hk =>
        cases h
        obtain ⟨hjk, hstuck⟩ := of_synchronize hk
        -- a statement that used no token did not start at an end of input
        by_cases he : j = k
        · obtain ⟨e, hj, hek⟩ := hstuck he
          have hne : i ≠ j := fun hij => by
            rw [← hij, hi] at hj
            obtain rfl := Option.some.inj hj
            exact hend hek
          show i < k
          omega
        · show i < k
          omega

theorem take_ahead {settings : Settings} {reported : Nat} {ts : List Token} {i : Nat} {t : Turn}
    (h : take settings reported ts i = .ok t) (hgo : t.goesOn = true) : i < t.index ∧ i < ts.length := by
  unfold take at h
  split at h
  · cases h
  · next j hj =>
    have hij := le_of_skip hj
    split at h
    · cases h
    · next head hhead =>
      have hget := tokenAt_eq_ok.mp hhead
      have hlt := (List.getElem?_eq_some_iff.mp hget).1
      split at h
      · cases h
        cases hgo
      · cases h
        exact ⟨Nat.lt_succ_of_le hij, by omega⟩
      · cases h
        exact ⟨Nat.lt_succ_of_le hij, by omega⟩
      · next hend _ _ =>
        have := atHead_ahead hget hend h hgo
        omega

end Turn

/-! ## Runs -/

structure Cursor where
  settings : Settings
  tokens : List Token
  index : Nat
  deriving Repr, DecidableEq

namespace Cursor

def ofTokens (settings : Settings) (ts : List Token) : Cursor := ⟨settings, Token.terminated ts, 0⟩

def turns (settings : Settings) (ts : List Token) (reported i : Nat) : Except Fault (List Outcome × Nat) :=
  match _h : Turn.take settings reported ts i with
  | .error f => .error f
  | .ok t =>
    if _hgo : t.goesOn = true then
      match turns settings ts (reported + (t.outcome.bind Outcome.diagnostic?).toList.length) t.index with
      | .error f => .error f
      | .ok (os, j) => .ok (t.outcome.toList ++ os, j)
    else .ok (t.outcome.toList, t.index)
termination_by ts.length - i
decreasing_by
  have := Turn.take_ahead _h _hgo
  omega

def run (c : Cursor) : Except Fault (List Outcome × Cursor) :=
  match turns c.settings c.tokens 0 c.index with
  | .error f => .error f
  | .ok (os, j) => .ok (os, { c with index := j })

def output (c : Cursor) : Except Fault (Output × Cursor) :=
  match c.run with
  | .error f => .error f
  | .ok (os, c') => .ok (.ofOutcomes c.settings os, c')

/-- The outputs of `n` runs, each of which goes on where the one before has stopped, and the cursor they leave. -/
def outputs : Nat → Cursor → Except Fault (List Output × Cursor)
  | 0, c => .ok ([], c)
  | n + 1, c =>
    match c.output with
    | .error f => .error f
    | .ok (o, c') =>
      match outputs n c' with
      | .error f => .error f
      | .ok (os, c'') => .ok (o :: os, c'')

end Cursor

end PipelineScript
