import PipelineScript.Grammar.Failure

/-!
# Walks over a token stream

A walk reads the tokens of a stream by their index. It never goes back, and it
breaks off with a fault where there is no token or no index.
-/

namespace PipelineScript

inductive Fault
  | noToken (index : Nat)
  | noRange (first last : Nat)
  | noIndex (fromEnd : Nat)
  deriving Repr, DecidableEq

structure Walk (α : Type) where
  run : List Token → Nat → Except Fault (Except Diagnostic α × Nat)
  forward : ∀ {ts i r j}, run ts i = .ok (r, j) → i ≤ j

namespace Walk

variable {α β : Type}

protected def pure (a : α) : Walk α where
  run _ i := .ok (.ok a, i)
  forward h := by cases h; exact Nat.le_refl _

/-- A diagnostic leaves the index where it was found. -/
protected def bind (walk : Walk α) (next : α → Walk β) : Walk β where
  run ts i :=
    match walk.run ts i with
    | .error f => .error f
    | .ok (.error d, j) => .ok (.error d, j)
    | .ok (.ok a, j) => (next a).run ts j
  forward h := by
    split at h
    · cases h
    · next hw =>
      cases h
      exact walk.forward hw
    · next hw => exact Nat.le_trans (walk.forward hw) ((next _).forward h)

instance : Monad Walk where
  pure := Walk.pure
  bind := Walk.bind

theorem pure_run (a : α) (ts : List Token) (i : Nat) : (pure a : Walk α).run ts i = .ok (.ok a, i) := rfl

theorem bind_run (walk : Walk α) (next : α → Walk β) (ts : List Token) (i : Nat) :
    (walk >>= next).run ts i =
      match walk.run ts i with
      | .error f => .error f
      | .ok (.error d, j) => .ok (.error d, j)
      | .ok (.ok a, j) => (next a).run ts j := rfl

def fail (d : Diagnostic) : Walk α where
  run _ i := .ok (.error d, i)
  forward h := by cases h; exact Nat.le_refl _

/-! ## Single tokens -/

def tokenAt (ts : List Token) (i : Nat) : Except Fault Token :=
  match ts[i]? with
  | none => .error (.noToken i)
  | some t => .ok t

/-- The first index from `i` on whose token is not passed over. -/
def skip (passes : Token → Bool) (ts : List Token) (i : Nat) : Except Fault Nat :=
  match h : ts[i]? with
  | none => .error (.noToken i)
  | some t => if passes t then skip passes ts (i + 1) else .ok i
termination_by ts.length - i
decreasing_by
  have := (List.getElem?_eq_some_iff.mp h).1
  omega

def significantFrom (ts : List Token) (i : Nat) : Except Fault (Token × Nat) :=
  match skip (fun t => !t.isSignificant) ts i with
  | .error f => .error f
  | .ok j =>
    match tokenAt ts j with
    | .error f => .error f
    | .ok t => .ok (t, j)

theorem tokenAt_eq_ok {ts : List Token} {i : Nat} {t : Token} : tokenAt ts i = .ok t ↔ ts[i]? = some t := by
  unfold tokenAt
  split <;> simp_all

theorem le_of_skip {passes : Token → Bool} {ts : List Token} {i j : Nat} (h : skip passes ts i = .ok j) : i ≤ j := by
  fun_induction skip passes ts i with
  | case1 => cases h
  | case2 i t _ _ ih => exact Nat.le_of_succ_le (ih h)
  | case3 => cases h; exact Nat.le_refl _

theorem of_significantFrom {ts : List Token} {i j : Nat} {t : Token} (h : significantFrom ts i = .ok (t, j)) :
    i ≤ j ∧ ts[j]? = some t := by
  unfold significantFrom at h
  split at h
  · cases h
  · next k hk =>
    split at h
    · cases h
    · next u hu =>
      cases h
      exact ⟨le_of_skip hk, tokenAt_eq_ok.mp hu⟩

def peek : Walk Token where
  run ts i :=
    match significantFrom ts i with
    | .error f => .error f
    | .ok (t, _) => .ok (.ok t, i)
  forward h := by
    split at h <;> cases h
    exact Nat.le_refl _

/-- Takes the next significant token; the end of input is never passed. -/
def advance : Walk Token where
  run ts i :=
    match significantFrom ts i with
    | .error f => .error f
    | .ok (t, j) => .ok (.ok t, if t.kind = .endOfInput then j else j + 1)
  forward {ts i r j} h := by
    split at h
    · cases h
    · next t k hk =>
      have := (of_significantFrom hk).1
      cases h
      split <;> omega

def previousIndex : Walk Nat where
  run _ i := .ok (.ok (i - 1), i)
  forward h := by cases h; exact Nat.le_refl _

def token (index : Nat) : Walk Token where
  run ts i :=
    match tokenAt ts index with
    | .error f => .error f
    | .ok t => .ok (.ok t, i)
  forward h := by
    split at h <;> cases h
    exact Nat.le_refl _

def textBetween (first last : Nat) : Walk Text where
  run ts i :=
    if first ≤ last + 1 ∧ last < ts.length then .ok (.ok (Token.text ((ts.take (last + 1)).drop first)), i)
    else .error (.noRange first last)
  forward h := by
    split at h <;> cases h
    exact Nat.le_refl _

/-! ## Wanted tokens -/

def unexpected (wanted : Expectation) : Walk α := do
  let t ← peek
  fail (Failure.unexpected wanted t)

def expect (wanted : Expectation) (kind : Token.Kind) : Walk Token := do
  let t ← peek
  if t.kind = kind then advance else unexpected wanted

/-- Takes the next token if it is picked, and goes on with what it was picked as. -/
def optional (picks : Token → Option β) (next : β → Walk α) : Walk (Option α) := do
  let t ← peek
  match picks t with
  | none => return none
  | some b =>
    let _ ← advance
    let a ← next b
    return some a

/-! ## Loops -/

structure Stride (α : Type) where
  walk : Walk (Option α)
  ahead : ∀ {ts i a j}, walk.run ts i = .ok (.ok (some a), j) → i < j ∧ i < ts.length

theorem bind_eq_ok {walk : Walk α} {next : α → Walk β} {ts : List Token} {i j : Nat} {b : β} :
    (walk >>= next).run ts i = .ok (.ok b, j) ↔
      ∃ a k, walk.run ts i = .ok (.ok a, k) ∧ (next a).run ts k = .ok (.ok b, j) := by
  rw [bind_run]
  cases walk.run ts i with
  | error f => simp
  | ok p =>
    obtain ⟨r, k⟩ := p
    cases r with
    | error d => simp
    | ok a =>
      constructor
      · exact fun h => ⟨a, k, rfl, h⟩
      · rintro ⟨b, l, hb, h⟩
        cases hb
        exact h

theorem optional_ahead {picks : Token → Option β} (hp : ∀ t, t.kind = .endOfInput → picks t = none)
    (next : β → Walk α) {ts : List Token} {i j : Nat} {a : α}
    (h : (optional picks next).run ts i = .ok (.ok (some a), j)) : i < j ∧ i < ts.length := by
  obtain ⟨t, k, ht, h₁⟩ := bind_eq_ok.mp h
  simp only [peek] at ht
  split at ht <;> cases ht
  next m hm =>
  obtain ⟨him, hget⟩ := of_significantFrom hm
  have hlt := (List.getElem?_eq_some_iff.mp hget).1
  cases hpick : picks t with
  | none =>
    rw [hpick] at h₁
    cases h₁
  | some b =>
    have he : t.kind ≠ .endOfInput := fun he => by rw [hp t he] at hpick; cases hpick
    rw [hpick] at h₁
    obtain ⟨u, k, hu, h₂⟩ := bind_eq_ok.mp h₁
    simp only [advance, hm, he, if_false] at hu
    cases hu
    obtain ⟨x, l, hl, h₃⟩ := bind_eq_ok.mp h₂
    cases h₃
    have := (next b).forward hl
    omega

def Stride.picking (picks : Token → Option β) (hp : ∀ t, t.kind = .endOfInput → picks t = none)
    (next : β → Walk α) : Stride α where
  walk := optional picks next
  ahead := optional_ahead hp next

def gatherFrom (stride : Stride α) (ts : List Token) (i : Nat) : Except Fault (Except Diagnostic (List α) × Nat) :=
  match _h : stride.walk.run ts i with
  | .error f => .error f
  | .ok (.error d, j) => .ok (.error d, j)
  | .ok (.ok none, j) => .ok (.ok [], j)
  | .ok (.ok (some a), j) =>
    match gatherFrom stride ts j with
    | .error f => .error f
    | .ok (.error d, k) => .ok (.error d, k)
    | .ok (.ok as, k) => .ok (.ok (a :: as), k)
termination_by ts.length - i
decreasing_by
  have := stride.ahead _h
  omega

def gather (stride : Stride α) : Walk (List α) where
  run := gatherFrom stride
  forward {ts i r j} h := by
    fun_induction gatherFrom stride ts i generalizing r j with
    | case1 => cases h
    | case2 i d j' hs =>
      cases h
      exact stride.walk.forward hs
    | case3 i j' hs =>
      cases h
      exact stride.walk.forward hs
    | case4 i a j' hs f hf ih => cases h
    | case5 i a j' hs d k hk ih =>
      cases h
      exact Nat.le_trans (stride.walk.forward hs) (ih hk)
    | case6 i a j' hs as k hk ih =>
      cases h
      exact Nat.le_trans (stride.walk.forward hs) (ih hk)

end Walk

end PipelineScript
