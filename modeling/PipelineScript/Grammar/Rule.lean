import PipelineScript.Grammar.Failure

/-!
# Rules

A rule reads a value off the front of a list of significant tokens. It decides by
the next token alone and never goes back.
-/

namespace PipelineScript

def Rule (α : Type) : Type := List Token → Except Failure (α × List Token)

namespace Rule

variable {α β : Type}

protected def pure (a : α) : Rule α := fun w => .ok (a, w)

protected def bind (rule : Rule α) (next : α → Rule β) : Rule β := fun w =>
  match rule w with
  | .error f => .error f
  | .ok (a, r) => next a r

instance : Monad Rule where
  pure := Rule.pure
  bind := Rule.bind

@[simp] theorem pure_run (a : α) (w : List Token) : (pure a : Rule α) w = .ok (a, w) := rfl

theorem bind_run (rule : Rule α) (next : α → Rule β) (w : List Token) :
    (rule >>= next) w = match rule w with | .error f => .error f | .ok (a, r) => next a r := rfl

def read (wanted : Expectation) (f : Token → Option α) : Rule α
  | [] => .error ⟨.unexpected wanted, []⟩
  | t :: w =>
    match f t with
    | some a => .ok (a, w)
    | none => .error ⟨.unexpected wanted, t :: w⟩

def expect (wanted : Expectation) (kind : Token.Kind) : Rule Token :=
  read wanted fun t => if t.kind = kind then some t else none

def read? (f : Token → Option α) : Rule (Option α)
  | [] => .ok (none, [])
  | t :: w =>
    match f t with
    | some a => .ok (some a, w)
    | none => .ok (none, t :: w)

def readAll (f : Token → Option α) : Rule (List α)
  | [] => .ok ([], [])
  | t :: w =>
    match f t with
    | some a => (readAll f w).map fun r => (a :: r.1, r.2)
    | none => .ok ([], t :: w)

def startingWith (starts : Token.Kind → Bool) (rule : Rule α) : Rule (Option α)
  | [] => .ok (none, [])
  | t :: w => if starts t.kind then (rule (t :: w)).map fun r => (some r.1, r.2) else .ok (none, t :: w)

/-- Follows the rule behind a token that announces it, if that token is next. -/
def after (announces : Token.Kind → Bool) (rule : Rule α) : Rule (Option α)
  | [] => .ok (none, [])
  | t :: w => if announces t.kind then (rule w).map fun r => (some r.1, r.2) else .ok (none, t :: w)

def repeatedUpTo (announces : Token.Kind → Bool) (rule : Rule α) : Nat → Rule (List α)
  | 0 => pure []
  | n + 1 => do
    match ← after announces rule with
    | none => return []
    | some a => return a :: (← repeatedUpTo announces rule n)

/-- Follows the rule behind every token in a row that announces it; each round reads a token. -/
def repeated (announces : Token.Kind → Bool) (rule : Rule α) : Rule (List α) := fun w =>
  repeatedUpTo announces rule w.length w

/-! ## Repetition

A rule shrinks if it never gives back more tokens than it was given. For such
a rule the bound on the number of rounds is never met.
-/

def Shrinks (rule : Rule α) : Prop := ∀ w a r, rule w = .ok (a, r) → r.length ≤ w.length

theorem repeatedUpTo_nil (announces : Token.Kind → Bool) (rule : Rule α) :
    ∀ n, repeatedUpTo announces rule n [] = .ok ([], [])
  | 0 => rfl
  | _ + 1 => rfl

theorem repeatedUpTo_congr {announces : Token.Kind → Bool} {rule : Rule α} (h : Shrinks rule) :
    ∀ (n m : Nat) (w : List Token), w.length ≤ n → w.length ≤ m →
      repeatedUpTo announces rule n w = repeatedUpTo announces rule m w
  | n, m, [], _, _ => by rw [repeatedUpTo_nil, repeatedUpTo_nil]
  | n + 1, m + 1, t :: w, hn, hm => by
    simp only [repeatedUpTo, bind_run, after]
    by_cases ha : announces t.kind = true
    · simp only [ha, if_true]
      cases hr : rule w with
      | error f => rfl
      | ok p =>
        have hp := h _ _ _ hr
        simp only [List.length_cons] at hn hm
        simp only [Except.map, bind_run]
        rw [repeatedUpTo_congr h n m p.2 (by omega) (by omega)]
    · simp [ha]

theorem repeated_stop {announces : Token.Kind → Bool} (rule : Rule α) {t : Token}
    (ht : announces t.kind = false) (w : List Token) : repeated announces rule (t :: w) = .ok ([], t :: w) := by
  simp [repeated, repeatedUpTo, bind_run, after, ht]

theorem repeated_announced {announces : Token.Kind → Bool} {rule : Rule α} (h : Shrinks rule) {t : Token}
    (ht : announces t.kind = true) (w : List Token) :
    repeated announces rule (t :: w) =
      (do let a ← rule; let as ← repeated announces rule; return a :: as : Rule (List α)) w := by
  simp only [repeated, List.length_cons, repeatedUpTo, bind_run, after, ht, if_true]
  cases hr : rule w with
  | error f => rfl
  | ok p =>
    have hp := h _ _ _ hr
    simp only [Except.map, bind_run]
    rw [repeatedUpTo_congr h w.length p.2.length p.2 hp (Nat.le_refl _)]

/-! ## Whole statements -/

/-- What the rule reads when it has to read every token. -/
def complete (rule : Rule α) (w : List Token) : Except Failure α :=
  match rule w with
  | .error f => .error f
  | .ok (a, []) => .ok a
  | .ok (_, t :: r) => .error ⟨.unexpected .terminator, t :: r⟩

end Rule

end PipelineScript
