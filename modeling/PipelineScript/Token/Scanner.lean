import PipelineScript.Token.Lexer

/-!
# Scanners

A scanner reads a text by the index of its characters and cuts lexemes out between
byte offsets. Where there is no character, or a cut splits one, it breaks off.
-/

namespace PipelineScript

/-! ## Cutting at byte offsets -/

namespace Text

def splitBytes? : Nat → Text → Option (Text × Text)
  | 0, t => some ([], t)
  | _ + 1, [] => none
  | n + 1, c :: t =>
    if c.utf8Size ≤ n + 1 then (splitBytes? (n + 1 - c.utf8Size) t).map fun (s, u) => (c :: s, u) else none

def slice? (t : Text) (first last : Nat) : Option Text :=
  if first ≤ last then do
    let (_, u) ← splitBytes? first t
    let (s, _) ← splitBytes? (last - first) u
    return s
  else none

end Text

/-! ## Single characters -/

structure Spot where
  index : Nat
  position : Position
  deriving Repr, DecidableEq

def Spot.start : Spot := ⟨0, .start⟩

structure Scanner where
  chars : Text
  spot : Spot
  finished : Bool
  deriving Repr, DecidableEq

namespace Scanner

inductive Fault
  | noCharacter (index : Nat)
  | noSlice (first last : Nat)
  deriving Repr, DecidableEq

section
variable (chars : Text)

def isAtEnd (s : Spot) : Bool := chars.length ≤ s.index

/-- The character `n` places ahead; a null character stands for what is past the end. -/
def peek (s : Spot) (n : Nat) : Char := chars[s.index + n]?.getD '\x00'

def peeks (s : Spot) (n : Nat) : Text := (List.range n).map (peek chars s)

def advance (s : Spot) : Except Fault (Char × Spot) :=
  match chars[s.index]? with
  | none => .error (.noCharacter s.index)
  | some c => .ok (c, ⟨s.index + 1, s.position.next c⟩)

def advanceBy : Nat → Spot → Except Fault Spot
  | 0, s => return s
  | n + 1, s => do
    let (_, s) ← advance chars s
    advanceBy n s

def slice (first last : Spot) : Except Fault Text :=
  match chars.slice? first.position.offset last.position.offset with
  | none => .error (.noSlice first.position.offset last.position.offset)
  | some t => .ok t

end

theorem of_advance {chars : Text} {s s' : Spot} {c : Char} (h : advance chars s = .ok (c, s')) :
    s.index < chars.length ∧ s'.index = s.index + 1 := by
  unfold advance at h
  split at h
  · cases h
  · next d hd =>
    cases h
    exact ⟨(List.getElem?_eq_some_iff.mp hd).1, rfl⟩

section
variable {α β : Type} {next : α → Except Fault β}

theorem ok_bind (a : α) : (Except.ok a >>= next) = next a := rfl

theorem of_bind {r : Except Fault α} {b : β} (h : (r >>= next) = .ok b) : ∃ a, r = .ok a ∧ next a = .ok b := by
  cases r with
  | error f => cases h
  | ok a => exact ⟨a, rfl, h⟩

end

/-! ## Loops -/

def skipWhile (passes : Char → Bool) (chars : Text) (s : Spot) : Except Fault Spot :=
  if !isAtEnd chars s && passes (peek chars s 0) then
    match _h : advance chars s with
    | .error f => .error f
    | .ok (_, s') => skipWhile passes chars s'
  else .ok s
termination_by chars.length - s.index
decreasing_by
  have := of_advance _h
  omega

/-- One look for the end of a token finds it, goes on from another place, or gives the end up for lost. -/
inductive Look
  | found (s : Spot)
  | on (s : Spot)
  | lost
  deriving Repr, DecidableEq

structure Hunt where
  look : Text → Spot → Except Fault Look
  ahead : ∀ {chars s s'}, look chars s = .ok (.on s') → s.index < s'.index

namespace Hunt

/-- Behind the end, if there is one. -/
def seek (hunt : Hunt) (chars : Text) (s : Spot) : Except Fault (Option Spot) :=
  if _hs : s.index < chars.length then
    match _h : hunt.look chars s with
    | .error f => .error f
    | .ok (.found s') => .ok (some s')
    | .ok (.on s') => seek hunt chars s'
    | .ok .lost => .ok none
  else .ok none
termination_by chars.length - s.index
decreasing_by
  have := hunt.ahead _h
  omega

def verbatim (closing : Text) : Hunt where
  look chars s :=
    if peeks chars s closing.length = closing then return .found (← advanceBy chars closing.length s)
    else return .on (← advance chars s).2
  ahead {chars s s'} h := by
    split at h
    · obtain ⟨_, _, h⟩ := of_bind h
      cases h
    · obtain ⟨_, ha, h⟩ := of_bind h
      cases h
      exact Nat.lt_of_succ_le (Nat.le_of_eq (of_advance ha).2.symm)

def quoted (q : Char) : Hunt where
  look chars s := do
    let (c, s) ← advance chars s
    if c = '\\' then
      if isAtEnd chars s then return .lost
      else return .on (← advance chars s).2
    else if c = q then return .found s
    else return .on s
  ahead {chars s s'} h := by
    obtain ⟨⟨c, r⟩, ha, h⟩ := of_bind h
    have := (of_advance ha).2
    simp only at h
    split at h
    · split at h
      · cases h
      · obtain ⟨_, hb, h⟩ := of_bind h
        cases h
        have := (of_advance hb).2
        omega
    · split at h <;> cases h
      omega

def backquoted : Hunt where
  look chars s := do
    let (c, s) ← advance chars s
    if c = '\x60' then
      if peek chars s 0 = '\x60' then return .on (← advance chars s).2
      else return .found s
    else return .on s
  ahead {chars s s'} h := by
    obtain ⟨⟨c, r⟩, ha, h⟩ := of_bind h
    have := (of_advance ha).2
    simp only at h
    split at h
    · split at h
      · obtain ⟨_, hb, h⟩ := of_bind h
        cases h
        have := (of_advance hb).2
        omega
      · cases h
    · cases h
      omega

end Hunt

/-! ## Tokens -/

section
variable (chars : Text)

/-- A token whose end is not found is cut down to its first character. -/
def close (start : Spot) (kind : Token.Kind) : Option Spot → Except Fault (Token.Kind × Spot)
  | some s => return (kind, s)
  | none => return (.unrecognized, (← advance chars start).2)

def comment (start s : Spot) : Except Fault (Token.Kind × Spot) := do
  let (_, s) ← advance chars s
  if peeks chars s 2 = ['*', '/'] then return (.emptyComment, ← advanceBy chars 2 s)
  else close chars start .bracketedComment (← (Hunt.verbatim ['*', '/']).seek chars s)

def word (start s : Spot) : Except Fault (Token.Kind × Spot) := do
  let s ← skipWhile Text.isWordChar chars s
  match Keyword.ofWord? (← slice chars start s) with
  | some k => return (.keyword k, s)
  | none => return (.identifier, s)

/-- The rest of a token that starts with `c` at `start`, from the place `s` behind `c` on. -/
def finish (c : Char) (start s : Spot) : Opening → Except Fault (Token.Kind × Spot)
  | .blank => return (.whitespace, ← skipWhile Text.isBlank chars s)
  | .line => return (.lineComment, ← skipWhile (· ≠ '\n') chars s)
  | .bracket => comment chars start s
  | .single kind => return (kind, s)
  | .block => do
    let s ← advanceBy chars 2 s
    close chars start .blockString (← (Hunt.verbatim ['\x27', '\x27', '\x27']).seek chars s)
  | .quote => do close chars start .string (← (Hunt.quoted c).seek chars s)
  | .backquote => do close chars start .backquoted (← Hunt.backquoted.seek chars s)
  | .word => word chars start s
  | .stray => return (.unrecognized, s)

def token (start : Spot) : Except Fault (Token × Spot) := do
  let (c, s) ← advance chars start
  let (kind, s) ← finish chars c start s (opening c (peeks chars s 2))
  return (⟨kind, ← slice chars start s, start.position⟩, s)

end

def start (source : Text) : Scanner := ⟨source, .start, false⟩

def next (l : Scanner) : Except Fault (Option Token × Scanner) :=
  if l.finished then return (none, l)
  else if isAtEnd l.chars l.spot then return (some (.endOfInput l.spot.position), { l with finished := true })
  else do
    let (t, s) ← token l.chars l.spot
    return (some t, { l with spot := s })

def steps : Nat → Scanner → Except Fault (List (Option Token))
  | 0, _ => return []
  | n + 1, l => do
    let (t, l) ← l.next
    return t :: (← steps n l)

end Scanner

end PipelineScript
