import PipelineScript.Text.Basic

/-!
# Written numbers

What a number is worth is a multiple of a power of two with 53 significant bits,
so a written number can be too large.
-/

namespace PipelineScript.Number

/-! ## Written form

Each part is measured in characters; `none` means that the part is malformed.
-/

def digitsWidth (t : Text) : Nat := (t.takeWhile Char.isDigit).length

def wholeWidth? : Text → Option Nat
  | '0' :: _ => some 1
  | t => if digitsWidth t = 0 then none else some (digitsWidth t)

def fractionWidth? : Text → Option Nat
  | '.' :: t => if digitsWidth t = 0 then none else some (digitsWidth t + 1)
  | _ => some 0

def signWidth : Text → Nat
  | '+' :: _ => 1
  | '-' :: _ => 1
  | _ => 0

def exponentWidth? : Text → Option Nat
  | [] => some 0
  | c :: t =>
    if c = 'e' ∨ c = 'E' then
      let digits := digitsWidth (t.drop (signWidth t))
      if digits = 0 then none else some (1 + signWidth t + digits)
    else some 0

def unsignedWidth? (t : Text) : Option (Nat × Bool) := do
  let whole ← wholeWidth? t
  let fraction ← fractionWidth? (t.drop whole)
  let exponent ← exponentWidth? (t.drop (whole + fraction))
  return (whole + fraction + exponent, fraction + exponent == 0)

def digitValue (c : Char) : Nat := c.toNat - 48

def digitsValue (t : Text) : Nat := t.foldl (fun n c => 10 * n + digitValue c) 0

/-- Appends digits to `n` as long as the result fits in 64 bits, and gives back the others. -/
def absorb (n : Nat) : Text → Nat × Text
  | [] => (n, [])
  | c :: t => if 10 * n + digitValue c < Nat.pow 2 64 then absorb (10 * n + digitValue c) t else (n, c :: t)

/-! ## Parts -/

structure Parts where
  whole : Text
  fraction : Text
  exponent : Int
  deriving Repr

def signedValue : Text → Int
  | '+' :: t => digitsValue t
  | '-' :: t => -digitsValue t
  | t => digitsValue t

def exponentOf (t : Text) : Int := signedValue (t.drop 1)

def withoutSign : Text → Text
  | '-' :: t => t
  | t => t

def Parts.ofText (written : Text) : Parts :=
  let t := withoutSign written
  match t.dropWhile Char.isDigit with
  | '.' :: u => ⟨t.takeWhile Char.isDigit, u.takeWhile Char.isDigit, exponentOf (u.dropWhile Char.isDigit)⟩
  | u => ⟨t.takeWhile Char.isDigit, [], exponentOf u⟩

/-- The digits as one factor and the power of ten that scales it; digits for which it has no room are dropped. -/
def Parts.scaled (p : Parts) : Nat × Int :=
  let whole := absorb 0 p.whole
  let all := absorb whole.1 p.fraction
  (all.1, whole.2.length + all.2.length - p.fraction.length + p.exponent)

def significantBits : Nat := 53

/-- The sizes below this power of two are the ones that numbers can have. -/
def sizeBits : Nat := 1024

def maxScale : Nat := 308

/-- The nearest number with no more than the significant bits; of two equally near ones the even one. -/
def round (n : Nat) : Nat :=
  let unit := Nat.pow 2 (n.log2 + 1 - significantBits)
  let below := n / unit * unit
  if 2 * (n % unit) < unit ∨ 2 * (n % unit) = unit ∧ n / unit % 2 = 0 then below else below + unit

theorem round_eq_self {n : Nat} (h : n < Nat.pow 2 significantBits) : round n = n := by
  have hlog : n.log2 + 1 - significantBits = 0 := by
    rcases Nat.eq_zero_or_pos n with rfl | hn
    · rfl
    · have := (Nat.log2_lt (by omega)).2 h
      omega
  simp [round, hlog, Nat.mod_one]

/-- Whether a factor scaled by a power of ten is a number; both are rounded, and so is their product. -/
def isInRange (factor : Nat) (scale : Int) : Bool :=
  factor == 0 || scale < 0 ||
    (scale ≤ maxScale && round (round factor * round (Nat.pow 10 scale.toNat)) < Nat.pow 2 sizeBits)

def fits (written : Text) : Bool :=
  let s := (Parts.ofText written).scaled
  isInRange s.1 s.2

end PipelineScript.Number
