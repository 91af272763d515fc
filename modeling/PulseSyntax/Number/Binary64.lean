/-!
Nonnegative numbers of the IEEE 754 format binary64, in exact arithmetic on natural numbers.
Rounding is to the nearest number of the format; a tie goes to the even significand.
-/

namespace PulseSyntax

/-- A number of the format: `significand * 2 ^ scale` times the least positive number `2 ^ -1074`,
    or infinity. -/
inductive Binary64 where
  | finite (significand scale : Nat)
  | infinite
deriving DecidableEq, Repr, Inhabited

namespace Binary64

def zero : Binary64 := finite 0 0

def roundHalfEven (n d : Nat) : Nat :=
  let q := n / d
  let r := n % d
  if 2 * r < d then q else if d < 2 * r then q + 1 else q + q % 2

/-- Brings a rounded significand of up to `2 ^ 53` into the range of the format. -/
def normalize (significand scale : Nat) : Binary64 :=
  let (m, k) :=
    if significand = Nat.pow 2 53 then (Nat.pow 2 52, scale + 1) else (significand, scale)
  if 2045 < k then infinite else finite m k

def ofRatio (n d : Nat) : Binary64 :=
  let units := n * Nat.pow 2 1074
  let scale := (units / d).log2 - 52
  normalize (roundHalfEven units (d * Nat.pow 2 scale)) scale

def ofNat (n : Nat) : Binary64 := ofRatio n 1

/-- The number of the format nearest to `n * 10 ^ e`. Beyond `10 ^ 400` it is infinity and below
    `10 ^ -399` zero, without the power of ten being computed. -/
def ofScientific (n : Nat) (e : Int) : Binary64 :=
  if n = 0 then zero
  else if 400 < e then infinite
  else if e + n.log2 + 400 < 0 then zero
  else if 0 ≤ e then ofRatio (n * Nat.pow 10 e.toNat) 1
  else ofRatio n (Nat.pow 10 (-e).toNat)

example : ofNat 1 = finite (2 ^ 52) 1022 ∧ ofNat (2 ^ 53 + 1) = ofNat (2 ^ 53) ∧
    ofScientific 5 (-324) = finite 1 0 ∧ ofScientific 1 309 = infinite := by decide +kernel

end Binary64

end PulseSyntax

namespace PulseSyntax.Binary64

structure Decimal where
  digits : Nat
  exponent : Int
deriving DecidableEq, Repr

/-- The point of the grid of multiples of `10 ^ exponent` that stands for `significand * 2 ^ scale`
    units, if the interval of that number holds a point of the grid. -/
def gridPoint? (significand scale : Nat) (exponent : Int) : Option Decimal :=
  let up := Nat.pow 10 (-exponent).toNat * Nat.pow 2 scale
  let den := Nat.pow 2 1076 * Nat.pow 10 exponent.toNat
  let value := 4 * significand * up
  let below := if significand = Nat.pow 2 52 && scale ≠ 0 then 1 else 2
  let low := (4 * significand - below) * up
  let high := (4 * significand + 2) * up
  let inside (d : Nat) : Bool :=
    if significand % 2 = 0 then low ≤ d * den && d * den ≤ high
    else low < d * den && d * den < high
  let d := value / den
  let toLower := value - d * den
  let toUpper := (d + 1) * den - value
  match inside d, inside (d + 1) with
  | false, false => none
  | true, false => some ⟨d, exponent⟩
  | false, true => some ⟨d + 1, exponent⟩
  | true, true =>
    if toLower < toUpper || (toLower = toUpper && d % 2 = 0) then some ⟨d, exponent⟩
    else some ⟨d + 1, exponent⟩

def firstGridPoint (significand scale : Nat) (exponent : Int) : Nat → Decimal
  | 0 => ⟨0, 0⟩
  | steps + 1 =>
    (gridPoint? significand scale exponent).getD
      (firstGridPoint significand scale (exponent - 1) steps)

/-- The fewest digits that read back as a finite number. The reals that round to it form an interval,
    which holds its ends exactly when the significand is even; the digits are the point of the coarsest
    decimal grid in it, of two points the nearer one, of two equally near the even one. The search
    starts at the first power of ten that may exceed the number; seventeen digits always read back. -/
def shortest (significand scale : Nat) : Decimal :=
  if significand = 0 then ⟨0, 0⟩
  else
    let binary : Int := significand.log2 + scale - 1074
    firstGridPoint significand scale ((binary * 1233).fdiv 4096 + 2) 22

end PulseSyntax.Binary64
