import PulseSyntax.Number.Binary64

namespace PulseSyntax

/-- The choices of a number format: the decimal exponents of the leading digit between which a
    number is written with all its places. -/
structure NumberLayout where
  least : Int
  greatest : Int
deriving DecidableEq, Repr

namespace NumberLayout

def standard : NumberLayout := ⟨-5, 15⟩

def zeros (n : Nat) : List Char := List.replicate n '0'

/-- All the places of `digits * 10 ^ exponent`, with at least one digit on each side of the
    point. -/
def positional (digits : List Char) (exponent : Int) : List Char :=
  if 0 ≤ exponent then digits ++ zeros exponent.toNat ++ ['.', '0']
  else
    let places := (-exponent).toNat
    if places < digits.length then
      digits.take (digits.length - places) ++ '.' :: digits.drop (digits.length - places)
    else '0' :: '.' :: zeros (places - digits.length) ++ digits

/-- One digit before the point and a signed exponent; no point without further digits. -/
def scientific (digits : List Char) (leading : Int) : List Char :=
  let mantissa := match digits with
    | [] => []
    | [d] => [d]
    | d :: ds => d :: '.' :: ds
  let sign := if leading < 0 then '-' else '+'
  mantissa ++ 'e' :: sign :: Nat.toDigits 10 leading.natAbs

def text (layout : NumberLayout) (d : Binary64.Decimal) : List Char :=
  let digits := Nat.toDigits 10 d.digits
  let leading := d.exponent + digits.length - 1
  if layout.least ≤ leading && leading ≤ layout.greatest then positional digits d.exponent
  else scientific digits leading

end NumberLayout

/-- The text of a finite number in the shortest digits; infinity has none. -/
def Binary64.text? : Binary64 → Option (List Char)
  | .finite m k => some (NumberLayout.standard.text (Binary64.shortest m k))
  | .infinite => none

example : (Binary64.ofScientific 1 (-1)).text? = some "0.1".toList ∧
    (Binary64.ofScientific 125 18).text? = some "1.25e+20".toList ∧
    (Binary64.ofScientific 5 (-324)).text? = some "5e-324".toList := by decide +kernel

end PulseSyntax
