import PulseSyntax.Token.Word

namespace PulseSyntax.Numeral

def digitValue? (c : Char) : Option Nat :=
  if '0' ≤ c ∧ c ≤ '9' then some (c.toNat - '0'.toNat)
  else if 'a' ≤ c ∧ c ≤ 'f' then some (c.toNat - 'a'.toNat + 10)
  else if 'A' ≤ c ∧ c ≤ 'F' then some (c.toNat - 'A'.toNat + 10)
  else none

def isDigit (radix : Nat) (c : Char) : Bool := (digitValue? c).any (· < radix)

def ofDigits (radix : Nat) (digits : List Char) : Nat :=
  digits.foldl (fun n c => n * radix + (digitValue? c).getD 0) 0

def ofDigitsBelow? (radix bound : Nat) (digits : List Char) : Option Nat :=
  let n := ofDigits radix digits
  if digits.isEmpty || bound ≤ n then none else some n

def withoutUnderscores (text : List Char) : List Char := text.filter (· != '_')

def radixOf? (c : Char) : Option Nat :=
  if c == 'x' || c == 'X' then some 16
  else if c == 'b' || c == 'B' then some 2
  else if c == 'o' || c == 'O' then some 8
  else none

def digitRun (text : List Char) : List Char := text.takeWhile fun c => c.isDigit || c == '_'

/-- A point and the digits after it; a point before anything else is no part of the number. -/
def fractionPart : List Char → List Char
  | '.' :: cs => if cs.head?.any (·.isDigit) then '.' :: digitRun cs else []
  | _ => []

/-- An exponent, only where a digit or a signed digit follows the letter: in `1.5em` the letter
    starts a unit. -/
def exponentPart : List Char → List Char
  | e :: cs =>
    if e == 'e' || e == 'E' then
      match cs with
      | s :: r =>
        if s.isDigit then e :: digitRun cs
        else if (s == '+' || s == '-') && r.head?.any (·.isDigit) then e :: s :: digitRun r
        else []
      | [] => []
    else []
  | [] => []

structure DecimalText where
  whole : List Char
  fraction : List Char
  exponent : List Char
deriving DecidableEq, Repr

namespace DecimalText

/-- The longest decimal literal at the start of a text. -/
def read (text : List Char) : DecimalText :=
  let whole := digitRun text
  let rest := text.drop whole.length
  let fraction := fractionPart rest
  ⟨whole, fraction, exponentPart (rest.drop fraction.length)⟩

def text (d : DecimalText) : List Char := d.whole ++ d.fraction ++ d.exponent

def exponentValue (d : DecimalText) : Int :=
  match d.exponent with
  | _ :: '-' :: digits => -(ofDigits 10 (withoutUnderscores digits) : Int)
  | _ :: '+' :: digits => ofDigits 10 (withoutUnderscores digits)
  | _ :: digits => ofDigits 10 (withoutUnderscores digits)
  | [] => 0

/-- The nearest number of the format binary64. -/
def value (d : DecimalText) : Binary64 :=
  let places := withoutUnderscores (d.fraction.drop 1)
  .ofScientific (ofDigits 10 (withoutUnderscores d.whole ++ places))
    (d.exponentValue - places.length)

end DecimalText

/-- The letter that makes a whole number one of any size follows, and no name. -/
def hasBigMark : List Char → Bool
  | 'n' :: cs => !cs.head?.any Word.isPart
  | _ => false

/-- A literal with a radix. Up to 64 bits it is a number; with the mark it is written in decimal up
    to 128 bits, and kept as it stands beyond. -/
def scanRadix (radix : Nat) (lead cs : List Char) : List Piece :=
  let run := cs.takeWhile fun c => isDigit radix c || c == '_'
  let digits := withoutUnderscores run
  let text := lead ++ run
  if hasBigMark (cs.drop run.length) then
    let decimal := match ofDigitsBelow? radix (Nat.pow 2 128) digits with
      | some n => (Nat.toDigits 10 n)
      | none => digits
    [.lexeme .bigInt (.bigInt (String.ofList (decimal ++ ['n']))) (text ++ ['n'])]
  else match ofDigitsBelow? radix (Nat.pow 2 64) digits with
    | some n => [.lexeme .number (.number (.ofNat n)) text]
    | none => [.invalid ("Invalid number literal '" ++ String.ofList text ++ "'") text]

def scanDecimal (cs : List Char) : List Piece :=
  let d := DecimalText.read cs
  let whole := d.fraction.isEmpty && d.exponent.isEmpty
  if whole && hasBigMark (cs.drop d.text.length) then
    [.lexeme .bigInt (.bigInt (String.ofList (withoutUnderscores d.whole ++ ['n'])))
      (d.text ++ ['n'])]
  else [.lexeme .number (.number d.value) d.text]

/-- A number literal that starts with `c`, a digit or a point before a digit. -/
def scan (c : Char) (cs : List Char) : List Piece :=
  match c, cs with
  | '0', r :: rest =>
    match radixOf? r with
    | some radix => scanRadix radix [c, r] rest
    | none => scanDecimal (c :: cs)
  | _, _ => scanDecimal (c :: cs)

def startsHere (c : Char) (cs : List Char) : Bool :=
  c.isDigit || (c == '.' && cs.head?.any (·.isDigit))

end PulseSyntax.Numeral
