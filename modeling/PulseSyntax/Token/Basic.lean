import PulseSyntax.Number.Binary64
import PulseSyntax.Source.Position
import PulseSyntax.Token.Kind

namespace PulseSyntax

inductive TokenValue where
  | none
  | text (text : String)
  | number (number : Binary64)
  | bigInt (digits : String)
  | bool (value : Bool)
  | null
deriving DecidableEq, Repr, Inhabited

/-- A token: what it is, what it stands for, how it is written, and where. -/
structure Token where
  kind : TokenKind
  value : TokenValue
  raw : String
  place : Place
deriving DecidableEq, Repr, Inhabited

namespace Token

def span (t : Token) : Span := t.place.span

def line (t : Token) : Nat := t.place.line

def is (t : Token) (kind : TokenKind) : Bool := t.kind == kind

/-- The text that a token stands for as a name or a string: its value if that is a text, how it is
    written otherwise. -/
def text (t : Token) : String :=
  match t.value with
  | .text s => s
  | .bigInt s => s
  | _ => t.raw

def number? (t : Token) : Option Binary64 :=
  match t.value with
  | .number n => some n
  | _ => none

def endOfFile (p : Position) : Token := ⟨.endOfFile, .none, "", p.place []⟩

/-- The token in the words of an error message: what has many spellings is quoted. -/
def describe (t : Token) : String :=
  match t.kind with
  | .identifier | .selector | .modifier => t.kind.describe ++ " '" ++ t.raw ++ "'"
  | .string | .number | .bigInt | .hexColor => t.kind.describe ++ " " ++ t.raw
  | kind => kind.describe

end Token

end PulseSyntax
