import PulseSyntax.Parser.Error
import PulseSyntax.Token.Stream

namespace PulseSyntax

structure Options where
  styleFallback : Bool
  maxDepth : Nat
deriving DecidableEq, Repr

def Options.standard : Options := ⟨true, 128⟩

/-- The text between the braces of an interpolation, and the spans of its tokens in that text. -/
structure Quotation where
  text : List Char
  spans : List Span
deriving DecidableEq, Repr

structure Scope where
  stream : TokenStream
  options : Options
  /-- Set when the tokens are those of an interpolation. -/
  quotation : Option Quotation

/-- Where a parser stands: the index of the next token, and the number of expressions, pieces of
    markup and style rules around it. -/
structure ParserState where
  cursor : Nat
  depth : Nat
deriving DecidableEq, Repr

def ParserState.initial : ParserState := ⟨0, 0⟩

/-- The answer of a parser and the state it leaves. -/
inductive Reply (α : Type) where
  | ok (value : α) (state : ParserState)
  | error (error : ParseError) (state : ParserState)
deriving Repr

def Reply.state : Reply α → ParserState
  | ok _ s | error _ s => s

def Parser (α : Type) : Type := Scope → ParserState → Reply α

namespace Parser

def run (p : Parser α) (scope : Scope) (state : ParserState) : Reply α := p scope state

instance : Monad Parser where
  pure a := fun _ s => .ok a s
  bind p f := fun scope s =>
    match p scope s with
    | .ok a next => f a scope next
    | .error e next => .error e next

def scope : Parser Scope := fun scope s => .ok scope s

def cursor : Parser Nat := fun _ s => .ok s.cursor s

def seek (target : Nat) : Parser Unit := fun _ s => .ok () { s with cursor := target }

def deeper (p : Parser α) : Parser α := fun scope s =>
  match p scope { s with depth := s.depth + 1 } with
  | .ok a next => .ok a { next with depth := next.depth - 1 }
  | .error e next => .error e { next with depth := next.depth - 1 }

def withLevels (p : Nat → Parser α) : Parser α := fun scope s =>
  p (scope.options.maxDepth - s.depth) scope s

def failAt (place : Place) (cause : Cause) : Parser α := fun _ s => .error ⟨cause, place⟩ s

/-- Turns an error into a value; the cursor stays where the parser stopped. -/
def attempt (p : Parser α) : Parser (Except ParseError α) := fun scope s =>
  match p scope s with
  | .ok a next => .ok (.ok a) next
  | .error e next => .ok (.error e) next

def ofExcept : Except ParseError α → Parser α
  | .ok a => pure a
  | .error e => fun _ s => .error e s

def peekAt (offset : Nat) : Parser Token := fun scope s =>
  .ok (scope.stream.get (s.cursor + offset)) s

def current : Parser Token := peekAt 0

def peek : Parser Token := peekAt 1

def previous : Parser Token := fun scope s => .ok (scope.stream.get (s.cursor - 1)) s

def advance : Parser Token := fun scope s =>
  let t := scope.stream.get s.cursor
  .ok t (if t.kind = .endOfFile then s else { s with cursor := s.cursor + 1 })

def is (kind : TokenKind) : Parser Bool := do
  return (← current).kind == kind

def isSymbol (sign : Symbol) : Parser Bool := is (.symbol sign)

def fail (cause : Cause) : Parser α := do
  failAt (← current).place cause

/-- Fails at the token at the cursor; if that is no token at all, this is the error. -/
def failAtToken (cause : Token → Cause) : Parser α := do
  let t ← current
  fail (if t.kind == .invalid then .invalidToken t else cause t)

def failWanted (what : Wanted) : Parser α := failAtToken (.wanted what)

def eat (kind : TokenKind) : Parser Bool := do
  if ← is kind then
    let _ ← advance
    return true
  else return false

def eatSymbol (sign : Symbol) : Parser Bool := eat (.symbol sign)

def expect (kind : TokenKind) : Parser Token := do
  if ← is kind then advance else failAtToken (.expected kind)

def expectSymbol (sign : Symbol) : Parser Token := expect (.symbol sign)

def expectKeyword (word : Keyword) : Parser Token := expect (.keyword word)

def isName : Parser Bool := do
  return (← current).kind.isName

def expectName : Parser Token := do
  if ← isName then advance else expect .identifier

def expectStringOr (kind : TokenKind) : Parser Token := do
  if ← is .string then advance else expect kind

end Parser

end PulseSyntax
