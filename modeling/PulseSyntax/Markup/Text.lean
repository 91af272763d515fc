import PulseSyntax.Expr.Parser
import PulseSyntax.Markup.Basic
import PulseSyntax.Token.Lexer

/-!
Texts with interpolations. A string holds expressions between braces, a template after `$`; in a
string a backslash before a brace makes it a plain character. An interpolation ends where its braces
balance. Its expression is read from tokens of its own, which stand at their places in the file
whenever the token's value is spelled as it is.
-/

namespace PulseSyntax

/-- A part of a value that is read as a text. -/
inductive TextSegment where
  | char (c : Char)
  /-- The source of an expression, which starts after `start` characters of the value. -/
  | hole (start : Nat) (source : List Char)
  | unclosed
deriving DecidableEq, Repr

namespace TextSegment

/-- The text up to the brace that closes `depth` further open ones and one more. -/
def holeSource? : Nat → List Char → Option (List Char)
  | _, [] => none
  | depth, c :: cs =>
    if c == '{' then (holeSource? (depth + 1) cs).map (c :: ·)
    else if c == '}' then
      match depth with
      | 0 => some []
      | depth + 1 => (holeSource? depth cs).map (c :: ·)
    else (holeSource? depth cs).map (c :: ·)

def openingLength (template : Bool) (c : Char) (cs : List Char) : Nat :=
  if template then if c == '$' && cs.head? == some '{' then 2 else 0
  else if c == '{' then 1 else 0

def escapedBrace? (template : Bool) (c : Char) (cs : List Char) : Option Char :=
  if template || c != '\\' then none else cs.head?.filter fun d => d == '{' || d == '}'

/-- The segments of a value from its character number `index` on. The first `skip` characters
    belong to a segment that has been cut off. -/
def cut (template : Bool) : Nat → Nat → List Char → List TextSegment
  | _, _, [] => []
  | index, skip + 1, _ :: cs => cut template (index + 1) skip cs
  | index, 0, c :: cs =>
    match escapedBrace? template c cs with
    | some brace => .char brace :: cut template (index + 1) 1 cs
    | none =>
      let opening := openingLength template c cs
      if opening == 0 then .char c :: cut template (index + 1) 0 cs
      else match holeSource? 0 (cs.drop (opening - 1)) with
        | none => [.unclosed]
        | some source =>
          .hole (index + opening) source ::
            cut template (index + 1) (opening + source.length) cs

end TextSegment

namespace TextNode

/-- The value of the token is spelled as it is, between two delimiters. -/
def isVerbatim (t : Token) : Bool := t.raw.utf8ByteSize == t.text.utf8ByteSize + 2

/-- The tokens of an interpolation whose source starts after `start` characters of the value: at
    their own places if the value is verbatim, else all at the place of the text. -/
def holeTokens (t : Token) (start : Nat) (source : List Char) : List Token :=
  let pieces := Lexer.pieces .initial 0 source
  if isVerbatim t then
    let content : Position := ⟨t.span.start + 1, t.line, t.place.column + 1⟩
    Lexer.place (content.after (t.text.toList.take start)) pieces
  else (Lexer.place .origin pieces).map fun inner => { inner with place := t.place }

def holeParser (source : List Char) : Parser Expr := do
  let e ← Expr.parser
  let t ← Parser.current
  if t.kind == .endOfFile then return e
  else Parser.fail (.afterInterpolation t.raw (String.ofList (Text.trim source)))

def readHole (options : Options) (t : Token) (start : Nat) (source : List Char) :
    Except ParseError Expr :=
  let scope : Scope := {
    stream := .ofList (holeTokens t start source)
    options := options
    quotation := some ⟨source, (Lexer.tokens source).map (·.span)⟩ }
  match (holeParser source).run scope .initial with
  | .ok e _ => .ok e
  | .error e _ => .error e

/-- The part that the characters before it make up, the last of them first. -/
def literalPart (reversed : List Char) : List TextPart :=
  if reversed.isEmpty then [] else [.literal (String.ofList reversed.reverse)]

/-- Joins characters into literals and reads the expressions, from left to right. -/
def assemble (read : Nat → List Char → Except ParseError Expr) (place : Place) :
    List Char → List TextSegment → Except ParseError (List TextPart)
  | before, [] => .ok (literalPart before)
  | before, .char c :: rest => assemble read place (c :: before) rest
  | _, .unclosed :: _ => .error ⟨.unclosedInterpolation, place⟩
  | before, .hole start source :: rest => do
    if (Text.trim source).isEmpty then throw ⟨.emptyInterpolation, place⟩
    let e ← read start source
    let parts ← assemble read place [] rest
    return literalPart before ++
      .interpolation (String.ofList (Text.trim source)) e :: parts

def ofToken (options : Options) (t : Token) : Except ParseError TextNode := do
  let segments := TextSegment.cut (t.kind == .template) 0 0 t.text.toList
  let parts ← assemble (readHole options t) t.place [] segments
  return ⟨parts, t.text, t.span⟩

def ofLiteral (t : Token) : TextNode := ⟨[.literal t.raw], t.raw, t.span⟩

def parser (t : Token) : Parser TextNode := do
  Parser.ofExcept (ofToken (← Parser.scope).options t)

end TextNode

end PulseSyntax
