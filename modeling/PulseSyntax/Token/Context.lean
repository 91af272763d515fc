import PulseSyntax.Text.CodePoints
import PulseSyntax.Token.Basic

namespace PulseSyntax

/-- A part of a source text: a token, or text between tokens. -/
inductive Piece where
  | trivia (text : List Char)
  | lexeme (kind : TokenKind) (value : TokenValue) (text : List Char)
deriving DecidableEq, Repr

namespace Piece

def text : Piece → List Char
  | trivia text => text
  | lexeme _ _ text => text

def token? (p : Position) : Piece → Option Token
  | trivia _ => none
  | lexeme kind value text => some ⟨kind, value, String.ofList text, p.place text⟩

def symbol (sign : Symbol) : Piece := lexeme (.symbol sign) .none sign.spelling.toList

/-- A token whose value is its own text. -/
def word (kind : TokenKind) (text : List Char) : Piece :=
  lexeme kind (.text (String.ofList text)) text

def invalid (message : String) (text : List Char) : Piece := lexeme .invalid (.text message) text

end Piece

/-- What has been read before a character, as far as it decides how that character reads. -/
structure Context where
  /-- The word that opened the block of each open brace, the innermost first. -/
  blocks : List (Option Keyword)
  parens : Nat
  lastKind : Option TokenKind
  lastChar : Option Char
deriving DecidableEq, Repr

namespace Context

def initial : Context := ⟨[], 0, none, none⟩

/-- The word that opened the innermost block. -/
def block (ctx : Context) : Option Keyword := ctx.blocks.head?.join

def inStyle (ctx : Context) : Bool := ctx.block == some .style

/-- A selector may start here: in a view block, outside parentheses and not right after `@`. -/
def inMarkup (ctx : Context) : Bool :=
  ctx.block == some .view && ctx.parens == 0 && ctx.lastKind != some (.symbol .atSign)

def allowsLineComment (ctx : Context) : Bool :=
  !ctx.inStyle || ctx.lastChar.all fun c => Text.isBlank c || c == ';' || c == '{' || c == '}'

/-- The word whose block a brace opens here. A brace inside a block belongs to that block. -/
def opened (ctx : Context) : Option Keyword :=
  match ctx.blocks, ctx.lastKind with
  | [], some (.keyword word) => if word.opensBlock then some word else none
  | [], _ => none
  | block :: _, _ => block

def afterKind (ctx : Context) (kind : TokenKind) : Context :=
  let next := { ctx with lastKind := some kind }
  match kind with
  | .symbol .openBrace =>
    { next with
      blocks := ctx.opened :: ctx.blocks
      parens := if ctx.blocks.isEmpty && ctx.opened.isSome then 0 else ctx.parens }
  | .symbol .closeBrace => { next with blocks := ctx.blocks.tail }
  | .symbol .openParen => { next with parens := ctx.parens + 1 }
  | .symbol .closeParen => { next with parens := ctx.parens - 1 }
  | _ => next

def after (ctx : Context) (piece : Piece) : Context :=
  let next := match piece with
    | .trivia _ => ctx
    | .lexeme kind _ _ => ctx.afterKind kind
  { next with lastChar := piece.text.getLast?.or ctx.lastChar }

end Context

end PulseSyntax
