import PulseSyntax.Text.Basic

namespace PulseSyntax

inductive Keyword where
  | state | props | view | actions | style | router | store
  | routes | getters | beforeEach | afterEach | persist | storageKey | plugins | mode | base
  | slot | page | route | if_ | else_ | each | for_ | in_ | of
  | link | outlet | navigate | back | forward
  | import_ | from_ | as | export_
  | true_ | false_ | null
deriving DecidableEq, Repr, Inhabited

namespace Keyword

def spelling : Keyword → String
  | state => "state"
  | props => "props"
  | view => "view"
  | actions => "actions"
  | style => "style"
  | router => "router"
  | store => "store"
  | routes => "routes"
  | getters => "getters"
  | beforeEach => "beforeEach"
  | afterEach => "afterEach"
  | persist => "persist"
  | storageKey => "storageKey"
  | plugins => "plugins"
  | mode => "mode"
  | base => "base"
  | slot => "slot"
  | page => "page"
  | route => "route"
  | if_ => "if"
  | else_ => "else"
  | each => "each"
  | for_ => "for"
  | in_ => "in"
  | of => "of"
  | link => "link"
  | outlet => "outlet"
  | navigate => "navigate"
  | back => "back"
  | forward => "forward"
  | import_ => "import"
  | from_ => "from"
  | as => "as"
  | export_ => "export"
  | true_ => "true"
  | false_ => "false"
  | null => "null"

def all : List Keyword := [
  state, props, view, actions, style, router, store,
  routes, getters, beforeEach, afterEach, persist, storageKey, plugins, mode, base,
  slot, page, route, if_, else_, each, for_, in_, of,
  link, outlet, navigate, back, forward,
  import_, from_, as, export_,
  true_, false_, null]

def ofSpelling? (word : String) : Option Keyword := all.find? (·.spelling == word)

/-- The words that open a block at the top level. -/
def opensBlock : Keyword → Bool
  | state | props | view | actions | style | router | store => true
  | _ => false

/-- The words that still read as names where a name is expected. -/
def isContextual : Keyword → Bool
  | if_ | else_ | for_ | each | in_ | of | import_ | export_ | true_ | false_ | null => false
  | _ => true

theorem mem_all (k : Keyword) : k ∈ all := by cases k <;> decide

theorem spelling_of_ofSpelling? {word : String} {k : Keyword} (h : ofSpelling? word = some k) :
    k.spelling = word := by
  simpa using List.find?_some h

end Keyword

inductive Symbol where
  | openBrace | closeBrace | openParen | closeParen | openBracket | closeBracket
  | colon | semicolon | comma | dot | hash | atSign | ampersand | tilde
  | spread | arrow | question | questionDot
  | plus | minus | star | starStar | slash | percent
  | eq | eqEq | eqEqEq | notEq | notEqEq | lt | gt | ltEq | gtEq
  | and | or | not | nullish
  | plusPlus | minusMinus
  | plusEq | minusEq | starEq | slashEq | andEq | orEq | nullishEq
deriving DecidableEq, Repr, Inhabited

namespace Symbol

def spelling : Symbol → String
  | openBrace => r"{"
  | closeBrace => r"}"
  | openParen => "("
  | closeParen => ")"
  | openBracket => "["
  | closeBracket => "]"
  | colon => ":"
  | semicolon => ";"
  | comma => ","
  | dot => "."
  | hash => "#"
  | atSign => "@"
  | ampersand => "&"
  | tilde => "~"
  | spread => "..."
  | arrow => "=>"
  | question => "?"
  | questionDot => "?."
  | plus => "+"
  | minus => "-"
  | star => "*"
  | starStar => "**"
  | slash => "/"
  | percent => "%"
  | eq => "="
  | eqEq => "=="
  | eqEqEq => "==="
  | notEq => "!="
  | notEqEq => "!=="
  | lt => "<"
  | gt => ">"
  | ltEq => "<="
  | gtEq => ">="
  | and => "&&"
  | or => "||"
  | not => "!"
  | nullish => "??"
  | plusPlus => "++"
  | minusMinus => "--"
  | plusEq => "+="
  | minusEq => "-="
  | starEq => "*="
  | slashEq => "/="
  | andEq => "&&="
  | orEq => "||="
  | nullishEq => "??="

def name : Symbol → String
  | openBrace => "LBrace"
  | closeBrace => "RBrace"
  | openParen => "LParen"
  | closeParen => "RParen"
  | openBracket => "LBracket"
  | closeBracket => "RBracket"
  | colon => "Colon"
  | semicolon => "Semicolon"
  | comma => "Comma"
  | dot => "Dot"
  | hash => "Hash"
  | atSign => "At"
  | ampersand => "Ampersand"
  | tilde => "Tilde"
  | spread => "Spread"
  | arrow => "Arrow"
  | question => "Question"
  | questionDot => "QuestionDot"
  | plus => "Plus"
  | minus => "Minus"
  | star => "Star"
  | starStar => "StarStar"
  | slash => "Slash"
  | percent => "Percent"
  | eq => "Eq"
  | eqEq => "EqEq"
  | eqEqEq => "EqEqEq"
  | notEq => "NotEq"
  | notEqEq => "NotEqEq"
  | lt => "Lt"
  | gt => "Gt"
  | ltEq => "LtEq"
  | gtEq => "GtEq"
  | and => "And"
  | or => "Or"
  | not => "Not"
  | nullish => "Nullish"
  | plusPlus => "PlusPlus"
  | minusMinus => "MinusMinus"
  | plusEq => "PlusEq"
  | minusEq => "MinusEq"
  | starEq => "StarEq"
  | slashEq => "SlashEq"
  | andEq => "AndEq"
  | orEq => "OrEq"
  | nullishEq => "NullishEq"

def all : List Symbol := [
  spread, eqEqEq, notEqEq, andEq, orEq, nullishEq,
  arrow, questionDot, starStar, eqEq, notEq, ltEq, gtEq, and, or, nullish,
  plusPlus, minusMinus, plusEq, minusEq, starEq, slashEq,
  openBrace, closeBrace, openParen, closeParen, openBracket, closeBracket,
  colon, semicolon, comma, dot, hash, atSign, ampersand, tilde, question,
  plus, minus, star, slash, percent, eq, lt, gt, not]

/-- The symbol is written at the start of the text. `?.` before a digit is a `?` and a number that
    starts with its point. -/
def startsText (s : Symbol) (text : List Char) : Bool :=
  s.spelling.toList.isPrefixOf text && !(s == questionDot && (text.drop 2).head?.any (·.isDigit))

def longest? (text : List Char) : Option Symbol := all.find? (·.startsText text)

def isAssignment : Symbol → Bool
  | eq | plusEq | minusEq | starEq | slashEq | andEq | orEq | nullishEq => true
  | _ => false

theorem mem_all (s : Symbol) : s ∈ all := by cases s <;> decide

theorem startsText_of_longest? {text : List Char} {s : Symbol} (h : longest? text = some s) :
    s.startsText text := by
  simpa using List.find?_some h

end Symbol

inductive TokenKind where
  | keyword (word : Keyword)
  | symbol (sign : Symbol)
  | string | template | number | bigInt
  | identifier
  | selector
  | hexColor
  /-- A modifier such as `.prevent` after the name of a directive. -/
  | modifier
  | endOfFile
  | invalid
deriving DecidableEq, Repr, Inhabited

namespace TokenKind

def name : TokenKind → String
  | keyword word => Text.capitalized word.spelling
  | symbol sign => sign.name
  | string => "String"
  | template => "Template"
  | number => "Number"
  | bigInt => "BigInt"
  | identifier => "Ident"
  | selector => "Selector"
  | hexColor => "HexColor"
  | modifier => "DirectiveMod"
  | endOfFile => "Eof"
  | invalid => "Error"

def tag (kind : TokenKind) : String := Text.screaming kind.name

def describe : TokenKind → String
  | keyword word => "'" ++ word.spelling ++ "'"
  | symbol sign => "'" ++ sign.spelling ++ "'"
  | string => "string"
  | template => "template literal"
  | number => "number"
  | bigInt => "bigint"
  | identifier => "identifier"
  | selector => "selector"
  | hexColor => "hex color"
  | modifier => "directive modifier"
  | endOfFile => "end of file"
  | invalid => "invalid token"

def all : List TokenKind :=
  Keyword.all.map keyword ++ Symbol.all.map symbol ++
    [string, template, number, bigInt, identifier, selector, hexColor, modifier, endOfFile, invalid]

def ofTag? (tag : String) : Option TokenKind := all.find? (·.tag == tag)

def opensBlock : TokenKind → Bool
  | keyword word => word.opensBlock
  | _ => false

def isKeyword : TokenKind → Bool
  | keyword _ => true
  | _ => false

def isContextualKeyword : TokenKind → Bool
  | keyword word => word.isContextual
  | _ => false

def isAssignment : TokenKind → Bool
  | symbol sign => sign.isAssignment
  | _ => false

def isName (kind : TokenKind) : Bool := kind == identifier || kind.isContextualKeyword

end TokenKind

end PulseSyntax
