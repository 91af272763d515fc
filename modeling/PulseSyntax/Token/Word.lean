import PulseSyntax.Text.CodePoints
import PulseSyntax.Token.Context

namespace PulseSyntax.Word

def isStart (c : Char) : Bool := Text.isAlphabetic c || c == '_' || c == '$'

def isPart (c : Char) : Bool :=
  Text.isAlphabetic c || Text.isNumeric c || c == '_' || c == '$'

def isSelectorStart (c : Char) : Bool := Text.isAlphabetic c || c == '_' || c == '-'

/-- Words that are plain names in a style block, where properties and values use them. -/
def styleNames : List String := [
  "style", "in", "from", "to", "if", "else", "for", "as", "of", "true", "false", "null",
  "export", "import"]

def keywordValue (word : Keyword) : TokenValue :=
  match word with
  | .true_ => .bool true
  | .false_ => .bool false
  | .null => .null
  | _ => .text word.spelling

inductive SelectorState where
  | name
  | bracket (quote : Option Char)

def SelectorState.inBracket (quote : Option Char) (c : Char) : SelectorState :=
  match quote with
  | some q => if c == q then bracket none else bracket (some q)
  | none =>
    if c == '"' || c == '\'' then bracket (some c)
    else if c == ']' then name
    else bracket none

/-- What follows of a selector: names with hyphens, classes, ids and attributes. -/
def selectorTail : SelectorState → List Char → List Char
  | _, [] => []
  | .bracket quote, c :: cs => c :: selectorTail (.inBracket quote c) cs
  | .name, c :: cs =>
    if isPart c || c == '-' then c :: selectorTail .name cs
    else if (c == '.' || c == '#') && cs.head?.any isSelectorStart then
      c :: selectorTail .name cs
    else if c == '[' then c :: selectorTail (.bracket none) cs
    else []

/-- A name in markup is the start of a selector if a class, an id, an attribute, a block, a space
    or a hyphenated part follows. -/
def continuesSelector : List Char → Bool
  | [] => false
  | c :: cs =>
    if c == '.' || c == '#' then cs.head?.any isSelectorStart
    else if c == '-' then cs.head?.any Text.isAlphabetic
    else c == '[' || c == '{' || c == ' ' || c == '\t'

def selector (start rest : List Char) : List Piece :=
  [.word .selector (start ++ selectorTail .name rest)]

def isInlineSpace (c : Char) : Bool := c == ' ' || c == '\t'

/-- After `url`: the parenthesis and, unless it is quoted, the argument up to the closing
    parenthesis or the end of the line, kept as one name without the space after it. -/
def urlArgument (rest : List Char) : List Piece :=
  let inner := rest.drop 1
  let space := inner.takeWhile isInlineSpace
  let after := inner.dropWhile isInlineSpace
  let lead := Piece.symbol .openParen :: if space.isEmpty then [] else [.trivia space]
  if after.head?.any fun c => c == '"' || c == '\'' then lead
  else
    let raw := after.takeWhile fun c => c != ')' && c != '\n'
    let value := Text.trimEnd raw
    if raw.isEmpty then lead
    else if value.isEmpty then lead ++ [.trivia raw]
    else lead ++ [.lexeme .identifier (.text (String.ofList value)) raw]

def scan (ctx : Context) (c : Char) (cs : List Char) : List Piece :=
  let isTail := fun d => isPart d || (ctx.inStyle && d == '-')
  let word := c :: cs.takeWhile isTail
  let rest := cs.dropWhile isTail
  let spelling := String.ofList word
  if ctx.inStyle && spelling == "url" && rest.head? == some '(' then
    .word .identifier word :: urlArgument rest
  else if ctx.inStyle && styleNames.contains spelling then [.word .identifier word]
  else match Keyword.ofSpelling? spelling with
    | some k => [.lexeme (.keyword k) (keywordValue k) word]
    | none =>
      if ctx.inMarkup && continuesSelector rest then selector word rest
      else [.word .identifier word]

/-- After a `-` in a style block: a name such as `-webkit-box` or `--main-color`. -/
def startsAfterHyphen : List Char → Bool
  | '-' :: cs => cs.head?.any fun c => isStart c || c == '-'
  | c :: _ => isStart c
  | [] => false

def directiveTail : List Char → List Char
  | [] => []
  | c :: cs =>
    if isPart c || (c == '-' && cs.head?.any Text.isAlphabetic) then c :: directiveTail cs
    else []

def modifierRun : List Char → List Char
  | [] => []
  | c :: cs =>
    if isPart c || (c == '.' && cs.head?.any isStart) then c :: modifierRun cs else []

def modifiers (run : List Char) : List Piece :=
  (run.splitBy fun _ next => next != '.').map fun text =>
    .lexeme .modifier (.text (String.ofList (text.drop 1))) text

/-- An `@` and the name that touches it, with the modifiers of a directive. In a style block the
    name is a plain one. -/
def scanAt (ctx : Context) (cs : List Char) : List Piece :=
  if !cs.head?.any isStart then [.symbol .atSign]
  else
    let name := directiveTail cs
    let kind :=
      if ctx.inStyle then .identifier
      else ((Keyword.ofSpelling? (String.ofList name)).map TokenKind.keyword).getD .identifier
    let tail := if ctx.inStyle then [] else modifiers (modifierRun (cs.drop name.length))
    .symbol .atSign :: .word kind name :: tail

end PulseSyntax.Word
