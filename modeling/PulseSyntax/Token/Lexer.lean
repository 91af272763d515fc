import PulseSyntax.Token.Quoted

/-!
The tokens of a source text. A scan of one step cuts off the next pieces of the text, given the
context before them; the lexer places the tokens among them and goes on after them with the context
that they leave. The last token is the end of the file. Bad text becomes invalid tokens, so every
source has tokens.
-/

namespace PulseSyntax.Lexer

def commentBody? : List Char → Option (List Char)
  | [] => none
  | '*' :: '/' :: _ => some ['*', '/']
  | c :: cs => (commentBody? cs).map (c :: ·)

/-- A comment between `/*` and `*/`; one that does not end takes all that is left. -/
def scanComment (cs : List Char) : Piece :=
  match commentBody? cs with
  | some text => .trivia ('/' :: '*' :: text)
  | none => .invalid "Unterminated block comment" ('/' :: '*' :: cs)

def colorDigits? (cs : List Char) : Option (List Char) :=
  let digits := cs.takeWhile (Numeral.isDigit 16)
  let next := cs.drop digits.length
  if 3 ≤ digits.length && digits.length ≤ 8 && !next.head?.any fun c => Word.isPart c || c == '-'
  then some digits
  else none

def startsSelector (ctx : Context) (c : Char) (cs : List Char) : Bool :=
  (c == '#' || c == '.') && ctx.inMarkup && cs.head?.any Word.isSelectorStart

def scanSymbol (c : Char) (cs : List Char) : List Piece :=
  match Symbol.longest? (c :: cs) with
  | some sign => [.symbol sign]
  | none => [.invalid ("Unexpected character '" ++ String.ofList [c] ++ "'") [c]]

def scanHash (ctx : Context) (cs : List Char) : List Piece :=
  match if ctx.inStyle then colorDigits? cs else none with
  | some digits => [.word .hexColor ('#' :: digits)]
  | none => if startsSelector ctx '#' cs then Word.selector ['#'] cs else [.symbol .hash]

def scanDot (ctx : Context) (cs : List Char) : List Piece :=
  if Symbol.spread.startsText ('.' :: cs) then [.symbol .spread]
  else if startsSelector ctx '.' cs then Word.selector ['.'] cs
  else [.symbol .dot]

/-- The token that starts with `c`, with those that are read in one with it. -/
def scanToken (ctx : Context) (c : Char) (cs : List Char) : List Piece :=
  if Word.isStart c then Word.scan ctx c cs
  else if Numeral.startsHere c cs then Numeral.scan c cs
  else if c == '"' || c == '\'' then Quoted.scanString c cs
  else if c == '`' then Quoted.scanTemplate cs
  else if c == '@' then Word.scanAt ctx cs
  else if c == '#' then scanHash ctx cs
  else if c == '.' then scanDot ctx cs
  else if c == '-' && ctx.inStyle && Word.startsAfterHyphen cs then Word.scan ctx c cs
  else scanSymbol c cs

/-- The next pieces of a text: white space, a comment, or tokens. -/
def scan (ctx : Context) (c : Char) (cs : List Char) : List Piece :=
  if Text.isBlank c then [.trivia (c :: cs.takeWhile Text.isBlank)]
  else if c == '/' && cs.head? == some '/' && ctx.allowsLineComment then
    [.trivia (c :: cs.takeWhile (· != '\n'))]
  else if c == '/' && cs.head? == some '*' then [scanComment (cs.drop 1)]
  else scanToken ctx c cs

def textOf (pieces : List Piece) : List Char := pieces.flatMap Piece.text

/-- The pieces of a text. Its first `skip` characters belong to pieces that have been cut off. -/
def pieces : Context → Nat → List Char → List Piece
  | _, _, [] => []
  | ctx, skip + 1, _ :: cs => pieces ctx skip cs
  | ctx, 0, c :: cs =>
    let next := scan ctx c cs
    next ++ pieces (next.foldl Context.after ctx) ((textOf next).length - 1) cs

/-- The tokens of pieces, from a position on, and the end of the file. -/
def place : Position → List Piece → List Token
  | p, [] => [.endOfFile p]
  | p, piece :: rest => (piece.token? p).toList ++ place (p.after piece.text) rest

def tokens (source : List Char) : List Token := place .origin (pieces .initial 0 source)

end PulseSyntax.Lexer
