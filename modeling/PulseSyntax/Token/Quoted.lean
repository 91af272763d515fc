import PulseSyntax.Token.Numeral

namespace PulseSyntax.Quoted

def charOfCode? (code : Nat) : Option Char :=
  if h : code.isValidChar then some (Char.ofNatAux code h) else none

/-- What the digits of a code escape stand for: the character, or the digits themselves if no
    character has that code. A sign may stand before the digits. -/
def codeValue (code : List Char) : List Char :=
  let digits := if code.head? == some '+' then code.drop 1 else code
  let number :=
    if digits.isEmpty || !digits.all (Numeral.isDigit 16) then none
    else some (Numeral.ofDigits 16 digits)
  match number.bind charOfCode? with
  | some c => [c]
  | none => code

def hexDigits (count : Nat) (text : List Char) : List Char :=
  (text.take count).takeWhile (Numeral.isDigit 16)

def named? (c : Char) : Option Char :=
  match c with
  | 'n' => some '\n'
  | 't' => some '\t'
  | 'r' => some '\r'
  | 'b' => some '\x08'
  | 'f' => some '\x0c'
  | 'v' => some '\x0b'
  | '0' => some '\x00'
  | _ => none

/-- What the text after a backslash stands for, and how many of its characters that takes. -/
def escape : List Char → List Char × Nat
  | [] => ([], 0)
  | '\n' :: _ => ([], 1)
  | '{' :: _ => (['\\', '{'], 1)
  | '}' :: _ => (['\\', '}'], 1)
  | 'x' :: cs =>
    let code := hexDigits 2 cs
    (codeValue code, 1 + code.length)
  | 'u' :: '{' :: cs =>
    let code := cs.takeWhile (· != '}')
    (codeValue code, 2 + code.length + if code.length < cs.length then 1 else 0)
  | 'u' :: cs =>
    let code := hexDigits 4 cs
    (codeValue code, 1 + code.length)
  | c :: _ => ([(named? c).getD c], 1)

/-- The rest of a string, up to and with the closing quote, and its value. The first `skip`
    characters belong to an escape that has been read. -/
def stringBody? (quote : Char) : Nat → List Char → Option (List Char × List Char)
  | _, [] => none
  | skip + 1, c :: cs => (stringBody? quote skip cs).map fun (text, value) => (c :: text, value)
  | 0, c :: cs =>
    if c == quote then some ([c], [])
    else if c == '\\' then
      let (part, length) := escape cs
      (stringBody? quote length cs).map fun (text, value) => (c :: text, part ++ value)
    else (stringBody? quote 0 cs).map fun (text, value) => (c :: text, c :: value)

/-- A string literal; one without its closing quote takes all that is left. -/
def scanString (quote : Char) (cs : List Char) : List Piece :=
  match stringBody? quote 0 cs with
  | some (text, value) => [.lexeme .string (.text (String.ofList value)) (quote :: text)]
  | none => [.invalid "Unterminated string literal" (quote :: cs)]

/-- The text of a template up to the closing back-tick. A back-tick closes it only outside
    `$` braces, of which `depth` are open; a backslash takes the character after it along. -/
def templateBody? : Nat → List Char → Option (List Char)
  | _, [] => none
  | _, ['\\'] => none
  | depth, '\\' :: c :: cs => (templateBody? depth cs).map fun text => '\\' :: c :: text
  | depth, '$' :: '{' :: cs => (templateBody? (depth + 1) cs).map fun text => '$' :: '{' :: text
  | 0, '`' :: _ => some []
  | depth, c :: cs =>
    let next :=
      if depth == 0 then 0
      else if c == '{' then depth + 1
      else if c == '}' then depth - 1
      else depth
    (templateBody? next cs).map (c :: ·)

/-- A template literal; one without its closing back-tick takes all that is left. -/
def scanTemplate (cs : List Char) : List Piece :=
  match templateBody? 0 cs with
  | some text => [.lexeme .template (.text (String.ofList text)) ('`' :: text ++ ['`'])]
  | none => [.invalid "Unterminated template literal" ('`' :: cs)]

end PulseSyntax.Quoted
