import PulseSyntax.Number.Layout
import PulseSyntax.Source.Position

namespace PulseSyntax

inductive Json where
  | null
  | bool (value : Bool)
  | natural (value : Nat)
  | number (value : Binary64)
  | string (value : String)
  | array (items : List Json)
  | object (fields : List (String × Json))
deriving Repr, Inhabited

namespace Json

def ofOption (encode : α → Json) : Option α → Json
  | none => null
  | some a => encode a

def ofList (encode : α → Json) (items : List α) : Json := array (items.map encode)

def hex4 (n : Nat) : List Char :=
  let digits := Nat.toDigits 16 n
  List.replicate (4 - digits.length) '0' ++ digits

/-- A character of a string: quotes, backslashes and control characters are escaped. -/
def escapeChar (c : Char) : List Char :=
  match c with
  | '"' => ['\\', '"']
  | '\\' => ['\\', '\\']
  | '\n' => ['\\', 'n']
  | '\r' => ['\\', 'r']
  | '\t' => ['\\', 't']
  | '\x08' => ['\\', 'b']
  | '\x0c' => ['\\', 'f']
  | c => if c.toNat < 32 then '\\' :: 'u' :: hex4 c.toNat else [c]

def quote (text : String) : String :=
  String.ofList ('"' :: text.toList.flatMap escapeChar ++ ['"'])

def numberText (n : Binary64) : String := (n.text?.map String.ofList).getD "null"

mutual

def compact : Json → String
  | null => "null"
  | bool true => "true"
  | bool false => "false"
  | natural n => toString n
  | number n => numberText n
  | string s => quote s
  | array items => "[" ++ ",".intercalate (compactItems items) ++ "]"
  | object fields => r"{" ++ ",".intercalate (compactFields fields) ++ r"}"

def compactItems : List Json → List String
  | [] => []
  | item :: items => compact item :: compactItems items

def compactFields : List (String × Json) → List String
  | [] => []
  | (name, value) :: fields => (quote name ++ ":" ++ compact value) :: compactFields fields

end

def newline (level : Nat) : String := String.ofList ('\n' :: List.replicate (2 * level) ' ')

/-- Entries on lines of their own between brackets; without entries the brackets touch. -/
def bracketed (level : Nat) (opening closing : String) (entries : List String) : String :=
  if entries.isEmpty then opening ++ closing
  else
    opening ++ newline (level + 1) ++ ("," ++ newline (level + 1)).intercalate entries ++
      newline level ++ closing

mutual

def prettyAt (level : Nat) : Json → String
  | array items => bracketed level "[" "]" (prettyItems (level + 1) items)
  | object fields => bracketed level r"{" r"}" (prettyFields (level + 1) fields)
  | null => "null"
  | bool true => "true"
  | bool false => "false"
  | natural n => toString n
  | number n => numberText n
  | string s => quote s

def prettyItems (level : Nat) : List Json → List String
  | [] => []
  | item :: items => prettyAt level item :: prettyItems level items

def prettyFields (level : Nat) : List (String × Json) → List String
  | [] => []
  | (name, value) :: fields =>
    (quote name ++ ": " ++ prettyAt level value) :: prettyFields level fields

end

def pretty (value : Json) : String := prettyAt 0 value

end Json

def Span.toJson (s : Span) : Json :=
  .object [("start", .natural s.start), ("end", .natural s.stop)]

end PulseSyntax
