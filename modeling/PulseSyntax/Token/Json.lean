import PulseSyntax.Json.Basic
import PulseSyntax.Token.Basic

namespace PulseSyntax

def TokenValue.toJson : TokenValue → Json
  | .none | .null => .null
  | .text s | .bigInt s => .string s
  | .number n => .number n
  | .bool b => .bool b

def Token.toJson (t : Token) : Json :=
  .object [
    ("kind", .string t.kind.tag),
    ("value", t.value.toJson),
    ("raw", .string t.raw),
    ("line", .natural t.place.line),
    ("column", .natural t.place.column),
    ("span", t.span.toJson)]

end PulseSyntax
