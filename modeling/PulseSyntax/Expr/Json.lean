import PulseSyntax.Expr.Basic
import PulseSyntax.Json.Basic

namespace PulseSyntax

def TokenRange.toJson (r : TokenRange) : Json :=
  .object [("start", .natural r.start), ("end", .natural r.stop)]

def LiteralValue.toJson : LiteralValue → Json
  | string s | bigInt s => .string s
  | number n => .number n
  | bool b => .bool b
  | null => .null

/-- A node: its type, its own fields, and its span. -/
def Json.node (type : String) (fields : List (String × Json)) (span : Span) : Json :=
  .object (("type", .string type) :: fields ++ [("span", span.toJson)])

mutual

def Expr.toJson : Expr → Json
  | .identifier name span => .node "Identifier" [("name", .string name)] span
  | .literal value raw span =>
    .node "Literal" [("value", value.toJson), ("raw", .string raw)] span
  | .template text raw span =>
    .node "TemplateLiteral" [("text", .string text), ("raw", .string raw)] span
  | .array elements span => .node "Array" [("elements", .array (Expr.listToJson elements))] span
  | .object members span =>
    .node "Object" [("properties", .array (ObjectMember.listToJson members))] span
  | .spread argument span => .node "Spread" [("argument", argument.toJson)] span
  | .binary operator left right span =>
    .node "Binary" [("operator", .string operator.symbol.spelling), ("left", left.toJson),
      ("right", right.toJson)] span
  | .unary operator argument span =>
    .node "Unary" [("operator", .string operator.symbol.spelling),
      ("argument", argument.toJson)] span
  | .update operator before argument span =>
    .node "Update" [("operator", .string operator.symbol.spelling), ("prefix", .bool before),
      ("argument", argument.toJson)] span
  | .assignment operator target value span =>
    .node "Assignment" [("operator", .string operator.symbol.spelling),
      ("target", target.toJson), ("value", value.toJson)] span
  | .conditional test consequent alternate span =>
    .node "Conditional" [("test", test.toJson), ("consequent", consequent.toJson),
      ("alternate", alternate.toJson)] span
  | .arrow params body isAsync span =>
    .node "Arrow" [("params", .array (Expr.listToJson params)), ("body", body.toJson),
      ("async", .bool isAsync)] span
  | .member object property computed optional span =>
    .node "Member" [("object", object.toJson), ("property", property.toJson),
      ("computed", .bool computed), ("optional", .bool optional)] span
  | .call callee arguments optional span =>
    .node "Call" [("callee", callee.toJson), ("arguments", .array (Expr.listToJson arguments)),
      ("optional", .bool optional)] span

def Expr.listToJson : List Expr → List Json
  | [] => []
  | e :: es => e.toJson :: Expr.listToJson es

def ObjectMember.toJson : ObjectMember → Json
  | .property key value shorthand span =>
    .node "Property" [("key", key.toJson), ("value", value.toJson),
      ("shorthand", .bool shorthand)] span
  | .spread argument span => .node "Spread" [("argument", argument.toJson)] span

def ObjectMember.listToJson : List ObjectMember → List Json
  | [] => []
  | m :: ms => m.toJson :: ObjectMember.listToJson ms

def PropertyKey.toJson : PropertyKey → Json
  | .identifier name => .object [("kind", .string "Identifier"), ("value", .string name)]
  | .string text => .object [("kind", .string "String"), ("value", .string text)]
  | .number n => .object [("kind", .string "Number"), ("value", .number n)]
  | .computed key => .object [("kind", .string "Computed"), ("value", key.toJson)]

def ArrowBody.toJson : ArrowBody → Json
  | .expression body => body.toJson
  | .block range => range.toJson
  | .inline text => .string text

end

end PulseSyntax
