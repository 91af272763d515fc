import PulseSyntax.Expr.Basic
import PulseSyntax.Token.Word

namespace PulseSyntax

/-- A token apart from where it stands and from how its number or string is written. -/
structure Lexeme where
  kind : TokenKind
  value : TokenValue
  raw : String
deriving DecidableEq, Repr

def TokenKind.hasSpellings : TokenKind → Bool
  | string | number | bigInt => true
  | _ => false

def Token.lexeme (t : Token) : Lexeme :=
  ⟨t.kind, t.value, if t.kind.hasSpellings then "" else t.raw⟩

namespace Lexeme

def symbol (sign : Symbol) : Lexeme := ⟨.symbol sign, .none, sign.spelling⟩

/-- A name, or the reserved word that is written like it. -/
def word (name : String) : Lexeme :=
  match Keyword.ofSpelling? name with
  | some word => ⟨.keyword word, Word.keywordValue word, name⟩
  | none => ⟨.identifier, .text name, name⟩

def string (text : String) : Lexeme := ⟨.string, .text text, ""⟩

def number (n : Binary64) : Lexeme := ⟨.number, .number n, ""⟩

def literal : LiteralValue → Lexeme
  | .string text => string text
  | .number n => number n
  | .bigInt digits => ⟨.bigInt, .bigInt digits, ""⟩
  | .bool true => word "true"
  | .bool false => word "false"
  | .null => word "null"

def parens (text : List Lexeme) : List Lexeme :=
  symbol .openParen :: text ++ [symbol .closeParen]

/-- A body that starts with a brace would be read as a block. -/
def unbraced (text : List Lexeme) : List Lexeme :=
  if text.head?.any fun first => first.kind == .symbol .openBrace then parens text else text

end Lexeme

namespace Expr

open Lexeme

/-- The level of the operator of an expression in the table. The tighter ones come first, and what
    has none stands alone. -/
def level : Expr → Nat
  | member .. | call .. => 1
  | update _ false .. => 2
  | unary .. | update _ true .. => 3
  | binary op .. => 3 + op.level
  | conditional .. | assignment .. | arrow .. => 10
  | _ => 0

inductive Place where
  | whole | item | spread | index | value | body
  | target | test | consequent | alternate
  | left (op : BinaryOp) | right (op : BinaryOp)
  | operand | updated | owner | callee
deriving DecidableEq

/-- The loosest level that needs no parentheses at a place. Binary operators group to the left;
    conditionals and assignments to the right. -/
def Place.level : Place → Nat
  | target | updated | owner | callee => 1
  | operand => 3
  | left op => 3 + op.level
  | right op => 2 + op.level
  | test => 8
  | _ => 10

def isSpread : Expr → Bool
  | spread .. => true
  | _ => false

/-- The text of an expression at a place, in parentheses if it is too loose. There may be `extra`
    ones. -/
def enclose (extra : Place → Expr → Bool) (place : Place) (e : Expr) (text : List Lexeme) :
    List Lexeme :=
  if place.level < e.level || extra place e then parens text else text

def listed (extra : Place → Expr → Bool) (e : Expr) (text : List Lexeme) : List Lexeme :=
  if e.isSpread then text else enclose extra .item e text

mutual

/-- The expression without parentheses around it. -/
def text (extra : Place → Expr → Bool) : Expr → List Lexeme
  | identifier name _ => [word name]
  | literal value _ _ => [.literal value]
  | template text raw _ => [⟨.template, .text text, raw⟩]
  | array elements _ => symbol .openBracket :: itemsText extra elements ++ [symbol .closeBracket]
  | object members _ => symbol .openBrace :: membersText extra members ++ [symbol .closeBrace]
  | spread e _ => symbol .spread :: enclose extra .spread e (text extra e)
  | binary op left right _ =>
    enclose extra (.left op) left (text extra left) ++
      symbol op.symbol :: enclose extra (.right op) right (text extra right)
  | unary op e _ => symbol op.symbol :: enclose extra .operand e (text extra e)
  | update op true e _ => symbol op.symbol :: enclose extra .operand e (text extra e)
  | update op false e _ => enclose extra .updated e (text extra e) ++ [symbol op.symbol]
  | assignment op target value _ =>
    enclose extra .target target (text extra target) ++
      symbol op.symbol :: enclose extra .value value (text extra value)
  | conditional test consequent alternate _ =>
    enclose extra .test test (text extra test) ++
      symbol .question :: enclose extra .consequent consequent (text extra consequent) ++
      symbol .colon :: enclose extra .alternate alternate (text extra alternate)
  | arrow params body isAsync _ =>
    (if isAsync then [word "async"] else []) ++
      (parens (itemsText extra params) ++ symbol .arrow :: bodyText extra body)
  | member owner property computed optional _ =>
    enclose extra .owner owner (text extra owner) ++
      if computed then
        (if optional then [symbol .questionDot] else []) ++
          symbol .openBracket :: enclose extra .index property (text extra property) ++
          [symbol .closeBracket]
      else symbol (if optional then .questionDot else .dot) :: text extra property
  | call callee arguments optional _ =>
    enclose extra .callee callee (text extra callee) ++
      (if optional then [symbol .questionDot] else []) ++ parens (itemsText extra arguments)

def itemsText (extra : Place → Expr → Bool) : List Expr → List Lexeme
  | [] => []
  | e :: es =>
    listed extra e (text extra e) ++
      if es.isEmpty then [] else symbol .comma :: itemsText extra es

def membersText (extra : Place → Expr → Bool) : List ObjectMember → List Lexeme
  | [] => []
  | m :: ms =>
    memberText extra m ++ if ms.isEmpty then [] else symbol .comma :: membersText extra ms

def memberText (extra : Place → Expr → Bool) : ObjectMember → List Lexeme
  | .property key value shorthand _ =>
    if shorthand then text extra value
    else keyText extra key ++ symbol .colon :: enclose extra .value value (text extra value)
  | .spread e _ => symbol .spread :: enclose extra .spread e (text extra e)

def keyText (extra : Place → Expr → Bool) : PropertyKey → List Lexeme
  | .identifier name => [word name]
  | .string text => [.string text]
  | .number n => [.number n]
  | .computed key =>
    symbol .openBracket :: enclose extra .index key (text extra key) ++ [symbol .closeBracket]

def bodyText (extra : Place → Expr → Bool) : ArrowBody → List Lexeme
  | .expression body => unbraced (enclose extra .body body (text extra body))
  | .block _ | .inline _ => []

end

def print (extra : Place → Expr → Bool) (e : Expr) : List Lexeme :=
  enclose extra .whole e (text extra e)

mutual

/-- An expression that can be written, and has no function with a block. A spread stands in lists
    alone. -/
def isProper (inList : Bool) : Expr → Bool
  | identifier name _ => (word name).kind.isName
  | literal .. | template .. => true
  | array elements _ => areProper elements
  | object members _ => areProperMembers members
  | spread e _ => inList && isProper false e
  | binary _ left right _ => isProper false left && isProper false right
  | unary _ e _ => isProper false e
  | update _ _ e _ => e.isAssignable && isProper false e
  | assignment _ target value _ =>
    target.isAssignable && isProper false target && isProper false value
  | conditional test consequent alternate _ =>
    isProper false test && isProper false consequent && isProper false alternate
  | arrow params body _ _ => params.all isParam && areProper params && isProperBody body
  | member owner property computed _ _ =>
    isProper false owner && if computed then isProper false property else property.name?.isSome
  | call callee arguments _ _ => isProper false callee && areProper arguments

def areProper : List Expr → Bool
  | [] => true
  | e :: es => isProper true e && areProper es

def areProperMembers : List ObjectMember → Bool
  | [] => true
  | m :: ms => isProperMember m && areProperMembers ms

/-- A name alone is a plain one. -/
def isProperMember : ObjectMember → Bool
  | .property key value shorthand _ =>
    if shorthand then
      match key with
      | .identifier name => value.name? == some name && (word name).kind == .identifier
      | _ => false
    else isProperKey key && isProper false value
  | .spread e _ => isProper false e

def isProperKey : PropertyKey → Bool
  | .computed key => isProper false key
  | _ => true

def isProperBody : ArrowBody → Bool
  | .expression body => isProper false body
  | .block _ | .inline _ => false

end

mutual

/-- The tree without the places and without how its literals are written. -/
@[simp] def shape : Expr → Expr
  | identifier name _ => identifier name default
  | literal value _ _ => literal value "" default
  | template text raw _ => template text raw default
  | array elements _ => array (shapes elements) default
  | object members _ => object (memberShapes members) default
  | spread e _ => spread (shape e) default
  | binary op left right _ => binary op (shape left) (shape right) default
  | unary op e _ => unary op (shape e) default
  | update op before e _ => update op before (shape e) default
  | assignment op target value _ => assignment op (shape target) (shape value) default
  | conditional test consequent alternate _ =>
    conditional (shape test) (shape consequent) (shape alternate) default
  | arrow params body isAsync _ => arrow (shapes params) (bodyShape body) isAsync default
  | member owner property computed optional _ =>
    member (shape owner) (shape property) computed optional default
  | call callee arguments optional _ => call (shape callee) (shapes arguments) optional default

@[simp] def shapes : List Expr → List Expr
  | [] => []
  | e :: es => shape e :: shapes es

@[simp] def memberShapes : List ObjectMember → List ObjectMember
  | [] => []
  | m :: ms => memberShape m :: memberShapes ms

@[simp] def memberShape : ObjectMember → ObjectMember
  | .property key value shorthand _ => .property (keyShape key) (shape value) shorthand default
  | .spread e _ => .spread (shape e) default

@[simp] def keyShape : PropertyKey → PropertyKey
  | .computed key => .computed (shape key)
  | key => key

@[simp] def bodyShape : ArrowBody → ArrowBody
  | .expression body => .expression (shape body)
  | body => body

end

mutual

@[simp] def height : Expr → Nat
  | identifier .. | literal .. | template .. => 0
  | array elements _ => heightOfItems elements + 1
  | object members _ => heightOfMembers members + 1
  | spread e _ | unary _ e _ | update _ _ e _ => height e + 1
  | binary _ left right _ => max (height left) (height right) + 1
  | assignment _ target value _ => max (height target) (height value) + 1
  | conditional test consequent alternate _ =>
    max (height test) (max (height consequent) (height alternate)) + 1
  | arrow params body _ _ => max (heightOfItems params) (heightOfBody body) + 1
  | member owner property _ _ _ => max (height owner) (height property) + 1
  | call callee arguments _ _ => max (height callee) (heightOfItems arguments) + 1

@[simp] def heightOfItems : List Expr → Nat
  | [] => 0
  | e :: es => max (height e) (heightOfItems es)

@[simp] def heightOfMembers : List ObjectMember → Nat
  | [] => 0
  | m :: ms => max (heightOfMember m) (heightOfMembers ms)

@[simp] def heightOfMember : ObjectMember → Nat
  | .property key value _ _ => max (heightOfKey key) (height value)
  | .spread e _ => height e

@[simp] def heightOfKey : PropertyKey → Nat
  | .computed key => height key
  | _ => 0

@[simp] def heightOfBody : ArrowBody → Nat
  | .expression body => height body
  | .block _ | .inline _ => 0

end

end Expr

end PulseSyntax
