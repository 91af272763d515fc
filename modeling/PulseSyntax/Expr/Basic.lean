import PulseSyntax.Expr.Operator
import PulseSyntax.Token.Stream

namespace PulseSyntax

inductive LiteralValue where
  | string (text : String)
  | number (number : Binary64)
  | bigInt (digits : String)
  | bool (value : Bool)
  | null
deriving DecidableEq, Repr, Inhabited

mutual

inductive Expr where
  | identifier (name : String) (span : Span)
  | literal (value : LiteralValue) (raw : String) (span : Span)
  | template (text raw : String) (span : Span)
  | array (elements : List Expr) (span : Span)
  | object (members : List ObjectMember) (span : Span)
  | spread (argument : Expr) (span : Span)
  | binary (operator : BinaryOp) (left right : Expr) (span : Span)
  | unary (operator : UnaryOp) (argument : Expr) (span : Span)
  | update (operator : UpdateOp) (before : Bool) (argument : Expr) (span : Span)
  | assignment (operator : AssignOp) (target value : Expr) (span : Span)
  | conditional (test consequent alternate : Expr) (span : Span)
  | arrow (params : List Expr) (body : ArrowBody) (isAsync : Bool) (span : Span)
  | member (object property : Expr) (computed optional : Bool) (span : Span)
  | call (callee : Expr) (arguments : List Expr) (optional : Bool) (span : Span)

inductive ObjectMember where
  /-- `shorthand` says that the value is the name that is the key. -/
  | property (key : PropertyKey) (value : Expr) (shorthand : Bool) (span : Span)
  | spread (argument : Expr) (span : Span)

inductive PropertyKey where
  | identifier (name : String)
  | string (text : String)
  | number (number : Binary64)
  | computed (key : Expr)

inductive ArrowBody where
  | expression (body : Expr)
  | block (range : TokenRange)
  /-- The text between the braces, where the tokens are those of an interpolation. -/
  | inline (text : String)

end

deriving instance Repr for Expr, ObjectMember, PropertyKey, ArrowBody

instance : Inhabited Expr := ⟨.identifier "" default⟩

namespace Expr

def span : Expr → Span
  | identifier _ s | literal _ _ s | template _ _ s | array _ s | object _ s | spread _ s
  | binary _ _ _ s | unary _ _ s | update _ _ _ s | assignment _ _ _ s | conditional _ _ _ s
  | arrow _ _ _ s | member _ _ _ _ s | call _ _ _ s => s

def name? : Expr → Option String
  | identifier name _ => some name
  | _ => none

/-- The expression may stand on the left of an assignment. -/
def isAssignable : Expr → Bool
  | identifier _ _ | member _ _ _ false _ => true
  | _ => false

/-- The expression may be a parameter of an arrow function: a name, a name with a default, a name
    that takes the rest, or a pattern. -/
def isParam : Expr → Bool
  | identifier _ _ | object _ _ | array _ _ => true
  | assignment .assign (identifier _ _) _ _ => true
  | spread (identifier _ _) _ => true
  | _ => false

def ofName (t : Token) : Expr := identifier t.raw t.span

def ofLiteral (value : LiteralValue) (t : Token) : Expr := literal value t.raw t.span

end Expr

def ObjectMember.span : ObjectMember → Span
  | property _ _ _ s | spread _ s => s

end PulseSyntax
