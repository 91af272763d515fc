import PulseSyntax.Expr.Basic
import PulseSyntax.Parser.Repeat

namespace PulseSyntax

namespace Parser

/-- Reads `{ ... }` by counting braces and answers with the tokens between them. -/
def rawBlock : Parser TokenRange := do
  let _ ← expectSymbol .openBrace
  let start ← cursor
  let _ ← loop (fun depth => do
    let kind := (← current).kind
    if kind == .endOfFile then
      let _ ← expectSymbol .closeBrace
      return .done depth
    else if kind == .symbol .closeBrace && depth == 0 then return .done depth
    else
      let _ ← advance
      if kind == .symbol .openBrace then return .yield (depth + 1)
      else if kind == .symbol .closeBrace then return .yield (depth - 1)
      else return .yield depth) 0
  let stop ← cursor
  let _ ← advance
  return ⟨start, stop⟩

def failTooDeep : Parser α := do
  fail (.tooDeep (← scope).options.maxDepth)

end Parser

namespace Expr

open PulseSyntax.Parser

/-- The readers of what is nested one level deeper. -/
structure Nested where
  assignment : Parser Expr
  unary : Parser Expr

def mkBinary (op : BinaryOp) (left right : Expr) : Expr :=
  .binary op left right (left.span.cover right.span)

def mkMember (object property : Expr) (optional : Bool) : Expr :=
  .member object property false optional (object.span.cover property.span)

def mkIndex (object property : Expr) (optional : Bool) (close : Span) : Expr :=
  .member object property true optional (object.span.cover close)

def mkCall (callee : Expr) (arguments : List Expr) (optional : Bool) (close : Span) : Expr :=
  .call callee arguments optional (callee.span.cover close)

def spreadable (expr : Parser Expr) : Parser Expr := do
  if ← isSymbol .spread then
    let start := (← advance).span
    let argument ← expr
    return .spread argument (start.cover argument.span)
  else expr

def arguments (expr : Parser Expr) : Parser (List Expr × Span) := do
  let _ ← expectSymbol .openParen
  let items ← commaSeparated .closeParen (spreadable expr)
  let close ← expectSymbol .closeParen
  return (items, close.span)

def bracketStep (kind : TokenKind) : Option Bool :=
  match kind with
  | .symbol .openParen | .symbol .openBracket | .symbol .openBrace => some true
  | .symbol .closeParen | .symbol .closeBracket | .symbol .closeBrace => some false
  | _ => none

/-- From a parenthesis on: the bracket that closes it is a parenthesis with `=>` after it. All
    kinds of brackets count alike. -/
def closesBeforeArrow : Nat → List Token → Bool
  | _, [] => false
  | depth, t :: rest =>
    if t.kind == .endOfFile then false
    else match bracketStep t.kind with
      | some true => closesBeforeArrow (depth + 1) rest
      | some false =>
        if depth ≤ 1 then
          t.kind == .symbol .closeParen && rest.head?.any fun next => next.kind == .symbol .arrow
        else closesBeforeArrow (depth - 1) rest
      | none => closesBeforeArrow depth rest

/-- The parenthesis `offset` tokens after the cursor starts the parameters of an arrow function. -/
def startsArrowAt (offset : Nat) : Parser Bool := do
  return closesBeforeArrow 0 ((← scope).stream.tokensFrom ((← cursor) + offset))

def asyncArrowFollows : Parser Bool := do
  match (← peek).kind with
  | .identifier => return (← peekAt 2).kind == .symbol .arrow
  | .symbol .openParen => startsArrowAt 1
  | _ => return false

def arrowBlock : Parser ArrowBody := do
  let range ← rawBlock
  match (← scope).quotation with
  | some q => return .inline (String.ofList (range.text q.text q.spans))
  | none => return .block range

def arrowFunction (nested : Nested) (start : Span) (isAsync : Bool) : Parser Expr := do
  let params ←
    if ← isSymbol .openParen then
      let (params, _) ← arguments nested.assignment
      pure params
    else
      let t ← expect .identifier
      pure [.ofName t]
  if !params.all Expr.isParam then fail .arrowParameter
  else
    let _ ← expectSymbol .arrow
    if ← isSymbol .openBrace then
      let body ← arrowBlock
      return .arrow params body isAsync (start.cover (← previous).span)
    else
      let body ← nested.assignment
      return .arrow params (.expression body) isAsync (start.cover body.span)

def arrayLiteral (nested : Nested) : Parser Expr := do
  let opening ← expectSymbol .openBracket
  let elements ← commaSeparated .closeBracket (spreadable nested.assignment)
  let close ← expectSymbol .closeBracket
  return .array elements (opening.span.cover close.span)

def keyOf? (t : Token) : Option PropertyKey :=
  match t.kind with
  | .identifier | .keyword _ => some (.identifier t.raw)
  | .string => some (.string t.text)
  | .number => some (.number (t.number?.getD .zero))
  | _ => none

def propertyValue (nested : Nested) (start : Span) (key : PropertyKey) : Parser ObjectMember := do
  let _ ← expectSymbol .colon
  let value ← nested.assignment
  return .property key value false (start.cover value.span)

/-- A member of an object: `key: value`, `[key]: value`, a name alone, or a spread. -/
def objectMember (nested : Nested) : Parser ObjectMember := do
  let t ← current
  if t.kind == .symbol .spread then
    let _ ← advance
    let argument ← nested.assignment
    return .spread argument (t.span.cover argument.span)
  else if t.kind == .symbol .openBracket then
    let _ ← advance
    let key ← nested.assignment
    let _ ← expectSymbol .closeBracket
    propertyValue nested t.span (.computed key)
  else match keyOf? t with
    | none => failWanted .propertyName
    | some key =>
      let _ ← advance
      let next := (← current).kind
      if t.kind == .identifier && (next == .symbol .comma || next == .symbol .closeBrace) then
        return .property key (.ofName t) true t.span
      else propertyValue nested t.span key

def objectLiteral (nested : Nested) : Parser Expr := do
  let opening ← expectSymbol .openBrace
  let members ← commaSeparated .closeBrace (objectMember nested)
  let close ← expectSymbol .closeBrace
  return .object members (opening.span.cover close.span)

def literalOf? (t : Token) : Option Expr :=
  match t.kind with
  | .number => some (.ofLiteral (.number (t.number?.getD .zero)) t)
  | .bigInt => some (.ofLiteral (.bigInt t.text) t)
  | .string => some (.ofLiteral (.string t.text) t)
  | .keyword .true_ | .keyword .false_ => some (.ofLiteral (.bool (t.value == .bool true)) t)
  | .keyword .null => some (.ofLiteral .null t)
  | .template => some (.template t.text t.raw t.span)
  | _ => none

/-- The token is a name here: an identifier, a reserved word that reads as one, or `import` before
    its argument. -/
def readsAsName (t next : Token) : Bool :=
  t.kind.isName || (t.kind == .keyword .import_ && next.kind == .symbol .openParen)

def startsAsyncArrow (t : Token) : Parser Bool :=
  if t.kind == .identifier && t.raw == "async" then asyncArrowFollows else pure false

def startsArrow (t next : Token) : Parser Bool :=
  if t.kind == .identifier then pure (next.kind == .symbol .arrow)
  else if t.kind == .symbol .openParen then startsArrowAt 0
  else pure false

def grouped (nested : Nested) : Parser Expr := do
  let _ ← advance
  let e ← nested.assignment
  let _ ← expectSymbol .closeParen
  return e

/-- At a token: a name, an expression in parentheses, an array or an object. -/
def nameOrBrackets (nested : Nested) (t next : Token) : Parser Expr := do
  if readsAsName t next then
    let _ ← advance
    return .ofName t
  else match t.kind with
    | .symbol .openParen => grouped nested
    | .symbol .openBracket => arrayLiteral nested
    | .symbol .openBrace => objectLiteral nested
    | _ => failWanted .expression

/-- An operand without what may follow it. -/
def primary (nested : Nested) : Parser Expr := do
  let t ← current
  let next ← peek
  match literalOf? t with
  | some e =>
    let _ ← advance
    return e
  | none =>
    if ← startsAsyncArrow t then
      let _ ← advance
      arrowFunction nested t.span true
    else if ← startsArrow t next then arrowFunction nested t.span false
    else nameOrBrackets nested t next

def memberName : Parser Expr := do
  let kind := (← current).kind
  if kind == .identifier || kind.isKeyword then return .ofName (← advance)
  else failWanted .propertyName

def index (nested : Nested) : Parser (Expr × Span) := do
  let _ ← advance
  let property ← nested.assignment
  let close ← expectSymbol .closeBracket
  return (property, close.span)

def link (nested : Nested) (e : Expr) : Parser (Option Expr) := do
  match (← current).kind with
  | .symbol .dot =>
    let _ ← advance
    return some (mkMember e (← memberName) false)
  | .symbol .questionDot =>
    let _ ← advance
    match (← current).kind with
    | .symbol .openBracket =>
      let (property, close) ← index nested
      return some (mkIndex e property true close)
    | .symbol .openParen =>
      let (args, close) ← arguments nested.assignment
      return some (mkCall e args true close)
    | _ => return some (mkMember e (← memberName) true)
  | .symbol .openBracket =>
    let (property, close) ← index nested
    return some (mkIndex e property false close)
  | .symbol .openParen =>
    let (args, close) ← arguments nested.assignment
    return some (mkCall e args false close)
  | _ => return none

def linked (nested : Nested) : Parser Expr := do
  chain (link nested) (← primary nested)

/-- An operand with its members and calls, and `++` or `--` after it on the same line. -/
def postfixed (nested : Nested) : Parser Expr := do
  let e ← linked nested
  let t ← current
  match UpdateOp.ofKind? t.kind with
  | none => return e
  | some op =>
    if t.line != (← previous).line then return e
    else if !e.isAssignable then fail (.updateOperand "postfix")
    else
      let _ ← advance
      return .update op false e (e.span.cover t.span)

def unaryAt (nested : Nested) : Parser Expr := do
  let t ← current
  match UnaryOp.ofKind? t.kind, UpdateOp.ofKind? t.kind with
  | some op, _ =>
    let _ ← advance
    let e ← nested.unary
    return .unary op e (t.span.cover e.span)
  | none, some op =>
    let _ ← advance
    let e ← nested.unary
    if !e.isAssignable then fail (.updateOperand "prefix")
    else return .update op true e (t.span.cover e.span)
  | none, none => postfixed nested

def join (operand : Parser Expr) (level : Nat) (left : Expr) : Parser (Option Expr) := do
  match BinaryOp.ofKind? level (← current).kind with
  | none => return none
  | some op =>
    let _ ← advance
    return some (mkBinary op left (← operand))

def binaryAt (operand : Parser Expr) : Nat → Parser Expr
  | 0 => operand
  | level + 1 => do
    chain (join (binaryAt operand level) (level + 1)) (← binaryAt operand level)

def conditionalAt (nested : Nested) : Parser Expr := do
  let test ← binaryAt (unaryAt nested) BinaryOp.loosest
  if !(← eatSymbol .question) then return test
  else
    let consequent ← nested.assignment
    let _ ← expectSymbol .colon
    let alternate ← nested.assignment
    return .conditional test consequent alternate (test.span.cover alternate.span)

def assignmentAt (nested : Nested) : Parser Expr := do
  let target ← conditionalAt nested
  let t ← current
  match AssignOp.ofKind? t.kind with
  | none => return target
  | some op =>
    if !target.isAssignable then fail (.assignmentTarget t.raw)
    else
      let _ ← advance
      let value ← nested.assignment
      return .assignment op target value (target.span.cover value.span)

mutual

def parserWithin : Nat → Parser Expr
  | 0 => failTooDeep
  | levels + 1 => deeper (assignmentAt ⟨parserWithin levels, unaryWithin levels⟩)

def unaryWithin : Nat → Parser Expr
  | 0 => failTooDeep
  | levels + 1 => deeper (unaryAt ⟨parserWithin levels, unaryWithin levels⟩)

end

def parser : Parser Expr := withLevels parserWithin

end Expr

end PulseSyntax
