import PulseSyntax.Markup.Text

namespace PulseSyntax

open PulseSyntax.Parser

structure MarkupInner where
  expr : Parser Expr
  node : Parser MarkupNode

namespace MarkupInner

def children (inner : MarkupInner) : Parser (List MarkupNode × Span) := braced inner.node

def optionalChildren (inner : MarkupInner) (span : Span) : Parser (List MarkupNode × Span) := do
  if ← isSymbol .openBrace then
    let (nodes, own) ← inner.children
    return (nodes, span.cover own)
  else return ([], span)

def condition (inner : MarkupInner) : Parser Expr := do
  let _ ← expectSymbol .openParen
  let e ← inner.expr
  let _ ← expectSymbol .closeParen
  return e

end MarkupInner

def attributeName : Parser (String × Span) := do
  let first ← expectName
  chain (fun (name, span) => do
    let hyphen ← current
    let next ← peek
    let touches := hyphen.span.start == span.stop && next.span.start == hyphen.span.stop
    if hyphen.kind == .symbol .minus && touches &&
        (next.kind == .identifier || next.kind.isKeyword) then
      let _ ← advance
      let _ ← advance
      return some (name ++ "-" ++ next.raw, span.cover next.span)
    else return none) (first.raw, first.span)

namespace ElementProp

def namedParser (expr : Parser Expr) : Parser ElementProp := do
  let (name, span) ← attributeName
  if !(← eatSymbol .eq) then
    return named name (.literal (.bool true) "true" span) true span
  else
    let value ←
      if ← eatSymbol .openBrace then
        let value ← expr
        let _ ← expectSymbol .closeBrace
        pure value
      else expr
    return named name value false (span.cover value.span)

def parser (expr : Parser Expr) : Parser ElementProp := do
  if ← isSymbol .spread then
    let start := (← advance).span
    let argument ← expr
    return spread argument (start.cover argument.span)
  else namedParser expr

def listParser (expr : Parser Expr) : Parser (List ElementProp) := do
  let _ ← expectSymbol .openParen
  let props ← commaSeparated .closeParen (parser expr)
  let _ ← expectSymbol .closeParen
  return props

end ElementProp

def directiveHead (allowModifiers : Bool) : Parser (List Token × Span) := do
  let atSign ← expectSymbol .atSign
  let name ← advance
  let (modifiers, span) ← chain (fun (modifiers, span) => do
    let t ← current
    if t.kind != .modifier then return none
    else if !allowModifiers then fail (.modifiersOn name.text)
    else
      let _ ← advance
      return some (modifiers.push t, span.cover t.span)) (#[], atSign.span.cover name.span)
  return (modifiers.toList, span)

def plainHead : Parser Span := do
  let (_, span) ← directiveHead false
  return span

def EventHandler.parser (expr : Parser Expr) : Parser (EventHandler × Span) := do
  let event := (← peek).text
  let (modifiers, span) ← directiveHead true
  let names := modifiers.map (·.text)
  if !(← isSymbol .openParen) then return (⟨event, names, none⟩, span)
  else
    let (arguments, close) ← Expr.arguments expr
    let span := span.cover close
    match arguments with
    | _ :: _ :: _ =>
      let t ← previous
      failAt ⟨t.place.line, t.place.column, span⟩ (.severalHandlers event)
    | _ => return (⟨event, names, arguments.head?⟩, span)

def BoundaryTarget.parser : Parser (BoundaryTarget × Span) := do
  let target := if (← peek).text == "server" then server else client
  let span ← plainHead
  if ← isSymbol .openParen then fail (.argumentsOn (← previous).text)
  else return (target, span)

namespace Directive

def modelModifiers : List Token → Parser (List ModelModifier)
  | [] => pure []
  | t :: ts =>
    match ModelModifier.ofName? t.text with
    | none => failAt t.place (.unknownModifier t.text)
    | some m => return m :: (← modelModifiers ts)

def modelParser (inner : MarkupInner) : Parser Directive := do
  let (tokens, span) ← directiveHead true
  let modifiers ← modelModifiers tokens
  let binding ← inner.condition
  let close ← previous
  if !binding.isAssignable then
    failAt ⟨close.place.line, close.place.column, binding.span⟩ .modelBinding
  else return model modifiers binding (span.cover close.span)

def attributeParser (expr : Parser Expr) : Parser A11yAttribute := do
  let (name, span) ← attributeName
  let _ ← expectSymbol .eq
  let value ← expr
  return ⟨name, value, span.cover value.span⟩

def a11yParser (expr : Parser Expr) : Parser Directive := do
  let span ← plainHead
  let _ ← expectSymbol .openParen
  let attributes ← commaSeparated .closeParen (attributeParser expr)
  let close ← expectSymbol .closeParen
  return a11y attributes (span.cover close.span)

/-- What stands between the parentheses of a directive, which may be empty or absent; the span
    grows by the closing one. -/
def optionalArgument (item : Parser α) (span : Span) : Parser (Option α × Span) := do
  if !(← eatSymbol .openParen) then return (none, span)
  else
    let value ← if ← isSymbol .closeParen then pure none else some <$> item
    let close ← expectSymbol .closeParen
    return (value, span.cover close.span)

def liveParser : Parser Directive := do
  let head ← plainHead
  let (priority, span) ← optionalArgument (expectStringOr .identifier) head
  return live ((priority.map (·.text)).getD "polite") span

def focusTrapParser (expr : Parser Expr) : Parser Directive := do
  let head ← plainHead
  let (options, span) ← optionalArgument expr head
  return focusTrap options span

/-- A directive on an element. A name that is no other directive's is an event. -/
def parser (inner : MarkupInner) : Parser Directive := do
  let name := (← peek).text
  if name == "model" then modelParser inner
  else if name == "a11y" then a11yParser inner.expr
  else if name == "live" then liveParser
  else if name == "focusTrap" then focusTrapParser inner.expr
  else if name == "srOnly" then return srOnly (← plainHead)
  else if name == "client" || name == "server" then
    let (target, span) ← BoundaryTarget.parser
    return boundary target span
  else
    let (handler, span) ← EventHandler.parser inner.expr
    return event handler span

/-- The directive at the cursor belongs to the element before it. A branch of a conditional does
    not, nor does a boundary around nodes of its own. -/
def attaches : Parser Bool := do
  let name ← peek
  if name.kind != .identifier || name.text == "else-if" then return false
  else if name.text == "client" || name.text == "server" then
    return (← peekAt 2).kind != .symbol .openBrace
  else return true

end Directive

namespace MarkupNode

structure ElementTail where
  directives : Array Directive
  texts : Array TextNode
  span : Span

def elementPart (inner : MarkupInner) (tail : ElementTail) : Parser (Option ElementTail) := do
  match (← current).kind with
  | .symbol .atSign =>
    if !(← Directive.attaches) then return none
    else
      let d ← Directive.parser inner
      return some { tail with
        directives := tail.directives.push d
        span := tail.span.cover d.span }
  | .string | .template =>
    let t ← TextNode.parser (← advance)
    return some { tail with texts := tail.texts.push t, span := tail.span.cover t.span }
  | _ => return none

/-- A head, arguments in parentheses, directives and texts in any order, and children. -/
def elementParser (inner : MarkupInner) : Parser MarkupNode := do
  let head ← advance
  let (props, span) ←
    if ← isSymbol .openParen then
      let props ← ElementProp.listParser inner.expr
      pure (props, head.span.cover (← previous).span)
    else pure ([], head.span)
  let tail ← chain (elementPart inner) ⟨#[], #[], span⟩
  let (children, span) ← inner.optionalChildren tail.span
  return element head.text props tail.directives.toList tail.texts.toList children span

structure Branches where
  more : Array Branch
  alternate : Option (List MarkupNode)
  span : Span

inductive BranchHead where
  | elseIf | else_
deriving DecidableEq, Repr

def branchHead : Parser (Option BranchHead) := do
  let name ← peek
  if !(← isSymbol .atSign) then return none
  else if name.kind == .identifier && name.text == "else-if" then
    let _ ← advance
    let _ ← advance
    return some .elseIf
  else if name.kind == .keyword .else_ then
    let _ ← advance
    let _ ← advance
    if (← isSymbol .atSign) && (← peek).kind == .keyword .if_ then
      let _ ← advance
      let _ ← advance
      return some .elseIf
    else if ← eat (.keyword .if_) then return some .elseIf
    else return some .else_
  else return none

def branchParser (inner : MarkupInner) (branches : Branches) : Parser (ForInStep Branches) := do
  let start := (← current).span
  match ← branchHead with
  | none => return .done branches
  | some .elseIf =>
    let condition ← inner.condition
    let (consequent, own) ← inner.children
    return .yield { branches with
      more := branches.more.push (.mk condition consequent (start.cover own))
      span := branches.span.cover own }
  | some .else_ =>
    let (nodes, own) ← inner.children
    return .done { branches with alternate := some nodes, span := branches.span.cover own }

def conditionalParser (inner : MarkupInner) : Parser MarkupNode := do
  let start ← expectSymbol .atSign
  let _ ← expectKeyword .if_
  let condition ← inner.condition
  let (consequent, own) ← inner.children
  let branches ← Parser.loop (branchParser inner) ⟨#[], none, own⟩
  return conditional condition consequent branches.more.toList branches.alternate
    (start.span.cover branches.span)

/-- The key of a loop follows. Before a space the word reads as a selector. -/
def keyFollows : Parser Bool := do
  let t ← current
  return (t.kind == .identifier || t.kind == .selector) && t.text == "key" &&
    (← peek).kind == .symbol .openParen

def iterationKind : Parser IterationKind := do
  match (← current).kind with
  | .keyword .in_ =>
    let _ ← advance
    return .in_
  | _ =>
    let _ ← expectKeyword .of
    return .of

def loopHead (inner : MarkupInner) (keyword : LoopKeyword) : Parser LoopHead := do
  let _ ← expectSymbol .openParen
  let item ← expect .identifier
  let index ←
    if ← eatSymbol .comma then
      let t ← expect .identifier
      pure (some t.raw)
    else pure none
  let iteration ← iterationKind
  let iterable ← inner.expr
  let _ ← expectSymbol .closeParen
  let key ←
    if ← keyFollows then
      let _ ← advance
      some <$> inner.condition
    else pure none
  return ⟨keyword, item.raw, index, iteration, iterable, key⟩

def loopParser (inner : MarkupInner) : Parser MarkupNode := do
  let start ← expectSymbol .atSign
  let word ← advance
  let keyword := if word.kind == .keyword .each then LoopKeyword.each else .for_
  let head ← loopHead inner keyword
  let (body, own) ← inner.children
  return loop head body (start.span.cover own)

def slotParser (inner : MarkupInner) : Parser MarkupNode := do
  let word ← expectKeyword .slot
  let (name, span) ←
    if ← is .string then
      let t ← advance
      pure (some t.text, word.span.cover t.span)
    else pure (none, word.span)
  let (fallback, span) ← inner.optionalChildren span
  return slot name fallback span

def pathArguments (inner : MarkupInner) (name : String) :
    Parser (Expr × Option Expr × Span) := do
  let (arguments, close) ← Expr.arguments inner.expr
  match arguments with
  | [path] => return (path, none, close)
  | [path, options] => return (path, some options, close)
  | _ =>
    let t ← previous
    failAt ⟨t.place.line, t.place.column, close⟩ (.pathArguments name)

def linkParser (inner : MarkupInner) : Parser MarkupNode := do
  let head ← plainHead
  let (path, options, close) ← pathArguments inner "link"
  let span := head.cover close
  let kind := (← current).kind
  let (caption, span) ←
    if kind == .string || kind == .template then
      let t ← advance
      let caption ← TextNode.parser t
      pure (some caption, span.cover t.span)
    else pure (none, span)
  let (children, span) ← inner.optionalChildren span
  return link path options caption children span

def outletParser (inner : MarkupInner) : Parser MarkupNode := do
  let head ← plainHead
  if !(← isSymbol .openParen) then return outlet none head
  else
    let (arguments, close) ← Expr.arguments inner.expr
    match arguments with
    | _ :: _ :: _ => fail .outletArguments
    | _ => return outlet arguments.head? (head.cover close)

def navigateParser (inner : MarkupInner) : Parser MarkupNode := do
  let head ← plainHead
  let (path, options, close) ← pathArguments inner "navigate"
  return navigate path options (head.cover close)

def emptyArguments : Parser Span := do
  let head ← plainHead
  if ← eatSymbol .openParen then
    let close ← expectSymbol .closeParen
    return head.cover close.span
  else return head

/-- A directive that stands on its own and whose name is no reserved word. -/
def namedDirective (inner : MarkupInner) (name : String) : Parser MarkupNode := do
  if name == "else-if" then fail (.branchWithoutIf name)
  else if name == "client" || name == "server" then
    let (target, head) ← BoundaryTarget.parser
    let (children, span) ← inner.optionalChildren head
    return boundary target children span
  else if ["model", "a11y", "live", "focusTrap", "srOnly"].contains name then
    fail (.directiveWithoutElement name)
  else
    let (handler, head) ← EventHandler.parser inner.expr
    let (children, span) ← inner.optionalChildren head
    return event handler children span

def directiveParser (inner : MarkupInner) : Parser MarkupNode := do
  let name ← peek
  match name.kind with
  | .keyword .if_ => conditionalParser inner
  | .keyword .for_ | .keyword .each => loopParser inner
  | .keyword .link => linkParser inner
  | .keyword .outlet => outletParser inner
  | .keyword .navigate => navigateParser inner
  | .keyword .back => return back (← emptyArguments)
  | .keyword .forward => return forward (← emptyArguments)
  | .keyword .else_ => fail (.branchWithoutIf "else")
  | .identifier => namedDirective inner name.text
  | _ =>
    let _ ← advance
    failWanted .directiveName

def parserAt (inner : MarkupInner) : Parser MarkupNode := do
  match (← current).kind with
  | .selector | .identifier => elementParser inner
  | .string | .template => return text (← TextNode.parser (← advance))
  | .number | .bigInt | .keyword .true_ | .keyword .false_ | .keyword .null =>
    return text (.ofLiteral (← advance))
  | .keyword .slot => slotParser inner
  | .symbol .atSign => directiveParser inner
  | _ => failWanted .markup

def parserWithin : Nat → Parser MarkupNode
  | 0 => failTooDeep
  | levels + 1 => deeper (parserAt ⟨Expr.parser, parserWithin levels⟩)

def parser : Parser MarkupNode := withLevels parserWithin

end MarkupNode

def ViewBlock.parser : Parser ViewBlock := do
  let start ← expectKeyword .view
  let (children, span) ← braced MarkupNode.parser
  return ⟨children, start.span.cover span⟩

end PulseSyntax
