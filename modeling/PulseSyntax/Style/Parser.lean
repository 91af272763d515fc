import PulseSyntax.Parser.Repeat
import PulseSyntax.Expr.Parser
import PulseSyntax.Style.Basic
import PulseSyntax.Style.Spacing

namespace PulseSyntax

open PulseSyntax.Parser

namespace Style

def atRules : List String := [
  "media", "supports", "keyframes", "font-face", "import", "layer", "container", "page", "charset",
  "namespace", "font-feature-values", "property", "counter-style", "viewport", "document"]

def isAtRule (name : String) : Bool :=
  let leads := vendors.map fun vendor => '-' :: vendor.toList
  atRules.contains (String.ofList (withoutLead leads name.toList))

/-- How many parentheses and brackets are open after a token of this kind. -/
def openAfter (depth : Nat) : TokenKind → Nat
  | .symbol .openParen | .symbol .openBracket => depth + 1
  | .symbol .closeParen | .symbol .closeBracket => depth - 1
  | _ => depth

def endsItem : TokenKind → Bool
  | .symbol .semicolon | .symbol .openBrace | .symbol .closeBrace => true
  | _ => false

/-- What ends the item that starts with these tokens: a symbol outside parentheses and brackets, or
    the end of the file. -/
def terminator : Nat → List Token → TokenKind
  | _, [] => .endOfFile
  | depth, t :: rest =>
    if depth == 0 && endsItem t.kind then t.kind
    else if t.kind == .endOfFile then .endOfFile
    else terminator (openAfter depth t.kind) rest

def blockFollows : Parser Bool := do
  let tokens := (← scope).stream.tokensFrom (← cursor)
  return terminator 0 tokens == .symbol .openBrace

def tokensBetween (start stop : Nat) : Parser (List Token) := do
  return (← scope).stream.between start stop

/-- One more token of an item in which so many parentheses and brackets are open. -/
def itemToken (depth : Nat) : Parser (ForInStep Nat) := do
  let kind := (← current).kind
  if kind == .endOfFile || (depth == 0 && endsItem kind) then return .done depth
  else
    let _ ← advance
    return .yield (openAfter depth kind)

def itemTokens : Parser (List Token) := do
  let start ← cursor
  let _ ← loop itemToken 0
  tokensBetween start (← cursor)

def endsProperty (kind : TokenKind) : Bool :=
  kind == .symbol .colon || endsItem kind || kind == .endOfFile

def propertyToken (_ : Unit) : Parser (ForInStep Unit) := do
  if endsProperty (← current).kind then return .done ()
  else
    let _ ← advance
    return .yield ()

def propertyTokens : Parser (List Token) := do
  let start ← cursor
  let _ ← loop propertyToken ()
  tokensBetween start (← cursor)

def beforeImportant? (tokens : List Token) : Option (List Token) :=
  match tokens.reverse with
  | word :: bang :: rest =>
    if bang.kind == .symbol .not && lower word.raw == "important" then some rest.reverse else none
  | _ => none

def declaration : Parser StyleDeclaration := do
  let start := (← current).span
  let property := line .value (← propertyTokens)
  if property.isEmpty then fail .styleProperty
  else if !(← isSymbol .colon) then fail (.styleColon property (← current))
  else
    let _ ← advance
    let tokens ← itemTokens
    let plain := beforeImportant? tokens
    let value := line .value (plain.getD tokens)
    if value.isEmpty then fail (.styleValue property)
    else
      let stop := (← previous).span
      let _ ← eatSymbol .semicolon
      return ⟨property, value, plain.isSome, start.cover stop⟩

structure Body where
  declarations : Array StyleDeclaration
  rules : Array StyleNode

structure Nested where
  rule : Parser StyleNode
  atRule : Parser StyleNode

def bodyItem (nested : Nested) (body : Body) : Parser (ForInStep Body) := do
  match (← current).kind with
  | .symbol .closeBrace | .endOfFile => return .done body
  | .symbol .semicolon =>
    let _ ← advance
    return .yield body
  | .symbol .atSign => return .yield { body with rules := body.rules.push (← nested.atRule) }
  | _ =>
    if ← blockFollows then return .yield { body with rules := body.rules.push (← nested.rule) }
    else return .yield { body with declarations := body.declarations.push (← declaration) }

def bodyParser (nested : Nested) : Parser (Body × Span) := do
  let body ← loop (bodyItem nested) ⟨#[], #[]⟩
  let close ← expectSymbol .closeBrace
  return (body, close.span)

def ruleAt (nested : Nested) : Parser StyleNode := do
  let start := (← current).span
  let selector := line .selector (← itemTokens)
  if selector.isEmpty then fail .styleSelector
  else
    let _ ← expectSymbol .openBrace
    let (body, close) ← bodyParser nested
    return .rule selector body.declarations.toList body.rules.toList (start.cover close)

def atName (atSign : Token) : Parser String := do
  let t ← current
  let name := lower t.raw
  if t.kind != .identifier || t.span.start != atSign.span.stop then fail .styleAtName
  else if !isAtRule name then fail (.styleAtRule t.raw)
  else
    let _ ← advance
    return name

def atRuleAt (nested : Nested) : Parser StyleNode := do
  let atSign ← expectSymbol .atSign
  let name ← atName atSign
  let prelude := line .value (← itemTokens)
  if ← eatSymbol .openBrace then
    let (body, close) ← bodyParser nested
    return .atRule name prelude true body.declarations.toList body.rules.toList
      (atSign.span.cover close)
  else
    let stop := (← previous).span
    let _ ← eatSymbol .semicolon
    return .atRule name prelude false [] [] (atSign.span.cover stop)

mutual

def ruleWithin : Nat → Parser StyleNode
  | 0 => failTooDeep
  | levels + 1 => deeper (ruleAt ⟨ruleWithin levels, atRuleWithin levels⟩)

def atRuleWithin : Nat → Parser StyleNode
  | 0 => failTooDeep
  | levels + 1 => deeper (atRuleAt ⟨ruleWithin levels, atRuleWithin levels⟩)

end

def rulesItem (stop : Nat) (rules : Array StyleNode) : Parser (ForInStep (Array StyleNode)) := do
  if stop ≤ (← cursor) then return .done rules
  else match (← current).kind with
    | .symbol .semicolon =>
      let _ ← advance
      return .yield rules
    | .symbol .atSign => return .yield (rules.push (← withLevels atRuleWithin))
    | _ =>
      if ← blockFollows then return .yield (rules.push (← withLevels ruleWithin))
      else fail (.styleOutsideRule (← current))

/-- The rules up to the token at index `stop`. -/
def rulesParser (stop : Nat) : Parser (List StyleNode) := do
  let rules ← loop (rulesItem stop) #[]
  return rules.toList

/-- How many tokens stand before the brace that closes the block, if it closes. -/
def lengthToClose? : Nat → List Token → Option Nat
  | _, [] => none
  | depth, t :: rest =>
    match t.kind with
    | .symbol .openBrace => (lengthToClose? (depth + 1) rest).map (· + 1)
    | .symbol .closeBrace =>
      match depth with
      | 0 => some 0
      | depth + 1 => (lengthToClose? depth rest).map (· + 1)
    | .endOfFile => none
    | _ => (lengthToClose? depth rest).map (· + 1)

def lengthToInvalid? (tokens : List Token) : Option Nat :=
  (tokens.takeWhile fun t => t.kind != .endOfFile).findIdx? fun t => t.kind == .invalid

/-- The index of the brace that closes the block. Where none does, the error is the first text that
    forms no token, which may have swallowed it, or else the end of the file. -/
def findEnd : Parser Nat := do
  let start ← cursor
  let stream := (← scope).stream
  let tokens := stream.tokensFrom start
  match lengthToClose? 0 tokens, lengthToInvalid? tokens with
  | some length, _ => return start + length
  | none, some length =>
    seek (start + length)
    fail (.invalidToken (← current))
  | none, none =>
    seek (stream.size - 1)
    failWanted .styleEnd

end Style

def StyleBlock.parser : Parser StyleBlock := do
  let start ← expectKeyword .style
  let _ ← expectSymbol .openBrace
  let first ← cursor
  let stop ← Style.findEnd
  let raw := Style.block (← Style.tokensBetween first stop)
  let outcome ← attempt (Style.rulesParser stop)
  let (rules, parseError) ← match outcome with
    | .ok rules => pure (rules, none)
    | .error e =>
      if (← scope).options.styleFallback then pure ([], some e.display)
      else ofExcept (.error e)
  seek stop
  let close ← expectSymbol .closeBrace
  return ⟨raw, rules, parseError, start.span.cover close.span⟩

end PulseSyntax
