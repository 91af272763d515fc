import PulseSyntax.Block.Parser
import PulseSyntax.Markup.Parser
import PulseSyntax.Program.Basic
import PulseSyntax.Style.Parser

namespace PulseSyntax

open PulseSyntax.Parser

namespace Import

def sourceParser (start : Span) (specifiers : List ImportSpecifier) : Parser Import := do
  let _ ← expectKeyword .from_
  let source ← expect .string
  let _ ← eatSymbol .semicolon
  return ⟨specifiers, source.text, start.cover source.span⟩

def namedParser : Parser ImportSpecifier := do
  let imported ← expectName
  if ← eat (.keyword .as) then
    let given ← expect .identifier
    return ⟨.named, imported.text, given.text, imported.span.cover given.span⟩
  else return ⟨.named, imported.text, imported.text, imported.span⟩

def namespaceParser : Parser ImportSpecifier := do
  let star ← advance
  let _ ← expectKeyword .as
  let name ← expect .identifier
  return ⟨.namespace_, "*", name.text, star.span.cover name.span⟩

def bindingsParser : Parser (List ImportSpecifier) := do
  let t ← current
  if t.kind == .symbol .star then return [← namespaceParser]
  else if t.kind == .symbol .openBrace then
    let _ ← advance
    let specifiers ← commaSeparated .closeBrace namedParser
    let _ ← expectSymbol .closeBrace
    return specifiers
  else fail (.importSpecifiers t)

def parser : Parser Import := do
  let start := (← expectKeyword .import_).span
  if ← is .string then
    let source ← advance
    let _ ← eatSymbol .semicolon
    return ⟨[], source.text, start.cover source.span⟩
  else if ← is .identifier then
    let name ← advance
    let first : ImportSpecifier := ⟨.default, "default", name.text, name.span⟩
    if ← eatSymbol .comma then sourceParser start (first :: (← bindingsParser))
    else sourceParser start [first]
  else sourceParser start (← bindingsParser)

end Import

def PageDecl.parser : Parser PageDecl := do
  let start ← expectSymbol .atSign
  let _ ← expectKeyword .page
  let name ← expectStringOr .identifier
  return ⟨name.text, start.span.cover name.span⟩

def RouteDecl.parser : Parser RouteDecl := do
  let start ← expectSymbol .atSign
  let _ ← expectKeyword .route
  let path ← expect .string
  return ⟨path.text, start.span.cover path.span⟩

namespace Declarations

def failUnknown : Parser α := do
  let t ← current
  let next ← peek
  failAtToken fun _ =>
    .unknownDeclaration (if t.kind == .symbol .atSign then "'@" ++ next.text ++ "'" else t.describe)

def once (seen : Option α) (name : String) (p : Parser α) : Parser (Option α) := do
  if seen.isSome then fail (.duplicateDeclaration name) else some <$> p

def add (d : Declarations) : Parser Declarations := do
  match (← current).kind with
  | .keyword .import_ => return { d with imports := d.imports ++ [← Import.parser] }
  | .symbol .atSign =>
    match (← peek).kind with
    | .keyword .page => return { d with page := ← once d.page "@page" PageDecl.parser }
    | .keyword .route => return { d with route := ← once d.route "@route" RouteDecl.parser }
    | _ => failUnknown
  | .keyword .props =>
    return { d with props := ← once d.props "props" (PropertyBlock.parser .props) }
  | .keyword .state =>
    return { d with state := ← once d.state "state" (PropertyBlock.parser .state) }
  | .keyword .view => return { d with view := ← once d.view "view" ViewBlock.parser }
  | .keyword .actions =>
    return { d with actions := ← once d.actions "actions" ActionsBlock.parser }
  | .keyword .style => return { d with style := ← once d.style "style" StyleBlock.parser }
  | .keyword .router =>
    return { d with router := ← once d.router "router" RouterBlock.parser }
  | .keyword .store => return { d with store := ← once d.store "store" StoreBlock.parser }
  | .symbol .semicolon =>
    let _ ← advance
    return d
  | _ => failUnknown

end Declarations

/-- A component file, up to the end of the file. -/
def Program.parser : Parser Program := do
  let start := (← current).span
  let d ← loop (fun (d : Declarations) => do
    if ← is .endOfFile then return .done d else return .yield (← d.add)) .empty
  return { d with span := start.cover (← current).span }

end PulseSyntax
