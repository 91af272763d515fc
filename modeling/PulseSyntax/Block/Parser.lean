import PulseSyntax.Block.Basic
import PulseSyntax.Expr.Parser

namespace PulseSyntax

open PulseSyntax.Parser

/-- `name: value`; the name may be a string. -/
def Property.parser : Parser Property := do
  let name ← if ← is .string then advance else expectName
  let _ ← expectSymbol .colon
  let value ← Expr.parser
  return ⟨name.text, value, name.span.cover value.span⟩

def PropertyBlock.parser (word : Keyword) : Parser PropertyBlock := do
  let start ← expectKeyword word
  let (properties, span) ← braced (entry Property.parser)
  return ⟨properties, start.span.cover span⟩

def Param.parser (before : Array Param) : Parser Param := do
  if before.back?.any (·.rest) then fail .restNotLast
  else
    let start := (← current).span
    let rest ← eatSymbol .spread
    let name ← expectName
    if !(← eatSymbol .eq) then return ⟨name.raw, none, rest, start.cover name.span⟩
    else if rest then fail .restDefault
    else
      let value ← Expr.parser
      return ⟨name.raw, some value, rest, start.cover value.span⟩

def Param.listParser : Parser (List Param) := do
  let _ ← expectSymbol .openParen
  let params ← commaSeparatedAfter .closeParen Param.parser
  let _ ← expectSymbol .closeParen
  return params

/-- `name(params) { body }`, which `async` may precede. An action may itself be called `async`. -/
def Action.parser : Parser Action := do
  let first ← current
  let isAsync := first.kind == .identifier && first.raw == "async" &&
    (← peek).kind != .symbol .openParen
  if isAsync then
    let _ ← advance
  if !(← isName) then failWanted .actionName
  else
    let name ← advance
    let params ← Param.listParser
    let body ← rawBlock
    return ⟨name.raw, params, body, isAsync, first.span.cover (← previous).span⟩

def ActionsBlock.parser : Parser ActionsBlock := do
  let start ← expectKeyword .actions
  let _ ← expectSymbol .openBrace
  let functions ← many .closeBrace (entry Action.parser)
  let close ← expectSymbol .closeBrace
  return ⟨functions, start.span.cover close.span⟩

def ensureFirst (seen : Bool) (field block : String) : Parser Unit :=
  if seen then fail (.duplicateField field block) else pure ()

def fieldColon : Parser Unit := do
  let _ ← advance
  let _ ← expectSymbol .colon

/-- `path: handler`, with a path that no route before has. -/
def Route.parser (before : Array Route) : Parser Route := do
  let path ← expect .string
  if before.any (·.path == path.text) then failAt path.place (.duplicateRoute path.text)
  else
    let _ ← expectSymbol .colon
    let handler ← Expr.parser
    return ⟨path.text, handler, path.span.cover handler.span⟩

def Route.listParser : Parser (List Route) := do
  let _ ← expectKeyword .routes
  let _ ← eatSymbol .colon
  let _ ← expectSymbol .openBrace
  let routes ← manyAfter .closeBrace fun before => entry (Route.parser before)
  let _ ← expectSymbol .closeBrace
  return routes

/-- A guard, whose name is at the cursor. -/
def Guard.parser : Parser Guard := do
  let name ← advance
  let params ← Param.listParser
  let body ← rawBlock
  return ⟨name.raw, params, body, name.span.cover (← previous).span⟩

structure RouterFields where
  mode : Option String
  base : Option String
  routes : Option (List Route)
  beforeEach : Option Guard
  afterEach : Option Guard

def RouterFields.add (fields : RouterFields) : Parser RouterFields := do
  match (← current).kind with
  | .keyword .mode =>
    ensureFirst fields.mode.isSome "mode" "router"
    fieldColon
    let value ← expectStringOr .identifier
    return { fields with mode := some value.text }
  | .keyword .base =>
    ensureFirst fields.base.isSome "base" "router"
    fieldColon
    let value ← expect .string
    return { fields with base := some value.text }
  | .keyword .routes =>
    ensureFirst fields.routes.isSome "routes" "router"
    return { fields with routes := some (← Route.listParser) }
  | .keyword .beforeEach =>
    ensureFirst fields.beforeEach.isSome "beforeEach" "router"
    return { fields with beforeEach := some (← Guard.parser) }
  | .keyword .afterEach =>
    ensureFirst fields.afterEach.isSome "afterEach" "router"
    return { fields with afterEach := some (← Guard.parser) }
  | _ => failWanted .routerOption

def RouterBlock.parser : Parser RouterBlock := do
  let start ← expectKeyword .router
  let _ ← expectSymbol .openBrace
  let fields ← foldEntries RouterFields.add ⟨none, none, none, none, none⟩
  let close ← expectSymbol .closeBrace
  return {
    mode := fields.mode
    base := fields.base
    routes := fields.routes.getD []
    beforeEach := fields.beforeEach
    afterEach := fields.afterEach
    span := start.span.cover close.span }

/-- `name { body }`, with or without empty parentheses. -/
def Getter.parser : Parser Getter := do
  if !(← isName) then failWanted .getterName
  else
    let name ← advance
    if ← eatSymbol .openParen then
      let t ← current
      if t.kind != .symbol .closeParen then fail (.getterParameters name.raw t)
      let _ ← advance
    let body ← rawBlock
    return ⟨name.raw, body, name.span.cover (← previous).span⟩

def Getter.listParser : Parser (List Getter) := do
  let _ ← expectKeyword .getters
  let (getters, _) ← braced (entry Getter.parser)
  return getters

structure StoreFields where
  state : Option PropertyBlock
  getters : Option (List Getter)
  actions : Option ActionsBlock
  persist : Option Bool
  storageKey : Option String
  plugins : Option Expr

def StoreFields.add (fields : StoreFields) : Parser StoreFields := do
  match (← current).kind with
  | .keyword .state =>
    ensureFirst fields.state.isSome "state" "store"
    return { fields with state := some (← PropertyBlock.parser .state) }
  | .keyword .getters =>
    ensureFirst fields.getters.isSome "getters" "store"
    return { fields with getters := some (← Getter.listParser) }
  | .keyword .actions =>
    ensureFirst fields.actions.isSome "actions" "store"
    return { fields with actions := some (← ActionsBlock.parser) }
  | .keyword .persist =>
    ensureFirst fields.persist.isSome "persist" "store"
    fieldColon
    let value ← match (← current).kind with
      | .keyword .true_ => pure true
      | .keyword .false_ => pure false
      | _ => failWanted .truthValue
    let _ ← advance
    return { fields with persist := some value }
  | .keyword .storageKey =>
    ensureFirst fields.storageKey.isSome "storageKey" "store"
    fieldColon
    let value ← expect .string
    return { fields with storageKey := some value.text }
  | .keyword .plugins =>
    ensureFirst fields.plugins.isSome "plugins" "store"
    fieldColon
    if !(← isSymbol .openBracket) then failWanted .pluginArray
    else return { fields with plugins := some (← Expr.parser) }
  | _ => failWanted .storeOption

def StoreBlock.parser : Parser StoreBlock := do
  let start ← expectKeyword .store
  let _ ← expectSymbol .openBrace
  let fields ← foldEntries StoreFields.add ⟨none, none, none, none, none, none⟩
  let close ← expectSymbol .closeBrace
  return {
    state := fields.state
    getters := fields.getters.getD []
    actions := fields.actions
    persist := fields.persist
    storageKey := fields.storageKey
    plugins := fields.plugins
    span := start.span.cover close.span }

end PulseSyntax
