import PulseSyntax.Diagnostic.Basic
import PulseSyntax.Diagnostic.Hint
import PulseSyntax.Token.Basic

namespace PulseSyntax

/-- What may stand where no single kind of token is expected. -/
inductive Wanted where
  | expression | propertyName | directiveName | markup
  | actionName | getterName | routerOption | storeOption | truthValue | pluginArray
  | styleEnd
deriving DecidableEq, Repr

namespace Wanted

def describe : Wanted → String
  | expression => "expression"
  | propertyName => "property name"
  | directiveName => "directive name"
  | markup => "element, text or directive"
  | actionName => "action name"
  | getterName => "getter name"
  | routerOption => "router option (mode, base, routes, beforeEach, afterEach)"
  | storeOption => "store option (state, getters, actions, persist, storageKey, plugins)"
  | truthValue => "'true' or 'false'"
  | pluginArray => "plugin array '[...]'"
  | styleEnd => r"'}' to close the style block"

end Wanted

inductive Cause where
  | expected (kind : TokenKind) (found : Token)
  | wanted (what : Wanted) (found : Token)
  | invalidToken (found : Token)
  | duplicateDeclaration (name : String)
  | unknownDeclaration (found : String)
  | importSpecifiers (found : Token)
  | assignmentTarget (operator : String)
  | updateOperand (position : String)
  | arrowParameter
  | tooDeep (limit : Nat)
  | branchWithoutIf (name : String)
  | directiveWithoutElement (name : String)
  | modifiersOn (name : String)
  | unknownModifier (name : String)
  | severalHandlers (event : String)
  | modelBinding
  | argumentsOn (name : String)
  | pathArguments (name : String)
  | outletArguments
  | unclosedInterpolation
  | emptyInterpolation
  | afterInterpolation (found source : String)
  | restNotLast
  | restDefault
  | duplicateRoute (path : String)
  | duplicateField (field block : String)
  | getterParameters (name : String) (found : Token)
  | styleOutsideRule (found : Token)
  | styleSelector
  | styleProperty
  | styleColon (property : String) (found : Token)
  | styleValue (property : String)
  | styleAtName
  | styleAtRule (name : String)
deriving DecidableEq, Repr

namespace Cause

def misfitKind (found : Token) : ErrorKind :=
  if found.kind == .endOfFile then .unexpectedEof else .unexpectedToken

def kind : Cause → ErrorKind
  | expected _ found | wanted _ found => misfitKind found
  | invalidToken _ => .invalidToken
  | duplicateDeclaration _ | duplicateRoute _ | duplicateField _ _ => .duplicateBlock
  | unknownDeclaration _ => .unknownTopLevel
  | importSpecifiers _ => .invalidImport
  | assignmentTarget _ | updateOperand _ => .invalidAssignment
  | arrowParameter | restNotLast | restDefault | getterParameters _ _ => .unexpectedToken
  | tooDeep _ => .nestingTooDeep
  | modifiersOn _ | unknownModifier _ => .invalidModifier
  | branchWithoutIf _ | directiveWithoutElement _ | severalHandlers _ | modelBinding
  | argumentsOn _ | pathArguments _ | outletArguments => .invalidDirective
  | unclosedInterpolation | emptyInterpolation | afterInterpolation _ _ => .invalidInterpolation
  | styleOutsideRule _ | styleSelector | styleProperty | styleColon _ _ | styleValue _
  | styleAtName | styleAtRule _ => .invalidStyle

def declarations : String :=
  "import, @page, @route, props, state, view, actions, style, router, store"

def message : Cause → String
  | expected kind found => "Expected " ++ kind.describe ++ ", found " ++ found.describe
  | wanted what found => "Expected " ++ what.describe ++ ", found " ++ found.describe
  | invalidToken found => found.text
  | duplicateDeclaration name =>
    "Duplicate '" ++ name ++ "' block: a component may declare it only once"
  | unknownDeclaration found =>
    "Unexpected " ++ found ++ " at top level. Expected one of: " ++ declarations
  | importSpecifiers found => "Expected import specifiers, found " ++ found.describe
  | assignmentTarget operator => "Cannot assign to this expression with '" ++ operator ++ "'"
  | updateOperand position => "Invalid operand for " ++ position ++ " increment/decrement"
  | arrowParameter => "Invalid arrow function parameter"
  | tooDeep limit => "Nesting is too deep (maximum " ++ toString limit ++ " levels)"
  | branchWithoutIf name => "'@" ++ name ++ "' without a preceding '@if'"
  | directiveWithoutElement name => "'@" ++ name ++ "' must follow an element"
  | modifiersOn name => "'@" ++ name ++ "' does not accept modifiers"
  | unknownModifier name => "Unknown @model modifier '." ++ name ++ "'"
  | severalHandlers event => "'@" ++ event ++ "' takes a single handler expression"
  | modelBinding => "@model must bind to a name or member expression"
  | argumentsOn name => "'@" ++ name ++ "' takes no arguments"
  | pathArguments name =>
    "'@" ++ name ++ "' expects a path and optional options: @" ++ name ++ "(path[, options])"
  | outletArguments => "'@outlet' takes at most one container name"
  | unclosedInterpolation => r"Unclosed '{' in text interpolation"
  | emptyInterpolation => r"Empty interpolation '{}' in text"
  | afterInterpolation found source =>
    "Unexpected '" ++ found ++ "' in interpolation '" ++ source ++ "'"
  | restNotLast => "A rest parameter must be the last parameter"
  | restDefault => "A rest parameter cannot have a default value"
  | duplicateRoute path => "Duplicate route '" ++ path ++ "'"
  | duplicateField field block => "Duplicate '" ++ field ++ "' in " ++ block ++ " block"
  | getterParameters name found =>
    "Getter '" ++ name ++ "' takes no parameters, found " ++ found.describe
  | styleOutsideRule found => "Declarations must be inside a rule, found " ++ found.describe
  | styleSelector => r"Expected a selector before '{'"
  | styleProperty => "Expected a property name"
  | styleColon property found =>
    "Expected ':' after property '" ++ property ++ "', found " ++ found.describe
  | styleValue property => "Missing value for property '" ++ property ++ "'"
  | styleAtName => "Expected an at-rule name after '@'"
  | styleAtRule name => "Unknown at-rule '@" ++ name ++ "'"

def hint? : Cause → Option Hint
  | expected kind found => Hint.forMismatch? kind found.kind
  | wanted .styleEnd _ => Hint.forMismatch? (.symbol .closeBrace) .endOfFile
  | wanted _ _ | arrowParameter | severalHandlers _ | modelBinding | pathArguments _
  | outletArguments | restNotLast | restDefault | duplicateRoute _ | duplicateField _ _
  | getterParameters _ _ => none
  | cause => Hint.forKind? cause.kind

/-- The advice that is shown; what follows an interpolation has only a section of the guide. -/
def help? (cause : Cause) : Option String :=
  match cause with
  | afterInterpolation _ _ => none
  | _ => cause.hint?.map (·.help)

/-- The section of the guide that is shown; an empty interpolation has only advice. -/
def docs? (cause : Cause) : Option String :=
  match cause with
  | emptyInterpolation => none
  | _ => cause.hint?.map (·.docs)

end Cause

structure ParseError where
  cause : Cause
  place : Place
deriving DecidableEq, Repr

def ParseError.toDiagnostic (e : ParseError) : Diagnostic :=
  ⟨e.cause.kind, e.cause.message, e.place, e.cause.help?, e.cause.docs?⟩

def ParseError.display (e : ParseError) : String := e.toDiagnostic.display

end PulseSyntax
