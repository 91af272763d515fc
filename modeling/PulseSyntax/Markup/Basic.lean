import PulseSyntax.Expr.Basic

namespace PulseSyntax

/-- A part of a text: characters, or an expression between braces with its source. -/
inductive TextPart where
  | literal (value : String)
  | interpolation (source : String) (expression : Expr)

structure TextNode where
  parts : List TextPart
  raw : String
  span : Span

def TextPart.isInterpolation : TextPart → Bool
  | literal _ => false
  | interpolation _ _ => true

def TextNode.isInterpolated (t : TextNode) : Bool := t.parts.any (·.isInterpolation)

inductive ElementProp where
  | named (name : String) (value : Expr) (shorthand : Bool) (span : Span)
  | spread (argument : Expr) (span : Span)

def ElementProp.span : ElementProp → Span
  | named _ _ _ s | spread _ s => s

def ElementProp.expr : ElementProp → Expr
  | named _ value _ _ => value
  | spread argument _ => argument

inductive ModelModifier where
  | lazy | trim | number
deriving DecidableEq, Repr

namespace ModelModifier

def name : ModelModifier → String
  | lazy => "lazy"
  | trim => "trim"
  | number => "number"

def ofName? (name : String) : Option ModelModifier :=
  [lazy, trim, number].find? (·.name == name)

end ModelModifier

inductive BoundaryTarget where
  | client | server
deriving DecidableEq, Repr

def BoundaryTarget.name : BoundaryTarget → String
  | client => "client"
  | server => "server"

structure A11yAttribute where
  name : String
  value : Expr
  span : Span

structure EventHandler where
  event : String
  modifiers : List String
  handler : Option Expr

inductive Directive where
  | event (handler : EventHandler) (span : Span)
  | model (modifiers : List ModelModifier) (binding : Expr) (span : Span)
  | a11y (attributes : List A11yAttribute) (span : Span)
  | live (priority : String) (span : Span)
  | focusTrap (options : Option Expr) (span : Span)
  | srOnly (span : Span)
  | boundary (target : BoundaryTarget) (span : Span)

def Directive.span : Directive → Span
  | event _ s | model _ _ s | a11y _ s | live _ s | focusTrap _ s | srOnly s | boundary _ s => s

inductive LoopKeyword where
  | for_ | each
deriving DecidableEq, Repr

def LoopKeyword.name : LoopKeyword → String
  | for_ => "for"
  | each => "each"

inductive IterationKind where
  | in_ | of
deriving DecidableEq, Repr

def IterationKind.name : IterationKind → String
  | in_ => "in"
  | of => "of"

/-- What a loop runs over: the names it binds, the list, and the key of an item. -/
structure LoopHead where
  keyword : LoopKeyword
  item : String
  index : Option String
  iteration : IterationKind
  iterable : Expr
  key : Option Expr

mutual

inductive MarkupNode where
  | element (selector : String) (props : List ElementProp) (directives : List Directive)
      (texts : List TextNode) (children : List MarkupNode) (span : Span)
  | text (text : TextNode)
  | conditional (condition : Expr) (consequent : List MarkupNode) (branches : List Branch)
      (alternate : Option (List MarkupNode)) (span : Span)
  | loop (head : LoopHead) (body : List MarkupNode) (span : Span)
  | event (handler : EventHandler) (children : List MarkupNode) (span : Span)
  | boundary (target : BoundaryTarget) (children : List MarkupNode) (span : Span)
  | slot (name : Option String) (fallback : List MarkupNode) (span : Span)
  | link (path : Expr) (options : Option Expr) (text : Option TextNode)
      (children : List MarkupNode) (span : Span)
  | outlet (container : Option Expr) (span : Span)
  | navigate (path : Expr) (options : Option Expr) (span : Span)
  | back (span : Span)
  | forward (span : Span)

/-- A further condition of a conditional, and what it shows. -/
inductive Branch where
  | mk (condition : Expr) (consequent : List MarkupNode) (span : Span)

end

def MarkupNode.span : MarkupNode → Span
  | element _ _ _ _ _ s | conditional _ _ _ _ s | loop _ _ s | event _ _ s | boundary _ _ s
  | slot _ _ s | link _ _ _ _ s | outlet _ s | navigate _ _ s | back s | forward s => s
  | text t => t.span

structure ViewBlock where
  children : List MarkupNode
  span : Span

end PulseSyntax
