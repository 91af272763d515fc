import PulseSyntax.Component
import PulseSyntax.Json.Basic

namespace PulseSyntax

/-- What an outline says of a node besides its kind and span. -/
inductive OutlineDetail where
  | none
  | body (range : TokenRange)
  | text (interpolated : Bool)
  | style
  | expression (assignable : Bool) (name : Option String) (operator : Option BinaryOp)
      (block : Option TokenRange)

inductive Outline where
  | node (kind : String) (span : Span) (detail : OutlineDetail) (children : List Outline)

namespace Outline

def span : Outline → Span
  | node _ s _ _ => s

def children : Outline → List Outline
  | node _ _ _ cs => cs

structure Row where
  depth : Nat
  kind : String
  span : Span
  detail : OutlineDetail

mutual

/-- The rows of a node: its own, then those of its children one level deeper. -/
def rows (depth : Nat) : Outline → List Row
  | node kind span detail children => ⟨depth, kind, span, detail⟩ :: rowsOfList (depth + 1) children

def rowsOfList (depth : Nat) : List Outline → List Row
  | [] => []
  | o :: os => rows depth o ++ rowsOfList depth os

end

end Outline

def Component.bodyToJson (c : Component) (r : TokenRange) : Json :=
  .object [("body", .string (c.rawText r)), ("len", .natural r.length)]

def OutlineDetail.toJson (c : Component) (kind : String) : OutlineDetail → Json
  | none => .null
  | body range => c.bodyToJson range
  | text interpolated => .object [("interpolated", .bool interpolated)]
  | style => .string kind
  | expression assignable name operator block =>
    .object ([("assignable", .bool assignable), ("name", Json.ofOption .string name)] ++
      (operator.map fun op => ("operator", Json.string op.symbol.spelling)).toList ++
      (block.map fun r => ("body", c.bodyToJson r)).toList)

def Outline.Row.toJson (c : Component) (r : Row) : Json :=
  .array [.natural r.depth, .string r.kind, .natural r.span.start, .natural r.span.stop,
    r.detail.toJson c r.kind]

def Expr.kind : Expr → String
  | identifier .. => "Identifier"
  | literal .. => "Literal"
  | template .. => "TemplateLiteral"
  | array .. => "ArrayExpression"
  | object .. => "ObjectExpression"
  | spread .. => "SpreadElement"
  | binary op _ _ _ => if op.isLogical then "LogicalExpression" else "BinaryExpression"
  | unary .. => "UnaryExpression"
  | update .. => "UpdateExpression"
  | assignment .. => "AssignmentExpression"
  | conditional .. => "ConditionalExpression"
  | arrow .. => "ArrowFunction"
  | member .. => "MemberExpression"
  | call .. => "CallExpression"

def Expr.binaryOp? : Expr → Option BinaryOp
  | binary op _ _ _ => some op
  | _ => none

def Expr.blockBody? : Expr → Option TokenRange
  | arrow _ (.block range) _ _ => some range
  | _ => none

def Expr.detail (e : Expr) : OutlineDetail :=
  .expression e.isAssignable e.name? e.binaryOp? e.blockBody?

mutual

def Expr.outline : Expr → Outline
  | e@(.identifier ..) | e@(.literal ..) | e@(.template ..) => .node e.kind e.span e.detail []
  | e@(.array elements _) => .node e.kind e.span e.detail (Expr.listOutline elements)
  | e@(.object members _) => .node e.kind e.span e.detail (ObjectMember.listOutline members)
  | e@(.spread argument _) => .node e.kind e.span e.detail [argument.outline]
  | e@(.binary _ left right _) => .node e.kind e.span e.detail [left.outline, right.outline]
  | e@(.unary _ argument _) => .node e.kind e.span e.detail [argument.outline]
  | e@(.update _ _ argument _) => .node e.kind e.span e.detail [argument.outline]
  | e@(.assignment _ target value _) =>
    .node e.kind e.span e.detail [target.outline, value.outline]
  | e@(.conditional test consequent alternate _) =>
    .node e.kind e.span e.detail [test.outline, consequent.outline, alternate.outline]
  | e@(.arrow params body _ _) =>
    .node e.kind e.span e.detail (Expr.listOutline params ++ body.outline)
  | e@(.member object property _ _ _) =>
    .node e.kind e.span e.detail [object.outline, property.outline]
  | e@(.call callee arguments _ _) =>
    .node e.kind e.span e.detail (callee.outline :: Expr.listOutline arguments)

def Expr.listOutline : List Expr → List Outline
  | [] => []
  | e :: es => e.outline :: Expr.listOutline es

def ObjectMember.outline : ObjectMember → List Outline
  | .property key value _ _ => key.outline ++ [value.outline]
  | .spread argument _ => [argument.outline]

def ObjectMember.listOutline : List ObjectMember → List Outline
  | [] => []
  | m :: ms => m.outline ++ ObjectMember.listOutline ms

def PropertyKey.outline : PropertyKey → List Outline
  | .computed key => [key.outline]
  | .identifier _ | .string _ | .number _ => []

def ArrowBody.outline : ArrowBody → List Outline
  | .expression body => [body.outline]
  | .block _ | .inline _ => []

end

def Expr.optionOutline (e : Option Expr) : List Outline := (e.map Expr.outline).toList

def TextPart.outline : TextPart → List Outline
  | literal _ => []
  | interpolation _ e => [e.outline]

def TextNode.outline (t : TextNode) : Outline :=
  .node "Text" t.span (.text t.isInterpolated) (t.parts.flatMap TextPart.outline)

def ElementProp.outline (p : ElementProp) : Outline :=
  .node "ElementProp" p.span .none [p.expr.outline]

namespace Directive

def outline : Directive → Outline
  | event h s => .node "EventDirective" s .none (Expr.optionOutline h.handler)
  | model _ binding s => .node "ModelDirective" s .none [binding.outline]
  | a11y attributes s => .node "A11yDirective" s .none (attributes.map (·.value.outline))
  | live _ s => .node "LiveDirective" s .none []
  | focusTrap options s => .node "FocusTrapDirective" s .none (Expr.optionOutline options)
  | srOnly s => .node "SrOnlyDirective" s .none []
  | boundary _ s => .node "BoundaryDirective" s .none []

end Directive

mutual

def MarkupNode.outline : MarkupNode → Outline
  | .element _ props directives texts children s =>
    .node "Element" s .none
      (props.map ElementProp.outline ++ directives.map Directive.outline ++
        texts.map TextNode.outline ++ MarkupNode.listOutline children)
  | .text t => t.outline
  | .conditional condition consequent branches none s =>
    .node "IfDirective" s .none
      (condition.outline :: MarkupNode.listOutline consequent ++ Branch.listOutline branches)
  | .conditional condition consequent branches (some alternate) s =>
    .node "IfDirective" s .none
      (condition.outline :: MarkupNode.listOutline consequent ++ Branch.listOutline branches ++
        MarkupNode.listOutline alternate)
  | .loop head body s =>
    .node "ForDirective" s .none
      (head.iterable.outline :: Expr.optionOutline head.key ++ MarkupNode.listOutline body)
  | .event h children s =>
    .node "EventDirective" s .none
      (Expr.optionOutline h.handler ++ MarkupNode.listOutline children)
  | .boundary _ children s => .node "BoundaryDirective" s .none (MarkupNode.listOutline children)
  | .slot _ fallback s => .node "SlotNode" s .none (MarkupNode.listOutline fallback)
  | .link path options text children s =>
    .node "LinkDirective" s .none
      (path.outline :: Expr.optionOutline options ++ (text.map TextNode.outline).toList ++
        MarkupNode.listOutline children)
  | .outlet container s => .node "OutletDirective" s .none (Expr.optionOutline container)
  | .navigate path options s =>
    .node "NavigateDirective" s .none (path.outline :: Expr.optionOutline options)
  | .back s => .node "BackDirective" s .none []
  | .forward s => .node "ForwardDirective" s .none []

def MarkupNode.listOutline : List MarkupNode → List Outline
  | [] => []
  | n :: ns => n.outline :: MarkupNode.listOutline ns

def Branch.outline : Branch → Outline
  | .mk condition consequent s =>
    .node "ElseIfBranch" s .none (condition.outline :: MarkupNode.listOutline consequent)

def Branch.listOutline : List Branch → List Outline
  | [] => []
  | b :: bs => b.outline :: Branch.listOutline bs

end

def ViewBlock.outline (b : ViewBlock) : Outline :=
  .node "ViewBlock" b.span .none (b.children.map MarkupNode.outline)

def ImportSpecifier.outline (s : ImportSpecifier) : Outline :=
  .node "ImportSpecifier" s.span .none []

def Import.outline (i : Import) : Outline :=
  .node "Import" i.span .none (i.specifiers.map ImportSpecifier.outline)

def PageDecl.outline (d : PageDecl) : Outline := .node "PageDecl" d.span .none []

def RouteDecl.outline (d : RouteDecl) : Outline := .node "RouteDecl" d.span .none []

def Property.outline (p : Property) : Outline := .node "Property" p.span .none [p.value.outline]

def PropertyBlock.outline (kind : String) (b : PropertyBlock) : Outline :=
  .node kind b.span .none (b.properties.map Property.outline)

def Param.outline (p : Param) : Outline :=
  .node "Param" p.span .none (Expr.optionOutline p.default)

def Action.outline (a : Action) : Outline :=
  .node "FunctionDecl" a.span (.body a.body) (a.params.map Param.outline)

def ActionsBlock.outline (b : ActionsBlock) : Outline :=
  .node "ActionsBlock" b.span .none (b.functions.map Action.outline)

def Route.outline (r : Route) : Outline := .node "RouteEntry" r.span .none [r.handler.outline]

def Guard.outline (g : Guard) : Outline :=
  .node "GuardHook" g.span (.body g.body) (g.params.map Param.outline)

def RouterBlock.outline (b : RouterBlock) : Outline :=
  .node "RouterBlock" b.span .none
    (b.routes.map Route.outline ++ (b.beforeEach.map Guard.outline).toList ++
      (b.afterEach.map Guard.outline).toList)

def Getter.outline (g : Getter) : Outline := .node "Getter" g.span (.body g.body) []

def StoreBlock.outline (b : StoreBlock) : Outline :=
  .node "StoreBlock" b.span .none
    ((b.state.map (PropertyBlock.outline "StateBlock")).toList ++
      b.getters.map Getter.outline ++ (b.actions.map ActionsBlock.outline).toList ++
      Expr.optionOutline b.plugins)

def StyleDeclaration.outline (d : StyleDeclaration) : Outline :=
  .node "StyleDeclaration" d.span .none []

mutual

def StyleNode.outline : StyleNode → Outline
  | .rule _ declarations rules s =>
    .node "StyleRule" s .style
      (declarations.map StyleDeclaration.outline ++ StyleNode.listOutline rules)
  | .atRule _ _ _ declarations rules s =>
    .node "AtRule" s .style
      (declarations.map StyleDeclaration.outline ++ StyleNode.listOutline rules)

def StyleNode.listOutline : List StyleNode → List Outline
  | [] => []
  | n :: ns => n.outline :: StyleNode.listOutline ns

end

def StyleBlock.outline (b : StyleBlock) : Outline :=
  .node "StyleBlock" b.span .none (b.rules.map StyleNode.outline)

def Program.outline (p : Program) : Outline :=
  .node "Program" p.span .none
    (p.imports.map Import.outline ++
      (p.page.map PageDecl.outline).toList ++
      (p.route.map RouteDecl.outline).toList ++
      (p.props.map (PropertyBlock.outline "PropsBlock")).toList ++
      (p.state.map (PropertyBlock.outline "StateBlock")).toList ++
      (p.view.map ViewBlock.outline).toList ++
      (p.actions.map ActionsBlock.outline).toList ++
      (p.style.map StyleBlock.outline).toList ++
      (p.router.map RouterBlock.outline).toList ++
      (p.store.map StoreBlock.outline).toList)

def Component.outlineRows (c : Component) : List Outline.Row := c.program.outline.rows 0

end PulseSyntax
