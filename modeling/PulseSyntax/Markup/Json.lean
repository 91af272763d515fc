import PulseSyntax.Block.Json
import PulseSyntax.Markup.Basic

namespace PulseSyntax

def TextPart.toJson : TextPart → Json
  | literal value => .object [("type", .string "Literal"), ("value", .string value)]
  | interpolation source expression =>
    .object [("type", .string "Interpolation"), ("source", .string source),
      ("expression", expression.toJson)]

def TextNode.fields (t : TextNode) : List (String × Json) :=
  [("parts", .ofList TextPart.toJson t.parts), ("raw", .string t.raw)]

def TextNode.toJson (t : TextNode) : Json := .record t.fields t.span

def ElementProp.toJson : ElementProp → Json
  | named name value shorthand span =>
    .node "Named" [("name", .string name), ("value", value.toJson),
      ("shorthand", .bool shorthand)] span
  | spread argument span => .node "Spread" [("argument", argument.toJson)] span

def A11yAttribute.toJson (a : A11yAttribute) : Json :=
  .record [("name", .string a.name), ("value", a.value.toJson)] a.span

def EventHandler.fields (h : EventHandler) (children : Json) : List (String × Json) :=
  [("event", .string h.event), ("modifiers", .ofList .string h.modifiers),
    ("handler", .ofOption Expr.toJson h.handler), ("children", children)]

def BoundaryTarget.fields (target : BoundaryTarget) (children : Json) : List (String × Json) :=
  [("target", .string target.name), ("children", children)]

def Directive.toJson : Directive → Json
  | event handler span => .node "Event" (handler.fields (.array [])) span
  | model modifiers binding span =>
    .node "Model" [("modifiers", .ofList (fun m => .string m.name) modifiers),
      ("binding", binding.toJson)] span
  | a11y attributes span =>
    .node "A11y" [("attributes", .ofList A11yAttribute.toJson attributes)] span
  | live priority span => .node "Live" [("priority", .string priority)] span
  | focusTrap options span => .node "FocusTrap" [("options", .ofOption Expr.toJson options)] span
  | srOnly span => .node "SrOnly" [] span
  | boundary target span => .node "Boundary" (target.fields (.array [])) span

def LoopHead.fields (h : LoopHead) : List (String × Json) :=
  [("keyword", .string h.keyword.name), ("item", .string h.item),
    ("index", .ofOption .string h.index), ("iteration", .string h.iteration.name),
    ("iterable", h.iterable.toJson), ("key", .ofOption Expr.toJson h.key)]

mutual

def MarkupNode.toJson : MarkupNode → Json
  | .element selector props directives texts children span =>
    .node "Element" [("selector", .string selector), ("props", .ofList ElementProp.toJson props),
      ("directives", .ofList Directive.toJson directives),
      ("textContent", .ofList TextNode.toJson texts),
      ("children", .array (MarkupNode.listToJson children))] span
  | .text t => .node "Text" t.fields t.span
  | .conditional condition consequent branches none span =>
    .node "If" [("condition", condition.toJson),
      ("consequent", .array (MarkupNode.listToJson consequent)),
      ("elseIfBranches", .array (Branch.listToJson branches)), ("alternate", .null)] span
  | .conditional condition consequent branches (some alternate) span =>
    .node "If" [("condition", condition.toJson),
      ("consequent", .array (MarkupNode.listToJson consequent)),
      ("elseIfBranches", .array (Branch.listToJson branches)),
      ("alternate", .array (MarkupNode.listToJson alternate))] span
  | .loop head body span =>
    .node "For" (head.fields ++ [("body", .array (MarkupNode.listToJson body))]) span
  | .event handler children span =>
    .node "Event" (handler.fields (.array (MarkupNode.listToJson children))) span
  | .boundary target children span =>
    .node "Boundary" (target.fields (.array (MarkupNode.listToJson children))) span
  | .slot name fallback span =>
    .node "Slot" [("name", .ofOption .string name),
      ("fallback", .array (MarkupNode.listToJson fallback))] span
  | .link path options text children span =>
    .node "Link" [("path", path.toJson), ("options", .ofOption Expr.toJson options),
      ("text", .ofOption TextNode.toJson text),
      ("children", .array (MarkupNode.listToJson children))] span
  | .outlet container span => .node "Outlet" [("container", .ofOption Expr.toJson container)] span
  | .navigate path options span =>
    .node "Navigate" [("path", path.toJson), ("options", .ofOption Expr.toJson options)] span
  | .back span => .node "Back" [] span
  | .forward span => .node "Forward" [] span

def MarkupNode.listToJson : List MarkupNode → List Json
  | [] => []
  | n :: ns => n.toJson :: MarkupNode.listToJson ns

def Branch.toJson : Branch → Json
  | .mk condition consequent span =>
    .record [("condition", condition.toJson),
      ("consequent", .array (MarkupNode.listToJson consequent))] span

def Branch.listToJson : List Branch → List Json
  | [] => []
  | b :: bs => b.toJson :: Branch.listToJson bs

end

def ViewBlock.toJson (b : ViewBlock) : Json :=
  .record [("children", .ofList MarkupNode.toJson b.children)] b.span

end PulseSyntax
