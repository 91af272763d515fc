import PulseSyntax.Block.Json
import PulseSyntax.Markup.Json
import PulseSyntax.Program.Basic
import PulseSyntax.Style.Basic

namespace PulseSyntax

def StyleDeclaration.toJson (d : StyleDeclaration) : Json :=
  .record [("property", .string d.property), ("value", .string d.value),
    ("important", .bool d.important)] d.span

mutual

def StyleNode.toJson : StyleNode → Json
  | .rule selector declarations rules span =>
    .node "Rule" [("selector", .string selector),
      ("declarations", .ofList StyleDeclaration.toJson declarations),
      ("rules", .array (StyleNode.listToJson rules))] span
  | .atRule name prelude hasBlock declarations rules span =>
    .node "AtRule" [("name", .string name), ("prelude", .string prelude),
      ("has_block", .bool hasBlock),
      ("declarations", .ofList StyleDeclaration.toJson declarations),
      ("rules", .array (StyleNode.listToJson rules))] span

def StyleNode.listToJson : List StyleNode → List Json
  | [] => []
  | n :: ns => n.toJson :: StyleNode.listToJson ns

end

def StyleBlock.toJson (b : StyleBlock) : Json :=
  .record [("raw", .string b.raw), ("rules", .ofList StyleNode.toJson b.rules),
    ("parseError", .ofOption .string b.parseError)] b.span

def ImportSpecifier.toJson (s : ImportSpecifier) : Json :=
  .record [("kind", .string s.kind.name), ("imported", .string s.imported),
    ("local", .string s.local_)] s.span

def Import.toJson (i : Import) : Json :=
  .record [("specifiers", .ofList ImportSpecifier.toJson i.specifiers),
    ("source", .string i.source)] i.span

def PageDecl.toJson (d : PageDecl) : Json := .record [("name", .string d.name)] d.span

def RouteDecl.toJson (d : RouteDecl) : Json := .record [("path", .string d.path)] d.span

def Program.toJson (p : Program) : Json :=
  .record [
    ("imports", .ofList Import.toJson p.imports),
    ("page", .ofOption PageDecl.toJson p.page),
    ("route", .ofOption RouteDecl.toJson p.route),
    ("props", .ofOption PropertyBlock.toJson p.props),
    ("state", .ofOption PropertyBlock.toJson p.state),
    ("view", .ofOption ViewBlock.toJson p.view),
    ("actions", .ofOption ActionsBlock.toJson p.actions),
    ("style", .ofOption StyleBlock.toJson p.style),
    ("router", .ofOption RouterBlock.toJson p.router),
    ("store", .ofOption StoreBlock.toJson p.store)] p.span

end PulseSyntax
