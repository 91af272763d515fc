import PulseSyntax.Block.Basic
import PulseSyntax.Expr.Json

namespace PulseSyntax

def Json.record (fields : List (String × Json)) (span : Span) : Json :=
  .object (fields ++ [("span", span.toJson)])

def Property.toJson (p : Property) : Json :=
  .record [("name", .string p.name), ("value", p.value.toJson)] p.span

def PropertyBlock.toJson (b : PropertyBlock) : Json :=
  .record [("properties", .ofList Property.toJson b.properties)] b.span

def Param.toJson (p : Param) : Json :=
  .record [("name", .string p.name), ("default", .ofOption Expr.toJson p.default),
    ("rest", .bool p.rest)] p.span

def Action.toJson (a : Action) : Json :=
  .record [("name", .string a.name), ("params", .ofList Param.toJson a.params),
    ("body", a.body.toJson), ("isAsync", .bool a.isAsync)] a.span

def ActionsBlock.toJson (b : ActionsBlock) : Json :=
  .record [("functions", .ofList Action.toJson b.functions)] b.span

def Route.toJson (r : Route) : Json :=
  .record [("path", .string r.path), ("handler", r.handler.toJson)] r.span

def Guard.toJson (g : Guard) : Json :=
  .record [("name", .string g.name), ("params", .ofList Param.toJson g.params),
    ("body", g.body.toJson)] g.span

def RouterBlock.toJson (b : RouterBlock) : Json :=
  .record [
    ("mode", .ofOption .string b.mode),
    ("base", .ofOption .string b.base),
    ("routes", .ofList Route.toJson b.routes),
    ("beforeEach", .ofOption Guard.toJson b.beforeEach),
    ("afterEach", .ofOption Guard.toJson b.afterEach)] b.span

def Getter.toJson (g : Getter) : Json :=
  .record [("name", .string g.name), ("body", g.body.toJson)] g.span

def StoreBlock.toJson (b : StoreBlock) : Json :=
  .record [
    ("state", .ofOption PropertyBlock.toJson b.state),
    ("getters", .ofList Getter.toJson b.getters),
    ("actions", .ofOption ActionsBlock.toJson b.actions),
    ("persist", .ofOption .bool b.persist),
    ("storageKey", .ofOption .string b.storageKey),
    ("plugins", .ofOption Expr.toJson b.plugins)] b.span

end PulseSyntax
