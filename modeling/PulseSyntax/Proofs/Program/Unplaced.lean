import PulseSyntax.Program.Basic
import PulseSyntax.Proofs.Expr.Same

namespace PulseSyntax

/-- A range of as many tokens, wherever it stands. -/
def TokenRange.unplaced (range : TokenRange) : TokenRange := ⟨0, range.stop - range.start⟩

/-- The words of an error before its place, which ends with the code in brackets. -/
def withoutPlace (error : String) : String :=
  String.ofList (error.toList.reverse.dropWhile (· != ']')).reverse

section

variable (keep : TokenRange → TokenRange)

def ArrowBody.kept (r : TokenRange) : ArrowBody := .block (keep r)

namespace Expr

/-- The tree without the places of its nodes. -/
def erased (e : Expr) : Expr := e.unplaced (ArrowBody.kept keep)

end Expr

def TextPart.unplaced : TextPart → TextPart
  | literal value => literal value
  | interpolation source e => interpolation source (e.erased keep)

def TextNode.unplaced (t : TextNode) : TextNode :=
  ⟨t.parts.map (TextPart.unplaced keep), t.raw, default⟩

def ElementProp.unplaced : ElementProp → ElementProp
  | named name value shorthand _ => named name (value.erased keep) shorthand default
  | spread argument _ => spread (argument.erased keep) default

def A11yAttribute.unplaced (pair : A11yAttribute) : A11yAttribute :=
  ⟨pair.name, pair.value.erased keep, default⟩

def EventHandler.unplaced (handler : EventHandler) : EventHandler :=
  ⟨handler.event, handler.modifiers, handler.handler.map (Expr.erased keep)⟩

def Directive.unplaced : Directive → Directive
  | event handler _ => event (handler.unplaced keep) default
  | model modifiers binding _ => model modifiers (binding.erased keep) default
  | a11y attributes _ => a11y (attributes.map (A11yAttribute.unplaced keep)) default
  | live priority _ => live priority default
  | focusTrap options _ => focusTrap (options.map (Expr.erased keep)) default
  | srOnly _ => srOnly default
  | boundary target _ => boundary target default

def LoopHead.unplaced (head : LoopHead) : LoopHead :=
  { head with
    iterable := head.iterable.erased keep
    key := head.key.map (Expr.erased keep) }

namespace MarkupNode

mutual

def unplaced : MarkupNode → MarkupNode
  | element selector props directives texts children _ =>
    element selector (props.map (ElementProp.unplaced keep))
      (directives.map (Directive.unplaced keep)) (texts.map (TextNode.unplaced keep))
      (unplacedAll children) default
  | text t => text (t.unplaced keep)
  | conditional condition consequent branches alternate _ =>
    conditional (condition.erased keep) (unplacedAll consequent) (unplacedBranches branches)
      (unplacedAlternate alternate) default
  | loop head body _ => loop (head.unplaced keep) (unplacedAll body) default
  | event handler children _ => event (handler.unplaced keep) (unplacedAll children) default
  | boundary target children _ => boundary target (unplacedAll children) default
  | slot name fallback _ => slot name (unplacedAll fallback) default
  | link path options caption children _ =>
    link (path.erased keep) (options.map (Expr.erased keep)) (caption.map (TextNode.unplaced keep))
      (unplacedAll children) default
  | outlet container _ => outlet (container.map (Expr.erased keep)) default
  | navigate path options _ =>
    navigate (path.erased keep) (options.map (Expr.erased keep)) default
  | back _ => back default
  | forward _ => forward default

def unplacedAll : List MarkupNode → List MarkupNode
  | [] => []
  | node :: nodes => unplaced node :: unplacedAll nodes

def unplacedBranch : Branch → Branch
  | .mk condition consequent _ => .mk (condition.erased keep) (unplacedAll consequent) default

def unplacedBranches : List Branch → List Branch
  | [] => []
  | branch :: branches => unplacedBranch branch :: unplacedBranches branches

def unplacedAlternate : Option (List MarkupNode) → Option (List MarkupNode)
  | none => none
  | some nodes => some (unplacedAll nodes)

end

theorem unplacedAll_eq (nodes : List MarkupNode) :
    unplacedAll keep nodes = nodes.map (unplaced keep) := by
  induction nodes with
  | nil => rfl
  | cons node nodes ih => rw [unplacedAll, ih, List.map_cons]

theorem unplacedBranches_eq (branches : List Branch) :
    unplacedBranches keep branches = branches.map (unplacedBranch keep) := by
  induction branches with
  | nil => rfl
  | cons branch branches ih => rw [unplacedBranches, ih, List.map_cons]

theorem unplacedAlternate_eq (alternate : Option (List MarkupNode)) :
    unplacedAlternate keep alternate = alternate.map (List.map (unplaced keep)) := by
  cases alternate with
  | none => rfl
  | some nodes => rw [unplacedAlternate, unplacedAll_eq, Option.map_some]

end MarkupNode

def ViewBlock.unplaced (block : ViewBlock) : ViewBlock :=
  ⟨block.children.map (MarkupNode.unplaced keep), default⟩

def Property.unplaced (p : Property) : Property := ⟨p.name, p.value.erased keep, default⟩

def PropertyBlock.unplaced (block : PropertyBlock) : PropertyBlock :=
  ⟨block.properties.map (Property.unplaced keep), default⟩

def Param.unplaced (p : Param) : Param :=
  ⟨p.name, p.default.map (Expr.erased keep), p.rest, Inhabited.default⟩

def Action.unplaced (f : Action) : Action :=
  ⟨f.name, f.params.map (Param.unplaced keep), keep f.body, f.isAsync, default⟩

def ActionsBlock.unplaced (block : ActionsBlock) : ActionsBlock :=
  ⟨block.functions.map (Action.unplaced keep), default⟩

def Route.unplaced (r : Route) : Route := ⟨r.path, r.handler.erased keep, default⟩

def Guard.unplaced (g : Guard) : Guard :=
  ⟨g.name, g.params.map (Param.unplaced keep), keep g.body, default⟩

def RouterBlock.unplaced (block : RouterBlock) : RouterBlock :=
  { block with
    routes := block.routes.map (Route.unplaced keep)
    beforeEach := block.beforeEach.map (Guard.unplaced keep)
    afterEach := block.afterEach.map (Guard.unplaced keep)
    span := default }

def Getter.unplaced (g : Getter) : Getter := ⟨g.name, keep g.body, default⟩

def StoreBlock.unplaced (block : StoreBlock) : StoreBlock :=
  { block with
    state := block.state.map (PropertyBlock.unplaced keep)
    getters := block.getters.map (Getter.unplaced keep)
    actions := block.actions.map (ActionsBlock.unplaced keep)
    plugins := block.plugins.map (Expr.erased keep)
    span := default }

end

def StyleDeclaration.unplaced (d : StyleDeclaration) : StyleDeclaration := { d with span := default }

namespace StyleNode

mutual

def unplaced : StyleNode → StyleNode
  | rule selector declarations rules _ =>
    rule selector (declarations.map (·.unplaced)) (unplacedAll rules) default
  | atRule name prelude hasBlock declarations rules _ =>
    atRule name prelude hasBlock (declarations.map (·.unplaced)) (unplacedAll rules) default

def unplacedAll : List StyleNode → List StyleNode
  | [] => []
  | node :: nodes => unplaced node :: unplacedAll nodes

end

theorem unplacedAll_eq (nodes : List StyleNode) : unplacedAll nodes = nodes.map unplaced := by
  induction nodes with
  | nil => rfl
  | cons node nodes ih => rw [unplacedAll, ih, List.map_cons]

end StyleNode

def StyleBlock.unplaced (block : StyleBlock) : StyleBlock :=
  ⟨block.raw, block.rules.map (·.unplaced), block.parseError.map withoutPlace, default⟩

def ImportSpecifier.unplaced (specifier : ImportSpecifier) : ImportSpecifier :=
  { specifier with span := default }

def Import.unplaced (i : Import) : Import := ⟨i.specifiers.map (·.unplaced), i.source, default⟩

def PageDecl.unplaced (d : PageDecl) : PageDecl := { d with span := default }

def RouteDecl.unplaced (d : RouteDecl) : RouteDecl := { d with span := default }

section

variable (keep : TokenRange → TokenRange)

def Declarations.unplaced (d : Declarations) : Declarations where
  imports := d.imports.map (·.unplaced)
  page := d.page.map (·.unplaced)
  route := d.route.map (·.unplaced)
  props := d.props.map (PropertyBlock.unplaced keep)
  state := d.state.map (PropertyBlock.unplaced keep)
  view := d.view.map (ViewBlock.unplaced keep)
  actions := d.actions.map (ActionsBlock.unplaced keep)
  style := d.style.map (·.unplaced)
  router := d.router.map (RouterBlock.unplaced keep)
  store := d.store.map (StoreBlock.unplaced keep)

def Program.unplaced (p : Program) : Program :=
  { p.toDeclarations.unplaced keep with span := default }

end

end PulseSyntax
