import PulseSyntax.Program.Basic

namespace PulseSyntax

/-- The spans of a node and of the nodes that it holds, in lists of which each is in the order of the
    source. A text holds expressions, each between braces of its own. -/
inductive SpanTree where
  | node (span : Span) (lists : List (List SpanTree))
  | text (span : Span) (expressions : List SpanTree)

namespace SpanTree

def span : SpanTree → Span
  | node s _ | text s _ => s

def children : SpanTree → List SpanTree
  | node _ lists => lists.flatten
  | text _ expressions => expressions

end SpanTree

/-- The span is no reversed one and lies in the other. -/
structure Span.LiesIn (inner outer : Span) : Prop where
  start : outer.start ≤ inner.start
  proper : inner.start ≤ inner.stop
  stop : inner.stop ≤ outer.stop

namespace SpanTree

/-- Every node lies in the one around it, and outside of texts the nodes of a list follow one another
    without overlapping. -/
inductive Nested : Bool → SpanTree → Prop
  | node {inText : Bool} {span : Span} {lists : List (List SpanTree)}
      (proper : span.start ≤ span.stop)
      (nested : ∀ list ∈ lists, ∀ t ∈ list, Nested inText t)
      (within : ∀ list ∈ lists, ∀ t ∈ list, t.span.LiesIn span)
      (apart : inText = false →
        ∀ list ∈ lists, list.Pairwise fun a b => a.span.stop ≤ b.span.start) :
      Nested inText (node span lists)
  | text {inText : Bool} {span : Span} {expressions : List SpanTree}
      (proper : span.start ≤ span.stop)
      (nested : ∀ t ∈ expressions, Nested true t)
      (within : ∀ t ∈ expressions, t.span.LiesIn span) : Nested inText (text span expressions)

/-- A node of the tree: its root, or a node of what the root holds. -/
inductive Has : SpanTree → SpanTree → Prop
  | root (t : SpanTree) : Has t t
  | child {t c d : SpanTree} (member : c ∈ t.children) (inside : Has c d) : Has t d

end SpanTree

mutual

def Expr.spanTree : Expr → SpanTree
  | .identifier _ s | .literal _ _ s | .template _ _ s => .node s []
  | .array elements s => .node s [Expr.spanTrees elements]
  | .object members s => .node s [ObjectMember.spanTrees members]
  | .spread argument s => .node s [[argument.spanTree]]
  | .binary _ left right s => .node s [[left.spanTree, right.spanTree]]
  | .unary _ argument s | .update _ _ argument s => .node s [[argument.spanTree]]
  | .assignment _ target value s => .node s [[target.spanTree, value.spanTree]]
  | .conditional test consequent alternate s =>
    .node s [[test.spanTree, consequent.spanTree, alternate.spanTree]]
  | .arrow params body _ s => .node s [Expr.spanTrees params ++ body.spanTrees]
  | .member object property _ _ s => .node s [[object.spanTree, property.spanTree]]
  | .call callee arguments _ s => .node s [callee.spanTree :: Expr.spanTrees arguments]

def Expr.spanTrees : List Expr → List SpanTree
  | [] => []
  | e :: es => e.spanTree :: Expr.spanTrees es

def ObjectMember.spanTree : ObjectMember → SpanTree
  | .property key value _ s => .node s [key.spanTrees ++ [value.spanTree]]
  | .spread argument s => .node s [[argument.spanTree]]

def ObjectMember.spanTrees : List ObjectMember → List SpanTree
  | [] => []
  | m :: ms => m.spanTree :: ObjectMember.spanTrees ms

def PropertyKey.spanTrees : PropertyKey → List SpanTree
  | .computed key => [key.spanTree]
  | .identifier _ | .string _ | .number _ => []

def ArrowBody.spanTrees : ArrowBody → List SpanTree
  | .expression body => [body.spanTree]
  | .block _ | .inline _ => []

end

theorem Expr.spanTrees_eq (es : List Expr) : Expr.spanTrees es = es.map Expr.spanTree := by
  induction es with
  | nil => simp [Expr.spanTrees]
  | cons e es ih => simp [Expr.spanTrees, ih]

theorem ObjectMember.spanTrees_eq (ms : List ObjectMember) :
    ObjectMember.spanTrees ms = ms.map ObjectMember.spanTree := by
  induction ms with
  | nil => simp [ObjectMember.spanTrees]
  | cons m ms ih => simp [ObjectMember.spanTrees, ih]

def Expr.optionSpanTrees (e : Option Expr) : List SpanTree := (e.map Expr.spanTree).toList

def TextPart.spanTrees : TextPart → List SpanTree
  | literal _ => []
  | interpolation _ e => [e.spanTree]

def TextNode.spanTree (t : TextNode) : SpanTree := .text t.span (t.parts.flatMap TextPart.spanTrees)

def ElementProp.spanTree (p : ElementProp) : SpanTree := .node p.span [[p.expr.spanTree]]

def A11yAttribute.spanTree (a : A11yAttribute) : SpanTree := .node a.span [[a.value.spanTree]]

def Directive.spanTree : Directive → SpanTree
  | event h s => .node s [Expr.optionSpanTrees h.handler]
  | model _ binding s => .node s [[binding.spanTree]]
  | a11y attributes s => .node s [attributes.map A11yAttribute.spanTree]
  | live _ s | srOnly s | boundary _ s => .node s []
  | focusTrap options s => .node s [Expr.optionSpanTrees options]

mutual

def MarkupNode.spanTree : MarkupNode → SpanTree
  | .element _ props directives texts children s =>
    .node s [props.map ElementProp.spanTree, directives.map Directive.spanTree,
      texts.map TextNode.spanTree, MarkupNode.spanTrees children]
  | .text t => t.spanTree
  | .conditional condition consequent branches none s =>
    .node s [condition.spanTree :: MarkupNode.spanTrees consequent ++ Branch.spanTrees branches]
  | .conditional condition consequent branches (some alternate) s =>
    .node s [condition.spanTree :: MarkupNode.spanTrees consequent ++ Branch.spanTrees branches ++
      MarkupNode.spanTrees alternate]
  | .loop head body s =>
    .node s [head.iterable.spanTree :: Expr.optionSpanTrees head.key ++ MarkupNode.spanTrees body]
  | .event h children s =>
    .node s [Expr.optionSpanTrees h.handler ++ MarkupNode.spanTrees children]
  | .boundary _ children s => .node s [MarkupNode.spanTrees children]
  | .slot _ fallback s => .node s [MarkupNode.spanTrees fallback]
  | .link path options text children s =>
    .node s [path.spanTree :: Expr.optionSpanTrees options ++ (text.map TextNode.spanTree).toList ++
      MarkupNode.spanTrees children]
  | .outlet container s => .node s [Expr.optionSpanTrees container]
  | .navigate path options s => .node s [path.spanTree :: Expr.optionSpanTrees options]
  | .back s | .forward s => .node s []

def MarkupNode.spanTrees : List MarkupNode → List SpanTree
  | [] => []
  | n :: ns => n.spanTree :: MarkupNode.spanTrees ns

def Branch.spanTree : Branch → SpanTree
  | .mk condition consequent s => .node s [condition.spanTree :: MarkupNode.spanTrees consequent]

def Branch.spanTrees : List Branch → List SpanTree
  | [] => []
  | b :: bs => b.spanTree :: Branch.spanTrees bs

end

theorem MarkupNode.spanTrees_eq (ns : List MarkupNode) :
    MarkupNode.spanTrees ns = ns.map MarkupNode.spanTree := by
  induction ns with
  | nil => simp [MarkupNode.spanTrees]
  | cons n ns ih => simp [MarkupNode.spanTrees, ih]

theorem Branch.spanTrees_eq (bs : List Branch) : Branch.spanTrees bs = bs.map Branch.spanTree := by
  induction bs with
  | nil => simp [Branch.spanTrees]
  | cons b bs ih => simp [Branch.spanTrees, ih]

def ViewBlock.spanTree (b : ViewBlock) : SpanTree :=
  .node b.span [b.children.map MarkupNode.spanTree]

def Property.spanTree (p : Property) : SpanTree := .node p.span [[p.value.spanTree]]

def PropertyBlock.spanTree (b : PropertyBlock) : SpanTree :=
  .node b.span [b.properties.map Property.spanTree]

def Param.spanTree (p : Param) : SpanTree := .node p.span [Expr.optionSpanTrees p.default]

def Action.spanTree (a : Action) : SpanTree := .node a.span [a.params.map Param.spanTree]

def ActionsBlock.spanTree (b : ActionsBlock) : SpanTree :=
  .node b.span [b.functions.map Action.spanTree]

def Route.spanTree (r : Route) : SpanTree := .node r.span [[r.handler.spanTree]]

def Guard.spanTree (g : Guard) : SpanTree := .node g.span [g.params.map Param.spanTree]

def RouterBlock.spanTree (b : RouterBlock) : SpanTree :=
  .node b.span [b.routes.map Route.spanTree, (b.beforeEach.map Guard.spanTree).toList,
    (b.afterEach.map Guard.spanTree).toList]

def Getter.spanTree (g : Getter) : SpanTree := .node g.span []

def StoreBlock.spanTree (b : StoreBlock) : SpanTree :=
  .node b.span [(b.state.map PropertyBlock.spanTree).toList, b.getters.map Getter.spanTree,
    (b.actions.map ActionsBlock.spanTree).toList, Expr.optionSpanTrees b.plugins]

def ImportSpecifier.spanTree (s : ImportSpecifier) : SpanTree := .node s.span []

def Import.spanTree (i : Import) : SpanTree := .node i.span [i.specifiers.map ImportSpecifier.spanTree]

def PageDecl.spanTree (d : PageDecl) : SpanTree := .node d.span []

def RouteDecl.spanTree (d : RouteDecl) : SpanTree := .node d.span []

def StyleBlock.spanTree (b : StyleBlock) : SpanTree := .node b.span []

def Program.spanTree (p : Program) : SpanTree :=
  .node p.span [p.imports.map Import.spanTree, (p.page.map PageDecl.spanTree).toList,
    (p.route.map RouteDecl.spanTree).toList, (p.props.map PropertyBlock.spanTree).toList,
    (p.state.map PropertyBlock.spanTree).toList, (p.view.map ViewBlock.spanTree).toList,
    (p.actions.map ActionsBlock.spanTree).toList, (p.style.map StyleBlock.spanTree).toList,
    (p.router.map RouterBlock.spanTree).toList, (p.store.map StoreBlock.spanTree).toList]

namespace SpanTree

variable {inText : Bool} {t d : SpanTree}

theorem Nested.proper (h : t.Nested inText) : t.span.start ≤ t.span.stop := by
  cases h with
  | node proper | text proper => exact proper

theorem Nested.child {c : SpanTree} (h : t.Nested inText) (member : c ∈ t.children) :
    c.span.LiesIn t.span ∧ ∃ inText, c.Nested inText := by
  cases h with
  | node proper nested within apart =>
    obtain ⟨list, here, inside⟩ := List.mem_flatten.mp member
    exact ⟨within list here c inside, inText, nested list here c inside⟩
  | text proper nested within => exact ⟨within c member, true, nested c member⟩

theorem Nested.within_of_has (h : t.Nested inText) (has : t.Has d) : d.span.LiesIn t.span := by
  induction has generalizing inText with
  | root => exact ⟨Nat.le_refl _, h.proper, Nat.le_refl _⟩
  | child member _ ih =>
    obtain ⟨within, _, nested⟩ := h.child member
    have inner := ih nested
    exact ⟨Nat.le_trans within.start inner.start, inner.proper,
      Nat.le_trans inner.stop within.stop⟩

end SpanTree

end PulseSyntax
