import PulseSyntax.Proofs.Markup.Assemble
import PulseSyntax.Proofs.Outline.Bodies

namespace PulseSyntax

mutual

/-- The arrow functions in an expression: the span and the body of each. -/
def Expr.arrows : Expr → List (Span × ArrowBody)
  | .identifier .. | .literal .. | .template .. => []
  | .array elements _ => Expr.arrowsOfList elements
  | .object members _ => ObjectMember.arrowsOfList members
  | .spread e _ | .unary _ e _ | .update _ _ e _ => e.arrows
  | .binary _ left right _ => left.arrows ++ right.arrows
  | .assignment _ target value _ => target.arrows ++ value.arrows
  | .conditional test consequent alternate _ =>
    test.arrows ++ (consequent.arrows ++ alternate.arrows)
  | .arrow params body _ span => (span, body) :: (Expr.arrowsOfList params ++ body.arrows)
  | .member object property _ _ _ => object.arrows ++ property.arrows
  | .call callee arguments _ _ => callee.arrows ++ Expr.arrowsOfList arguments

def Expr.arrowsOfList : List Expr → List (Span × ArrowBody)
  | [] => []
  | e :: es => e.arrows ++ Expr.arrowsOfList es

def ObjectMember.arrows : ObjectMember → List (Span × ArrowBody)
  | .property key value _ _ => key.arrows ++ value.arrows
  | .spread e _ => e.arrows

def ObjectMember.arrowsOfList : List ObjectMember → List (Span × ArrowBody)
  | [] => []
  | m :: ms => m.arrows ++ ObjectMember.arrowsOfList ms

def PropertyKey.arrows : PropertyKey → List (Span × ArrowBody)
  | .computed key => key.arrows
  | .identifier _ | .string _ | .number _ => []

def ArrowBody.arrows : ArrowBody → List (Span × ArrowBody)
  | .expression body => body.arrows
  | .block _ | .inline _ => []

end

@[simp] theorem Expr.arrowsOfList_eq (es : List Expr) :
    Expr.arrowsOfList es = es.flatMap Expr.arrows := by
  induction es with
  | nil => rfl
  | cons e es ih => rw [arrowsOfList, ih, List.flatMap_cons]

@[simp] theorem ObjectMember.arrowsOfList_eq (ms : List ObjectMember) :
    ObjectMember.arrowsOfList ms = ms.flatMap ObjectMember.arrows := by
  induction ms with
  | nil => rfl
  | cons m ms ih => rw [arrowsOfList, ih, List.flatMap_cons]

/-- What a component holds besides names and spans. -/
inductive Fragment where
  /-- The body of a function, guard or getter, and the span of that. -/
  | body (owner : Span) (range : TokenRange)
  | expression (e : Expr)
  | text (t : TextNode)

def ElementProp.fragments (p : ElementProp) : List Fragment := [.expression p.expr]

@[simp] def EventHandler.fragments (h : EventHandler) : List Fragment := h.handler.toList.map .expression

def Directive.fragments : Directive → List Fragment
  | event h _ => h.fragments
  | model _ binding _ => [.expression binding]
  | a11y attributes _ => attributes.flatMap fun a => [.expression a.value]
  | focusTrap options _ => options.toList.map .expression
  | live .. | srOnly _ | boundary .. => []

@[simp] def LoopHead.fragments (h : LoopHead) : List Fragment :=
  .expression h.iterable :: h.key.toList.map .expression

mutual

def MarkupNode.fragments : MarkupNode → List Fragment
  | .element _ props directives texts children _ =>
    props.flatMap ElementProp.fragments ++ (directives.flatMap Directive.fragments ++
      (texts.map .text ++ MarkupNode.fragmentsOfList children))
  | .text t => [.text t]
  | .conditional condition consequent branches none _ =>
    .expression condition ::
      (MarkupNode.fragmentsOfList consequent ++ Branch.fragmentsOfList branches)
  | .conditional condition consequent branches (some alternate) _ =>
    .expression condition ::
      (MarkupNode.fragmentsOfList consequent ++ (Branch.fragmentsOfList branches ++
        MarkupNode.fragmentsOfList alternate))
  | .loop head body _ => head.fragments ++ MarkupNode.fragmentsOfList body
  | .event h children _ => h.fragments ++ MarkupNode.fragmentsOfList children
  | .boundary _ children _ | .slot _ children _ => MarkupNode.fragmentsOfList children
  | .link path options caption children _ =>
    .expression path :: (options.toList.map .expression ++ (caption.toList.map .text ++
      MarkupNode.fragmentsOfList children))
  | .outlet container _ => container.toList.map .expression
  | .navigate path options _ => .expression path :: options.toList.map .expression
  | .back _ | .forward _ => []

def MarkupNode.fragmentsOfList : List MarkupNode → List Fragment
  | [] => []
  | n :: ns => n.fragments ++ MarkupNode.fragmentsOfList ns

def Branch.fragments : Branch → List Fragment
  | .mk condition consequent _ => .expression condition :: MarkupNode.fragmentsOfList consequent

def Branch.fragmentsOfList : List Branch → List Fragment
  | [] => []
  | b :: bs => b.fragments ++ Branch.fragmentsOfList bs

end

@[simp] theorem MarkupNode.fragmentsOfList_eq (ns : List MarkupNode) :
    MarkupNode.fragmentsOfList ns = ns.flatMap MarkupNode.fragments := by
  induction ns with
  | nil => rfl
  | cons n ns ih => rw [fragmentsOfList, ih, List.flatMap_cons]

@[simp] theorem Branch.fragmentsOfList_eq (bs : List Branch) :
    Branch.fragmentsOfList bs = bs.flatMap Branch.fragments := by
  induction bs with
  | nil => rfl
  | cons b bs ih => rw [fragmentsOfList, ih, List.flatMap_cons]

def ViewBlock.fragments (b : ViewBlock) : List Fragment := b.children.flatMap MarkupNode.fragments

def Property.fragments (p : Property) : List Fragment := [.expression p.value]

def PropertyBlock.fragments (b : PropertyBlock) : List Fragment :=
  b.properties.flatMap Property.fragments

def Param.fragments (p : Param) : List Fragment := p.default.toList.map .expression

def Action.fragments (a : Action) : List Fragment :=
  .body a.span a.body :: a.params.flatMap Param.fragments

def ActionsBlock.fragments (b : ActionsBlock) : List Fragment :=
  b.functions.flatMap Action.fragments

def Route.fragments (r : Route) : List Fragment := [.expression r.handler]

def Guard.fragments (g : Guard) : List Fragment :=
  .body g.span g.body :: g.params.flatMap Param.fragments

def RouterBlock.fragments (b : RouterBlock) : List Fragment :=
  b.routes.flatMap Route.fragments ++ (b.beforeEach.toList.flatMap Guard.fragments ++
    b.afterEach.toList.flatMap Guard.fragments)

def Getter.fragments (g : Getter) : List Fragment := [.body g.span g.body]

def StoreBlock.fragments (b : StoreBlock) : List Fragment :=
  b.state.toList.flatMap PropertyBlock.fragments ++ (b.getters.flatMap Getter.fragments ++
    (b.actions.toList.flatMap ActionsBlock.fragments ++ b.plugins.toList.map .expression))

def Declarations.fragments (d : Declarations) : List Fragment :=
  d.props.toList.flatMap PropertyBlock.fragments ++
    (d.state.toList.flatMap PropertyBlock.fragments ++
      (d.view.toList.flatMap ViewBlock.fragments ++
        (d.actions.toList.flatMap ActionsBlock.fragments ++
          (d.router.toList.flatMap RouterBlock.fragments ++
            d.store.toList.flatMap StoreBlock.fragments))))

namespace Scope

/-- The body of an arrow function is parsed; or it is a block, which is kept as a range of the
    tokens of the file or as the text that those of an interpolation have there. -/
inductive KeepsArrow (scope : Scope) (span : Span) : ArrowBody → Prop
  | expression {e : Expr} : KeepsArrow scope span (.expression e)
  | block {r : TokenRange} (owns : scope.Owns span r) : KeepsArrow scope span (.block r)
  | inline {r : TokenRange} {q : Quotation} (quoted : scope.quotation = some q)
    (encloses : scope.Encloses span r) :
    KeepsArrow scope span (.inline (String.ofList (r.text q.text q.spans)))

def Keeps (scope : Scope) (arrows : List (Span × ArrowBody)) : Prop :=
  ∀ a ∈ arrows, scope.KeepsArrow a.1 a.2

/-- An interpolation of a text is one of the token that the text was read from, with that in its
    arrow functions which its own tokens have. -/
def KeepsText (scope : Scope) (t : TextNode) : Prop :=
  ∀ source e, .interpolation source e ∈ t.parts → ∃ i start hole,
    (scope.stream.get i).span = t.span ∧
    .hole start hole ∈ TextSegment.cut ((scope.stream.get i).kind == .template) 0 0
      (scope.stream.get i).text.toList ∧
    source = String.ofList (Text.trim hole) ∧
    (TextNode.holeScope scope.options (scope.stream.get i) start hole).Keeps e.arrows

def Captures (scope : Scope) (fragments : List Fragment) : Prop :=
  ∀ f ∈ fragments, match f with
    | .body owner r => scope.Owns owner r
    | .expression e => scope.Keeps e.arrows
    | .text t => scope.KeepsText t

/-- The expression is read from the tokens, somewhere among them. -/
def Reads (scope : Scope) (e : Expr) : Prop := ∃ s t, Expr.parser scope s = .ok e t

/-- An expression of a component is read; or one that is read is spread; or it is the `true` that
    an attribute stands for when its name stands alone. -/
inductive HasExpr (scope : Scope) : Expr → Prop
  | read {e : Expr} (h : scope.Reads e) : HasExpr scope e
  | spread {e : Expr} {span : Span} (h : scope.Reads e) : HasExpr scope (.spread e span)
  | flag {span : Span} : HasExpr scope (.literal (.bool true) "true" span)

theorem reads_of_readHole {options : Options} {t : Token} {start : Nat} {hole : List Char} {e : Expr}
    (h : TextNode.readHole options t start hole = .ok e) :
    (TextNode.holeScope options t start hole).Reads e :=
  let ⟨u, read, _⟩ := TextNode.readHole_eq_ok.mp h
  ⟨.initial, u, read⟩

/-- An interpolation of a text is one of the token that the text was read from, and is read from its
    own tokens. -/
def HasText (scope : Scope) (t : TextNode) : Prop :=
  ∀ source e, .interpolation source e ∈ t.parts → ∃ i start hole,
    (scope.stream.get i).span = t.span ∧
    .hole start hole ∈ TextSegment.cut ((scope.stream.get i).kind == .template) 0 0
      (scope.stream.get i).text.toList ∧
    source = String.ofList (Text.trim hole) ∧
    TextNode.readHole scope.options (scope.stream.get i) start hole = .ok e

/-- The fragments come from the tokens. -/
def Has (scope : Scope) (fragments : List Fragment) : Prop :=
  ∀ f ∈ fragments, match f with
    | .body owner r => scope.Owns owner r
    | .expression e => scope.HasExpr e
    | .text t => scope.HasText t

variable {scope : Scope} {α : Type}

section

variable {as bs : List (Span × ArrowBody)} {a : Span × ArrowBody} {xs : List α}
  {f : α → List (Span × ArrowBody)}

@[simp] theorem keeps_nil : scope.Keeps [] := fun _ member => nomatch member

@[simp] theorem keeps_cons :
    scope.Keeps (a :: as) ↔ scope.KeepsArrow a.1 a.2 ∧ scope.Keeps as := List.forall_mem_cons

@[simp] theorem keeps_append : scope.Keeps (as ++ bs) ↔ scope.Keeps as ∧ scope.Keeps bs :=
  List.forall_mem_append

@[simp] theorem keeps_flatMap : scope.Keeps (xs.flatMap f) ↔ ∀ x ∈ xs, scope.Keeps (f x) :=
  List.forall_mem_flatMap

end

section

variable {fs gs : List Fragment} {f : Fragment} {xs : List α} {owner : Span} {r : TokenRange}
  {e : Expr} {t : TextNode}

@[simp] theorem has_nil : scope.Has [] := fun _ member => nomatch member

@[simp] theorem has_body :
    scope.Has (.body owner r :: fs) ↔ scope.Owns owner r ∧ scope.Has fs :=
  List.forall_mem_cons

@[simp] theorem has_expression :
    scope.Has (.expression e :: fs) ↔ scope.HasExpr e ∧ scope.Has fs :=
  List.forall_mem_cons

@[simp] theorem has_text :
    scope.Has (.text t :: fs) ↔ scope.HasText t ∧ scope.Has fs :=
  List.forall_mem_cons

@[simp] theorem has_append :
    scope.Has (fs ++ gs) ↔ scope.Has fs ∧ scope.Has gs := List.forall_mem_append

@[simp] theorem has_flatMap {f : α → List Fragment} :
    scope.Has (xs.flatMap f) ↔ ∀ x ∈ xs, scope.Has (f x) := List.forall_mem_flatMap

@[simp] theorem has_map_expression {es : List Expr} :
    scope.Has (es.map .expression) ↔ ∀ e ∈ es, scope.HasExpr e := List.forall_mem_map

@[simp] theorem has_map_text {ts : List TextNode} :
    scope.Has (ts.map .text) ↔ ∀ t ∈ ts, scope.HasText t := List.forall_mem_map

end

end Scope

attribute [simp] Expr.arrows ObjectMember.arrows PropertyKey.arrows ArrowBody.arrows

end PulseSyntax
