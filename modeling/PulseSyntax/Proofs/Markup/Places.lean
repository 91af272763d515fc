import PulseSyntax.Proofs.Markup.Balance
import PulseSyntax.Proofs.Markup.TextSpans

namespace PulseSyntax

open PulseSyntax.Parser

/-- The tokens of a file: they do not overlap, and each text lies around its interpolations. -/
structure Scope.OfFile (scope : Scope) : Prop where
  ruled : scope.stream.Ruled false
  texts : ∀ {i node}, ((scope.stream.get i).kind = .string ∨ (scope.stream.get i).kind = .template) →
    TextNode.ofToken scope.options (scope.stream.get i) = .ok node →
    node.span = (scope.stream.get i).span ∧ node.spanTree.Nested false

theorem Scope.ofFile (source : String) (options : Options) :
    Scope.OfFile ⟨.ofList (tokenize source), options, none⟩ where
  ruled := TokenStream.ruled_tokenize source
  texts {i node} quoted read := by
    have member := TokenStream.get_mem (.ofList (tokenize source)) i
    rw [TokenStream.toList_ofList_tokenize] at member
    exact TextNode.nested_ofToken member quoted read

variable {scope : Scope} {s : ParserState} {expr : Parser Expr} {i : Nat} {span : Span}
  {trees : List SpanTree}

theorem TextNode.yields_parser_placed (file : scope.OfFile) {j : Nat}
    (quoted : (scope.stream.get j).kind = .string ∨ (scope.stream.get j).kind = .template) :
    Yields (parser (scope.stream.get j)) scope s fun node t =>
      t = s ∧ node.span = (scope.stream.get j).span ∧
        scope.stream.Placed false j (j + 1) [node.spanTree] := by
  simp only [parser, yields_bind, yields_scope]
  cases read : ofToken scope.options (scope.stream.get j) with
  | error e => exact fun _ _ failed => by cases failed
  | ok node =>
    obtain ⟨place, nested⟩ := file.texts quoted read
    refine yields_pure.mpr ⟨rfl, place, .single nested ?_⟩
    change scope.stream.Bounds j (j + 1) node.span
    rw [place]
    exact .token file.ruled j

theorem TextNode.placed_ofLiteral (ruled : scope.stream.Ruled false) (j : Nat) :
    scope.stream.Placed false j (j + 1) [(ofLiteral (scope.stream.get j)).spanTree] := by
  refine .single (.text (ruled.proper j) ?_ ?_) (.token ruled j) <;>
    simp [ofLiteral, TextPart.spanTrees]

structure MarkupInner.IsPlaced (scope : Scope) (inner : MarkupInner) : Prop where
  expr : Expr.IsPlaced scope false inner.expr
  node : Places scope false (fun n => [n.spanTree]) inner.node

namespace MarkupInner

variable {inner : MarkupInner}

theorem yields_children_placed (ruled : scope.stream.Ruled false) (h : inner.IsPlaced scope) :
    Yields inner.children scope s fun answer t => ∃ close, t.cursor = close + 1 ∧
      answer.2 = (scope.stream.get s.cursor).span.cover (scope.stream.get close).span ∧
      scope.stream.Placed false (s.cursor + 1) close (MarkupNode.spanTrees answer.1) := by
  simp only [MarkupNode.spanTrees_eq]
  exact yields_braced_placed ruled h.node

theorem yields_optionalChildren_grown (ruled : scope.stream.Ruled false) (h : inner.IsPlaced scope)
    (bounds : scope.stream.Bounds i s.cursor span) :
    Yields (inner.optionalChildren span) scope s fun answer t =>
      ∀ {trees}, scope.stream.Grown false i s.cursor span trees →
        scope.stream.Grown false i t.cursor answer.2 trees ∧
        scope.stream.Grown false i t.cursor answer.2 (trees ++ MarkupNode.spanTrees answer.1) := by
  simp [optionalChildren]
  refine ⟨fun _ => (yields_children_placed ruled h).mono ?_, fun _ => ?_⟩
  · rintro ⟨nodes, _⟩ t ⟨close, ht, rfl, placed⟩ trees grown
    have le := placed.le
    have some := bounds.some
    have first := TokenStream.Bounds.token ruled s.cursor
    have last := TokenStream.Bounds.token ruled close
    have braces := first.cover last ruled (by omega) (by omega)
    simp only [ht]
    refine ⟨grown.cover ruled braces (by omega) (by omega),
      grown.add ruled placed braces ?_ (Nat.le_succ _) (Nat.le_succ _) (by omega)⟩
    exact fun t member =>
      (placed.lies_between ruled first last (by omega) (by omega) t member).right _
  · intro trees grown
    simpa [MarkupNode.spanTrees] using grown

theorem yields_condition_placed (ruled : scope.stream.Ruled false) (h : inner.IsPlaced scope) :
    Yields inner.condition scope s fun e t => ∃ close, t.cursor = close + 1 ∧
      scope.stream.Placed false s.cursor close [e.spanTree] := by
  simp [condition]
  refine fun opening => h.expr.mono fun e t placed closing => ?_
  rw [ParserState.next_of_kind closing (by simp)]
  exact ⟨t.cursor, rfl, placed.widen ruled (ParserState.le_next _ _) (Nat.le_refl _)⟩

end MarkupInner

theorem yields_attributeName_bounds (ruled : scope.stream.Ruled false) :
    Yields attributeName scope s fun answer t => scope.stream.Bounds s.cursor t.cursor answer.2 := by
  simp [attributeName]
  intro name
  rw [ParserState.next_of_kind rfl (Course.isName_ne name)]
  refine yields_chain (I := fun (answer : String × Span) t =>
    scope.stream.Bounds s.cursor t.cursor answer.2) (fun answer t bounds => ?_) (.token ruled _)
  obtain ⟨word, span⟩ := answer
  simp
  refine ⟨fun minus _ _ word => ?_, fun _ => bounds⟩
  have second : (scope.stream.get (t.cursor + 1)).kind ≠ .endOfFile := by
    intro atEnd
    simp [atEnd, TokenKind.isKeyword] at word
  rw [ParserState.next_of_kind minus (by simp), ParserState.next_of_kind rfl second]
  have some := bounds.some
  exact bounds.cover (.token ruled (t.cursor + 1)) ruled (by omega) (by simp)

namespace ElementProp

theorem places_namedParser (ruled : scope.stream.Ruled false) (h : Expr.IsPlaced scope false expr) :
    Places scope false (fun p => [p.spanTree]) (namedParser expr) := by
  intro s
  simp [namedParser]
  refine (yields_attributeName_bounds ruled).mono ?_
  rintro ⟨name, span⟩ t bounds
  have valued {e : Expr} {u v : ParserState} (le : t.cursor ≤ u.cursor)
      (placed : scope.stream.Placed false u.cursor v.cursor [e.spanTree]) :
      scope.stream.Placed false s.cursor v.cursor
        [(named name e false (span.cover e.span)).spanTree] := by
    have some := bounds.some
    have some' := placed.bounds.some
    simp only [spanTree, ElementProp.span, ElementProp.expr]
    refine .node (bounds.cover (by simpa using placed.bounds) ruled (by omega) (by omega)) placed ?_
    simpa using (Span.LiesIn.refl (by simpa using placed.bounds.proper)).right span
  refine ⟨fun eq => ⟨fun opening => ?_, fun _ => ?_⟩, fun _ => ?_⟩
  · refine h.mono fun e u placed closing => ?_
    refine valued (u := t) (Nat.le_refl _) (placed.widen ruled ?_ (ParserState.le_next _ _))
    exact Nat.le_trans (ParserState.le_next _ _) (ParserState.le_next _ _)
  · exact h.mono fun e u placed => valued (ParserState.le_next _ _) placed
  · simp only [spanTree, ElementProp.span, ElementProp.expr, Expr.spanTree]
    refine .node bounds (.leaf bounds) ?_
    simpa [SpanTree.span] using Span.LiesIn.refl bounds.proper

theorem parser_places (ruled : scope.stream.Ruled false) (h : Expr.IsPlaced scope false expr) :
    Places scope false (fun p => [p.spanTree]) (parser expr) := by
  intro s
  simp [parser]
  refine ⟨fun spread => ?_, fun _ => @places_namedParser _ _ ruled h s⟩
  rw [ParserState.next_of_kind spread (by simp)]
  refine h.mono fun e t placed => ?_
  simpa [spanTree, ElementProp.span, ElementProp.expr] using
    placed.after_token ruled (Nat.lt_succ_self _)

theorem yields_listParser_placed (ruled : scope.stream.Ruled false)
    (h : Expr.IsPlaced scope false expr) :
    Yields (listParser expr) scope s fun props t => ∃ close, t.cursor = close + 1 ∧
      scope.stream.Placed false (s.cursor + 1) close (props.map spanTree) := by
  simp only [listParser, yields_bind, yields_expectSymbol, yields_pure]
  intro opening
  rw [ParserState.next_of_kind opening (by simp)]
  refine (Places.commaSeparatedAfter ruled _ fun _ => parser_places ruled h).mono
    fun props t placed closing => ?_
  rw [ParserState.next_of_kind closing (by simp)]
  exact ⟨t.cursor, rfl, placed⟩

end ElementProp

theorem yields_directiveHead_bounds (ruled : scope.stream.Ruled false)
    (name : (scope.stream.get (s.cursor + 1)).kind ≠ .endOfFile) (allowModifiers : Bool) :
    Yields (directiveHead allowModifiers) scope s fun answer t =>
      scope.stream.Bounds s.cursor t.cursor answer.2 := by
  simp [directiveHead]
  intro atSign
  rw [ParserState.next_of_kind atSign (by simp), ParserState.next_of_kind rfl name]
  have first := TokenStream.Bounds.token ruled s.cursor
  refine (yields_chain (I := fun (answer : Array Token × Span) t =>
    scope.stream.Bounds s.cursor t.cursor answer.2) (fun answer t bounds => ?_)
    (first.cover (.token ruled (s.cursor + 1)) ruled (Nat.le_succ _) (Nat.le_succ _))).mono
    fun answer t bounds => bounds
  obtain ⟨modifiers, span⟩ := answer
  simp
  refine ⟨fun modifier _ => ?_, fun _ => bounds⟩
  rw [ParserState.next_of_kind modifier (by simp)]
  have some := bounds.some
  exact bounds.cover (.token ruled t.cursor) ruled (by omega) (Nat.le_succ _)

theorem yields_plainHead_bounds (ruled : scope.stream.Ruled false)
    (name : (scope.stream.get (s.cursor + 1)).kind ≠ .endOfFile) :
    Yields plainHead scope s fun span t => scope.stream.Bounds s.cursor t.cursor span := by
  simp [plainHead]
  exact yields_directiveHead_bounds ruled name _

theorem Expr.yields_arguments_grown (ruled : scope.stream.Ruled false)
    (h : Expr.IsPlaced scope false expr) (bounds : scope.stream.Bounds i s.cursor span) :
    Yields (Expr.arguments expr) scope s fun answer t =>
      scope.stream.Grown false i t.cursor (span.cover answer.2) (Expr.spanTrees answer.1) := by
  refine (Expr.yields_arguments ruled h).mono ?_
  rintro ⟨items, _⟩ t ⟨close, ht, rfl, placed⟩
  have le := placed.le
  have some := bounds.some
  have last := TokenStream.Bounds.token ruled close
  rw [ht]
  refine (TokenStream.Grown.nil bounds).add ruled placed last ?_ (Nat.le_succ _) (Nat.le_succ _)
    (by omega)
  exact placed.lies_between ruled bounds last (by omega) (by omega)

theorem Expr.optionSpanTrees_head? {es : List Expr}
    (few : ∀ a b rest, es = a :: b :: rest → False) :
    Expr.optionSpanTrees es.head? = Expr.spanTrees es := by
  match es, few with
  | [], _ => simp [optionSpanTrees, spanTrees]
  | [e], _ => simp [optionSpanTrees, spanTrees]
  | a :: b :: rest, few => exact (few a b rest rfl).elim

theorem EventHandler.parser_grown (ruled : scope.stream.Ruled false)
    (h : Expr.IsPlaced scope false expr)
    (name : (scope.stream.get (s.cursor + 1)).kind ≠ .endOfFile) :
    Yields (parser expr) scope s fun answer t => scope.stream.Grown false s.cursor t.cursor answer.2
      (Expr.optionSpanTrees answer.1.handler) := by
  simp [parser]
  refine (yields_directiveHead_bounds ruled name _).mono fun head t bounds =>
    ⟨fun _ => .nil bounds, fun _ => ?_⟩
  refine (Expr.yields_arguments_grown ruled h bounds).mono fun args u grown => ?_
  split
  · simp
  · next few =>
    refine yields_pure.mpr ?_
    rwa [← Expr.optionSpanTrees_head? few] at grown

theorem BoundaryTarget.parser_bounds (ruled : scope.stream.Ruled false)
    (name : (scope.stream.get (s.cursor + 1)).kind ≠ .endOfFile) :
    Yields parser scope s fun answer t => scope.stream.Bounds s.cursor t.cursor answer.2 := by
  simp [parser]
  exact (yields_plainHead_bounds ruled name).mono fun _ t bounds _ => bounds

namespace Directive

variable {inner : MarkupInner}

theorem onward_modelModifiers (ts : List Token) :
    Yields (modelModifiers ts) scope s fun _ t => t = s := by
  induction ts with
  | nil => exact yields_pure.mpr rfl
  | cons t ts ih =>
    unfold modelModifiers
    split
    · exact yields_failAt.mpr trivial
    · exact yields_bind.mpr (ih.mono fun _ t same => yields_pure.mpr same)

theorem yields_modelParser_placed (ruled : scope.stream.Ruled false) (h : inner.IsPlaced scope)
    (name : (scope.stream.get (s.cursor + 1)).kind ≠ .endOfFile) :
    Yields (modelParser inner) scope s fun d t =>
      scope.stream.Placed false s.cursor t.cursor [d.spanTree] := by
  simp [modelParser]
  refine (yields_directiveHead_bounds ruled name _).mono fun head t bounds => ?_
  refine (onward_modelModifiers _).mono fun modifiers u same => ?_
  subst same
  refine (MarkupInner.yields_condition_placed ruled h).mono ?_
  rintro e v ⟨close, hv, placed⟩ -
  have le := placed.le
  have some := bounds.some
  have last := TokenStream.Bounds.token ruled close
  simp only [spanTree, hv, Nat.add_sub_cancel]
  refine TokenStream.Grown.node ((TokenStream.Grown.nil bounds).add ruled placed last ?_
    (Nat.le_refl _) (Nat.le_succ _) (by omega))
  exact placed.lies_between ruled bounds last (by omega) (by omega)

theorem places_attributeParser (ruled : scope.stream.Ruled false)
    (h : Expr.IsPlaced scope false expr) :
    Places scope false (fun a => [a.spanTree]) (attributeParser expr) := by
  intro s
  simp [attributeParser]
  refine (yields_attributeName_bounds ruled).mono fun name t bounds eq => ?_
  refine h.mono fun e u placed => ?_
  have onward := ParserState.le_next scope t
  have some := bounds.some
  have value : scope.stream.Bounds (t.next scope).cursor u.cursor e.span := by
    simpa using placed.bounds
  have some' := value.some
  refine .node (bounds.cover value ruled (by omega) (by omega)) placed ?_
  simpa using (Span.LiesIn.refl value.proper).right _

theorem yields_a11yParser_placed (ruled : scope.stream.Ruled false)
    (h : Expr.IsPlaced scope false expr)
    (name : (scope.stream.get (s.cursor + 1)).kind ≠ .endOfFile) :
    Yields (a11yParser expr) scope s fun d t =>
      scope.stream.Placed false s.cursor t.cursor [d.spanTree] := by
  simp [a11yParser]
  refine (yields_plainHead_bounds ruled name).mono fun head t bounds opening => ?_
  refine (Places.commaSeparatedAfter ruled _ fun _ => places_attributeParser ruled h).mono
    fun attributes u placed closing => ?_
  rw [ParserState.next_of_kind closing (by simp)]
  have onward := ParserState.le_next scope t
  have le := placed.le
  have some := bounds.some
  have last := TokenStream.Bounds.token ruled u.cursor
  simp only [spanTree]
  refine TokenStream.Grown.node ((TokenStream.Grown.nil bounds).add ruled placed last ?_
    onward (Nat.le_succ _) (by omega))
  exact placed.lies_between ruled bounds last (by omega) (by omega)

theorem yields_optionalArgument_grown {α : Type} {tree : α → List SpanTree} {item : Parser α}
    (ruled : scope.stream.Ruled false) (h : Places scope false tree item)
    (bounds : scope.stream.Bounds i s.cursor span) :
    Yields (optionalArgument item span) scope s fun answer t =>
      scope.stream.Grown false i t.cursor answer.2 (answer.1.toList.flatMap tree) := by
  have some := bounds.some
  simp [optionalArgument]
  refine ⟨fun opening => ⟨fun closing => ?_, fun _ => ?_⟩, fun _ => .nil bounds⟩
  · rw [ParserState.next_of_kind closing (by simp), ParserState.next_of_kind opening (by simp)]
    exact .nil (bounds.cover (.token ruled (s.cursor + 1)) ruled (by omega) (by simp))
  · refine h.mono fun a t placed closing => ?_
    rw [ParserState.next_of_kind closing (by simp)]
    have onward := ParserState.le_next scope s
    have le := placed.le
    have last := TokenStream.Bounds.token ruled t.cursor
    simpa using (TokenStream.Grown.nil bounds).add ruled placed last
      (placed.lies_between ruled bounds last (by omega) (by omega)) onward (Nat.le_succ _) (by omega)

theorem yields_liveParser_placed (ruled : scope.stream.Ruled false)
    (name : (scope.stream.get (s.cursor + 1)).kind ≠ .endOfFile) :
    Yields liveParser scope s fun d t =>
      scope.stream.Placed false s.cursor t.cursor [d.spanTree] := by
  have priority : Places scope false (fun _ => []) (expectStringOr .identifier) := by
    intro s
    simp
    exact fun _ => .nil (ParserState.le_next _ _)
  simp [liveParser]
  refine (yields_plainHead_bounds ruled name).mono fun head t bounds => ?_
  refine (yields_optionalArgument_grown ruled priority bounds).mono fun answer u grown => ?_
  exact .leaf grown.bounds

theorem yields_focusTrapParser_placed (ruled : scope.stream.Ruled false)
    (h : Expr.IsPlaced scope false expr)
    (name : (scope.stream.get (s.cursor + 1)).kind ≠ .endOfFile) :
    Yields (focusTrapParser expr) scope s fun d t =>
      scope.stream.Placed false s.cursor t.cursor [d.spanTree] := by
  simp [focusTrapParser]
  refine (yields_plainHead_bounds ruled name).mono fun head t bounds => ?_
  refine (yields_optionalArgument_grown ruled h bounds).mono fun answer u grown => ?_
  have node := grown.node
  simp only [spanTree, Expr.optionSpanTrees]
  cases answer with
  | mk options span => cases options <;> simpa using node

theorem yields_parser_placed (ruled : scope.stream.Ruled false) (h : inner.IsPlaced scope)
    (name : (scope.stream.get (s.cursor + 1)).kind ≠ .endOfFile) :
    Yields (parser inner) scope s fun d t =>
      scope.stream.Placed false s.cursor t.cursor [d.spanTree] := by
  simp [parser]
  refine ⟨fun _ => yields_modelParser_placed ruled h name, fun _ => ⟨fun _ =>
    yields_a11yParser_placed ruled h.expr name, fun _ => ⟨fun _ =>
    yields_liveParser_placed ruled name, fun _ => ⟨fun _ =>
    yields_focusTrapParser_placed ruled h.expr name, fun _ => ⟨fun _ => ?_, fun _ =>
    ⟨fun _ => ?_, fun _ _ => ?_⟩⟩⟩⟩⟩⟩
  · exact (yields_plainHead_bounds ruled name).mono fun _ t bounds => .leaf bounds
  · exact (BoundaryTarget.parser_bounds ruled name).mono fun _ t bounds => .leaf bounds
  · exact (EventHandler.parser_grown ruled h.expr name).mono fun _ t grown => grown.node

end Directive

@[simp] theorem TextNode.span_spanTree (t : TextNode) : t.spanTree.span = t.span := rfl

@[simp] theorem Directive.span_spanTree (d : Directive) : d.spanTree.span = d.span := by
  cases d <;> rfl

namespace MarkupNode

variable {inner : MarkupInner}

/-- The head of an element, from index `i` on, with its properties and the rest of what has been
    read of it. -/
structure ElementTail.IsPlaced (scope : Scope) (i : Nat) (props : List SpanTree) (tail : ElementTail)
    (t : ParserState) : Prop where
  props : scope.stream.Grown false i t.cursor tail.span props
  directives : scope.stream.Grown false i t.cursor tail.span
    (tail.directives.toList.map Directive.spanTree)
  texts : scope.stream.Grown false i t.cursor tail.span (tail.texts.toList.map TextNode.spanTree)

theorem yields_elementPart_placed (file : scope.OfFile) (h : inner.IsPlaced scope)
    {props : List SpanTree} {tail : ElementTail} (ht : tail.IsPlaced scope i props s) :
    Yields (elementPart inner tail) scope s fun next t =>
      ElementTail.IsPlaced scope i props (next.getD tail) t := by
  have ruled := file.ruled
  have text (quoted : (scope.stream.get s.cursor).kind = .string ∨
      (scope.stream.get s.cursor).kind = .template) :
      Yields (TextNode.parser (scope.stream.get s.cursor)) scope (s.next scope) fun node u =>
        ElementTail.IsPlaced scope i props
          { tail with texts := tail.texts.push node, span := tail.span.cover node.span } u := by
    refine (TextNode.yields_parser_placed file quoted).mono fun node u ⟨same, _, placed⟩ => ?_
    have cursor : u.cursor = s.cursor + 1 := by
      rw [same]
      rcases quoted with kind | kind <;> rw [ParserState.next_of_kind kind (by simp)] <;> rfl
    constructor <;> rw [cursor]
    · exact ht.props.cover_node ruled placed (Nat.le_refl _)
    · exact ht.directives.cover_node ruled placed (Nat.le_refl _)
    · simpa using ht.texts.add_node ruled placed (Nat.le_refl _)
  refine yields_bind.mpr (yields_current.mpr ?_)
  split
  · simp
    refine Directive.yields_attaches fun attaches name => ⟨fun _ => ht, fun yes => ?_⟩
    refine (Directive.yields_parser_placed ruled h (by rw [name yes]; nofun)).mono
      fun d t placed => ?_
    rw [← Directive.span_spanTree]
    constructor
    · exact ht.props.cover_node ruled placed (Nat.le_refl _)
    · simpa using ht.directives.add_node ruled placed (Nat.le_refl _)
    · exact ht.texts.cover_node ruled placed (Nat.le_refl _)
  · next kind =>
    simp only [yields_bind, yields_advance, yields_pure]
    exact text (.inl kind)
  · next kind =>
    simp only [yields_bind, yields_advance, yields_pure]
    exact text (.inr kind)
  · exact yields_pure.mpr ht

theorem yields_elementParser_placed (file : scope.OfFile) (h : inner.IsPlaced scope)
    (head : (scope.stream.get s.cursor).kind ≠ .endOfFile) :
    Yields (elementParser inner) scope s fun n t =>
      scope.stream.Placed false s.cursor t.cursor [n.spanTree] := by
  have ruled := file.ruled
  have first := TokenStream.Bounds.token ruled s.cursor
  unfold elementParser
  refine yields_bind.mpr (yields_advance.mpr ?_)
  refine yields_bind.mpr (yields_isSymbol.mpr ?_)
  extract_lets rest
  have tail {start : List ElementProp × Span} {t : ParserState}
      (grown : scope.stream.Grown false s.cursor t.cursor start.2
        (start.1.map ElementProp.spanTree)) :
      Yields (rest start) scope t fun n u =>
        scope.stream.Placed false s.cursor u.cursor [n.spanTree] := by
    have none : scope.stream.Grown false s.cursor t.cursor start.2 [] := .nil grown.bounds
    simp [rest]
    refine (yields_chain (fun tail t ht => yields_elementPart_placed file h ht)
      (⟨grown, none, none⟩ : ElementTail.IsPlaced scope s.cursor _ ⟨#[], #[], start.2⟩ t)).mono
      fun tail u parts => ?_
    refine (MarkupInner.yields_optionalChildren_grown ruled h parts.props.bounds).mono
      fun answer v more => ?_
    simp only [spanTree]
    have children := (more (.nil parts.props.bounds)).2
    refine TokenStream.Grown.nodes children.bounds ?_
    simp only [List.forall_mem_cons, List.not_mem_nil, false_implies, implies_true, and_true]
    exact ⟨(more parts.props).1, (more parts.directives).1, (more parts.texts).1, children⟩
  clear_value rest
  simp
  rw [ParserState.next_of_kind rfl head]
  refine ⟨fun _ => (ElementProp.yields_listParser_placed ruled h.expr).mono ?_, fun _ => tail ?_⟩
  · rintro props t ⟨close, ht, placed⟩
    have le := placed.le
    have last := TokenStream.Bounds.token ruled close
    refine tail ?_
    simp only [ParserState.ahead_cursor] at le placed
    simp only [ht, Nat.add_sub_cancel]
    exact (TokenStream.Grown.nil first).add ruled placed last
      (placed.lies_between ruled first last (by omega) (by omega)) (by omega) (by omega) (by omega)
  · exact .nil first

theorem onward_branchHead : Yields branchHead scope s fun head t =>
    s.cursor ≤ t.cursor ∧ (head = none → t = s) := by
  have step (u : ParserState) : u.cursor ≤ (u.next scope).cursor := ParserState.le_next scope u
  simp [branchHead]
  refine fun _ => ⟨fun _ _ => ?_, fun _ _ => ⟨fun _ _ => ?_, fun _ => ⟨fun _ => ?_, fun _ => ?_⟩⟩⟩
  · exact Nat.le_trans (step s) (step _)
  · exact Nat.le_trans (Nat.le_trans (step s) (step _)) (Nat.le_trans (step _) (step _))
  · exact Nat.le_trans (Nat.le_trans (step s) (step _)) (step _)
  · exact Nat.le_trans (step s) (step _)

/-- The branches of a conditional that starts at index `i`, with its condition and what it shows
    first. The span goes from the first branch on. -/
structure Branches.IsPlaced (scope : Scope) (i : Nat) (first : List SpanTree) (branches : Branches)
    (t : ParserState) : Prop where
  grown : scope.stream.Grown false i t.cursor ((scope.stream.get i).span.cover branches.span)
    (first ++ Branch.spanTrees branches.more.toList ++
      (branches.alternate.elim [] MarkupNode.spanTrees))

theorem yields_branch_placed (ruled : scope.stream.Ruled false) (h : inner.IsPlaced scope)
    {first : Nat} (before : first ≤ s.cursor) {Q : Expr → List MarkupNode × Span → ParserState → Prop}
    (goOn : ∀ condition nodes t, scope.stream.Bounds s.cursor t.cursor nodes.2 →
      scope.stream.Grown false first t.cursor ((scope.stream.get first).span.cover nodes.2)
        (condition.spanTree :: MarkupNode.spanTrees nodes.1) → Q condition nodes t) :
    Yields inner.condition scope s fun condition t =>
      Yields inner.children scope t fun nodes u => Q condition nodes u := by
  refine (MarkupInner.yields_condition_placed ruled h).mono ?_
  rintro condition t ⟨close, ht, placed⟩
  refine (MarkupInner.yields_children_placed ruled h).mono ?_
  rintro ⟨nodes, _⟩ u ⟨last, hu, rfl, inside⟩
  have le := placed.le
  have le' := inside.le
  have start := TokenStream.Bounds.token ruled first
  have opening := TokenStream.Bounds.token ruled t.cursor
  have closing := TokenStream.Bounds.token ruled last
  have braces := opening.cover closing ruled (by omega) (by omega)
  refine goOn _ _ _ (hu ▸ braces.widen ruled (by omega) (Nat.le_refl _)) ⟨?_, ?_, ?_⟩
  · exact hu ▸ start.cover braces ruled (by omega) (by omega)
  · exact (placed.append inside ruled (by omega)).widen ruled before (by omega)
  · refine List.forall_mem_cons.mpr ⟨?_, fun n member => ?_⟩
    · exact placed.bounds.lies_between ruled start braces (by omega) (by omega)
    · exact ((inside.holds n member).lies_between ruled opening closing (by omega)
        (by omega)).right _

theorem yields_branchParser_placed (ruled : scope.stream.Ruled false) (h : inner.IsPlaced scope)
    {first : List SpanTree} {branches : Branches} (none : branches.alternate = none)
    (hb : branches.IsPlaced scope i first s) :
    Yields (branchParser inner branches) scope s (Keeps
      (fun b t => b.alternate = Option.none ∧ Branches.IsPlaced scope i first b t)
      (Branches.IsPlaced scope i first)) := by
  have some := hb.grown.bounds.some
  refine yields_bind.mpr (yields_current.mpr (yields_bind.mpr ?_))
  refine onward_branchHead.mono fun head t ⟨onward, same⟩ => ?_
  split
  · rw [same rfl]
    exact yields_pure.mpr hb
  · simp
    refine yields_branch_placed ruled h onward fun condition nodes u own grown => ?_
    have node : scope.stream.Placed false s.cursor u.cursor [(Branch.mk condition nodes.1
        ((scope.stream.get s.cursor).span.cover nodes.2)).spanTree] := grown.node
    have some' := own.some
    refine ⟨none, ⟨?_⟩⟩
    rw [← Span.cover_assoc]
    have stop : ((scope.stream.get s.cursor).span.cover nodes.2).stop ≤ nodes.2.stop :=
      Nat.max_le.mpr ⟨Nat.le_trans (ruled.stops onward) own.le_stop, Nat.le_refl _⟩
    have more := hb.grown.add ruled node own (by
      simpa [Branch.spanTree, SpanTree.span] using
        node.bounds.lies_after ruled hb.grown.bounds (Nat.le_succ _) stop)
      (Nat.le_refl _) (Nat.le_refl _) (by omega)
    simpa [none, Branch.spanTrees_eq] using more
  · simp
    refine (MarkupInner.yields_children_placed ruled h).mono ?_
    rintro ⟨nodes, _⟩ u ⟨close, hu, rfl, placed⟩
    have le := placed.le
    have opening := TokenStream.Bounds.token ruled t.cursor
    have closing := TokenStream.Bounds.token ruled close
    have braces := opening.cover closing ruled (by omega) (by omega)
    refine ⟨?_⟩
    rw [← Span.cover_assoc]
    have more := hb.grown.add ruled placed braces (fun n member =>
      ((placed.holds n member).lies_between ruled opening closing (by omega) (by omega)).right _)
      (by omega) (Nat.le_succ _) (by omega)
    simpa [none, hu] using more

theorem places_conditionalParser (ruled : scope.stream.Ruled false) (h : inner.IsPlaced scope) :
    Places scope false (fun n => [n.spanTree]) (conditionalParser inner) := by
  intro s
  simp [conditionalParser]
  intro atSign word
  have onward : s.cursor ≤ ((s.next scope).next scope).cursor :=
    Nat.le_trans (ParserState.le_next _ _) (ParserState.le_next _ _)
  refine yields_branch_placed ruled h onward fun condition nodes t own grown => ?_
  refine (yields_loop_last (I := fun branches t => branches.alternate = none ∧
      Branches.IsPlaced scope s.cursor (condition.spanTree :: spanTrees nodes.1) branches t)
    (fun _ _ inv => inv.2) (fun _ _ inv => yields_branchParser_placed ruled h inv.1 inv.2)
    ⟨rfl, ⟨by simpa [Branch.spanTrees] using grown⟩⟩).mono fun branches u all => ?_
  have node := all.grown.node
  cases alternate : branches.alternate with
  | none => simpa [spanTree, alternate] using node
  | some nodes => simpa [spanTree, alternate] using node

theorem onward_iterationKind : Yields iterationKind scope s fun _ t => s.cursor ≤ t.cursor := by
  simp [iterationKind]
  split
  · simpa using ParserState.le_next _ _
  · simpa using fun _ => ParserState.le_next _ _

theorem places_loopHead (ruled : scope.stream.Ruled false) (h : inner.IsPlaced scope)
    (keyword : LoopKeyword) :
    Places scope false (fun head => head.iterable.spanTree :: Expr.optionSpanTrees head.key)
      (loopHead inner keyword) := by
  intro s
  refine yields_bind.mpr (yields_expectSymbol.mpr fun opening => ?_)
  refine yields_bind.mpr (yields_expect.mpr fun item => ?_)
  refine yields_bind.mpr ?_
  extract_lets rest
  have tail {index : Option String} {t : ParserState} (onward : s.cursor ≤ t.cursor) :
      Yields (rest index) scope t fun head u => scope.stream.Placed false s.cursor u.cursor
        (head.iterable.spanTree :: Expr.optionSpanTrees head.key) := by
    simp [rest, keyFollows]
    refine onward_iterationKind.mono fun kind u further => ?_
    refine h.expr.mono fun iterable v placed closing => ?_
    have last := ParserState.le_next scope v
    refine ⟨fun word _ _ => ?_, fun _ => ?_⟩
    · refine (MarkupInner.yields_condition_placed ruled h).mono ?_
      rintro key w ⟨close, hw, inside⟩
      have more := ParserState.le_next scope (v.next scope)
      refine (placed.append inside ruled (by omega)).widen ruled (by omega) (by omega)
    · exact placed.widen ruled (by omega) last
  clear_value rest
  have onward : s.cursor ≤ ((s.next scope).next scope).cursor :=
    Nat.le_trans (ParserState.le_next _ _) (ParserState.le_next _ _)
  simp
  refine ⟨fun comma index => tail (Nat.le_trans onward ?_), fun _ => tail onward⟩
  exact Nat.le_trans (ParserState.le_next _ _) (ParserState.le_next _ _)

theorem yields_loopParser_placed (ruled : scope.stream.Ruled false) (h : inner.IsPlaced scope) :
    Yields (loopParser inner) scope s fun n t =>
      scope.stream.Placed false s.cursor t.cursor [n.spanTree] := by
  simp [loopParser]
  intro atSign
  have onward : s.cursor ≤ ((s.next scope).next scope).cursor :=
    Nat.le_trans (ParserState.le_next _ _) (ParserState.le_next _ _)
  refine (places_loopHead ruled h _).mono fun head t placed => ?_
  refine (MarkupInner.yields_children_placed ruled h).mono ?_
  rintro ⟨nodes, _⟩ u ⟨last, hu, rfl, inside⟩
  have le := placed.le
  have le' := inside.le
  have start := TokenStream.Bounds.token ruled s.cursor
  have opening := TokenStream.Bounds.token ruled t.cursor
  have closing := TokenStream.Bounds.token ruled last
  have braces := opening.cover closing ruled (by omega) (by omega)
  simp only [spanTree, hu]
  refine .node (start.cover braces ruled (by omega) (by omega)) (placed.append inside ruled (by omega))
    (List.forall_mem_append.mpr ⟨?_, fun n member => ?_⟩)
  · exact placed.lies_between ruled start braces (by omega) (by omega)
  · exact ((inside.holds n member).lies_between ruled opening closing (by omega) (by omega)).right _

theorem places_slotParser (ruled : scope.stream.Ruled false) (h : inner.IsPlaced scope) :
    Places scope false (fun n => [n.spanTree]) (slotParser inner) := by
  intro s
  have word := TokenStream.Bounds.token ruled s.cursor
  have fallback {t : ParserState} {span : Span} (bounds : scope.stream.Bounds s.cursor t.cursor span)
      (name : Option String) :
      Yields (inner.optionalChildren span) scope t fun nodes u =>
        scope.stream.Placed false s.cursor u.cursor [(slot name nodes.1 nodes.2).spanTree] := by
    refine (MarkupInner.yields_optionalChildren_grown ruled h bounds).mono fun nodes u more => ?_
    simpa [spanTree] using (more (.nil bounds)).2.node
  simp [slotParser]
  intro slot
  rw [ParserState.next_of_kind slot (by simp)]
  refine ⟨fun name => ?_, fun _ => fallback word _⟩
  rw [ParserState.next_of_kind name (by simp)]
  exact fallback (word.cover (.token ruled _) ruled (Nat.le_succ _) (Nat.le_succ _)) _

theorem yields_pathArguments_grown (ruled : scope.stream.Ruled false) (h : inner.IsPlaced scope)
    (bounds : scope.stream.Bounds i s.cursor span) (name : String) :
    Yields (pathArguments inner name) scope s fun answer t =>
      scope.stream.Grown false i t.cursor (span.cover answer.2.2)
        (answer.1.spanTree :: Expr.optionSpanTrees answer.2.1) := by
  simp [pathArguments]
  refine (Expr.yields_arguments_grown ruled h.expr bounds).mono fun args t grown => ?_
  split
  · next path same =>
    refine yields_pure.mpr ?_
    simpa [same, Expr.spanTrees, Expr.optionSpanTrees] using grown
  · next path options same =>
    refine yields_pure.mpr ?_
    simpa [same, Expr.spanTrees, Expr.optionSpanTrees] using grown
  · simp

theorem yields_linkParser_placed (file : scope.OfFile) (h : inner.IsPlaced scope)
    (name : (scope.stream.get (s.cursor + 1)).kind ≠ .endOfFile) :
    Yields (linkParser inner) scope s fun n t =>
      scope.stream.Placed false s.cursor t.cursor [n.spanTree] := by
  have ruled := file.ruled
  refine yields_bind.mpr ((yields_plainHead_bounds ruled name).mono fun head t bounds => ?_)
  refine yields_bind.mpr ((yields_pathArguments_grown ruled h bounds _).mono ?_)
  rintro ⟨path, options, close⟩ u grown
  refine yields_bind.mpr (yields_current.mpr ?_)
  extract_lets span rest
  have tail {caption : Option TextNode × Span} {v : ParserState}
      (grown : scope.stream.Grown false s.cursor v.cursor caption.2
        (path.spanTree :: Expr.optionSpanTrees options ++
          (caption.1.map TextNode.spanTree).toList)) :
      Yields (rest caption) scope v fun n w =>
        scope.stream.Placed false s.cursor w.cursor [n.spanTree] := by
    simp [rest]
    refine (MarkupInner.yields_optionalChildren_grown ruled h grown.bounds).mono
      fun nodes w more => ?_
    simpa [spanTree] using (more grown).2.node
  clear_value rest
  simp
  refine ⟨fun quoted => ?_, fun _ _ => tail (by simpa using grown)⟩
  refine (TextNode.yields_parser_placed file quoted).mono ?_
  rintro node v ⟨rfl, place, placed⟩
  have cursor : (u.next scope).cursor = u.cursor + 1 := by
    rcases quoted with kind | kind <;> rw [ParserState.next_of_kind kind (by simp)] <;> rfl
  refine tail ?_
  rw [cursor, ← place]
  simpa using grown.add_node ruled placed (Nat.le_refl _)

theorem yields_outletParser_placed (ruled : scope.stream.Ruled false) (h : inner.IsPlaced scope)
    (name : (scope.stream.get (s.cursor + 1)).kind ≠ .endOfFile) :
    Yields (outletParser inner) scope s fun n t =>
      scope.stream.Placed false s.cursor t.cursor [n.spanTree] := by
  simp [outletParser]
  refine (yields_plainHead_bounds ruled name).mono fun head t bounds => ⟨fun _ => ?_, fun _ => ?_⟩
  · simpa [spanTree, Expr.optionSpanTrees] using (TokenStream.Grown.nil bounds).node
  · refine (Expr.yields_arguments_grown ruled h.expr bounds).mono fun args u grown => ?_
    split
    · simp
    · next few =>
      refine yields_pure.mpr ?_
      simpa [spanTree, Expr.optionSpanTrees_head? few] using grown.node

theorem yields_navigateParser_placed (ruled : scope.stream.Ruled false) (h : inner.IsPlaced scope)
    (name : (scope.stream.get (s.cursor + 1)).kind ≠ .endOfFile) :
    Yields (navigateParser inner) scope s fun n t =>
      scope.stream.Placed false s.cursor t.cursor [n.spanTree] := by
  simp [navigateParser]
  refine (yields_plainHead_bounds ruled name).mono fun head t bounds => ?_
  refine (yields_pathArguments_grown ruled h bounds _).mono fun answer u grown => ?_
  simpa [spanTree] using grown.node

theorem yields_emptyArguments_bounds (ruled : scope.stream.Ruled false)
    (name : (scope.stream.get (s.cursor + 1)).kind ≠ .endOfFile) :
    Yields emptyArguments scope s fun span t => scope.stream.Bounds s.cursor t.cursor span := by
  simp [emptyArguments]
  refine (yields_plainHead_bounds ruled name).mono fun head t bounds =>
    ⟨fun opening closing => ?_, fun _ => bounds⟩
  rw [ParserState.next_of_kind closing (by simp), ParserState.next_of_kind opening (by simp)]
  have some := bounds.some
  exact bounds.cover (.token ruled (t.cursor + 1)) ruled (by omega) (by simp)

theorem yields_namedDirective_placed (ruled : scope.stream.Ruled false) (h : inner.IsPlaced scope)
    (name : (scope.stream.get (s.cursor + 1)).kind ≠ .endOfFile) (text : String) :
    Yields (namedDirective inner text) scope s fun n t =>
      scope.stream.Placed false s.cursor t.cursor [n.spanTree] := by
  simp [namedDirective]
  refine fun _ => ⟨fun _ => ?_, fun _ _ _ _ _ _ _ => ?_⟩
  · refine (BoundaryTarget.parser_bounds ruled name).mono fun head t bounds => ?_
    refine (MarkupInner.yields_optionalChildren_grown ruled h bounds).mono fun nodes u more => ?_
    simpa [spanTree] using (more (.nil bounds)).2.node
  · refine (EventHandler.parser_grown ruled h.expr name).mono fun handler t grown => ?_
    refine (MarkupInner.yields_optionalChildren_grown ruled h grown.bounds).mono
      fun nodes u more => ?_
    simpa [spanTree] using (more grown).2.node

theorem places_directiveParser (file : scope.OfFile) (h : inner.IsPlaced scope) :
    Places scope false (fun n => [n.spanTree]) (directiveParser inner) := by
  have ruled := file.ruled
  intro s
  refine yields_bind.mpr (yields_peek.mpr ?_)
  split
  · exact @places_conditionalParser _ _ ruled h s
  · exact yields_loopParser_placed ruled h
  · exact yields_loopParser_placed ruled h
  · next name => exact yields_linkParser_placed file h (by rw [name]; nofun)
  · next name => exact yields_outletParser_placed ruled h (by rw [name]; nofun)
  · next name => exact yields_navigateParser_placed ruled h (by rw [name]; nofun)
  · next name =>
    simp
    exact (yields_emptyArguments_bounds ruled (by rw [name]; nofun)).mono fun _ t bounds => by
      simpa [spanTree] using TokenStream.Placed.leaf bounds
  · next name =>
    simp
    exact (yields_emptyArguments_bounds ruled (by rw [name]; nofun)).mono fun _ t bounds => by
      simpa [spanTree] using TokenStream.Placed.leaf bounds
  · exact yields_fail.mpr trivial
  · next name => exact yields_namedDirective_placed ruled h (by rw [name]; nofun) _
  · simp

theorem places_parserAt (file : scope.OfFile) (h : inner.IsPlaced scope) :
    Places scope false (fun n => [n.spanTree]) (parserAt inner) := by
  have textNode {s : ParserState} (quoted : (scope.stream.get s.cursor).kind = .string ∨
      (scope.stream.get s.cursor).kind = .template) :
      Yields (return text (← TextNode.parser (← advance))) scope s fun n t =>
        scope.stream.Placed false s.cursor t.cursor [n.spanTree] := by
    simp
    refine (TextNode.yields_parser_placed file quoted).mono ?_
    rintro node t ⟨rfl, -, placed⟩
    refine (show (text node).spanTree = node.spanTree by simp [spanTree]) ▸ ?_
    rcases quoted with kind | kind <;>
      simpa [ParserState.next_of_kind kind (by simp)] using placed
  have literal {s : ParserState} (inside : (scope.stream.get s.cursor).kind ≠ .endOfFile) :
      Yields (return text (.ofLiteral (← advance))) scope s fun n t =>
        scope.stream.Placed false s.cursor t.cursor [n.spanTree] := by
    simp
    rw [ParserState.next_of_kind rfl inside]
    simpa [spanTree] using TextNode.placed_ofLiteral file.ruled s.cursor
  intro s
  refine yields_bind.mpr (yields_current.mpr ?_)
  split
  · next kind => exact yields_elementParser_placed file h (by rw [kind]; nofun)
  · next kind => exact yields_elementParser_placed file h (by rw [kind]; nofun)
  · next kind => exact textNode (.inl kind)
  · next kind => exact textNode (.inr kind)
  · next kind => exact literal (by rw [kind]; nofun)
  · next kind => exact literal (by rw [kind]; nofun)
  · next kind => exact literal (by rw [kind]; nofun)
  · next kind => exact literal (by rw [kind]; nofun)
  · next kind => exact literal (by rw [kind]; nofun)
  · exact @places_slotParser _ _ file.ruled h s
  · exact @places_directiveParser _ _ file h s
  · exact yields_failWanted.mpr trivial

theorem parser_places (file : scope.OfFile) :
    Places scope false (fun n => [n.spanTree]) parser := by
  refine .withLevels fun levels => ?_
  induction levels with
  | zero => exact fun _ => yields_failTooDeep.mpr trivial
  | succ levels ih => exact (places_parserAt file ⟨Expr.parser_places file.ruled, ih⟩).deeper

end MarkupNode

theorem ViewBlock.parser_places (file : scope.OfFile) :
    Places scope false (fun b => [b.spanTree]) parser := by
  have ruled := file.ruled
  intro s
  simp [parser]
  intro word
  rw [ParserState.next_of_kind word (by simp)]
  refine (yields_braced_placed ruled (MarkupNode.parser_places file)).mono ?_
  rintro ⟨nodes, _⟩ t ⟨close, ht, rfl, placed⟩
  rw [ht]
  exact placed.in_braces ruled (Nat.le_succ _) (Nat.lt_succ_self _) (Nat.le_refl _)

end PulseSyntax
