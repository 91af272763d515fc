import PulseSyntax.Markup.Parser
import PulseSyntax.Proofs.Expr.Agree

namespace PulseSyntax

open PulseSyntax.Parser PulseSyntax.Comparison

variable {c : Comparison}

namespace TextNode

def Results (c : Comparison) {α : Type} (first second : Except ParseError α) : Prop :=
  (∃ e, first = .error e ∧ c.stops e) ∨ first = second

theorem Results.bind {α β : Type} {first second : Except ParseError α}
    {f g : α → Except ParseError β} (h : Results c first second)
    (hf : ∀ a, Results c (f a) (g a)) : Results c (first >>= f) (second >>= g) := by
  rcases h with ⟨e, rfl, stops⟩ | rfl
  · exact .inl ⟨e, rfl, stops⟩
  · cases first with
    | error e => exact .inr rfl
    | ok a => exact hf a

theorem agree_holeParser (source : List Char) :
    c.Agree (holeParser source) (holeParser source) :=
  Expr.parser_agrees.bind fun _ => agree_current.bind fun _ => .ite (agree_pure _) (agree_fail _)

theorem readHole_results {a b : Options} (related : c.options a b) (t : Token) (start : Nat)
    (source : List Char) : Results c (readHole a t start source) (readHole b t start source) := by
  unfold readHole Parser.run
  rcases agree_holeParser source related (.ofList (holeTokens t start source))
    (some ⟨source, (Lexer.tokens source).map (·.span)⟩) .initial with ⟨e, u, failed, stops⟩ | same
  · simp only [failed]
    exact .inl ⟨e, rfl, stops⟩
  · simp only [same]
    exact .inr rfl

theorem assemble_results {read read' : Nat → List Char → Except ParseError Expr} (place : Place)
    (h : ∀ start source, Results c (read start source) (read' start source))
    (before : List Char) (segments : List TextSegment) :
    Results c (assemble read place before segments) (assemble read' place before segments) := by
  induction segments generalizing before with
  | nil => exact .inr rfl
  | cons segment rest ih =>
    cases segment with
    | char ch => exact ih (ch :: before)
    | unclosed => exact .inr rfl
    | hole start source =>
      unfold assemble
      split
      · exact .inr rfl
      · exact (h start source).bind fun _ => (ih []).bind fun _ => .inr rfl

theorem parser_agrees (t : Token) : c.Agree (parser t) (parser t) := by
  intro a b related stream quotation s
  have results : Results c (ofToken a t) (ofToken b t) :=
    (assemble_results t.place (readHole_results related t) [] _).bind fun _ => .inr rfl
  simp only [parser, bind_of_ok scope_apply]
  rcases results with ⟨e, failed, stops⟩ | same
  · rw [failed]
    exact .inl ⟨e, s, rfl, stops⟩
  · rw [same]
    cases ofToken b t <;> exact .inr rfl

end TextNode

structure MarkupInner.Agree (c : Comparison) (first second : MarkupInner) : Prop where
  expr : c.Agree first.expr second.expr
  node : c.Agree first.node second.node

variable {expr expr' : Parser Expr} {inner inner' : MarkupInner}

namespace MarkupInner

theorem agree_children (h : inner.Agree c inner') : c.Agree inner.children inner'.children :=
  h.node.braced

theorem agree_optionalChildren (h : inner.Agree c inner') (span : Span) :
    c.Agree (inner.optionalChildren span) (inner'.optionalChildren span) :=
  (agree_is _).bind fun _ =>
    .ite ((agree_children h).bind fun _ => agree_pure _) (agree_pure _)

theorem agree_condition (h : inner.Agree c inner') : c.Agree inner.condition inner'.condition :=
  (agree_expect _).bind fun _ => h.expr.bind fun _ => (agree_expect _).bind fun _ => agree_pure _

end MarkupInner

theorem agree_attributeName : c.Agree attributeName attributeName := by
  refine agree_expectName.bind fun first => .chain (fun (_, _) => ?_) _
  refine agree_current.bind fun _ => agree_peek.bind fun _ => ?_
  exact .ite (agree_advance.bind fun _ => agree_advance.bind fun _ => agree_pure _) (agree_pure _)

namespace ElementProp

theorem agree_namedParser (h : c.Agree expr expr') :
    c.Agree (namedParser expr) (namedParser expr') := by
  refine agree_attributeName.bind fun (_, _) => (agree_eat _).bind fun _ => .ite (agree_pure _) ?_
  refine (agree_eat _).bind fun braced => ?_
  extract_lets rest
  have tail (value : Expr) : c.Agree (rest value) (rest value) := agree_pure _
  refine .ite ?_ (h.bind tail)
  exact h.bind fun _ => (agree_expect _).bind fun _ => (agree_pure _).bind tail

theorem parser_agrees (h : c.Agree expr expr') : c.Agree (parser expr) (parser expr') :=
  (agree_is _).bind fun _ =>
    .ite (agree_advance.bind fun _ => h.bind fun _ => agree_pure _) (agree_namedParser h)

theorem agree_listParser (h : c.Agree expr expr') :
    c.Agree (listParser expr) (listParser expr') :=
  (agree_expect _).bind fun _ => (Agree.commaSeparated _ (parser_agrees h)).bind fun _ =>
    (agree_expect _).bind fun _ => agree_pure _

end ElementProp

theorem agree_directiveHead (allowModifiers : Bool) :
    c.Agree (directiveHead allowModifiers) (directiveHead allowModifiers) := by
  refine (agree_expect _).bind fun _ => agree_advance.bind fun _ =>
    (Agree.chain (fun (_, _) => agree_current.bind fun _ => ?_) _).bind fun _ => agree_pure _
  exact .ite (agree_pure _) (.ite (agree_fail _) (agree_advance.bind fun _ => agree_pure _))

theorem agree_plainHead : c.Agree plainHead plainHead :=
  (agree_directiveHead _).bind fun _ => agree_pure _

theorem agree_failAt (place : Place) (cause : Cause) {α : Type} :
    c.Agree (failAt place cause : Parser α) (failAt place cause) :=
  agree_of_eq fun _ _ _ _ _ => rfl

theorem EventHandler.parser_agrees (h : c.Agree expr expr') :
    c.Agree (parser expr) (parser expr') := by
  refine agree_peek.bind fun _ => (agree_directiveHead _).bind fun (_, _) =>
    (agree_is _).bind fun _ => .ite (agree_pure _) ((Expr.agree_arguments h).bind ?_)
  rintro ⟨arguments, close⟩
  dsimp only
  split
  · exact agree_previous.bind fun _ => agree_failAt _ _
  · exact agree_pure _

theorem BoundaryTarget.parser_agrees : c.Agree parser parser :=
  agree_peek.bind fun _ => agree_plainHead.bind fun _ => (agree_is _).bind fun _ =>
    .ite (agree_previous.bind fun _ => agree_fail _) (agree_pure _)

namespace Directive

theorem agree_modelModifiers (ts : List Token) :
    c.Agree (modelModifiers ts) (modelModifiers ts) := by
  induction ts with
  | nil => exact agree_pure _
  | cons t ts ih =>
    unfold modelModifiers
    split
    · exact agree_failAt _ _
    · exact ih.bind fun _ => agree_pure _

theorem agree_modelParser (h : inner.Agree c inner') :
    c.Agree (modelParser inner) (modelParser inner') :=
  (agree_directiveHead _).bind fun (_, _) => (agree_modelModifiers _).bind fun _ =>
    (MarkupInner.agree_condition h).bind fun _ => agree_previous.bind fun _ =>
      .ite (agree_failAt _ _) (agree_pure _)

theorem agree_attributeParser (h : c.Agree expr expr') :
    c.Agree (attributeParser expr) (attributeParser expr') :=
  agree_attributeName.bind fun _ => (agree_expect _).bind fun _ => h.bind fun _ => agree_pure _

theorem agree_a11yParser (h : c.Agree expr expr') :
    c.Agree (a11yParser expr) (a11yParser expr') :=
  agree_plainHead.bind fun _ => (agree_expect _).bind fun _ =>
    (Agree.commaSeparated _ (agree_attributeParser h)).bind fun _ =>
      (agree_expect _).bind fun _ => agree_pure _

theorem agree_optionalArgument {α : Type} {item item' : Parser α} (h : c.Agree item item')
    (span : Span) : c.Agree (optionalArgument item span) (optionalArgument item' span) := by
  refine (agree_eat _).bind fun _ => .ite (agree_pure _) ((agree_is _).bind fun empty => ?_)
  extract_lets rest
  have tail (value : Option α) : c.Agree (rest value) (rest value) :=
    (agree_expect _).bind fun _ => agree_pure _
  exact .ite ((agree_pure _).bind tail) ((h.map _).bind tail)

theorem agree_liveParser : c.Agree liveParser liveParser :=
  agree_plainHead.bind fun _ => (agree_optionalArgument (agree_expectStringOr _) _).bind fun _ =>
    agree_pure _

theorem agree_focusTrapParser (h : c.Agree expr expr') :
    c.Agree (focusTrapParser expr) (focusTrapParser expr') :=
  agree_plainHead.bind fun _ => (agree_optionalArgument h _).bind fun _ => agree_pure _

theorem parser_agrees (h : inner.Agree c inner') : c.Agree (parser inner) (parser inner') := by
  refine agree_peek.bind fun _ => .ite (agree_modelParser h) (.ite (agree_a11yParser h.expr)
    (.ite agree_liveParser (.ite (agree_focusTrapParser h.expr) (.ite ?_ (.ite ?_ ?_)))))
  · exact agree_plainHead.bind fun _ => agree_pure _
  · exact BoundaryTarget.parser_agrees.bind fun _ => agree_pure _
  · exact (EventHandler.parser_agrees h.expr).bind fun _ => agree_pure _

theorem agree_attaches : c.Agree attaches attaches :=
  agree_peek.bind fun _ => .ite (agree_pure _)
    (.ite ((agree_peekAt 2).bind fun _ => agree_pure _) (agree_pure _))

end Directive

namespace MarkupNode

theorem agree_elementPart (h : inner.Agree c inner') (tail : ElementTail) :
    c.Agree (elementPart inner tail) (elementPart inner' tail) := by
  refine agree_current.bind fun t => ?_
  split
  · exact Directive.agree_attaches.bind fun _ => .ite (agree_pure _)
      ((Directive.parser_agrees h).bind fun _ => agree_pure _)
  · exact agree_advance.bind fun _ => (TextNode.parser_agrees _).bind fun _ => agree_pure _
  · exact agree_advance.bind fun _ => (TextNode.parser_agrees _).bind fun _ => agree_pure _
  · exact agree_pure _

theorem agree_elementParser (h : inner.Agree c inner') :
    c.Agree (elementParser inner) (elementParser inner') := by
  refine agree_advance.bind fun head => (agree_is _).bind fun parens => ?_
  extract_lets rest rest'
  have tail (start : List ElementProp × Span) : c.Agree (rest start) (rest' start) :=
    (Agree.chain (agree_elementPart h) _).bind fun _ =>
      (MarkupInner.agree_optionalChildren h _).bind fun _ => agree_pure _
  refine .ite ?_ ((agree_pure _).bind tail)
  exact (ElementProp.agree_listParser h.expr).bind fun _ => agree_previous.bind fun _ =>
    (agree_pure _).bind tail

theorem agree_branchHead : c.Agree branchHead branchHead := by
  refine agree_peek.bind fun _ => (agree_is _).bind fun _ => .ite (agree_pure _) (.ite ?_ (.ite ?_ ?_))
  · exact agree_advance.bind fun _ => agree_advance.bind fun _ => agree_pure _
  · refine agree_advance.bind fun _ => agree_advance.bind fun _ => (agree_is _).bind fun _ =>
      agree_peek.bind fun _ => .ite ?_ ((agree_eat _).bind fun _ => .ite (agree_pure _) (agree_pure _))
    exact agree_advance.bind fun _ => agree_advance.bind fun _ => agree_pure _
  · exact agree_pure _

theorem agree_branchParser (h : inner.Agree c inner') (branches : Branches) :
    c.Agree (branchParser inner branches) (branchParser inner' branches) := by
  refine agree_current.bind fun start => agree_branchHead.bind fun head => ?_
  split
  · exact agree_pure _
  · exact (MarkupInner.agree_condition h).bind fun _ => (MarkupInner.agree_children h).bind fun _ =>
      agree_pure _
  · exact (MarkupInner.agree_children h).bind fun _ => agree_pure _

theorem agree_conditionalParser (h : inner.Agree c inner') :
    c.Agree (conditionalParser inner) (conditionalParser inner') :=
  (agree_expect _).bind fun _ => (agree_expect _).bind fun _ =>
    (MarkupInner.agree_condition h).bind fun _ => (MarkupInner.agree_children h).bind fun _ =>
      (Agree.loop (agree_branchParser h) _).bind fun _ => agree_pure _

theorem agree_keyFollows : c.Agree keyFollows keyFollows :=
  agree_of_eq fun _ _ _ _ _ => rfl

theorem agree_iterationKind : c.Agree iterationKind iterationKind := by
  refine agree_current.bind fun t => ?_
  split
  · exact agree_advance.bind fun _ => agree_pure _
  · exact (agree_expect _).bind fun _ => agree_pure _

theorem agree_loopHead (h : inner.Agree c inner') (keyword : LoopKeyword) :
    c.Agree (loopHead inner keyword) (loopHead inner' keyword) := by
  refine (agree_expect _).bind fun _ => (agree_expect _).bind fun item =>
    (agree_eat _).bind fun comma => ?_
  extract_lets rest rest'
  have tail (index : Option String) : c.Agree (rest index) (rest' index) := by
    refine agree_iterationKind.bind fun _ => h.expr.bind fun _ => (agree_expect _).bind fun _ =>
      agree_keyFollows.bind fun _ => ?_
    extract_lets last
    have close (key : Option Expr) : c.Agree (last key) (last key) := agree_pure _
    refine .ite ?_ ((agree_pure _).bind close)
    exact agree_advance.bind fun _ => ((MarkupInner.agree_condition h).map _).bind close
  refine .ite ?_ ((agree_pure _).bind tail)
  exact (agree_expect _).bind fun _ => (agree_pure _).bind tail

theorem agree_loopParser (h : inner.Agree c inner') :
    c.Agree (loopParser inner) (loopParser inner') :=
  (agree_expect _).bind fun _ => agree_advance.bind fun _ => (agree_loopHead h _).bind fun _ =>
    (MarkupInner.agree_children h).bind fun _ => agree_pure _

theorem agree_slotParser (h : inner.Agree c inner') :
    c.Agree (slotParser inner) (slotParser inner') := by
  refine (agree_expect _).bind fun word => (agree_is _).bind fun named => ?_
  extract_lets rest rest'
  have tail (head : Option String × Span) : c.Agree (rest head) (rest' head) :=
    (MarkupInner.agree_optionalChildren h _).bind fun _ => agree_pure _
  exact .ite (agree_advance.bind fun _ => (agree_pure _).bind tail) ((agree_pure _).bind tail)

theorem agree_pathArguments (h : inner.Agree c inner') (name : String) :
    c.Agree (pathArguments inner name) (pathArguments inner' name) := by
  refine (Expr.agree_arguments h.expr).bind ?_
  rintro ⟨arguments, close⟩
  dsimp only
  split
  · exact agree_pure _
  · exact agree_pure _
  · exact agree_previous.bind fun _ => agree_failAt _ _

theorem agree_linkParser (h : inner.Agree c inner') :
    c.Agree (linkParser inner) (linkParser inner') := by
  refine agree_plainHead.bind fun head => (agree_pathArguments h _).bind ?_
  rintro ⟨path, options, close⟩
  refine agree_current.bind fun t => ?_
  extract_lets kind rest rest'
  have tail (caption : Option TextNode × Span) : c.Agree (rest caption) (rest' caption) :=
    (MarkupInner.agree_optionalChildren h _).bind fun _ => agree_pure _
  refine .ite ?_ ((agree_pure _).bind tail)
  exact agree_advance.bind fun _ => (TextNode.parser_agrees _).bind fun _ => (agree_pure _).bind tail

theorem agree_outletParser (h : inner.Agree c inner') :
    c.Agree (outletParser inner) (outletParser inner') := by
  refine agree_plainHead.bind fun head => (agree_is _).bind fun _ =>
    .ite (agree_pure _) ((Expr.agree_arguments h.expr).bind ?_)
  rintro ⟨arguments, close⟩
  dsimp only
  split
  · exact agree_fail _
  · exact agree_pure _

theorem agree_navigateParser (h : inner.Agree c inner') :
    c.Agree (navigateParser inner) (navigateParser inner') :=
  agree_plainHead.bind fun _ => (agree_pathArguments h _).bind fun _ => agree_pure _

theorem agree_emptyArguments : c.Agree emptyArguments emptyArguments :=
  agree_plainHead.bind fun _ => (agree_eat _).bind fun _ =>
    .ite ((agree_expect _).bind fun _ => agree_pure _) (agree_pure _)

theorem agree_namedDirective (h : inner.Agree c inner') (name : String) :
    c.Agree (namedDirective inner name) (namedDirective inner' name) := by
  refine .ite (agree_fail _) (.ite ?_ (.ite (agree_fail _) ?_))
  · exact BoundaryTarget.parser_agrees.bind fun _ =>
      (MarkupInner.agree_optionalChildren h _).bind fun _ => agree_pure _
  · exact (EventHandler.parser_agrees h.expr).bind fun _ =>
      (MarkupInner.agree_optionalChildren h _).bind fun _ => agree_pure _

theorem agree_directiveParser (h : inner.Agree c inner') :
    c.Agree (directiveParser inner) (directiveParser inner') := by
  refine agree_peek.bind fun name => ?_
  split
  · exact agree_conditionalParser h
  · exact agree_loopParser h
  · exact agree_loopParser h
  · exact agree_linkParser h
  · exact agree_outletParser h
  · exact agree_navigateParser h
  · exact agree_emptyArguments.bind fun _ => agree_pure _
  · exact agree_emptyArguments.bind fun _ => agree_pure _
  · exact agree_fail _
  · exact agree_namedDirective h _
  · exact agree_advance.bind fun _ => agree_failWanted _

theorem agree_parserAt (h : inner.Agree c inner') :
    c.Agree (parserAt inner) (parserAt inner') := by
  have textNode : c.Agree (return text (← TextNode.parser (← advance)) : Parser MarkupNode)
      (return text (← TextNode.parser (← advance))) :=
    agree_advance.bind fun _ => (TextNode.parser_agrees _).bind fun _ => agree_pure _
  have literal : c.Agree (return text (.ofLiteral (← advance)) : Parser MarkupNode)
      (return text (.ofLiteral (← advance))) := agree_advance.bind fun _ => agree_pure _
  refine agree_current.bind fun t => ?_
  split
  · exact agree_elementParser h
  · exact agree_elementParser h
  · exact textNode
  · exact textNode
  · exact literal
  · exact literal
  · exact literal
  · exact literal
  · exact literal
  · exact agree_slotParser h
  · exact agree_directiveParser h
  · exact agree_failWanted _

theorem agree_parserWithin {n m : Nat} (left : c.Levels n m) :
    c.Agree (parserWithin n) (parserWithin m) := by
  induction n generalizing m with
  | zero =>
    refine agree_failTooDeep ?_
    rcases left with rfl | ⟨-, stops⟩
    · exact .inl rfl
    · exact .inr stops
  | succ n ih =>
    obtain ⟨m, rfl⟩ : ∃ k, m = k + 1 := by
      refine Nat.exists_eq_add_one.mpr ?_
      rcases left with same | ⟨le, -⟩ <;> omega
    exact (agree_parserAt ⟨Expr.parser_agrees, ih left.pred⟩).deeper

theorem parser_agrees : c.Agree parser parser := .withLevels agree_parserWithin

end MarkupNode

theorem ViewBlock.parser_agrees : c.Agree ViewBlock.parser ViewBlock.parser :=
  (agree_expect _).bind fun _ => MarkupNode.parser_agrees.braced.bind fun _ => agree_pure _

end PulseSyntax
