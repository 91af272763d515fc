import PulseSyntax.Proofs.Expr.Course
import PulseSyntax.Proofs.Expr.Edges
import PulseSyntax.Proofs.Markup.Balance
import PulseSyntax.Proofs.Markup.Course
import PulseSyntax.Proofs.Parser.Fails

namespace PulseSyntax.Expr

open PulseSyntax.Parser PulseSyntax.Sites

variable {S : Sites} {s : ParserState}

structure Nested.Bound (S : Sites) (nested : Nested) : Prop where
  assignment : ∀ s, S.Bound nested.assignment s
  unary : ∀ s, S.Bound nested.unary s

variable {expr : Parser Expr} {nested : Nested}

theorem bound_spreadable (h : ∀ s, S.Bound expr s) (s : ParserState) :
    S.Bound (spreadable expr) s := by simp [spreadable, h]

theorem bound_arguments (h : ∀ s, S.Bound expr s) : S.Bound (arguments expr) s := by
  simp [arguments, bound_commaSeparated (bound_spreadable h)]

theorem bound_startsAsyncArrow (t : Token) : S.Bound (startsAsyncArrow t) s :=
  let ⟨_, looks⟩ := startsAsyncArrow_looks t S.scope s
  bound_of_ok looks

theorem bound_startsArrow (t next : Token) : S.Bound (startsArrow t next) s :=
  let ⟨_, looks⟩ := startsArrow_looks t next S.scope s
  bound_of_ok looks

theorem bound_arrowBlock : S.Bound arrowBlock s := by
  simp only [arrowBlock, bound_bind, bound_rawBlock, bound_scope, yields_scope, true_and]
  intro range t _
  split <;> exact bound_pure

theorem bound_arrowFunction (h : nested.Bound S) (start : Span) (isAsync : Bool) :
    S.Bound (arrowFunction nested start isAsync) s := by
  refine bound_bind.mpr ⟨bound_isSymbol, yields_isSymbol.mpr ?_⟩
  extract_lets rest
  have tail (params : List Expr) (s : ParserState) : S.Bound (rest params) s := by
    simp [rest, bound_arrowBlock, h.assignment]
    exact fun _ _ _ => bound_fail rfl
  simp [bound_arguments h.assignment, tail]

theorem bound_arrayLiteral (h : nested.Bound S) : S.Bound (arrayLiteral nested) s := by
  simp [arrayLiteral, bound_commaSeparated (bound_spreadable h.assignment)]

theorem bound_propertyValue (h : nested.Bound S) (start : Span) (key : PropertyKey) :
    S.Bound (propertyValue nested start key) s := by simp [propertyValue, h.assignment]

theorem bound_objectMember (h : nested.Bound S) (s : ParserState) :
    S.Bound (objectMember nested) s := by
  simp [objectMember, h.assignment, bound_propertyValue h]
  intro _ _
  split
  · exact bound_failWanted
  · simp [bound_propertyValue h]

theorem bound_objectLiteral (h : nested.Bound S) : S.Bound (objectLiteral nested) s := by
  simp [objectLiteral, bound_commaSeparated (bound_objectMember h)]

theorem bound_nameOrBrackets (h : nested.Bound S) (t next : Token) :
    S.Bound (nameOrBrackets nested t next) s := by
  simp [nameOrBrackets]
  intro _
  split
  · simp [grouped, h.assignment]
  · exact bound_arrayLiteral h
  · exact bound_objectLiteral h
  · exact bound_failWanted

theorem bound_primary (h : nested.Bound S) : S.Bound (primary nested) s := by
  simp [primary]
  split
  · simp
  · simp [bound_startsAsyncArrow, bound_startsArrow, bound_arrowFunction h, bound_nameOrBrackets h]

@[simp] theorem bound_memberName : S.Bound memberName s := by simp [memberName]

theorem bound_index (h : nested.Bound S) : S.Bound (index nested) s := by
  simp [index, h.assignment]

theorem bound_link (h : nested.Bound S) (e : Expr) (s : ParserState) : S.Bound (link nested e) s := by
  have args (s : ParserState) := bound_arguments (s := s) h.assignment
  simp [link]
  split
  · simp
  · simp
    split <;> simp [bound_index h, args]
  · simp [bound_index h]
  · simp [args]
  · simp

theorem bound_updateAfter (e : Expr) (s : ParserState) : S.Bound (do
    let t ← current
    match UpdateOp.ofKind? t.kind with
    | none => return e
    | some op =>
      if t.line != (← previous).line then return e
      else if !e.isAssignable then fail (.updateOperand "postfix")
      else
        let _ ← advance
        return .update op false e (e.span.cover t.span)) s := by
  simp
  split <;> simp
  exact fun _ _ => bound_fail rfl

theorem bound_postfixed (h : nested.Bound S) : S.Bound (postfixed nested) s := by
  refine bound_bind.mpr ⟨?_, fun e t _ => bound_updateAfter e t⟩
  simp [linked, bound_primary h, bound_chain (bound_link h)]

theorem bound_unaryAt (h : nested.Bound S) (s : ParserState) : S.Bound (unaryAt nested) s := by
  simp [unaryAt]
  split
  · simp [h.unary]
  · simp [h.unary]
    exact fun _ _ _ _ => bound_fail rfl
  · exact bound_postfixed h

theorem bound_binaryAt {operand : Parser Expr} (h : ∀ s, S.Bound operand s) (level : Nat)
    (s : ParserState) : S.Bound (binaryAt operand level) s := by
  induction level generalizing s with
  | zero => exact h s
  | succ level ih =>
    have round (left : Expr) (s : ParserState) :
        S.Bound (join (binaryAt operand level) (level + 1) left) s := by
      simp [join]
      split <;> simp [ih]
    simp [binaryAt, ih, bound_chain round]

theorem bound_conditionalAt (h : nested.Bound S) : S.Bound (conditionalAt nested) s := by
  simp [conditionalAt, bound_binaryAt (bound_unaryAt h), h.assignment]

theorem bound_assignmentAt (h : nested.Bound S) (s : ParserState) :
    S.Bound (assignmentAt nested) s := by
  refine bound_bind.mpr ⟨bound_conditionalAt h, fun target t _ => ?_⟩
  simp
  split
  · exact bound_pure
  · simp [h.assignment]
    exact fun _ => bound_fail rfl

theorem bound_within (S : Sites) (levels : Nat) :
    Nested.Bound S ⟨parserWithin levels, unaryWithin levels⟩ := by
  induction levels with
  | zero => exact ⟨fun _ => bound_failTooDeep, fun _ => bound_failTooDeep⟩
  | succ levels ih =>
    exact ⟨fun _ => bound_deeper (bound_assignmentAt ih), fun _ => bound_deeper (bound_unaryAt ih)⟩

theorem parser_bound (S : Sites) (s : ParserState) : S.Bound parser s :=
  bound_withLevels fun levels => (bound_within S levels).assignment

end PulseSyntax.Expr

namespace PulseSyntax

open PulseSyntax.Parser PulseSyntax.Sites

/-- The tokens are those of a file, and more errors are in it: those in texts, and those that have the
    line and the column of a closing parenthesis and a span that starts before it. -/
structure Sites.InFile (S : Sites) : Prop where
  ordered : S.scope.stream.Ordered
  start_lt : ∀ {i j k : Nat} {span : Span}, S.scope.stream.Edges i j span → j ≤ k →
    (S.scope.stream.get k).kind ≠ .endOfFile → span.start < (S.scope.stream.get k).span.start
  texts : ∀ {i e}, ((S.scope.stream.get i).kind = .string ∨ (S.scope.stream.get i).kind = .template) →
    TextNode.ofToken S.scope.options (S.scope.stream.get i) = .error e → S.Holds e
  apart : ∀ {i j k : Nat} {span : Span} {cause : Cause}, cause.isApart →
    S.scope.stream.Edges i j span → (S.scope.stream.get k).kind = .symbol .closeParen →
    span.start < (S.scope.stream.get k).span.start →
    S.Holds ⟨cause, (S.scope.stream.get k).place.line, (S.scope.stream.get k).place.column, span⟩

variable {S : Sites} {s : ParserState} {expr : Parser Expr} {inner : MarkupInner}

theorem TextNode.parser_bound (file : S.InFile) {i : Nat}
    (quoted : (S.scope.stream.get i).kind = .string ∨ (S.scope.stream.get i).kind = .template) :
    S.Bound (parser (S.scope.stream.get i)) s := by
  simpa [parser] using fun e => file.texts quoted

structure MarkupInner.Bound (S : Sites) (inner : MarkupInner) : Prop where
  expr : ∀ s, S.Bound inner.expr s
  node : ∀ s, S.Bound inner.node s
  sound : Expr.Sound S.scope inner.expr

namespace MarkupInner

theorem bound_children (h : inner.Bound S) (s : ParserState) : S.Bound inner.children s :=
  bound_braced h.node s

theorem bound_optionalChildren (h : inner.Bound S) (span : Span) (s : ParserState) :
    S.Bound (inner.optionalChildren span) s := by
  simp [optionalChildren, bound_children h]

theorem bound_condition (h : inner.Bound S) (s : ParserState) : S.Bound inner.condition s := by
  simp [condition, h.expr]

theorem yields_condition_stands {scope : Scope} (h : Expr.Sound scope inner.expr) :
    Yields inner.condition scope s fun e t => ∃ close, t.cursor = close + 1 ∧
      Expr.Stands scope (.expr e) (s.cursor + 1) close ∧
      (scope.stream.get close).kind = .symbol .closeParen := by
  simp [condition]
  intro opening
  rw [ParserState.next_of_kind opening (by simp)]
  refine (h _).mono fun e t own closing => ?_
  rw [ParserState.next_of_kind closing (by simp)]
  exact ⟨t.cursor, rfl, own, closing⟩

end MarkupInner

@[simp] theorem bound_attributeName : S.Bound attributeName s := by
  have more (part : String × Span) (s : ParserState) : S.Bound (hyphenPart part) s := by
    simp [hyphenPart]
  simp [attributeName_eq, bound_chain more]

namespace ElementProp

theorem bound_namedParser (h : ∀ s, S.Bound expr s) (s : ParserState) :
    S.Bound (namedParser expr) s := by simp [namedParser, h]

theorem parser_bound (h : ∀ s, S.Bound expr s) (s : ParserState) : S.Bound (parser expr) s := by
  simp [parser, h, bound_namedParser]

theorem bound_listParser (h : ∀ s, S.Bound expr s) (s : ParserState) :
    S.Bound (listParser expr) s := by
  simp [listParser, bound_commaSeparated (parser_bound h)]

end ElementProp

theorem bound_directiveHead (allowModifiers : Bool) (s : ParserState) :
    S.Bound (directiveHead allowModifiers) s := by
  have more (name : Token) (part : Array Token × Span) (s : ParserState) :
      S.Bound (modifierPart allowModifiers name part) s := by
    simp [modifierPart]
    exact fun _ _ => bound_fail rfl
  simp [directiveHead_eq, bound_chain (more _)]

theorem bound_plainHead (s : ParserState) : S.Bound plainHead s := by
  simp [plainHead, bound_directiveHead]

theorem yields_directiveHead_edges (file : S.InFile)
    (name : (S.scope.stream.get (s.cursor + 1)).kind ≠ .endOfFile) (allowModifiers : Bool) :
    Yields (directiveHead allowModifiers) S.scope s fun head t =>
      S.scope.stream.Edges s.cursor t.cursor head.2 ∧
        ∀ modifier ∈ head.1, ∃ i, modifier = S.scope.stream.get i := by
  simp [directiveHead]
  intro atSign
  rw [ParserState.next_of_kind atSign (by simp), ParserState.next_of_kind rfl name]
  refine (yields_chain (I := fun (head : Array Token × Span) t =>
    S.scope.stream.Edges s.cursor t.cursor head.2 ∧
      ∀ modifier ∈ head.1, ∃ i, modifier = S.scope.stream.get i)
    (fun head t own => ?_)
    ⟨.tokens file.ordered (Nat.le_refl _) (by simp) (Nat.le_succ _) (by simp), by simp⟩).mono
    fun head t own => by simpa using own
  obtain ⟨modifiers, span⟩ := head
  obtain ⟨edges, all⟩ := own
  simp
  refine ⟨fun modifier _ => ?_, fun _ => ⟨edges, all⟩⟩
  rw [ParserState.next_of_kind modifier (by simp)]
  have lt := edges.lt
  refine ⟨(edges.widen (Nat.le_refl _) (Nat.le_succ _)).cover
    ((TokenStream.Edges.token file.ordered t.cursor).widen (Nat.le_of_lt lt) (Nat.le_refl _)), ?_⟩
  rintro modifier (before | rfl)
  · exact all modifier before
  · exact ⟨t.cursor, rfl⟩

theorem EventHandler.parser_bound (file : S.InFile) (h : inner.Bound S)
    (name : (S.scope.stream.get (s.cursor + 1)).kind ≠ .endOfFile) :
    S.Bound (parser inner.expr) s := by
  simp [parser, bound_directiveHead]
  refine (yields_directiveHead_edges file name _).mono fun head t own opening => ?_
  obtain ⟨edges, -⟩ := own
  refine ⟨Expr.bound_arguments h.expr, (Expr.yields_arguments_stands h.sound).mono ?_⟩
  rintro ⟨arguments, _⟩ u ⟨close, hu, rfl, -, items, closing⟩
  split
  · have le := items.edges file.ordered
    have lt := edges.lt
    have before := file.start_lt edges (Nat.le_of_succ_le le) (by simp [closing])
    simp only [Expr.Piece.Edges] at le
    have whole := (edges.widen (Nat.le_refl _) (show t.cursor ≤ close + 1 by omega)).cover
      ((TokenStream.Edges.token file.ordered close).widen (by omega) (Nat.le_refl _))
    simpa [hu] using
      file.apart rfl whole closing (Nat.lt_of_le_of_lt (Nat.min_le_left _ _) before)
  · exact bound_pure

theorem BoundaryTarget.parser_bound (s : ParserState) : S.Bound parser s := by
  simp [parser, bound_plainHead]
  exact fun _ _ _ _ => bound_fail rfl

namespace Directive

theorem bound_modelModifiers {ts : List Token} (h : ∀ t ∈ ts, ∃ i, t = S.scope.stream.get i) :
    S.Bound (modelModifiers ts) s := by
  induction ts with
  | nil => exact bound_pure
  | cons t ts ih =>
    obtain ⟨i, rfl⟩ := h t List.mem_cons_self
    unfold modelModifiers
    split
    · exact bound_failAt.mpr (S.atToken i _ rfl)
    · simp [ih fun t member => h t (List.mem_cons_of_mem _ member)]

theorem bound_modelParser (file : S.InFile) (h : inner.Bound S)
    (name : (S.scope.stream.get (s.cursor + 1)).kind ≠ .endOfFile) :
    S.Bound (modelParser inner) s := by
  simp [modelParser, bound_directiveHead]
  refine (yields_directiveHead_edges file name _).mono fun head t own => ?_
  obtain ⟨-, modifiers⟩ := own
  refine ⟨bound_modelModifiers modifiers, fun names u _ => ?_⟩
  refine ⟨MarkupInner.bound_condition h _, (MarkupInner.yields_condition_stands h.sound).mono ?_⟩
  rintro binding v ⟨close, hv, own, closing⟩ _
  have edges := own.edges file.ordered
  simpa [hv] using file.apart rfl edges closing
    (file.start_lt edges (Nat.le_refl _) (by simp [closing]))

theorem bound_attributeParser (h : ∀ s, S.Bound expr s) (s : ParserState) :
    S.Bound (attributeParser expr) s := by simp [attributeParser, h]

theorem bound_a11yParser (h : ∀ s, S.Bound expr s) : S.Bound (a11yParser expr) s := by
  simp [a11yParser, bound_plainHead, bound_commaSeparated (bound_attributeParser h)]

theorem bound_optionalArgument {α : Type} {item : Parser α} (h : ∀ s, S.Bound item s) (span : Span)
    (s : ParserState) : S.Bound (optionalArgument item span) s := by
  simp [optionalArgument, h]

theorem bound_liveParser : S.Bound liveParser s := by
  simp [liveParser, bound_plainHead, bound_optionalArgument]

theorem bound_focusTrapParser (h : ∀ s, S.Bound expr s) : S.Bound (focusTrapParser expr) s := by
  simp [focusTrapParser, bound_plainHead, bound_optionalArgument h]

theorem parser_bound (file : S.InFile) (h : inner.Bound S)
    (name : (S.scope.stream.get (s.cursor + 1)).kind ≠ .endOfFile) : S.Bound (parser inner) s := by
  simp [parser, bound_modelParser file h name, bound_a11yParser h.expr, bound_liveParser,
    bound_focusTrapParser h.expr, bound_plainHead, BoundaryTarget.parser_bound,
    EventHandler.parser_bound file h name]

theorem bound_attaches : S.Bound attaches s :=
  let ⟨_, looks⟩ := attaches_looks S.scope s
  bound_of_ok looks

end Directive

namespace MarkupNode

theorem bound_elementPart (file : S.InFile) (h : inner.Bound S) (tail : ElementTail)
    (s : ParserState) : S.Bound (elementPart inner tail) s := by
  simp [elementPart]
  split
  · simp [Directive.bound_attaches]
    exact Directive.yields_attaches fun attaches name yes =>
      Directive.parser_bound file h (by rw [name yes]; nofun)
  · next kind => simp [TextNode.parser_bound file (.inl kind)]
  · next kind => simp [TextNode.parser_bound file (.inr kind)]
  · exact bound_pure

theorem bound_elementParser (file : S.InFile) (h : inner.Bound S) : S.Bound (elementParser inner) s := by
  simp [elementParser, ElementProp.bound_listParser h.expr, bound_chain (bound_elementPart file h),
    MarkupInner.bound_optionalChildren h]

theorem bound_branchHead : S.Bound branchHead s := by simp [branchHead]

theorem bound_branchParser (h : inner.Bound S) (branches : Branches) (s : ParserState) :
    S.Bound (branchParser inner branches) s := by
  simp [branchParser, bound_branchHead]
  intro head t _
  cases head with
  | none => exact bound_pure
  | some head =>
    cases head <;> simp [MarkupInner.bound_condition h, MarkupInner.bound_children h]

theorem bound_conditionalParser (h : inner.Bound S) : S.Bound (conditionalParser inner) s := by
  simp [conditionalParser, MarkupInner.bound_condition h, MarkupInner.bound_children h,
    bound_loop (bound_branchParser h)]

theorem bound_loopHead (h : inner.Bound S) (keyword : LoopKeyword) (s : ParserState) :
    S.Bound (loopHead inner keyword) s := by
  have kind (s : ParserState) : S.Bound iterationKind s := by
    simp [iterationKind]
    split <;> simp
  have follows (s : ParserState) : S.Bound keyFollows s := by simp [keyFollows]
  simp [loopHead, kind, h.expr, follows, MarkupInner.bound_condition h]

theorem bound_loopParser (h : inner.Bound S) : S.Bound (loopParser inner) s := by
  simp [loopParser, bound_loopHead h, MarkupInner.bound_children h]

theorem bound_slotParser (h : inner.Bound S) : S.Bound (slotParser inner) s := by
  simp [slotParser, MarkupInner.bound_optionalChildren h]

theorem bound_pathArguments (h : inner.Bound S) (name : String) (s : ParserState) :
    S.Bound (pathArguments inner name) s := by
  simp [pathArguments, Expr.bound_arguments h.expr]
  refine (Expr.yields_arguments_stands h.sound).mono ?_
  rintro ⟨arguments, _⟩ t ⟨close, ht, rfl, -⟩
  split
  · exact bound_pure
  · exact bound_pure
  · have atClose := S.atToken close (.pathArguments name) rfl
    simpa [ht, Token.span] using atClose

theorem bound_linkParser (file : S.InFile) (h : inner.Bound S) : S.Bound (linkParser inner) s := by
  simp [linkParser, bound_plainHead, bound_pathArguments h, MarkupInner.bound_optionalChildren h]
  exact fun _ _ _ _ _ _ kind => TextNode.parser_bound file kind

theorem bound_outletParser (h : inner.Bound S) : S.Bound (outletParser inner) s := by
  simp [outletParser, bound_plainHead, Expr.bound_arguments h.expr]
  intro head t _ _ answer u _
  split
  · exact bound_fail rfl
  · exact bound_pure

theorem bound_navigateParser (h : inner.Bound S) : S.Bound (navigateParser inner) s := by
  simp [navigateParser, bound_plainHead, bound_pathArguments h]

theorem bound_emptyArguments : S.Bound emptyArguments s := by
  simp [emptyArguments, bound_plainHead]

theorem bound_namedDirective (file : S.InFile) (h : inner.Bound S)
    (name : (S.scope.stream.get (s.cursor + 1)).kind ≠ .endOfFile) (text : String) :
    S.Bound (namedDirective inner text) s := by
  simp [namedDirective, BoundaryTarget.parser_bound, EventHandler.parser_bound file h name,
    MarkupInner.bound_optionalChildren h]
  exact ⟨fun _ => bound_fail rfl, fun _ _ _ _ => bound_fail rfl⟩

theorem bound_directiveParser (file : S.InFile) (h : inner.Bound S) :
    S.Bound (directiveParser inner) s := by
  simp [directiveParser]
  split
  · exact bound_conditionalParser h
  · exact bound_loopParser h
  · exact bound_loopParser h
  · exact bound_linkParser file h
  · exact bound_outletParser h
  · exact bound_navigateParser h
  · simp [bound_emptyArguments]
  · simp [bound_emptyArguments]
  · exact bound_fail rfl
  · next name => exact bound_namedDirective file h (by rw [name]; nofun) _
  · simp

theorem bound_parserAt (file : S.InFile) (h : inner.Bound S) (s : ParserState) :
    S.Bound (parserAt inner) s := by
  simp [parserAt]
  split
  · exact bound_elementParser file h
  · exact bound_elementParser file h
  · next kind => simp [TextNode.parser_bound file (.inl kind)]
  · next kind => simp [TextNode.parser_bound file (.inr kind)]
  · simp
  · simp
  · simp
  · simp
  · simp
  · exact bound_slotParser h
  · exact bound_directiveParser file h
  · simp

theorem parser_bound (file : S.InFile) (s : ParserState) : S.Bound parser s := by
  refine bound_withLevels fun levels => ?_
  induction levels with
  | zero => exact fun _ => bound_failTooDeep
  | succ levels ih =>
    exact fun s => bound_deeper
      (bound_parserAt file ⟨Expr.parser_bound S, ih, Expr.parser_sound S.scope⟩)

end MarkupNode

theorem ViewBlock.parser_bound (file : S.InFile) : S.Bound parser s := by
  simp [parser, bound_braced (MarkupNode.parser_bound file)]

end PulseSyntax
