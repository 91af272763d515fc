import PulseSyntax.Markup.Parser
import PulseSyntax.Proofs.Expr.Course
import PulseSyntax.Proofs.Markup.Alone
import PulseSyntax.Proofs.Markup.Assemble

namespace PulseSyntax

open PulseSyntax.Parser PulseSyntax.Course

namespace TextNode

theorem size_holeScope (options : Options) (t : Token) (start : Nat) (source : List Char) :
    (holeScope options t start source).stream.size ≤ source.length + 1 := by
  have own := TokenStream.toList_ofList_of_content (holeTokens_content t start source)
  have same := congrArg List.length (holeTokens_content t start source)
  rw [List.length_map, List.length_map] at same
  have bound := (laid_tokens source).length_le
  calc (holeScope options t start source).stream.size
      = (holeTokens t start source).length := congrArg List.length own
    _ = (Lexer.tokens source).length := same
    _ ≤ source.length + 1 := by simpa using bound

theorem steady_holeParser {c : Course} (source : List Char) : c.Steady (holeParser source) :=
  Expr.parser_moving.steady.bind fun _ => steady_current.bind fun _ =>
    .ite (steady_pure _) (steady_fail rfl)

theorem readHole_shallow {options : Options} {t : Token} {start : Nat} {source : List Char}
    {e : ParseError} (failed : readHole options t start source = .error e)
    (room : source.length < options.maxDepth) : e.cause.isTooDeep = false := by
  obtain ⟨u, failed⟩ := readHole_error failed
  let c : Course := ⟨holeScope options t start source, 0, True⟩
  refine ((steady_holeParser (c := c) source .initial rfl).stops failed).shallow trivial ⟨?_, ?_⟩
  · exact (holeScope options t start source).stream.nonempty
  · exact Nat.le_trans (size_holeScope options t start source) room

theorem ofToken_shallow {options : Options} {t : Token} {e : ParseError}
    (failed : ofToken options t = .error e) (room : t.text.toList.length < options.maxDepth) :
    e.cause.isTooDeep = false := by
  rcases assemble_error (ofToken_error failed) with (rfl | rfl) | ⟨start, hole, member, own⟩
  · rfl
  · rfl
  obtain ⟨before, after, whole, -⟩ := TextSegment.hole_of_mem_cut member
  refine readHole_shallow own (Nat.lt_of_le_of_lt ?_ room)
  rw [whole, List.length_append, List.length_append]
  omega

end TextNode

/-- Every text among the tokens is shorter than the limit. -/
def Scope.TextsFit (scope : Scope) : Prop :=
  ∀ i, (scope.stream.get i).text.toList.length < scope.options.maxDepth

variable {c : Course}

theorem TextNode.parser_steady (h : c.fits → c.scope.TextsFit) (i : Nat) :
    c.Steady (parser (c.scope.stream.get i)) := by
  intro s _
  refine .look scope_apply ?_
  cases read : ofToken c.scope.options (c.scope.stream.get i) with
  | ok node => exact .pure id
  | error e => exact .error rfl fun fits => ofToken_shallow read (h fits i)

structure MarkupInner.Moving (c : Course) (inner : MarkupInner) : Prop where
  expr : c.Moving inner.expr
  node : c.Moving inner.node

variable {expr : Parser Expr} {inner : MarkupInner}

namespace MarkupInner

theorem starting_children (h : inner.Moving c) : c.Starting inner.children := h.node.braced

theorem steady_optionalChildren (h : inner.Moving c) (span : Span) :
    c.Steady (inner.optionalChildren span) :=
  (steady_is _).bind fun _ =>
    .ite ((starting_children h).steady.bind fun _ => steady_pure _) (steady_pure _)

theorem starting_condition (h : inner.Moving c) : c.Starting inner.condition :=
  (starting_expectSymbol _).bind fun _ => h.expr.steady.bind fun _ =>
    (starting_expectSymbol _).steady.bind fun _ => steady_pure _

end MarkupInner

def hyphenPart : String × Span → Parser (Option (String × Span)) := fun (name, span) => do
  let hyphen ← current
  let next ← peek
  let touches := hyphen.span.start == span.stop && next.span.start == hyphen.span.stop
  if hyphen.kind == .symbol .minus && touches &&
      (next.kind == .identifier || next.kind.isKeyword) then
    let _ ← advance
    let _ ← advance
    return some (name ++ "-" ++ next.raw, span.cover next.span)
  else return none

theorem attributeName_eq :
    attributeName = expectName >>= fun first => chain hyphenPart (first.raw, first.span) := rfl

/-- A name that ends at a byte goes on with a hyphen and another part, each of which touches what is
    before it. -/
def Scope.Hyphenates (scope : Scope) (stop i : Nat) : Prop :=
  (scope.stream.get i).kind = .symbol .minus ∧ (scope.stream.get i).span.start = stop ∧
    (scope.stream.get (i + 1)).span.start = (scope.stream.get i).span.stop ∧
    ((scope.stream.get (i + 1)).kind = .identifier ∨ (scope.stream.get (i + 1)).kind.isKeyword)

section

variable {scope : Scope} {s : ParserState} {part : String × Span}

theorem hyphenPart_of (h : scope.Hyphenates part.2.stop s.cursor) :
    hyphenPart part scope s = .ok (some (part.1 ++ "-" ++ (scope.stream.get (s.cursor + 1)).raw,
      part.2.cover (scope.stream.get (s.cursor + 1)).span)) (s.ahead 2) := by
  obtain ⟨hyphen, start, stop, name⟩ := h
  rw [hyphenPart, bind_of_ok current_apply, bind_of_ok peek_apply]
  have real : (scope.stream.get (s.ahead 1).cursor).kind ≠ .endOfFile := by
    intro atEnd
    rcases name with name | name <;> simp_all [TokenKind.isKeyword]
  rw [if_pos (by simpa [hyphen, start, stop] using name),
    bind_of_ok (advance_apply (by simp [hyphen])), bind_of_ok (advance_apply real)]
  rfl

theorem hyphenPart_of_not (h : ¬scope.Hyphenates part.2.stop s.cursor) :
    hyphenPart part scope s = .ok none s := by
  rw [hyphenPart, bind_of_ok current_apply, bind_of_ok peek_apply, if_neg]
  · rfl
  · simpa [Scope.Hyphenates, and_assoc] using h

end

theorem extending_hyphenPart : c.Extending hyphenPart := by
  intro part s hs
  refine .atCurrent (.atPeek (.ite (fun more => ?_) fun _ => .none))
  refine .token ?_ hs (Nat.zero_le _) (steady_advance.bind fun _ => steady_pure _)
  simp only [Bool.and_eq_true, beq_iff_eq] at more
  simp [more.1.1]

theorem starting_attributeName : c.Starting attributeName :=
  starting_expectName.bind fun _ => extending_hyphenPart.steady _

namespace ElementProp

theorem starting_namedParser (h : c.Steady expr) : c.Starting (namedParser expr) := by
  refine starting_attributeName.bind fun _ => (steady_eatSymbol _).bind fun _ =>
    .ite (steady_pure _) ((steady_eatSymbol _).bind fun _ => ?_)
  extract_lets rest
  have tail (value : Expr) : c.Steady (rest value) := steady_pure _
  refine .ite (h.bind fun _ => ?_) (h.bind tail)
  exact (starting_expectSymbol _).steady.bind fun _ => (steady_pure _).bind tail

theorem parser_steady (h : c.Steady expr) : c.Steady (parser expr) :=
  (steady_is _).bind fun _ => .ite (steady_advance.bind fun _ => h.bind fun _ => steady_pure _)
    (starting_namedParser h).steady

theorem turning_listParser (h : c.Steady expr) :
    c.Turning (commaRound .closeParen fun _ => parser expr) :=
  turning_commaRound fun _ => parser_steady h

theorem steady_listParser (h : c.Steady expr) : c.Steady (listParser expr) :=
  (starting_expectSymbol _).steady.bind fun _ => (steady_commaSeparated (parser_steady h)).bind
    fun _ => (starting_expectSymbol _).steady.bind fun _ => steady_pure _

end ElementProp

def modifierPart (allowModifiers : Bool) (name : Token) :
    Array Token × Span → Parser (Option (Array Token × Span)) := fun (modifiers, span) => do
  let t ← current
  if t.kind != .modifier then return none
  else if !allowModifiers then fail (.modifiersOn name.text)
  else
    let _ ← advance
    return some (modifiers.push t, span.cover t.span)

theorem directiveHead_eq (allowModifiers : Bool) : directiveHead allowModifiers = do
    let atSign ← expectSymbol .atSign
    let name ← advance
    let (modifiers, span) ←
      chain (modifierPart allowModifiers name) (#[], atSign.span.cover name.span)
    return (modifiers.toList, span) := rfl

theorem extending_modifierPart (allowModifiers : Bool) (name : Token) :
    c.Extending (modifierPart allowModifiers name) := by
  intro part s hs
  refine .atCurrent (.ite (fun _ => .none) fun more => .ite (fun _ => .fail rfl) fun _ => ?_)
  refine .token ?_ hs (Nat.zero_le _) (steady_pure _)
  intro atEnd
  simp [atEnd] at more

theorem starting_directiveHead (allowModifiers : Bool) : c.Starting (directiveHead allowModifiers) :=
  (starting_expectSymbol _).bind fun _ => steady_advance.bind fun _ =>
    ((extending_modifierPart allowModifiers _).steady _).bind fun _ => steady_pure _

theorem starting_plainHead : c.Starting plainHead :=
  (starting_directiveHead false).bind fun _ => steady_pure _

theorem EventHandler.parser_starting (h : c.Steady expr) : c.Starting (parser expr) := by
  refine .afterPeek fun _ => (starting_directiveHead true).bind ?_
  rintro ⟨modifiers, span⟩
  refine (steady_is _).bind fun _ => .ite (steady_pure _) ((Expr.starting_arguments h).steady.bind ?_)
  rintro ⟨arguments, close⟩
  dsimp only
  split
  · exact steady_previous.bind fun _ => (starting_failAt _ rfl).steady
  · exact steady_pure _

theorem BoundaryTarget.parser_starting : c.Starting parser :=
  .afterPeek fun _ => starting_plainHead.bind fun _ => (steady_is _).bind fun _ =>
    .ite (steady_previous.bind fun _ => steady_fail rfl) (steady_pure _)

namespace Directive

theorem steady_modelModifiers (ts : List Token) : c.Steady (modelModifiers ts) := by
  induction ts with
  | nil => exact steady_pure []
  | cons t ts ih =>
    unfold modelModifiers
    split
    · exact (starting_failAt _ rfl).steady
    · exact ih.bind fun _ => steady_pure _

theorem starting_modelParser (h : inner.Moving c) : c.Starting (modelParser inner) :=
  (starting_directiveHead true).bind fun _ => (steady_modelModifiers _).bind fun _ =>
    (MarkupInner.starting_condition h).steady.bind fun _ => steady_previous.bind fun _ =>
      .ite (starting_failAt _ rfl).steady (steady_pure _)

theorem starting_attributeParser (h : c.Steady expr) : c.Starting (attributeParser expr) :=
  starting_attributeName.bind fun _ => (starting_expectSymbol _).steady.bind fun _ =>
    h.bind fun _ => steady_pure _

theorem turning_a11yParser (h : c.Steady expr) :
    c.Turning (commaRound .closeParen fun _ => attributeParser expr) :=
  turning_commaRound fun _ => (starting_attributeParser h).steady

theorem starting_a11yParser (h : c.Steady expr) : c.Starting (a11yParser expr) :=
  starting_plainHead.bind fun _ => (starting_expectSymbol _).steady.bind fun _ =>
    (steady_commaSeparated (starting_attributeParser h).steady).bind fun _ =>
      (starting_expectSymbol _).steady.bind fun _ => steady_pure _

theorem steady_optionalArgument {α : Type} {item : Parser α} (h : c.Steady item) (span : Span) :
    c.Steady (optionalArgument item span) := by
  refine (steady_eatSymbol _).bind fun _ => .ite (steady_pure _) ((steady_is _).bind fun _ => ?_)
  extract_lets rest
  have tail (value : Option α) : c.Steady (rest value) :=
    (starting_expectSymbol _).steady.bind fun _ => steady_pure _
  exact .ite ((steady_pure _).bind tail) ((h.map some).bind tail)

theorem starting_liveParser : c.Starting liveParser :=
  starting_plainHead.bind fun _ =>
    (steady_optionalArgument (starting_expectStringOr (by simp)).steady _).bind fun _ =>
      steady_pure _

theorem starting_focusTrapParser (h : c.Steady expr) : c.Starting (focusTrapParser expr) :=
  starting_plainHead.bind fun _ => (steady_optionalArgument h _).bind fun _ => steady_pure _

theorem parser_starting (h : inner.Moving c) : c.Starting (parser inner) := by
  have expr := h.expr.steady
  refine .afterPeek fun _ => .ite (starting_modelParser h) (.ite (starting_a11yParser expr)
    (.ite starting_liveParser (.ite (starting_focusTrapParser expr) (.ite ?_ (.ite ?_ ?_)))))
  · exact starting_plainHead.bind fun _ => steady_pure _
  · exact BoundaryTarget.parser_starting.bind fun _ => steady_pure _
  · exact (EventHandler.parser_starting expr).bind fun _ => steady_pure _

theorem attaches_looks (scope : Scope) (s : ParserState) : ∃ a, attaches scope s = .ok a s := by
  rw [attaches, bind_of_ok peek_apply]
  split
  · exact ⟨_, rfl⟩
  · split <;> exact ⟨_, rfl⟩

end Directive

namespace MarkupNode

theorem extending_elementPart (h : inner.Moving c) (texts : c.fits → c.scope.TextsFit) :
    c.Extending (elementPart inner) := by
  intro tail s hs
  have text (inside : (c.scope.stream.get s.cursor).kind ≠ .endOfFile) :
      c.Proceeds 0 (fun next => ∃ b, next = some b) (do
        let t ← TextNode.parser (← advance)
        return some { tail with texts := tail.texts.push t, span := tail.span.cover t.span }) s :=
    .token inside hs (Nat.zero_le _) ((TextNode.parser_steady texts _).bind fun _ => steady_pure _)
  refine .atCurrent ?_
  split
  · obtain ⟨own, looks⟩ := Directive.attaches_looks c.scope s
    refine .look looks (.ite (fun _ => .none) fun _ => ?_)
    exact (Directive.parser_starting h).moving.proceeds hs fun _ => steady_pure _
  · next kind => exact text (by simp [kind])
  · next kind => exact text (by simp [kind])
  · exact .none

theorem proceeds_elementParser {s : ParserState} (h : inner.Moving c)
    (texts : c.fits → c.scope.TextsFit) (hs : s.depth = c.depth)
    (he : (c.scope.stream.get s.cursor).kind ≠ .endOfFile) :
    c.Proceeds 1 (fun _ => True) (elementParser inner) s := by
  refine .token he hs (Nat.le_refl _) ((steady_is _).bind fun _ => ?_)
  extract_lets rest
  have tail (props : List ElementProp × Span) : c.Steady (rest props) :=
    ((extending_elementPart h texts).steady _).bind fun _ =>
      (MarkupInner.steady_optionalChildren h _).bind fun _ => steady_pure _
  refine .ite ?_ ((steady_pure _).bind tail)
  exact (ElementProp.steady_listParser h.expr.steady).bind fun _ => steady_previous.bind fun _ =>
    (steady_pure _).bind tail

theorem steady_branchHead : c.Steady branchHead := by
  have skip (head : BranchHead) : c.Steady (do
      let _ ← advance
      let _ ← advance
      return some head) := steady_advance.bind fun _ => steady_advance.bind fun _ => steady_pure _
  refine steady_peek.bind fun name => (steady_is _).bind fun _ => .ite (steady_pure _) (.ite
    (skip .elseIf) (.ite ?_ (steady_pure _)))
  refine steady_advance.bind fun _ => steady_advance.bind fun _ => (steady_is _).bind fun _ =>
    steady_peek.bind fun _ => .ite (skip .elseIf) ((steady_eat (by simp)).bind fun _ => ?_)
  exact .ite (steady_pure _) (steady_pure _)

theorem turning_branchParser (h : inner.Moving c) : c.Turning (branchParser inner) := by
  intro branches s hs
  refine .atCurrent ((steady_branchHead s hs).bind hs fun head t ht _ => .inr ⟨rfl, ?_⟩)
  split
  · exact .done
  · exact (MarkupInner.starting_condition h).moving.proceeds ht fun _ =>
      (MarkupInner.starting_children h).steady.bind fun _ => steady_pure _
  · exact (MarkupInner.starting_children h).moving.proceeds ht fun _ => steady_pure _

theorem starting_conditionalParser (h : inner.Moving c) : c.Starting (conditionalParser inner) :=
  (starting_expectSymbol _).bind fun _ => (starting_expectKeyword _).steady.bind fun _ =>
    (MarkupInner.starting_condition h).steady.bind fun _ =>
      (MarkupInner.starting_children h).steady.bind fun _ =>
        ((turning_branchParser h).steady _).bind fun _ => steady_pure _

theorem steady_keyFollows : c.Steady keyFollows := steady_look fun _ => ⟨_, rfl⟩

theorem steady_iterationKind : c.Steady iterationKind := by
  refine steady_current.bind fun t => ?_
  split
  · exact steady_advance.bind fun _ => steady_pure _
  · exact (starting_expectKeyword _).steady.bind fun _ => steady_pure _

theorem steady_loopHead (h : inner.Moving c) (keyword : LoopKeyword) :
    c.Steady (loopHead inner keyword) := by
  refine (starting_expectSymbol _).steady.bind fun _ => (starting_expect (by simp)).steady.bind
    fun item => (steady_eatSymbol _).bind fun _ => ?_
  extract_lets rest
  have tail (index : Option String) : c.Steady (rest index) := by
    refine steady_iterationKind.bind fun _ => h.expr.steady.bind fun _ =>
      (starting_expectSymbol _).steady.bind fun _ => steady_keyFollows.bind fun _ => ?_
    extract_lets last
    have close (key : Option Expr) : c.Steady (last key) := steady_pure _
    refine .ite (steady_advance.bind fun _ => ?_) ((steady_pure _).bind close)
    exact ((MarkupInner.starting_condition h).steady.map some).bind close
  refine .ite ?_ ((steady_pure _).bind tail)
  exact (starting_expect (by simp)).steady.bind fun _ => (steady_pure _).bind tail

theorem starting_loopParser (h : inner.Moving c) : c.Starting (loopParser inner) :=
  (starting_expectSymbol _).bind fun _ => steady_advance.bind fun _ =>
    (steady_loopHead h _).bind fun _ => (MarkupInner.starting_children h).steady.bind fun _ =>
      steady_pure _

theorem starting_slotParser (h : inner.Moving c) : c.Starting (slotParser inner) := by
  refine (starting_expectKeyword _).bind fun word => (steady_is _).bind fun _ => ?_
  extract_lets rest
  have tail (name : Option String × Span) : c.Steady (rest name) :=
    (MarkupInner.steady_optionalChildren h _).bind fun _ => steady_pure _
  exact .ite (steady_advance.bind fun _ => (steady_pure _).bind tail) ((steady_pure _).bind tail)

theorem steady_pathArguments (h : inner.Moving c) (name : String) :
    c.Steady (pathArguments inner name) := by
  refine (Expr.starting_arguments h.expr.steady).steady.bind ?_
  rintro ⟨arguments, close⟩
  dsimp only
  split
  · exact steady_pure _
  · exact steady_pure _
  · exact steady_previous.bind fun _ => (starting_failAt _ rfl).steady

theorem starting_linkParser (h : inner.Moving c) (texts : c.fits → c.scope.TextsFit) :
    c.Starting (linkParser inner) := by
  refine starting_plainHead.bind fun head => (steady_pathArguments h _).bind ?_
  rintro ⟨path, options, close⟩
  intro s hs
  refine .atCurrent ?_
  extract_lets kind rest
  have tail (caption : Option TextNode × Span) : c.Steady (rest caption) :=
    (MarkupInner.steady_optionalChildren h _).bind fun _ => steady_pure _
  refine .ite (fun quoted => ?_) fun _ => (steady_pure _).bind tail s hs
  refine .token ?_ hs (Nat.zero_le _) ((TextNode.parser_steady texts _).bind fun _ =>
    (steady_pure _).bind tail)
  intro atEnd
  simp [kind, atEnd] at quoted

theorem starting_outletParser (h : inner.Moving c) : c.Starting (outletParser inner) := by
  refine starting_plainHead.bind fun head => (steady_is _).bind fun _ =>
    .ite (steady_pure _) ((Expr.starting_arguments h.expr.steady).steady.bind ?_)
  rintro ⟨arguments, close⟩
  dsimp only
  split
  · exact steady_fail rfl
  · exact steady_pure _

theorem starting_navigateParser (h : inner.Moving c) : c.Starting (navigateParser inner) :=
  starting_plainHead.bind fun _ => (steady_pathArguments h _).bind fun _ => steady_pure _

theorem starting_emptyArguments : c.Starting emptyArguments :=
  starting_plainHead.bind fun _ => (steady_eatSymbol _).bind fun _ =>
    .ite ((starting_expectSymbol _).steady.bind fun _ => steady_pure _) (steady_pure _)

theorem starting_namedDirective (h : inner.Moving c) (name : String) :
    c.Starting (namedDirective inner name) := by
  refine .ite (starting_fail rfl) (.ite ?_ (.ite (starting_fail rfl) ?_))
  · exact BoundaryTarget.parser_starting.bind fun _ =>
      (MarkupInner.steady_optionalChildren h _).bind fun _ => steady_pure _
  · exact (EventHandler.parser_starting h.expr.steady).bind fun _ =>
      (MarkupInner.steady_optionalChildren h _).bind fun _ => steady_pure _

theorem proceeds_directiveParser {s : ParserState} (h : inner.Moving c)
    (texts : c.fits → c.scope.TextsFit) (hs : s.depth = c.depth)
    (sign : (c.scope.stream.get s.cursor).kind = .symbol .atSign) :
    c.Proceeds 1 (fun _ => True) (directiveParser inner) s := by
  refine .atPeek ?_
  split
  · exact starting_conditionalParser h s hs
  · exact starting_loopParser h s hs
  · exact starting_loopParser h s hs
  · exact starting_linkParser h texts s hs
  · exact starting_outletParser h s hs
  · exact starting_navigateParser h s hs
  · exact starting_emptyArguments.bind (fun _ => steady_pure _) s hs
  · exact starting_emptyArguments.bind (fun _ => steady_pure _) s hs
  · exact .fail rfl
  · exact starting_namedDirective h _ s hs
  · exact .token (by simp [sign]) hs (Nat.le_refl _) (starting_failWanted _).steady

theorem starting_parserAt (h : inner.Moving c) (texts : c.fits → c.scope.TextsFit) :
    c.Starting (parserAt inner) := by
  intro s hs
  have textNode (inside : (c.scope.stream.get s.cursor).kind ≠ .endOfFile) :
      c.Proceeds 1 (fun _ => True) (return text (← TextNode.parser (← advance))) s :=
    .token inside hs (Nat.le_refl _) ((TextNode.parser_steady texts _).bind fun _ => steady_pure _)
  have literal (inside : (c.scope.stream.get s.cursor).kind ≠ .endOfFile) :
      c.Proceeds 1 (fun _ => True) (return text (.ofLiteral (← advance))) s :=
    .token inside hs (Nat.le_refl _) (steady_pure _)
  have element (inside : (c.scope.stream.get s.cursor).kind ≠ .endOfFile) :=
    proceeds_elementParser h texts hs inside
  refine .atCurrent ?_
  split
  case h_10 => exact starting_slotParser h s hs
  case h_11 sign => exact proceeds_directiveParser h texts hs sign
  case h_12 => exact starting_failWanted _ s hs
  all_goals
    next kind => first
      | exact element (by simp [kind])
      | exact textNode (by simp [kind])
      | exact literal (by simp [kind])

theorem moving_parserWithin (levels : Nat)
    (left : c.fits → c.scope.options.maxDepth - c.depth ≤ levels)
    (texts : c.fits → c.scope.TextsFit) : c.Moving (parserWithin levels) := by
  induction levels generalizing c with
  | zero =>
    exact moving_failTooDeep fun fits => Nat.le_of_sub_eq_zero (Nat.le_zero.mp (left fits))
  | succ levels ih =>
    have inner : c.deeper.Moving (parserWithin levels) := ih (fun fits => by
      have left := left fits
      change c.scope.options.maxDepth - (c.depth + 1) ≤ levels
      omega) texts
    have own : c.deeper.Starting (parserAt ⟨Expr.parser, parserWithin levels⟩) :=
      starting_parserAt ⟨Expr.parser_moving, inner⟩ texts
    exact own.deeper

theorem parser_moving (texts : c.fits → c.scope.TextsFit) : c.Moving parser := fun s hs =>
  (moving_parserWithin _ (fun _ => Nat.le_of_eq (by rw [hs])) texts s hs).congr rfl

end MarkupNode

theorem ViewBlock.parser_starting (texts : c.fits → c.scope.TextsFit) : c.Starting parser :=
  (starting_expectKeyword _).bind fun _ => (MarkupNode.parser_moving texts).braced.steady.bind
    fun _ => steady_pure _

end PulseSyntax
