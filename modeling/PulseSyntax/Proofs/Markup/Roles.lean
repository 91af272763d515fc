import PulseSyntax.Proofs.Block.Roles
import PulseSyntax.Proofs.Markup.Balance

namespace PulseSyntax

open PulseSyntax.Parser

variable {scope : Scope} {s : ParserState} {expr : Parser Expr}

theorem Expr.arguments_gives (h : Gives scope scope.Reads expr) :
    Gives scope (∀ e ∈ ·.1, scope.Fills .argument e) (arguments expr) := by
  have item : Gives scope (scope.Fills .argument) (spreadable expr) := by
    intro s
    simp [spreadable]
    exact ⟨fun _ => (h _).mono fun e t read => .spread read,
      fun _ => (h s).mono fun e t read => Scope.fills_argument read⟩
  intro s
  simp [arguments]
  exact fun _ => (Gives.commaSeparated _ item _).mono fun args t filled _ => filled

structure MarkupInner.IsFilled (scope : Scope) (inner : MarkupInner) : Prop where
  expr : Gives scope scope.Reads inner.expr
  node : Gives scope (scope.FillsAll ·.roles) inner.node

namespace MarkupInner

variable {inner : MarkupInner}

theorem children_gives (h : inner.IsFilled scope) :
    Gives scope (∀ n ∈ ·.1, scope.FillsAll n.roles) inner.children :=
  h.node.braced

theorem optionalChildren_gives (h : inner.IsFilled scope) (span : Span) :
    Gives scope (∀ n ∈ ·.1, scope.FillsAll n.roles) (inner.optionalChildren span) := by
  intro s
  simp [optionalChildren]
  exact fun _ => (children_gives h s).mono fun nodes t filled => filled

theorem condition_gives (h : inner.IsFilled scope) : Gives scope scope.Reads inner.condition := by
  intro s
  simp [condition]
  exact fun _ => (h.expr _).mono fun e t read _ => read

end MarkupInner

namespace ElementProp

theorem namedParser_gives (h : Gives scope scope.Reads expr) :
    Gives scope (scope.FillsAll ·.roles) (namedParser expr) := by
  intro s
  simp [namedParser, roles, ElementProp.expr]
  refine fun name t _ => ⟨fun _ => ⟨fun _ => ?_, fun _ => ?_⟩, fun _ => .flag⟩
  · exact (h _).mono fun e u read _ => Scope.fills_value read
  · exact (h _).mono fun e u read => Scope.fills_value read

theorem parser_gives (h : Gives scope scope.Reads expr) :
    Gives scope (scope.FillsAll ·.roles) (parser expr) := by
  intro s
  simp [parser]
  refine ⟨fun _ => (h _).mono fun e t read => ?_, fun _ => namedParser_gives h s⟩
  simpa [roles, ElementProp.expr] using Scope.fills_value read

theorem listParser_gives (h : Gives scope scope.Reads expr) :
    Gives scope (∀ p ∈ ·, scope.FillsAll p.roles) (listParser expr) := by
  intro s
  simp [listParser]
  exact fun _ => (Gives.commaSeparated _ (parser_gives h) _).mono fun props t filled _ => filled

end ElementProp

theorem EventHandler.parser_gives (h : Gives scope scope.Reads expr) :
    Gives scope (scope.FillsAll ·.1.roles) (parser expr) := by
  intro s
  simp [parser]
  refine fun head t _ => ⟨fun _ => by simp [EventHandler.roles], fun _ => ?_⟩
  refine (Expr.arguments_gives h _).mono fun args u filled => ?_
  split
  · simp
  · refine yields_pure.mpr ?_
    simpa [EventHandler.roles] using fun e first => filled e (List.mem_of_mem_head? first)

namespace Directive

variable {inner : MarkupInner}

theorem modelParser_gives (h : inner.IsFilled scope) :
    Gives scope (scope.FillsAll ·.roles) (modelParser inner) := by
  intro s
  simp [modelParser, roles]
  refine fun head t _ modifiers u _ => ?_
  exact (MarkupInner.condition_gives h u).mono fun e v read assignable =>
    .read read fun _ => assignable

theorem a11yParser_gives (h : Gives scope scope.Reads expr) :
    Gives scope (scope.FillsAll ·.roles) (a11yParser expr) := by
  have item : Gives scope (fun a => scope.Fills .value a.value) (attributeParser expr) := by
    intro s
    simp [attributeParser]
    exact fun name t _ _ => (h _).mono fun e u read => Scope.fills_value read
  intro s
  simp [a11yParser, roles]
  exact fun head t _ _ => (Gives.commaSeparated _ item _).mono
    fun attributes u filled _ => filled

theorem optionalArgument_gives {α : Type} {P : α → Prop} {item : Parser α} (h : Gives scope P item)
    (span : Span) : Gives scope (∀ b ∈ ·.1, P b) (optionalArgument item span) := by
  intro s
  simp [optionalArgument]
  exact fun _ _ => (h _).mono fun a t holds _ => holds

theorem focusTrapParser_gives (h : Gives scope scope.Reads expr) :
    Gives scope (scope.FillsAll ·.roles) (focusTrapParser expr) := by
  intro s
  simp [focusTrapParser, roles]
  exact fun head t _ => (optionalArgument_gives h _ t).mono fun options u read e own =>
    Scope.fills_value (read e own)

theorem parser_gives (h : inner.IsFilled scope) :
    Gives scope (scope.FillsAll ·.roles) (parser inner) := by
  intro s
  simp [parser]
  refine ⟨fun _ => modelParser_gives h s, fun _ => ⟨fun _ => a11yParser_gives h.expr s,
    fun _ => ⟨fun _ => ?_, fun _ => ⟨fun _ => focusTrapParser_gives h.expr s,
      fun _ => ⟨fun _ => ?_, fun _ => ⟨fun _ => ?_, fun _ _ => ?_⟩⟩⟩⟩⟩⟩
  · simp [liveParser, roles]
  · simp [roles]
  · simp [roles]
  · exact (EventHandler.parser_gives h.expr s).mono fun handler t filled => filled

end Directive

namespace MarkupNode

variable {inner : MarkupInner}

theorem elementPart_gives (h : inner.IsFilled scope) (tail : ElementTail)
    (filled : ∀ d ∈ tail.directives, scope.FillsAll d.roles) :
    Gives scope (∀ next ∈ ·, ∀ d ∈ next.directives, scope.FillsAll d.roles)
      (elementPart inner tail) := by
  intro s
  refine yields_bind.mpr (yields_current.mpr ?_)
  split
  · refine yields_bind.mpr fun attaches t _ => ?_
    refine yields_ite.mpr ⟨fun _ => yields_pure.mpr nofun, fun _ => yields_bind.mpr ?_⟩
    refine (Directive.parser_gives h t).mono fun d u own => yields_pure.mpr ?_
    rintro _ ⟨⟩
    exact Array.forall_mem_push.mpr ⟨own, filled⟩
  · simp
    exact fun _ _ _ => filled
  · simp
    exact fun _ _ _ => filled
  · exact yields_pure.mpr nofun

theorem elementParser_gives (h : inner.IsFilled scope) :
    Gives scope (scope.FillsAll ·.roles) (elementParser inner) := by
  intro s
  unfold elementParser
  refine yields_bind.mpr (yields_advance.mpr (yields_bind.mpr (yields_isSymbol.mpr ?_)))
  extract_lets rest
  have tail {start : List ElementProp × Span} (t : ParserState)
      (props : ∀ p ∈ start.1, scope.FillsAll p.roles) :
      Yields (rest start) scope t fun n _ => scope.FillsAll n.roles := by
    simp [rest]
    refine (Gives.chain (elementPart_gives h) (by simp) t).mono fun parts u directives => ?_
    refine (MarkupInner.optionalChildren_gives h _ u).mono fun nodes v children => ?_
    simp [roles]
    exact ⟨props, directives, children⟩
  clear_value rest
  simp
  exact ⟨fun _ => (ElementProp.listParser_gives h.expr _).mono fun props t filled => tail t filled,
    fun _ => tail _ (by simp)⟩

structure Branches.Filled (scope : Scope) (branches : Branches) : Prop where
  more : ∀ b ∈ branches.more, scope.FillsAll b.roles
  alternate : ∀ nodes ∈ branches.alternate, ∀ n ∈ nodes, scope.FillsAll n.roles

theorem branchParser_gives (h : inner.IsFilled scope) (branches : Branches)
    (hb : branches.Filled scope) :
    Gives scope (fun next => Branches.Filled scope next.value) (branchParser inner branches) := by
  intro s
  refine yields_bind.mpr (yields_current.mpr (yields_bind.mpr fun head t _ => ?_))
  dsimp only
  split
  · exact yields_pure.mpr hb
  · simp
    refine (MarkupInner.condition_gives h t).mono fun condition u read => ?_
    refine (MarkupInner.children_gives h u).mono fun nodes v children => ?_
    refine { hb with more := Array.forall_mem_push.mpr ⟨?_, hb.more⟩ }
    simpa [Branch.roles] using ⟨Scope.fills_value read, children⟩
  · simp
    refine (MarkupInner.children_gives h t).mono fun nodes u children =>
      { hb with alternate := ?_ }
    rintro _ ⟨⟩
    exact children

theorem conditionalParser_gives (h : inner.IsFilled scope) :
    Gives scope (scope.FillsAll ·.roles) (conditionalParser inner) := by
  intro s
  simp [conditionalParser]
  intro _ _
  refine (MarkupInner.condition_gives h _).mono fun condition t read => ?_
  refine (MarkupInner.children_gives h t).mono fun nodes u children => ?_
  refine (Gives.loop (branchParser_gives h) ⟨by simp, by simp⟩ u).mono fun branches v all => ?_
  have own := Scope.fills_value read
  cases alternate : branches.alternate with
  | none => simpa [roles] using ⟨own, children, all.more⟩
  | some nodes => simpa [roles] using ⟨own, children, all.more, all.alternate nodes alternate⟩

theorem loopHead_gives (h : inner.IsFilled scope) (keyword : LoopKeyword) :
    Gives scope (scope.FillsAll ·.roles) (loopHead inner keyword) := by
  intro s
  refine yields_bind.mpr (yields_expectSymbol.mpr fun _ => ?_)
  refine yields_bind.mpr (yields_expect.mpr fun _ => yields_bind.mpr ?_)
  extract_lets rest
  have tail {index : Option String} (t : ParserState) :
      Yields (rest index) scope t fun head _ => scope.FillsAll head.roles := by
    simp [rest, keyFollows, LoopHead.roles]
    refine fun iteration u _ => (h.expr u).mono fun iterable v read _ => ?_
    have own := Scope.fills_value read
    exact ⟨fun _ _ _ => (MarkupInner.condition_gives h _).mono fun key w read =>
      ⟨own, Scope.fills_value read⟩, fun _ => own⟩
  clear_value rest
  simp
  exact ⟨fun _ _ => tail _, fun _ => tail _⟩

theorem loopParser_gives (h : inner.IsFilled scope) :
    Gives scope (scope.FillsAll ·.roles) (loopParser inner) := by
  intro s
  simp [loopParser]
  intro _
  refine (loopHead_gives h _ _).mono fun head t filled => ?_
  refine (MarkupInner.children_gives h t).mono fun nodes u children => ?_
  simpa [roles] using ⟨filled, children⟩

theorem slotParser_gives (h : inner.IsFilled scope) :
    Gives scope (scope.FillsAll ·.roles) (slotParser inner) := by
  have fallback (t : ParserState) (name : Option String) (span : Span) :
      Yields (inner.optionalChildren span) scope t fun nodes _ =>
        scope.FillsAll (slot name nodes.1 nodes.2).roles :=
    (MarkupInner.optionalChildren_gives h _ t).mono fun nodes u children => by
      simpa [roles] using children
  intro s
  simp [slotParser]
  exact fun _ => ⟨fun _ => fallback _ _ _, fun _ => fallback _ _ _⟩

theorem pathArguments_gives (h : inner.IsFilled scope) (name : String) :
    Gives scope (fun a => scope.FillsAll ((.argument, a.1) :: a.2.1.toList.map (.argument, ·)))
      (pathArguments inner name) := by
  intro s
  simp [pathArguments]
  refine (Expr.arguments_gives h.expr s).mono fun args t filled => ?_
  split
  · next path same => exact yields_pure.mpr ⟨filled path (by simp [same]), by simp⟩
  · next path options same =>
    refine yields_pure.mpr ⟨filled path (by simp [same]), ?_⟩
    rintro _ ⟨⟩
    exact filled options (by simp [same])
  · simp

theorem linkParser_gives (h : inner.IsFilled scope) :
    Gives scope (scope.FillsAll ·.roles) (linkParser inner) := by
  intro s
  refine yields_bind.mpr fun head t _ => ?_
  refine yields_bind.mpr ((pathArguments_gives h _ t).mono ?_)
  rintro ⟨path, options, close⟩ u filled
  refine yields_bind.mpr (yields_current.mpr ?_)
  extract_lets span rest
  have tail {caption : Option TextNode × Span} (v : ParserState) :
      Yields (rest caption) scope v fun n _ => scope.FillsAll n.roles := by
    simp [rest]
    refine (MarkupInner.optionalChildren_gives h _ v).mono fun nodes w children => ?_
    rw [Scope.fillsAll_cons] at filled
    simpa [roles] using ⟨filled.1, by simpa using filled.2, children⟩
  clear_value rest
  simp
  exact ⟨fun _ _ _ _ => tail _, fun _ _ => tail _⟩

theorem outletParser_gives (h : inner.IsFilled scope) :
    Gives scope (scope.FillsAll ·.roles) (outletParser inner) := by
  intro s
  simp [outletParser]
  refine fun head t _ => ⟨fun _ => by simp [roles], fun _ => ?_⟩
  refine (Expr.arguments_gives h.expr t).mono fun args u filled => ?_
  split
  · simp
  · refine yields_pure.mpr ?_
    simpa [roles] using fun e first => filled e (List.mem_of_mem_head? first)

theorem navigateParser_gives (h : inner.IsFilled scope) :
    Gives scope (scope.FillsAll ·.roles) (navigateParser inner) := by
  intro s
  simp [navigateParser]
  exact fun head t _ => (pathArguments_gives h _ t).mono fun path u filled => filled

theorem namedDirective_gives (h : inner.IsFilled scope) (text : String) :
    Gives scope (scope.FillsAll ·.roles) (namedDirective inner text) := by
  intro s
  simp [namedDirective]
  refine fun _ => ⟨fun _ target t _ => ?_, fun _ _ _ _ _ _ _ => ?_⟩
  · refine (MarkupInner.optionalChildren_gives h _ t).mono fun nodes u children => ?_
    simpa [roles] using children
  · refine (EventHandler.parser_gives h.expr s).mono fun handler t filled => ?_
    refine (MarkupInner.optionalChildren_gives h _ t).mono fun nodes u children => ?_
    simpa [roles] using ⟨filled, children⟩

theorem directiveParser_gives (h : inner.IsFilled scope) :
    Gives scope (scope.FillsAll ·.roles) (directiveParser inner) := by
  intro s
  refine yields_bind.mpr (yields_peek.mpr ?_)
  split
  · exact conditionalParser_gives h s
  · exact loopParser_gives h s
  · exact loopParser_gives h s
  · exact linkParser_gives h s
  · exact outletParser_gives h s
  · exact navigateParser_gives h s
  · simp [roles]
  · simp [roles]
  · exact yields_fail.mpr trivial
  · exact namedDirective_gives h _ s
  · simp

theorem parserAt_gives (h : inner.IsFilled scope) :
    Gives scope (scope.FillsAll ·.roles) (parserAt inner) := by
  have textNode : Gives scope (scope.FillsAll ·.roles)
      (return text (← TextNode.parser (← advance))) := by
    intro s
    simp
    exact fun _ _ _ => by simp [roles]
  have literal : Gives scope (scope.FillsAll ·.roles) (return text (.ofLiteral (← advance))) := by
    intro s
    simp [roles]
  intro s
  refine yields_bind.mpr (yields_current.mpr ?_)
  split
  · exact elementParser_gives h s
  · exact elementParser_gives h s
  · exact textNode s
  · exact textNode s
  · exact literal s
  · exact literal s
  · exact literal s
  · exact literal s
  · exact literal s
  · exact slotParser_gives h s
  · exact directiveParser_gives h s
  · exact yields_failWanted.mpr trivial

theorem parserWithin_gives (levels : Nat) :
    Gives scope (scope.FillsAll ·.roles) (parserWithin levels) := by
  induction levels with
  | zero => exact fun _ => yields_failTooDeep.mpr trivial
  | succ levels ih => exact (parserAt_gives ⟨Expr.parser_gives, ih⟩).deeper

theorem parser_gives : Gives scope (scope.FillsAll ·.roles) parser :=
  .withLevels parserWithin_gives

end MarkupNode

theorem ViewBlock.parser_gives : Gives scope (scope.FillsAll ·.roles) parser := by
  intro s
  simp [parser, roles]
  exact fun _ => (MarkupNode.parser_gives.braced _).mono fun nodes t filled => filled

end PulseSyntax
