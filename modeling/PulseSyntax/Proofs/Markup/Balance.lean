import PulseSyntax.Proofs.Block.Balance

namespace PulseSyntax

open PulseSyntax.Parser

variable {scope : Scope} {i depth : Nat} {s : ParserState} {expr : Parser Expr}

namespace TextNode

theorem parser_balances (j : Nat) :
    Balances scope scope.HasText (parser (scope.stream.get j)) := by
  intro i depth s o
  simp only [parser, yields_bind, yields_scope]
  cases read : ofToken scope.options (scope.stream.get j) with
  | error e =>
    intro a s failed
    cases failed
  | ok node =>
    obtain ⟨cut, -, place⟩ := ofToken_eq_ok.mp read
    refine yields_pure.mpr ⟨o, fun source e member => ?_⟩
    obtain ⟨start, hole, here, same, own⟩ := assemble_interpolation cut member
    exact ⟨j, start, hole, place.symm, here, same, own⟩

theorem keeps_ofLiteral (t : Token) : scope.HasText (ofLiteral t) := by
  intro source e member
  simp [ofLiteral] at member

end TextNode

structure MarkupInner.IsBalanced (scope : Scope) (inner : MarkupInner) : Prop where
  expr : Expr.IsRead scope inner.expr
  node : Balances scope (scope.Has ·.fragments) inner.node

namespace MarkupInner

variable {inner : MarkupInner}

theorem balances_children (h : inner.IsBalanced scope) :
    Balances scope (∀ n ∈ ·.1, scope.Has n.fragments) inner.children :=
  h.node.braced

theorem balances_optionalChildren (h : inner.IsBalanced scope) (span : Span) :
    Balances scope (∀ n ∈ ·.1, scope.Has n.fragments) (inner.optionalChildren span) := by
  intro i depth s o
  simp [optionalChildren]
  exact ⟨fun _ => (balances_children h).step o fun nodes t o captured => ⟨o, captured⟩,
    fun _ => ⟨o, by simp⟩⟩

theorem balances_condition (h : inner.IsBalanced scope) :
    Balances scope scope.HasExpr inner.condition := by
  intro i depth s o
  simp [condition]
  exact fun opening => h.expr.step (o.read opening rfl) fun e t o captured closing =>
    ⟨o.read closing rfl, .read captured⟩

end MarkupInner

theorem balances_attributeName : Balances scope (fun _ => True) attributeName := by
  intro i depth s o
  simp [attributeName]
  intro name
  refine Balances.chain (P := fun _ => True) (fun (_, _) _ => ?_) trivial (o.readName name)
  intro i depth s o
  simp
  refine ⟨fun minus _ _ word => ⟨?_, trivial⟩, fun _ => ⟨o, trivial⟩⟩
  exact o.readTwo minus (by simp) rfl rfl (TokenKind.not_isBrace_of_word word)

namespace ElementProp

theorem balances_namedParser (h : Expr.IsRead scope expr) :
    Balances scope (scope.Has ·.fragments) (namedParser expr) := by
  have valued {name : String} {e : Expr} {span : Span} (captured : scope.HasExpr e)
      {shorthand : Bool} : scope.Has (named name e shorthand span).fragments := by
    simpa [fragments, ElementProp.expr] using captured
  intro i depth s o
  simp [namedParser]
  refine balances_attributeName.step o fun name t o _ => ⟨fun eq => ?_, fun _ => ⟨o, ?_⟩⟩
  · have o := o.read eq rfl
    refine ⟨fun opening => ?_, fun _ => ?_⟩
    · exact h.step (o.opening opening) fun e t o captured closing =>
        ⟨o.closing closing, valued (.read captured)⟩
    · exact h.step o fun e t o captured => ⟨o, valued (.read captured)⟩
  · exact valued .flag

theorem parser_balances (h : Expr.IsRead scope expr) :
    Balances scope (scope.Has ·.fragments) (parser expr) := by
  intro i depth s o
  simp [parser]
  refine ⟨fun spread => h.step (o.read spread rfl) fun e t o captured => ⟨o, ?_⟩,
    fun _ => balances_namedParser h o⟩
  simpa [fragments, ElementProp.expr] using Scope.HasExpr.read captured

theorem balances_listParser (h : Expr.IsRead scope expr) :
    Balances scope (∀ p ∈ ·, scope.Has p.fragments) (listParser expr) := by
  intro i depth s o
  simp [listParser]
  intro opening
  exact (Balances.commaSeparated _ (parser_balances h)).step (o.read opening rfl)
    fun props t o captured closing => ⟨o.read closing rfl, captured⟩

end ElementProp

theorem yields_directiveHead (o : scope.stream.Open i s.cursor depth)
    (name : (scope.stream.get (s.cursor + 1)).kind.isBrace = false) (allowModifiers : Bool) :
    Yields (directiveHead allowModifiers) scope s (Leaves scope i depth fun _ => True) := by
  simp [directiveHead]
  intro atSign
  refine (Balances.chain (P := fun _ => True) (fun (_, _) _ => ?_) trivial).step
    (o.readTwo atSign (by simp) rfl rfl name) fun _ t o _ => ⟨o, trivial⟩
  intro i depth s o
  simp
  exact ⟨fun modifier _ => ⟨o.read modifier rfl, trivial⟩, fun _ => ⟨o, trivial⟩⟩

theorem yields_plainHead (o : scope.stream.Open i s.cursor depth)
    (name : (scope.stream.get (s.cursor + 1)).kind.isBrace = false) :
    Yields plainHead scope s (Leaves scope i depth fun _ => True) := by
  simp [plainHead]
  exact (yields_directiveHead o name _).mono fun _ t left => ⟨left.braces, trivial⟩

theorem EventHandler.parser_yields (h : Expr.IsRead scope expr)
    (o : scope.stream.Open i s.cursor depth)
    (name : (scope.stream.get (s.cursor + 1)).kind.isBrace = false) :
    Yields (parser expr) scope s
      (Leaves scope i depth fun a => ∀ e ∈ a.1.handler, scope.HasExpr e) := by
  simp [parser]
  refine (yields_directiveHead o name _).mono fun head t left =>
    ⟨fun _ => ⟨left.braces, by simp⟩, fun _ => ?_⟩
  refine (Expr.balances_arguments_read h).step left.braces fun args t o captured => ?_
  split
  · simp
  · refine yields_pure.mpr ⟨o, ?_⟩
    simpa using fun e first => captured e (List.mem_of_mem_head? first)

theorem BoundaryTarget.parser_yields (o : scope.stream.Open i s.cursor depth)
    (name : (scope.stream.get (s.cursor + 1)).kind.isBrace = false) :
    Yields parser scope s (Leaves scope i depth fun _ => True) := by
  simp [parser]
  exact (yields_plainHead o name).mono fun _ t left _ => ⟨left.braces, trivial⟩

namespace Directive

variable {inner : MarkupInner}

theorem balances_modelModifiers (ts : List Token) :
    Balances scope (fun _ => True) (modelModifiers ts) := by
  induction ts with
  | nil => exact balances_pure trivial
  | cons t ts ih =>
    intro i depth s o
    unfold modelModifiers
    split
    · exact yields_failAt.mpr trivial
    · exact yields_bind.mpr (ih.step o fun _ t o _ => yields_pure.mpr ⟨o, trivial⟩)

theorem yields_modelParser (h : inner.IsBalanced scope) (o : scope.stream.Open i s.cursor depth)
    (name : (scope.stream.get (s.cursor + 1)).kind.isBrace = false) :
    Yields (modelParser inner) scope s (Leaves scope i depth (scope.Has ·.fragments)) := by
  simp [modelParser]
  refine (yields_directiveHead o name _).mono fun head t left => ?_
  refine (balances_modelModifiers _).step left.braces fun modifiers t o _ => ?_
  refine (MarkupInner.balances_condition h).step o fun e t o captured _ => ⟨o, ?_⟩
  simpa [fragments] using captured

theorem balances_attributeParser (h : Expr.IsRead scope expr) :
    Balances scope (scope.HasExpr ·.value) (attributeParser expr) := by
  intro i depth s o
  simp [attributeParser]
  refine balances_attributeName.step o fun name t o _ eq => ?_
  exact h.step (o.read eq rfl) fun e t o captured => ⟨o, .read captured⟩

theorem yields_a11yParser (h : Expr.IsRead scope expr)
    (o : scope.stream.Open i s.cursor depth)
    (name : (scope.stream.get (s.cursor + 1)).kind.isBrace = false) :
    Yields (a11yParser expr) scope s (Leaves scope i depth (scope.Has ·.fragments)) := by
  simp [a11yParser]
  refine (yields_plainHead o name).mono fun head t left opening => ?_
  refine (Balances.commaSeparated _ (balances_attributeParser h)).step
    (left.braces.read opening rfl) fun attributes t o captured closing => ⟨o.read closing rfl, ?_⟩
  simpa [fragments] using captured

theorem balances_optionalArgument {α : Type} {P : α → Prop} {item : Parser α}
    (h : Balances scope P item) (span : Span) :
    Balances scope (fun a => ∀ b ∈ a.1, P b) (optionalArgument item span) := by
  intro i depth s o
  simp [optionalArgument]
  refine ⟨fun opening => ⟨fun closing => ?_, fun _ => ?_⟩, fun _ => ⟨o, by simp⟩⟩
  · exact ⟨(o.read opening rfl).read closing rfl, by simp⟩
  · exact h.step (o.read opening rfl) fun a t o holds closing =>
      ⟨o.read closing rfl, by simpa using holds⟩

theorem yields_liveParser (o : scope.stream.Open i s.cursor depth)
    (name : (scope.stream.get (s.cursor + 1)).kind.isBrace = false) :
    Yields liveParser scope s (Leaves scope i depth (scope.Has ·.fragments)) := by
  have priority : Balances scope (fun _ => True) (expectStringOr .identifier) := by
    intro i depth s o
    simp
    exact fun value => ⟨value.elim (o.read · rfl) (o.read · rfl), trivial⟩
  simp [liveParser]
  refine (yields_plainHead o name).mono fun head t left => ?_
  exact (balances_optionalArgument priority _).step left.braces fun _ t o _ =>
    ⟨o, by simp [fragments]⟩

theorem yields_focusTrapParser (h : Expr.IsRead scope expr)
    (o : scope.stream.Open i s.cursor depth)
    (name : (scope.stream.get (s.cursor + 1)).kind.isBrace = false) :
    Yields (focusTrapParser expr) scope s (Leaves scope i depth (scope.Has ·.fragments)) := by
  simp [focusTrapParser]
  refine (yields_plainHead o name).mono fun head t left => ?_
  refine (balances_optionalArgument h _).step left.braces fun options t o captured => ⟨o, ?_⟩
  simpa [fragments] using fun e own => .read (captured e own)

theorem parser_yields (h : inner.IsBalanced scope) (o : scope.stream.Open i s.cursor depth)
    (name : (scope.stream.get (s.cursor + 1)).kind.isBrace = false) :
    Yields (parser inner) scope s (Leaves scope i depth (scope.Has ·.fragments)) := by
  simp [parser]
  refine ⟨fun _ => yields_modelParser h o name, fun _ => ⟨fun _ => yields_a11yParser h.expr o name,
    fun _ => ⟨fun _ => yields_liveParser o name, fun _ => ⟨fun _ =>
      yields_focusTrapParser h.expr o name, fun _ => ⟨fun _ => ?_, fun _ => ⟨fun _ => ?_, ?_⟩⟩⟩⟩⟩⟩
  · exact (yields_plainHead o name).mono fun _ t left => ⟨left.braces, by simp [fragments]⟩
  · exact (BoundaryTarget.parser_yields o name).mono fun _ t left =>
      ⟨left.braces, by simp [fragments]⟩
  · refine fun _ _ => (EventHandler.parser_yields h.expr o name).mono fun handler t left =>
      ⟨left.braces, ?_⟩
    simpa [fragments] using left.answer

theorem yields_attaches {Q : Bool → ParserState → Prop}
    (h : ∀ a, (a = true → (scope.stream.get (s.cursor + 1)).kind = .identifier) → Q a s) :
    Yields attaches scope s Q := by
  simp [attaches]
  refine ⟨fun _ => h false (by simp), fun name _ => ⟨fun _ => h _ fun _ => name,
    fun _ _ => h true fun _ => name⟩⟩

end Directive

namespace MarkupNode

variable {inner : MarkupInner}

structure ElementTail.Captured (scope : Scope) (tail : ElementTail) : Prop where
  directives : ∀ d ∈ tail.directives, scope.Has d.fragments
  texts : ∀ t ∈ tail.texts, scope.HasText t

theorem balances_elementPart (h : inner.IsBalanced scope) (tail : ElementTail)
    (ht : tail.Captured scope) :
    Balances scope (∀ next ∈ ·, next.Captured scope) (elementPart inner tail) := by
  have text {i depth : Nat} {s : ParserState} (o : scope.stream.Open i (s.next scope).cursor depth)
      (j : Nat) : Yields (TextNode.parser (scope.stream.get j)) scope (s.next scope) fun node u =>
        Leaves scope i depth (∀ next ∈ ·, ElementTail.Captured scope next)
          (some { tail with texts := tail.texts.push node, span := tail.span.cover node.span }) u := by
    refine (TextNode.parser_balances j).step o fun node u o captured => ⟨o, ?_⟩
    rintro _ ⟨⟩
    exact { ht with texts := Array.forall_mem_push.mpr ⟨captured, ht.texts⟩ }
  intro i depth s o
  refine yields_bind.mpr (yields_current.mpr ?_)
  split
  · simp
    refine Directive.yields_attaches fun attaches name => ⟨fun _ => ⟨o, by simp⟩, fun yes => ?_⟩
    refine (Directive.parser_yields h o (by rw [name yes]; rfl)).mono fun d t left =>
      ⟨left.braces, ?_⟩
    rintro _ ⟨⟩
    exact { ht with directives := Array.forall_mem_push.mpr ⟨left.answer, ht.directives⟩ }
  · next kind =>
    simp only [yields_bind, yields_advance, yields_pure]
    exact text (o.read kind rfl) _
  · next kind =>
    simp only [yields_bind, yields_advance, yields_pure]
    exact text (o.read kind rfl) _
  · exact yields_pure.mpr ⟨o, by simp⟩

theorem yields_elementParser (h : inner.IsBalanced scope)
    (o : scope.stream.Open i (s.next scope).cursor depth) :
    Yields (elementParser inner) scope s (Leaves scope i depth (scope.Has ·.fragments)) := by
  unfold elementParser
  refine yields_bind.mpr (yields_advance.mpr ?_)
  refine yields_bind.mpr (yields_isSymbol.mpr ?_)
  extract_lets rest
  have tail {start : List ElementProp × Span} {t : ParserState}
      (o : scope.stream.Open i t.cursor depth)
      (captured : ∀ p ∈ start.1, scope.Has p.fragments) :
      Yields (rest start) scope t (Leaves scope i depth (scope.Has ·.fragments)) := by
    simp [rest]
    refine (Balances.chain (P := ElementTail.Captured scope) (balances_elementPart h)
      ⟨by simp, by simp⟩).step o fun tail t o parts => ?_
    refine (MarkupInner.balances_optionalChildren h _).step o fun nodes t o children => ⟨o, ?_⟩
    simp [fragments]
    exact ⟨captured, parts.directives, parts.texts, children⟩
  clear_value rest
  simp
  exact ⟨fun _ => (ElementProp.balances_listParser h.expr).step o fun props t o captured =>
    tail o captured, fun _ => tail o (by simp)⟩

theorem balances_branchHead : Balances scope (fun _ => True) branchHead := by
  intro i depth s o
  have head {s : ParserState} {word : TokenKind} (o : scope.stream.Open i s.cursor depth)
      (atSign : (scope.stream.get s.cursor).kind = .symbol .atSign)
      (name : (scope.stream.get (s.cursor + 1)).kind = word) (plain : word.isBrace = false) :
      scope.stream.Open i ((s.next scope).next scope).cursor depth :=
    o.readTwo atSign (by simp) rfl name plain
  simp [branchHead]
  refine ⟨fun _ => ⟨o, trivial⟩, fun atSign => ⟨fun name _ => ⟨head o atSign name rfl, trivial⟩,
    fun _ => ⟨fun word => ?_, fun _ => ⟨o, trivial⟩⟩⟩⟩
  have o := head o atSign word rfl
  exact ⟨fun atSign word => ⟨head o atSign word rfl, trivial⟩,
    fun _ => ⟨fun word => ⟨o.read word rfl, trivial⟩, fun _ => ⟨o, trivial⟩⟩⟩

structure Branches.Captured (scope : Scope) (branches : Branches) : Prop where
  more : ∀ b ∈ branches.more, scope.Has b.fragments
  alternate : ∀ nodes ∈ branches.alternate, ∀ n ∈ nodes, scope.Has n.fragments

theorem balances_branchParser (h : inner.IsBalanced scope) (branches : Branches)
    (hb : branches.Captured scope) :
    Balances scope (fun next => Branches.Captured scope next.value) (branchParser inner branches) := by
  intro i depth s o
  refine yields_bind.mpr (yields_current.mpr (yields_bind.mpr ?_))
  refine balances_branchHead.step o fun head t o _ => ?_
  split
  · exact yields_pure.mpr ⟨o, hb⟩
  · simp
    refine (MarkupInner.balances_condition h).step o fun condition t o captured => ?_
    refine (MarkupInner.balances_children h).step o fun nodes t o children => ⟨o, ?_⟩
    refine { hb with more := Array.forall_mem_push.mpr ⟨?_, hb.more⟩ }
    simpa [Branch.fragments] using ⟨captured, children⟩
  · simp
    refine (MarkupInner.balances_children h).step o fun nodes t o children => ⟨o, ?_⟩
    refine { hb with alternate := ?_ }
    rintro _ ⟨⟩
    exact children

theorem balances_conditionalParser (h : inner.IsBalanced scope) :
    Balances scope (scope.Has ·.fragments) (conditionalParser inner) := by
  intro i depth s o
  simp [conditionalParser]
  intro atSign word
  refine (MarkupInner.balances_condition h).step ((o.read atSign rfl).read word rfl)
    fun condition t o captured => ?_
  refine (MarkupInner.balances_children h).step o fun nodes t o children => ?_
  refine (Balances.loop (P := Branches.Captured scope) (balances_branchParser h)
    ⟨by simp, by simp⟩).step o fun branches t o all => ⟨o, ?_⟩
  cases alternate : branches.alternate with
  | none => simpa [fragments] using ⟨captured, children, all.more⟩
  | some nodes =>
    simpa [fragments] using
      ⟨captured, children, all.more, all.alternate nodes alternate⟩

theorem yields_iterationKind {i depth : Nat} {s : ParserState}
    (o : scope.stream.Open i s.cursor depth) :
    Yields iterationKind scope s (Leaves scope i depth fun _ => True) := by
  simp [iterationKind]
  split
  · next word => simpa using ⟨o.read word rfl, trivial⟩
  · simpa using fun word => ⟨o.read word rfl, trivial⟩

structure LoopHead.Captured (scope : Scope) (head : LoopHead) : Prop where
  iterable : scope.HasExpr head.iterable
  key : ∀ e ∈ head.key, scope.HasExpr e

theorem balances_loopHead (h : inner.IsBalanced scope) (keyword : LoopKeyword) :
    Balances scope (LoopHead.Captured scope) (loopHead inner keyword) := by
  intro i depth s o
  refine yields_bind.mpr (yields_expectSymbol.mpr fun opening => ?_)
  refine yields_bind.mpr (yields_expect.mpr fun item => ?_)
  refine yields_bind.mpr ?_
  extract_lets rest
  have tail {index : Option String} {t : ParserState} (o : scope.stream.Open i t.cursor depth) :
      Yields (rest index) scope t (Leaves scope i depth (LoopHead.Captured scope)) := by
    simp [rest, keyFollows]
    refine (yields_iterationKind o).mono fun kind t left => ?_
    refine h.expr.step left.braces fun iterable t o captured closing => ?_
    have o := o.read closing rfl
    refine ⟨fun word _ _ => ?_, fun _ => ⟨o, .read captured, by simp⟩⟩
    have o := word.elim (o.read · rfl) (o.read · rfl)
    exact (MarkupInner.balances_condition h).step o fun key t o inner =>
      ⟨o, .read captured, by simpa using inner⟩
  clear_value rest
  simp
  have o := (o.read opening rfl).read item rfl
  exact ⟨fun comma index => tail ((o.read comma rfl).read index rfl), fun _ => tail o⟩

theorem yields_loopParser (h : inner.IsBalanced scope) (o : scope.stream.Open i s.cursor depth)
    (name : (scope.stream.get (s.cursor + 1)).kind.isBrace = false) :
    Yields (loopParser inner) scope s (Leaves scope i depth (scope.Has ·.fragments)) := by
  simp [loopParser]
  intro atSign
  refine (balances_loopHead h _).step (o.readTwo atSign (by simp) rfl rfl name)
    fun head t o captured => ?_
  refine (MarkupInner.balances_children h).step o fun nodes t o children => ⟨o, ?_⟩
  simpa [fragments] using ⟨captured.iterable, captured.key, children⟩

theorem balances_slotParser (h : inner.IsBalanced scope) :
    Balances scope (scope.Has ·.fragments) (slotParser inner) := by
  have fallback {i depth : Nat} {t : ParserState} (o : scope.stream.Open i t.cursor depth)
      (name : Option String) (span : Span) :
      Yields (inner.optionalChildren span) scope t fun nodes u =>
        Leaves scope i depth (scope.Has ·.fragments) (slot name nodes.1 nodes.2) u :=
    (MarkupInner.balances_optionalChildren h _).step o fun nodes t o children =>
      ⟨o, by simpa [fragments] using children⟩
  intro i depth s o
  simp [slotParser]
  exact fun word => ⟨fun name => fallback ((o.read word rfl).read name rfl) _ _,
    fun _ => fallback (o.read word rfl) _ _⟩

theorem balances_pathArguments (h : inner.IsBalanced scope) (name : String) :
    Balances scope (fun a => scope.HasExpr a.1 ∧ ∀ e ∈ a.2.1, scope.HasExpr e)
      (pathArguments inner name) := by
  intro i depth s o
  simp [pathArguments]
  refine (Expr.balances_arguments_read h.expr).step o fun args t o captured => ?_
  split
  · next path same => exact yields_pure.mpr ⟨o, captured path (by simp [same]), by simp⟩
  · next path options same =>
    refine yields_pure.mpr ⟨o, captured path (by simp [same]), ?_⟩
    rintro _ ⟨⟩
    exact captured options (by simp [same])
  · simp

theorem yields_linkParser (h : inner.IsBalanced scope) (o : scope.stream.Open i s.cursor depth)
    (name : (scope.stream.get (s.cursor + 1)).kind.isBrace = false) :
    Yields (linkParser inner) scope s (Leaves scope i depth (scope.Has ·.fragments)) := by
  refine yields_bind.mpr ((yields_plainHead o name).mono fun head t left => ?_)
  refine yields_bind.mpr ((balances_pathArguments h _).step left.braces ?_)
  rintro ⟨path, options, close⟩ t o ⟨hpath, hoptions⟩
  refine yields_bind.mpr (yields_current.mpr ?_)
  extract_lets span rest
  have tail {caption : Option TextNode × Span} {t : ParserState}
      (o : scope.stream.Open i t.cursor depth)
      (captured : ∀ n ∈ caption.1, scope.HasText n) :
      Yields (rest caption) scope t (Leaves scope i depth (scope.Has ·.fragments)) := by
    simp [rest]
    refine (MarkupInner.balances_optionalChildren h _).step o fun nodes t o children => ⟨o, ?_⟩
    simpa [fragments] using ⟨hpath, hoptions, captured, children⟩
  clear_value rest
  simp
  refine ⟨fun word => ?_, fun _ _ => tail o (by simp)⟩
  refine (TextNode.parser_balances _).step (word.elim (o.read · rfl) (o.read · rfl))
    fun node t o captured => tail o ?_
  simpa using captured

theorem yields_outletParser (h : inner.IsBalanced scope) (o : scope.stream.Open i s.cursor depth)
    (name : (scope.stream.get (s.cursor + 1)).kind.isBrace = false) :
    Yields (outletParser inner) scope s (Leaves scope i depth (scope.Has ·.fragments)) := by
  simp [outletParser]
  refine (yields_plainHead o name).mono fun head t left =>
    ⟨fun _ => ⟨left.braces, by simp [fragments]⟩, fun _ => ?_⟩
  refine (Expr.balances_arguments_read h.expr).step left.braces fun args t o captured => ?_
  split
  · simp
  · refine yields_pure.mpr ⟨o, ?_⟩
    simpa [fragments] using fun e first => captured e (List.mem_of_mem_head? first)

theorem yields_navigateParser (h : inner.IsBalanced scope)
    (o : scope.stream.Open i s.cursor depth)
    (name : (scope.stream.get (s.cursor + 1)).kind.isBrace = false) :
    Yields (navigateParser inner) scope s (Leaves scope i depth (scope.Has ·.fragments)) := by
  simp [navigateParser]
  refine (yields_plainHead o name).mono fun head t left => ?_
  refine (balances_pathArguments h _).step left.braces fun path t o captured => ⟨o, ?_⟩
  simpa [fragments] using captured

theorem yields_emptyArguments (o : scope.stream.Open i s.cursor depth)
    (name : (scope.stream.get (s.cursor + 1)).kind.isBrace = false) :
    Yields emptyArguments scope s (Leaves scope i depth fun _ => True) := by
  simp [emptyArguments]
  exact (yields_plainHead o name).mono fun head t left =>
    ⟨fun opening closing => ⟨(left.braces.read opening rfl).read closing rfl, trivial⟩,
      fun _ => ⟨left.braces, trivial⟩⟩

theorem yields_namedDirective (h : inner.IsBalanced scope)
    (o : scope.stream.Open i s.cursor depth)
    (name : (scope.stream.get (s.cursor + 1)).kind.isBrace = false) (text : String) :
    Yields (namedDirective inner text) scope s
      (Leaves scope i depth (scope.Has ·.fragments)) := by
  simp [namedDirective]
  refine fun _ => ⟨fun _ => ?_, fun _ _ _ _ _ _ _ => ?_⟩
  · refine (BoundaryTarget.parser_yields o name).mono fun head t left => ?_
    refine (MarkupInner.balances_optionalChildren h _).step left.braces
      fun nodes t o children => ⟨o, ?_⟩
    simpa [fragments] using children
  · refine (EventHandler.parser_yields h.expr o name).mono fun handler t left => ?_
    refine (MarkupInner.balances_optionalChildren h _).step left.braces
      fun nodes t o children => ⟨o, ?_⟩
    simpa [fragments] using ⟨left.answer, children⟩

theorem balances_directiveParser (h : inner.IsBalanced scope) :
    Balances scope (scope.Has ·.fragments) (directiveParser inner) := by
  intro i depth s o
  refine yields_bind.mpr (yields_peek.mpr ?_)
  split
  · exact balances_conditionalParser h o
  · next name => exact yields_loopParser h o (by rw [name]; rfl)
  · next name => exact yields_loopParser h o (by rw [name]; rfl)
  · next name => exact yields_linkParser h o (by rw [name]; rfl)
  · next name => exact yields_outletParser h o (by rw [name]; rfl)
  · next name => exact yields_navigateParser h o (by rw [name]; rfl)
  · next name =>
    simp
    exact (yields_emptyArguments o (by rw [name]; rfl)).mono fun _ t left =>
      ⟨left.braces, by simp [fragments]⟩
  · next name =>
    simp
    exact (yields_emptyArguments o (by rw [name]; rfl)).mono fun _ t left =>
      ⟨left.braces, by simp [fragments]⟩
  · exact yields_fail.mpr trivial
  · next name => exact yields_namedDirective h o (by rw [name]; rfl) _
  · simp

theorem balances_parserAt (h : inner.IsBalanced scope) :
    Balances scope (scope.Has ·.fragments) (parserAt inner) := by
  have textNode {i depth : Nat} {s : ParserState}
      (o : scope.stream.Open i (s.next scope).cursor depth) :
      Yields (return text (← TextNode.parser (← advance))) scope s
        (Leaves scope i depth (scope.Has ·.fragments)) := by
    simp
    exact (TextNode.parser_balances _).step o fun node t o captured =>
      ⟨o, by simpa [fragments] using captured⟩
  have literal {i depth : Nat} {s : ParserState}
      (o : scope.stream.Open i (s.next scope).cursor depth) :
      Yields (return text (.ofLiteral (← advance))) scope s
        (Leaves scope i depth (scope.Has ·.fragments)) := by
    simp
    exact ⟨o, by simpa [fragments] using TextNode.keeps_ofLiteral _⟩
  intro i depth s o
  refine yields_bind.mpr (yields_current.mpr ?_)
  split
  · next kind => exact yields_elementParser h (o.read kind rfl)
  · next kind => exact yields_elementParser h (o.read kind rfl)
  · next kind => exact textNode (o.read kind rfl)
  · next kind => exact textNode (o.read kind rfl)
  · next kind => exact literal (o.read kind rfl)
  · next kind => exact literal (o.read kind rfl)
  · next kind => exact literal (o.read kind rfl)
  · next kind => exact literal (o.read kind rfl)
  · next kind => exact literal (o.read kind rfl)
  · exact balances_slotParser h o
  · exact balances_directiveParser h o
  · exact yields_failWanted.mpr trivial

theorem parser_balances : Balances scope (scope.Has ·.fragments) parser := by
  refine .withLevels fun levels => ?_
  induction levels with
  | zero => exact fun _ _ _ _ => yields_failTooDeep.mpr trivial
  | succ levels ih => exact (balances_parserAt ⟨Expr.parser_isRead, ih⟩).deeper

end MarkupNode

theorem ViewBlock.parser_readsBlock : ReadsBlock scope .view (·.span) fragments parser := by
  intro s
  simp [parser]
  intro hw
  refine yields_braced MarkupNode.parser_balances fun nodes t captured ho inner hc => ?_
  exact ⟨Scope.readsBlock hw ho inner hc (.inr rfl), by simpa [fragments] using captured⟩

end PulseSyntax
