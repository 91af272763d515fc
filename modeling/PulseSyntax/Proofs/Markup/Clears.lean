import PulseSyntax.Proofs.Block.Clears
import PulseSyntax.Proofs.Markup.Balance
import PulseSyntax.Proofs.Markup.Course

namespace PulseSyntax

open PulseSyntax.Parser

variable {scope : Scope} {i : Nat} {s : ParserState} {fs : List Fragment} {expr : Parser Expr}

theorem TextNode.parser_clean (t : Token) : Clean scope (fun node => [.text node]) (parser t) := by
  intro s
  simp only [parser, yields_bind, yields_scope]
  cases ofToken scope.options t with
  | error e => exact fun _ _ failed => by cases failed
  | ok node => exact yields_pure.mpr ((Scope.Accounts.refl _).widen (by simp))

structure MarkupInner.IsClean (scope : Scope) (inner : MarkupInner) : Prop where
  expr : Expr.IsClean scope inner.expr
  arguments : Clean scope (·.1.map .expression) (Expr.arguments inner.expr)
  node : Clean scope MarkupNode.fragments inner.node

namespace MarkupInner

variable {inner : MarkupInner}

theorem clean_children (h : inner.IsClean scope) :
    Clean scope (·.1.flatMap MarkupNode.fragments) inner.children := h.node.braced

theorem clean_optionalChildren (h : inner.IsClean scope) (span : Span) :
    Clean scope (·.1.flatMap MarkupNode.fragments) (inner.optionalChildren span) := by
  intro s
  simp [optionalChildren]
  exact ⟨fun _ => clean_children h s, fun _ => .refl _⟩

theorem clean_condition (h : inner.IsClean scope) :
    Clean scope (fun e => [.expression e]) inner.condition := by
  intro s
  simp [condition]
  exact fun opening => h.expr.step ((Scope.Accounts.refl _).read opening (by simp))
    fun e t o closing => o.read closing (by simp)

end MarkupInner

theorem clean_attributeName : Clean scope (fun _ => []) attributeName := by
  intro s
  simp [attributeName_eq]
  intro name
  refine (Clean.chain (fun _ => []) (fun (_, _) i s o => ?_) rfl).step
    ((Scope.Accounts.refl _).readName name) fun _ t o => o
  simp [hyphenPart]
  exact ⟨fun minus _ _ word =>
      o.readTwo minus (by simp) (by simp) rfl (TokenKind.valid_of_word word),
    fun _ => o⟩

namespace ElementProp

theorem clean_namedParser (h : Expr.IsClean scope expr) :
    Clean scope fragments (namedParser expr) := by
  intro s
  simp [namedParser]
  refine (clean_attributeName s).mono fun name t o => ⟨fun eq => ?_, fun _ => ?_⟩
  · have o := o.read eq (by simp)
    refine ⟨fun opening => ?_, fun _ => ?_⟩
    · exact h.step (o.read opening (by simp)) fun e t o closing => o.read closing (by simp)
    · exact h.step o fun e t o => o
  · exact o.widen (by simp)

theorem parser_clean (h : Expr.IsClean scope expr) : Clean scope fragments (parser expr) := by
  intro s
  simp [parser]
  refine ⟨fun spread => h.step ((Scope.Accounts.refl _).read spread (by simp)) fun e t o => ?_,
    fun _ => clean_namedParser h s⟩
  refine ⟨o.clears.mono fun r kept => ?_⟩
  obtain ⟨owner, own⟩ := kept
  refine ⟨owner, ?_⟩
  simpa [fragments, ElementProp.expr, Fragment.owned] using own

theorem clean_listParser (h : Expr.IsClean scope expr) :
    Clean scope (·.flatMap fragments) (listParser expr) := by
  intro s
  simp [listParser]
  intro opening
  exact (Clean.commaSeparated _ (parser_clean h)).step
    ((Scope.Accounts.refl _).read opening (by simp))
    fun props t o closing => o.read closing (by simp)

end ElementProp

theorem yields_directiveHead_clean (name : (scope.stream.get (s.cursor + 1)).kind ≠ .invalid)
    (allowModifiers : Bool) :
    Yields (directiveHead allowModifiers) scope s fun _ t => scope.Accounts s.cursor t.cursor [] := by
  simp [directiveHead_eq]
  intro atSign
  refine (Clean.chain (fun _ => []) (fun (_, _) i s o => ?_) rfl).step
    ((Scope.Accounts.refl _).readTwo atSign (by simp) (by simp) rfl name) fun _ t o => o
  simp [modifierPart]
  exact ⟨fun modifier _ => o.read modifier (by simp), fun _ => o⟩

theorem yields_plainHead_clean (name : (scope.stream.get (s.cursor + 1)).kind ≠ .invalid) :
    Yields plainHead scope s fun _ t => scope.Accounts s.cursor t.cursor [] := by
  simp [plainHead]
  exact yields_directiveHead_clean name _

theorem Expr.toList_head? {es : List Expr} (few : ∀ a b rest, es = a :: b :: rest → False) :
    es.head?.toList = es := by
  match es, few with
  | [], _ => rfl
  | [e], _ => rfl
  | a :: b :: rest, few => exact (few a b rest rfl).elim

theorem EventHandler.parser_yields_clean
    (arguments : Clean scope (·.1.map .expression) (Expr.arguments expr))
    (name : (scope.stream.get (s.cursor + 1)).kind ≠ .invalid) :
    Yields (parser expr) scope s fun a t => scope.Accounts s.cursor t.cursor a.1.fragments := by
  simp [parser]
  refine (yields_directiveHead_clean name _).mono fun head t o => ⟨fun _ => o, fun _ => ?_⟩
  refine arguments.step o fun args t o => ?_
  split
  · simp
  · next few => simpa [Expr.toList_head? few] using o

theorem BoundaryTarget.parser_yields_clean (name : (scope.stream.get (s.cursor + 1)).kind ≠ .invalid) :
    Yields parser scope s fun _ t => scope.Accounts s.cursor t.cursor [] := by
  simp [parser]
  exact (yields_plainHead_clean name).mono fun _ t o _ => o

namespace Directive

variable {inner : MarkupInner}

theorem clean_modelModifiers (ts : List Token) : Clean scope (fun _ => []) (modelModifiers ts) := by
  induction ts with
  | nil => exact fun _ => yields_pure.mpr (.refl _)
  | cons t ts ih =>
    intro s
    unfold modelModifiers
    split
    · exact yields_failAt.mpr trivial
    · exact yields_bind.mpr ((ih s).mono fun _ t o => yields_pure.mpr o)

theorem yields_modelParser_clean (h : inner.IsClean scope)
    (name : (scope.stream.get (s.cursor + 1)).kind ≠ .invalid) :
    Yields (modelParser inner) scope s fun d t => scope.Accounts s.cursor t.cursor d.fragments := by
  simp [modelParser]
  refine (yields_directiveHead_clean name _).mono fun head t o => ?_
  refine (clean_modelModifiers _).step o fun modifiers t o => ?_
  exact (MarkupInner.clean_condition h).step o fun e t o _ => o

theorem clean_attributeParser (h : Expr.IsClean scope expr) :
    Clean scope (fun a => [.expression a.value]) (attributeParser expr) := by
  intro s
  simp [attributeParser]
  refine (clean_attributeName s).mono fun name t o eq => ?_
  exact h.step (o.read eq (by simp)) fun e t o => o

theorem yields_a11yParser_clean (h : Expr.IsClean scope expr)
    (name : (scope.stream.get (s.cursor + 1)).kind ≠ .invalid) :
    Yields (a11yParser expr) scope s fun d t => scope.Accounts s.cursor t.cursor d.fragments := by
  simp [a11yParser]
  refine (yields_plainHead_clean name).mono fun head t o opening => ?_
  exact (Clean.commaSeparated _ (clean_attributeParser h)).step (o.read opening (by simp))
    fun attributes t o closing => o.read closing (by simp)

theorem clean_optionalArgument {α : Type} {fragments : α → List Fragment} {item : Parser α}
    (h : Clean scope fragments item) (span : Span) :
    Clean scope (·.1.toList.flatMap fragments) (optionalArgument item span) := by
  intro s
  have o : scope.Accounts s.cursor s.cursor [] := .refl _
  simp [optionalArgument]
  refine ⟨fun opening => ⟨fun closing => ?_, fun _ => ?_⟩, fun _ => o⟩
  · exact (o.read opening (by simp)).read closing (by simp)
  · refine h.step (o.read opening (by simp)) fun a t o closing => ?_
    simpa using o.read closing (by simp)

theorem yields_liveParser_clean (name : (scope.stream.get (s.cursor + 1)).kind ≠ .invalid) :
    Yields liveParser scope s fun d t => scope.Accounts s.cursor t.cursor d.fragments := by
  have priority : Clean scope (fun _ => []) (expectStringOr .identifier) := by
    intro s
    have o : scope.Accounts s.cursor s.cursor [] := .refl _
    simp
    exact fun value => value.elim (o.read · (by simp)) (o.read · (by simp))
  simp [liveParser]
  refine (yields_plainHead_clean name).mono fun head t o => ?_
  exact (clean_optionalArgument priority _).step o fun _ t o => o.widen (by simp)

theorem yields_focusTrapParser_clean (h : Expr.IsClean scope expr)
    (name : (scope.stream.get (s.cursor + 1)).kind ≠ .invalid) :
    Yields (focusTrapParser expr) scope s fun d t =>
      scope.Accounts s.cursor t.cursor d.fragments := by
  simp [focusTrapParser]
  refine (yields_plainHead_clean name).mono fun head t o => ?_
  refine (clean_optionalArgument h _).step o fun options t o => o.widen ?_
  simp [fragments]
  grind

theorem parser_yields_clean (h : inner.IsClean scope)
    (name : (scope.stream.get (s.cursor + 1)).kind ≠ .invalid) :
    Yields (parser inner) scope s fun d t => scope.Accounts s.cursor t.cursor d.fragments := by
  simp [parser]
  refine ⟨fun _ => yields_modelParser_clean h name, fun _ => ⟨fun _ =>
    yields_a11yParser_clean h.expr name, fun _ => ⟨fun _ => yields_liveParser_clean name,
    fun _ => ⟨fun _ => yields_focusTrapParser_clean h.expr name, fun _ => ⟨fun _ => ?_,
    fun _ => ⟨fun _ => ?_, ?_⟩⟩⟩⟩⟩⟩
  · exact yields_plainHead_clean name
  · exact BoundaryTarget.parser_yields_clean name
  · exact fun _ _ => EventHandler.parser_yields_clean h.arguments name

end Directive

namespace MarkupNode

variable {inner : MarkupInner}

def ElementTail.fragments (tail : ElementTail) : List Fragment :=
  tail.directives.toList.flatMap Directive.fragments ++ tail.texts.toList.map .text

theorem yields_elementPart_clean (h : inner.IsClean scope) (tail : ElementTail)
    (o : scope.Accounts i s.cursor tail.fragments) :
    Yields (elementPart inner tail) scope s fun next t =>
      scope.Accounts i t.cursor (next.getD tail).fragments := by
  have text {kind : TokenKind} (hk : (scope.stream.get s.cursor).kind = kind)
      (valid : kind ≠ .invalid) :
      Yields (TextNode.parser (scope.stream.get s.cursor)) scope (s.next scope) fun node u =>
        scope.Accounts i u.cursor ({ tail with
          texts := tail.texts.push node
          span := tail.span.cover node.span } : ElementTail).fragments :=
    (TextNode.parser_clean _).step (o.read hk valid) fun node u o =>
      o.widen (by simp [ElementTail.fragments])
  refine yields_bind.mpr (yields_current.mpr ?_)
  split
  · simp
    refine Directive.yields_attaches fun attaches name => ⟨fun _ => o, fun yes => ?_⟩
    refine (Directive.parser_yields_clean h (by rw [name yes]; nofun)).mono fun d t own => ?_
    refine (o.append own).widen ?_
    simp [ElementTail.fragments]
    grind
  · next kind => simpa using text kind nofun
  · next kind => simpa using text kind nofun
  · exact yields_pure.mpr o

theorem yields_elementParser_clean (h : inner.IsClean scope) {kind : TokenKind}
    (hk : (scope.stream.get s.cursor).kind = kind) (valid : kind ≠ .invalid) :
    Yields (elementParser inner) scope s fun n t =>
      scope.Accounts s.cursor t.cursor n.fragments := by
  unfold elementParser
  refine yields_bind.mpr (yields_advance.mpr ?_)
  refine yields_bind.mpr (yields_isSymbol.mpr ?_)
  extract_lets rest
  have tail {start : List ElementProp × Span} {t : ParserState}
      (o : scope.Accounts s.cursor t.cursor (start.1.flatMap ElementProp.fragments)) :
      Yields (rest start) scope t fun n u => scope.Accounts s.cursor u.cursor n.fragments := by
    simp [rest]
    refine (Clean.chain ElementTail.fragments
      (fun tail i s o => yields_elementPart_clean h tail o) (by simp [ElementTail.fragments])).step o
      fun tail t o => ?_
    refine (MarkupInner.clean_optionalChildren h _).step o fun nodes t o => o.widen ?_
    simp [fragments, ElementTail.fragments]
  clear_value rest
  have o := (Scope.Accounts.refl s.cursor : scope.Accounts _ _ []).read hk valid
  simp
  exact ⟨fun _ => (ElementProp.clean_listParser h.expr).step o fun props t o => tail o,
    fun _ => tail o⟩

theorem clean_branchHead : Clean scope (fun _ => []) branchHead := by
  intro s
  have o : scope.Accounts s.cursor s.cursor [] := .refl _
  simp [branchHead]
  refine ⟨fun _ => o, fun atSign => ⟨fun name _ =>
      o.readTwo atSign (by simp) (by simp) name (by simp),
    fun _ => ⟨fun word => ?_, fun _ => o⟩⟩⟩
  have o := o.readTwo atSign (by simp) (by simp) word (by simp)
  exact ⟨fun atSign word => o.readTwo atSign (by simp) (by simp) word (by simp),
    fun _ => ⟨fun word => o.read word (by simp), fun _ => o⟩⟩

def Branches.fragments (branches : Branches) : List Fragment :=
  branches.more.toList.flatMap Branch.fragments ++
    (branches.alternate.getD []).flatMap MarkupNode.fragments

theorem yields_branchParser_clean (h : inner.IsClean scope) (branches : Branches)
    (open_ : branches.alternate = none) (o : scope.Accounts i s.cursor branches.fragments) :
    Yields (branchParser inner branches) scope s (Keeps
      (fun next t => next.alternate = none ∧ scope.Accounts i t.cursor next.fragments)
      fun next t => scope.Accounts i t.cursor next.fragments) := by
  refine yields_bind.mpr (yields_current.mpr (yields_bind.mpr ?_))
  refine clean_branchHead.step o fun head t o => ?_
  split
  · exact yields_pure.mpr (by simpa [Keeps] using o)
  · simp
    refine (MarkupInner.clean_condition h).step o fun condition t o => ?_
    refine (MarkupInner.clean_children h).step o fun nodes t o => ⟨open_, o.widen ?_⟩
    simp [Branches.fragments, Branch.fragments, open_]
  · simp
    refine (MarkupInner.clean_children h).step o fun nodes t o => o.widen ?_
    simp [Branches.fragments, open_]

theorem clean_conditionalParser (h : inner.IsClean scope) :
    Clean scope fragments (conditionalParser inner) := by
  intro s
  simp [conditionalParser]
  intro atSign word
  refine (MarkupInner.clean_condition h).step
    (((Scope.Accounts.refl _).read atSign (by simp)).read word (by simp)) fun condition t o => ?_
  refine (MarkupInner.clean_children h).step o fun nodes t o => ?_
  have more : Clean scope Branches.fragments (Parser.loop (branchParser inner) ⟨#[], none, nodes.2⟩) :=
    fun s => yields_loop_last (I := fun (branches : Branches) t => branches.alternate = none ∧
        scope.Accounts s.cursor t.cursor branches.fragments) (fun _ _ own => own.2)
      (fun branches t own => yields_branchParser_clean h branches own.1 own.2)
      ⟨rfl, .refl s.cursor⟩
  refine more.step o fun branches t o => o.widen ?_
  cases alternate : branches.alternate with
  | none => simp [fragments, Branches.fragments, alternate]
  | some nodes =>
    simp [fragments, Branches.fragments, alternate]

theorem yields_iterationKind_clean {fs : List Fragment} (o : scope.Accounts i s.cursor fs) :
    Yields iterationKind scope s fun _ t => scope.Accounts i t.cursor fs := by
  simp [iterationKind]
  split
  · next word => simpa using o.read word (by simp)
  · simp
    exact fun word => o.read word (by simp)

theorem clean_loopHead (h : inner.IsClean scope) (keyword : LoopKeyword) :
    Clean scope LoopHead.fragments (loopHead inner keyword) := by
  intro s
  refine yields_bind.mpr (yields_expectSymbol.mpr fun opening => ?_)
  refine yields_bind.mpr (yields_expect.mpr fun item => ?_)
  refine yields_bind.mpr ?_
  extract_lets rest
  have tail {index : Option String} {t : ParserState} (o : scope.Accounts s.cursor t.cursor []) :
      Yields (rest index) scope t fun head u => scope.Accounts s.cursor u.cursor head.fragments := by
    simp [rest, keyFollows]
    refine (yields_iterationKind_clean o).mono fun kind t o => ?_
    refine h.expr.step o fun iterable t o closing => ?_
    have o := o.read closing (by simp)
    refine ⟨fun word _ _ => ?_, fun _ => o⟩
    have o := word.elim (o.read · (by simp)) (o.read · (by simp))
    exact (MarkupInner.clean_condition h).step o fun key t o => o
  clear_value rest
  simp
  have o := ((Scope.Accounts.refl s.cursor : scope.Accounts _ _ []).read opening (by simp)).read item
    (by simp)
  exact ⟨fun comma index => tail ((o.read comma (by simp)).read index (by simp)), fun _ => tail o⟩

theorem yields_loopParser_clean (h : inner.IsClean scope)
    (name : (scope.stream.get (s.cursor + 1)).kind ≠ .invalid) :
    Yields (loopParser inner) scope s fun n t => scope.Accounts s.cursor t.cursor n.fragments := by
  simp [loopParser]
  intro atSign
  refine (clean_loopHead h _).step
    ((Scope.Accounts.refl _).readTwo atSign (by simp) (by simp) rfl name)
    fun head t o => ?_
  refine (MarkupInner.clean_children h).step o fun nodes t o => ?_
  exact o.widen (by simp [fragments])

theorem clean_slotParser (h : inner.IsClean scope) : Clean scope fragments (slotParser inner) := by
  intro s
  have fallback {t : ParserState} (o : scope.Accounts s.cursor t.cursor [])
      (name : Option String) (span : Span) :
      Yields (inner.optionalChildren span) scope t fun nodes u =>
        scope.Accounts s.cursor u.cursor (slot name nodes.1 nodes.2).fragments :=
    (MarkupInner.clean_optionalChildren h _).step o fun nodes t o =>
      o.widen (by simp [fragments])
  have o : scope.Accounts s.cursor s.cursor [] := .refl _
  simp [slotParser]
  exact fun word => ⟨fun name => fallback ((o.read word (by simp)).read name (by simp)) _ _,
    fun _ => fallback (o.read word (by simp)) _ _⟩

theorem clean_pathArguments (h : inner.IsClean scope) (name : String) :
    Clean scope (fun a => .expression a.1 :: a.2.1.toList.map .expression)
      (pathArguments inner name) := by
  intro s
  simp [pathArguments]
  refine (h.arguments s).mono fun args t o => ?_
  split
  · next path same => exact yields_pure.mpr (by simpa [same] using o)
  · next path options same => exact yields_pure.mpr (by simpa [same] using o)
  · simp

theorem yields_linkParser_clean (h : inner.IsClean scope)
    (name : (scope.stream.get (s.cursor + 1)).kind ≠ .invalid) :
    Yields (linkParser inner) scope s fun n t => scope.Accounts s.cursor t.cursor n.fragments := by
  refine yields_bind.mpr ((yields_plainHead_clean name).mono fun head t o => ?_)
  refine yields_bind.mpr ((clean_pathArguments h _).step o ?_)
  rintro ⟨path, options, close⟩ t o
  refine yields_bind.mpr (yields_current.mpr ?_)
  extract_lets span rest
  have tail {caption : Option TextNode × Span} {t : ParserState}
      (o : scope.Accounts s.cursor t.cursor
        (.expression path :: (options.toList.map .expression ++ caption.1.toList.map .text))) :
      Yields (rest caption) scope t fun n u => scope.Accounts s.cursor u.cursor n.fragments := by
    simp [rest]
    refine (MarkupInner.clean_optionalChildren h _).step o fun nodes t o => o.widen ?_
    simp [fragments]
  clear_value rest
  simp
  refine ⟨fun word => ?_, fun _ _ => tail (by simpa using o)⟩
  exact (TextNode.parser_clean _).step (word.elim (o.read · (by simp)) (o.read · (by simp)))
    fun node t o => tail o

theorem yields_outletParser_clean (h : inner.IsClean scope)
    (name : (scope.stream.get (s.cursor + 1)).kind ≠ .invalid) :
    Yields (outletParser inner) scope s fun n t => scope.Accounts s.cursor t.cursor n.fragments := by
  simp [outletParser]
  refine (yields_plainHead_clean name).mono fun head t o => ⟨fun _ => o, fun _ => ?_⟩
  refine h.arguments.step o fun args t o => ?_
  split
  · simp
  · next few => simpa [fragments, Expr.toList_head? few] using o

theorem yields_navigateParser_clean (h : inner.IsClean scope)
    (name : (scope.stream.get (s.cursor + 1)).kind ≠ .invalid) :
    Yields (navigateParser inner) scope s fun n t =>
      scope.Accounts s.cursor t.cursor n.fragments := by
  simp [navigateParser]
  refine (yields_plainHead_clean name).mono fun head t o => ?_
  exact (clean_pathArguments h _).step o fun path t o => o

theorem yields_emptyArguments_clean (name : (scope.stream.get (s.cursor + 1)).kind ≠ .invalid) :
    Yields emptyArguments scope s fun _ t => scope.Accounts s.cursor t.cursor [] := by
  simp [emptyArguments]
  exact (yields_plainHead_clean name).mono fun head t o =>
    ⟨fun opening closing => (o.read opening (by simp)).read closing (by simp), fun _ => o⟩

theorem yields_namedDirective_clean (h : inner.IsClean scope)
    (name : (scope.stream.get (s.cursor + 1)).kind ≠ .invalid) (text : String) :
    Yields (namedDirective inner text) scope s fun n t =>
      scope.Accounts s.cursor t.cursor n.fragments := by
  simp [namedDirective]
  refine fun _ => ⟨fun _ => ?_, fun _ _ _ _ _ _ _ => ?_⟩
  · refine (BoundaryTarget.parser_yields_clean name).mono fun head t o => ?_
    exact (MarkupInner.clean_optionalChildren h _).step o fun nodes t o =>
      o.widen (by simp [fragments])
  · refine (EventHandler.parser_yields_clean h.arguments name).mono fun handler t o => ?_
    exact (MarkupInner.clean_optionalChildren h _).step o fun nodes t o =>
      o.widen (by simp [fragments])

theorem clean_directiveParser (h : inner.IsClean scope) :
    Clean scope fragments (directiveParser inner) := by
  intro s
  refine yields_bind.mpr (yields_peek.mpr ?_)
  split
  · exact clean_conditionalParser h s
  · next name => exact yields_loopParser_clean h (by rw [name]; nofun)
  · next name => exact yields_loopParser_clean h (by rw [name]; nofun)
  · next name => exact yields_linkParser_clean h (by rw [name]; nofun)
  · next name => exact yields_outletParser_clean h (by rw [name]; nofun)
  · next name => exact yields_navigateParser_clean h (by rw [name]; nofun)
  · next name =>
    simp
    exact yields_emptyArguments_clean (by rw [name]; nofun)
  · next name =>
    simp
    exact yields_emptyArguments_clean (by rw [name]; nofun)
  · exact yields_fail.mpr trivial
  · next name => exact yields_namedDirective_clean h (by rw [name]; nofun) _
  · simp

theorem clean_parserAt (h : inner.IsClean scope) : Clean scope fragments (parserAt inner) := by
  intro s
  have textNode {kind : TokenKind} (hk : (scope.stream.get s.cursor).kind = kind)
      (valid : kind ≠ .invalid) :
      Yields (return text (← TextNode.parser (← advance))) scope s fun n t =>
        scope.Accounts s.cursor t.cursor n.fragments := by
    simp
    exact (TextNode.parser_clean _).step ((Scope.Accounts.refl _).read hk valid) fun node t o => o
  have literal {kind : TokenKind} (hk : (scope.stream.get s.cursor).kind = kind)
      (valid : kind ≠ .invalid) :
      Yields (return text (.ofLiteral (← advance))) scope s fun n t =>
        scope.Accounts s.cursor t.cursor n.fragments := by
    simp
    exact ((Scope.Accounts.refl _).read hk valid).widen (by simp)
  refine yields_bind.mpr (yields_current.mpr ?_)
  split
  · next kind => exact yields_elementParser_clean h kind nofun
  · next kind => exact yields_elementParser_clean h kind nofun
  · next kind => exact textNode kind nofun
  · next kind => exact textNode kind nofun
  · next kind => exact literal kind nofun
  · next kind => exact literal kind nofun
  · next kind => exact literal kind nofun
  · next kind => exact literal kind nofun
  · next kind => exact literal kind nofun
  · exact clean_slotParser h s
  · exact clean_directiveParser h s
  · exact yields_failWanted.mpr trivial

theorem parser_clean (inFile : scope.quotation = none) : Clean scope fragments parser := by
  refine .withLevels fun levels => ?_
  induction levels with
  | zero => exact fun _ => yields_failTooDeep.mpr trivial
  | succ levels ih =>
    exact (clean_parserAt ⟨Expr.parser_clean inFile,
      Expr.clean_arguments inFile (Expr.parser_sound scope), ih⟩).deeper

end MarkupNode

theorem ViewBlock.parser_clean (inFile : scope.quotation = none) : Clean scope fragments parser := by
  intro s
  simp [parser]
  intro word
  exact (MarkupNode.parser_clean inFile).braced.step ((Scope.Accounts.refl _).read word (by simp))
    fun nodes t o => o

end PulseSyntax
