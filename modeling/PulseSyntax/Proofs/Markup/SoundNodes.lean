import PulseSyntax.Proofs.Markup.Sound

namespace PulseSyntax

open PulseSyntax.Parser Lexeme

variable {scope : Scope} {first depth braces levels : Nat} {s : ParserState} {inner : MarkupInner}

namespace TextNode

variable {read : Nat → List Char → Except ParseError Expr} {place : Place} {before : List Char}

theorem assemble_plain {segments : List TextSegment} {parts : List TextPart}
    (ok : assemble read place before segments = .ok parts)
    (plain : ∀ p ∈ parts, p.isInterpolation = false) : ∃ chars, parts = literalPart chars := by
  induction segments generalizing before with
  | nil =>
    cases ok
    exact ⟨before, rfl⟩
  | cons segment rest ih =>
    cases segment with
    | char c => exact ih ok
    | unclosed => cases ok
    | hole start hole =>
      obtain ⟨-, e, more, -, -, rfl⟩ := assemble_hole_eq_ok.mp ok
      exact nomatch plain (.interpolation (String.ofList (Text.trim hole)) e) (by simp)

theorem isPlain_of_ofToken {options : Options} {t : Token} {node : TextNode}
    (ok : ofToken options t = .ok node) (plain : node.isInterpolated = false) : node.IsPlain := by
  obtain ⟨parts, -⟩ := ofToken_eq_ok.mp ok
  obtain ⟨chars, same⟩ := assemble_plain parts (by simpa [isInterpolated] using plain)
  unfold literalPart at same
  split at same
  · exact .inl same
  · next some =>
    refine .inr ⟨_, ?_, same⟩
    simpa using some

theorem parser_finds (t : Token) :
    Finds scope first depth (fun node => node.isInterpolated = false → node.IsPlain) (parser t) := by
  intro braces s o
  simp only [parser, yields_bind, yields_scope]
  cases read : ofToken scope.options t with
  | error e =>
    intro a s failed
    cases failed
  | ok node => exact yields_pure.mpr ⟨o, isPlain_of_ofToken read⟩

theorem bare?_number {l : Lexeme} (stable : l.IsStable fun _ => True)
    (number : l.kind = .number ∨ l.kind = .bigInt) : l.raw ≠ "" ∧ (bare? l.raw).isSome := by
  obtain ⟨c, own, raw, scans⟩ := stable
  have scanned := scans .initial [] trivial
  have some : l.raw ≠ "" := by
    intro empty
    rw [empty] at raw
    cases raw
  refine ⟨some, ?_⟩
  unfold bare?
  split
  · rfl
  · rw [raw]
    dsimp only
    rw [scanned, Lexeme.piece, raw]
    rcases number with kind | kind <;> simp [kind]

theorem ofLiteral_spelled {t : Token} (spelled : t.own.IsSpelled false)
    (kind : t.kind ∈ [.number, .bigInt, .keyword .true_, .keyword .false_, .keyword .null]) :
    (ofLiteral t).IsPlain ∧ (ofLiteral t).alone.kind ≠ .string := by
  obtain ⟨some, bare⟩ : t.raw ≠ "" ∧ (bare? t.raw).isSome := by
    simp only [List.mem_cons, List.not_mem_nil, or_false] at kind
    have literal {k : Keyword} (own : t.kind = .keyword k)
        (listed : k.spelling ≠ "" ∧ ["true", "false", "null"].contains k.spelling) :
        t.raw ≠ "" ∧ (bare? t.raw).isSome := by
      obtain ⟨-, whole⟩ := Expr.word_of_isSpelled spelled (.inr (by rw [own]; rfl))
      have raw : t.raw = k.spelling := Expr.word_eq_spelling (whole ▸ own)
      rw [raw, bare?, if_pos listed.2]
      exact ⟨listed.1, rfl⟩
    rcases kind with own | own | own | own | own
    · rw [IsSpelled, show t.own.kind = _ from own] at spelled
      exact bare?_number spelled.2 (.inl own)
    · rw [IsSpelled, show t.own.kind = _ from own] at spelled
      exact bare?_number spelled.2 (.inr own)
    · exact literal own (by decide)
    · exact literal own (by decide)
    · exact literal own (by decide)
  refine ⟨.inr ⟨t.raw, some, rfl⟩, ?_⟩
  obtain ⟨l, same⟩ := Option.isSome_iff_exists.mp bare
  have own : (ofLiteral t).alone = l := by
    change (bare? t.raw).getD _ = l
    rw [same]
    rfl
  have kinds : ∀ kind ∈ [.number, .bigInt, .keyword .true_, .keyword .false_, .keyword .null],
      kind ≠ TokenKind.string := by decide
  rw [own]
  exact kinds _ (bare?_stable same).2.2

end TextNode

namespace MarkupNode

variable {n : MarkupNode} {ns : List MarkupNode}

theorem joins_eq (scope : Scope) (s : ParserState) : joins (scope.remaining s) =
    match (scope.stream.get s.cursor).kind with
    | .string | .template => true
    | .symbol .atSign => Directive.joins (scope.remaining s)
    | _ => false := by
  have kind : (scope.stream.get s.cursor).kind = _ := Scope.kind_of_remaining rfl
  unfold joins
  generalize (scope.stream.get s.cursor).kind = k at kind ⊢
  subst kind
  rfl

/-- What is known of a node that is read from one state to another. -/
structure IsFound (scope : Scope) (first depth braces levels : Nat) (s : ParserState) (n : MarkupNode)
    (t : ParserState) : Prop where
  inBlock : t.InBlock scope first depth braces
  writable : Fragment.ArePlain n.fragments → n.IsWritable levels
  part : n.isPart → joins (scope.remaining s)
  isOpen : n.isOpen → joins (scope.remaining t) = false

structure AreFound (levels : Nat) (ns : List MarkupNode) : Prop where
  writable : ∀ n ∈ ns, Fragment.ArePlain n.fragments → n.IsWritable levels
  apart : AreApart ns

theorem AreFound.nil : AreFound levels [] := ⟨nofun, .nil⟩

end MarkupNode

open MarkupNode

/-- The readers of what stands inside a node find what can be written. -/
structure MarkupInner.Finding (scope : Scope) (first depth levels : Nat) (inner : MarkupInner) :
    Prop where
  expr : Finds scope first depth (Expr.CanWriteIn levels) inner.expr
  node : ∀ ⦃braces s⦄, s.InBlock scope first depth braces →
    Yields inner.node scope s (IsFound scope first depth braces levels s)
  moving : inner.Moving ⟨scope, depth, False⟩

theorem MarkupNode.yields_many_found {node : Parser MarkupNode}
    (h : ∀ ⦃s⦄, s.InBlock scope first depth braces →
      Yields node scope s (IsFound scope first depth braces levels s))
    (o : s.InBlock scope first depth braces) :
    Yields (many .closeBrace node) scope s fun ns t =>
      t.InBlock scope first depth braces ∧ AreFound levels ns := by
  simp only [many, manyAfter, yields_bind, yields_pure]
  refine (yields_loop (I := fun (ns : Array MarkupNode) u => u.InBlock scope first depth braces ∧
    AreFound levels ns.toList ∧
      ∀ n ∈ ns.toList.getLast?, n.isOpen → joins (scope.remaining u) = false) (fun ns u inv => ?_)
    ⟨o, .nil, by simp⟩).mono fun ns u inv => ⟨inv.1, inv.2.1⟩
  obtain ⟨o, found, last⟩ := inv
  simp only [yields_bind, yields_current, yields_ite, yields_pure]
  refine ⟨fun _ => ⟨o, found, last⟩, fun _ => (h o).mono fun n t read => ?_⟩
  rw [ForInStep.value, Array.toList_push]
  refine ⟨read.inBlock, ⟨?_, ?_⟩, ?_⟩
  · simpa [or_imp, forall_and] using And.intro found.writable read.writable
  · rw [AreApart, List.isChain_append]
    refine ⟨found.apart, .singleton n, fun a own b same isOpen => ?_⟩
    obtain rfl : n = b := by simpa using same
    refine Bool.eq_false_iff.mpr fun part => ?_
    rw [read.part part] at last
    exact Bool.noConfusion (last a own isOpen)
  · rw [List.getLast?_concat]
    rintro _ ⟨⟩
    exact read.isOpen

namespace MarkupInner

theorem finds_children (h : inner.Finding scope first depth levels) :
    Finds scope first depth (AreFound levels ·.1) inner.children := by
  intro braces s o
  simp only [children, braced, yields_bind, yields_expectSymbol, yields_pure]
  intro opening
  exact (yields_many_found (fun _ o => h.node o) (o.opening opening)).mono fun ns t found closing =>
    ⟨found.1.closing closing, found.2⟩

theorem yields_optionalChildren_found (h : inner.Finding scope first depth levels) (span : Span)
    (o : s.InBlock scope first depth braces) :
    Yields (inner.optionalChildren span) scope s fun a t => t.InBlock scope first depth braces ∧
      AreFound levels a.1 ∧
        ((scope.stream.get s.cursor).kind ≠ .symbol .openBrace → a.1 = [] ∧ t = s) := by
  simp only [optionalChildren, yields_bind, yields_isSymbol, yields_ite, yields_pure, beq_iff_eq]
  refine ⟨fun opening => ?_, fun _ => ⟨o, .nil, by simp⟩⟩
  exact (finds_children h).step o fun nodes t o found => ⟨o, found, fun other => absurd opening other⟩

end MarkupInner

/-- The name after an `@` is that of a directive which belongs to the element before it. -/
structure Scope.Attaches (scope : Scope) (i : Nat) : Prop where
  name : (scope.stream.get (i + 1)).kind = .identifier
  noBranch : (scope.stream.get (i + 1)).text ≠ "else-if"
  noBlock : (scope.stream.get (i + 1)).text = "client" ∨ (scope.stream.get (i + 1)).text = "server" →
    (scope.stream.get (i + 2)).kind ≠ .symbol .openBrace

theorem Directive.yields_attaches_joins {Q : Bool → ParserState → Prop}
    (h : ∀ a, a = joins (scope.remaining s) → (a = true → scope.Attaches s.cursor) → Q a s) :
    Yields attaches scope s Q := by
  have same : Yields attaches scope s fun a t => a = joins (scope.remaining s) ∧ t = s := by
    intro a t ok
    rw [attaches_joins] at ok
    cases ok
    exact ⟨rfl, rfl⟩
  have named : Yields attaches scope s fun a _ => a = true → scope.Attaches s.cursor := by
    simp [attaches]
    exact fun name noBranch => ⟨fun _ noBrace => ⟨name, noBranch, fun _ => noBrace⟩,
      fun noClient noServer => ⟨name, noBranch, fun own => (own.elim noClient noServer).elim⟩⟩
  refine (same.and named).mono ?_
  rintro a t ⟨⟨own, rfl⟩, attached⟩
  exact h a own attached

theorem Directive.joins_of_event (name : (scope.stream.get (s.cursor + 1)).kind = .identifier)
    (noBranch : (scope.stream.get (s.cursor + 1)).text ≠ "else-if")
    (noClient : (scope.stream.get (s.cursor + 1)).text ≠ "client")
    (noServer : (scope.stream.get (s.cursor + 1)).text ≠ "server") :
    joins (scope.remaining s) = true := by
  have same := attaches_joins scope s
  rw [attaches, bind_of_ok peek_apply, if_neg (by simp [name, noBranch]),
    if_neg (by simp [noClient, noServer])] at same
  exact (Reply.ok.inj same).1.symm

namespace MarkupNode

structure ElementTail.IsFound (scope : Scope) (first depth braces levels : Nat) (tail : ElementTail)
    (t : ParserState) : Prop where
  inBlock : t.InBlock scope first depth braces
  directives : ∀ d ∈ tail.directives, Fragment.ArePlain d.fragments → d.IsWritable levels
  texts : ∀ t ∈ tail.texts, t.isInterpolated = false → t.IsPlain
  noBlock : endsOpen tail.directives.toList tail.texts.toList →
    (scope.stream.get t.cursor).kind ≠ .symbol .openBrace

theorem yields_elementPart_found (h : inner.Finding scope first depth levels)
    (spelled : scope.IsSpelled first) {tail : ElementTail}
    (inv : tail.IsFound scope first depth braces levels s) :
    Yields (elementPart inner tail) scope s fun next t =>
      match next with
      | none => tail.IsFound scope first depth braces levels t ∧ joins (scope.remaining t) = false
      | some tail' => tail'.IsFound scope first depth braces levels t := by
  have text {kind : TokenKind} (here : (scope.stream.get s.cursor).kind = kind)
      (plain : kind.isBrace = false) (noAt : kind ≠ .symbol .atSign) :
      Yields (do
        let t ← TextNode.parser (← advance)
        return some { tail with texts := tail.texts.push t, span := tail.span.cover t.span })
        scope s fun next t =>
        match next with
        | none => tail.IsFound scope first depth braces levels t ∧ joins (scope.remaining t) = false
        | some tail' => tail'.IsFound scope first depth braces levels t := by
    simp only [yields_bind, yields_advance, yields_pure]
    refine (TextNode.parser_finds _).step (inv.inBlock.read here plain noAt) fun node t o isPlain => ?_
    refine ⟨o, inv.directives, ?_, ?_⟩
    · simpa [or_imp, forall_and] using And.intro inv.texts isPlain
    · simp [endsOpen]
  refine yields_bind.mpr (yields_current.mpr ?_)
  split
  · next atSign =>
    refine yields_bind.mpr (Directive.yields_attaches_joins fun a own attached => ?_)
    cases a with
    | false =>
      refine yields_pure.mpr ⟨inv, ?_⟩
      rw [joins_eq, atSign]
      exact own.symm
    | true =>
      obtain ⟨name, noBranch, noBlock⟩ := attached rfl
      refine yields_bind.mpr ((Directive.parser_canWrite h.expr spelled inv.inBlock atSign name
        noBranch).mono fun d t found => yields_pure.mpr ⟨found.1.1, ?_, inv.texts, fun ends => ?_⟩)
      · simpa [or_imp, forall_and] using And.intro inv.directives found.1.2
      · obtain ⟨named, cursor⟩ := found.2 (by simp [endsOpen] at ends; exact ends.2)
        rw [cursor]
        exact noBlock named
  · next kind => exact text kind rfl (by simp)
  · next kind => exact text kind rfl (by simp)
  · next noAt noString noTemplate =>
    refine yields_pure.mpr ⟨inv, ?_⟩
    rw [joins_eq]
    split <;> simp_all

theorem stable_selector {t : Token} (spelled : t.own.IsSpelled false)
    (kind : t.kind = .selector ∨ t.kind = .identifier) :
    (Lexeme.selector t.text.toList).IsStable (·.inMarkup) := by
  rcases kind with kind | kind
  · rw [IsSpelled, show t.own.kind = _ from kind] at spelled
    obtain ⟨text, own, stable⟩ := spelled
    rwa [show t.text = String.ofList text from text_of_own own, String.toList_ofList, ← own]
  · obtain ⟨isWord, own⟩ := Expr.word_of_isSpelled spelled (.inl kind)
    have same : (word t.raw).kind = .identifier := own ▸ kind
    unfold word at same own
    split at same
    · cases same
    · next noKeyword =>
      rw [noKeyword] at own
      rw [show t.text = t.raw from text_of_own own]
      exact Lexer.stable_plain isWord noKeyword

theorem yields_elementParser_found (h : inner.Finding scope first depth levels)
    (spelled : scope.IsSpelled first) (o : s.InBlock scope first depth braces)
    (head : (scope.stream.get s.cursor).kind = .selector ∨
      (scope.stream.get s.cursor).kind = .identifier) :
    Yields (elementParser inner) scope s (IsFound scope first depth braces (levels + 1) s) := by
  have stable := stable_selector (o.spelled spelled) head
  have plain (sign : Symbol) : (scope.stream.get s.cursor).kind ≠ .symbol sign := by
    rcases head with head | head <;> simp [head]
  unfold elementParser
  refine yields_bind.mpr (yields_advance.mpr ?_)
  refine yields_bind.mpr (yields_isSymbol.mpr ?_)
  extract_lets rest
  have tail {start : List ElementProp × Span} {t : ParserState}
      (o : t.InBlock scope first depth braces)
      (props : ∀ p ∈ start.1, Fragment.ArePlain p.fragments → p.IsWritable levels) :
      Yields (rest start) scope t (IsFound scope first depth braces (levels + 1) s) := by
    have parts : Yields (chain (elementPart inner) ⟨#[], #[], start.2⟩) scope t fun tail u =>
        tail.IsFound scope first depth braces levels u ∧ joins (scope.remaining u) = false := by
      refine yields_chain_until (extending_elementPart h.moving fun fits => fits.elim)
        (I := fun (tail : ElementTail) u => tail.IsFound scope first depth braces levels u)
        (fun tail u inv => ?_) o.depth ⟨o, by simp, by simp, by simp [endsOpen]⟩
      refine (yields_elementPart_found h spelled inv).mono fun next v found => ?_
      cases next <;> exact found
    simp only [rest, yields_bind, yields_pure]
    refine parts.mono fun tail u found => ?_
    obtain ⟨⟨o, directives, texts, noBlock⟩, apart⟩ := found
    refine (MarkupInner.yields_optionalChildren_found h _ o).mono fun nodes v found => ?_
    obtain ⟨o, children, none⟩ := found
    refine ⟨o, fun inner => ?_, by simp [isPart], fun open_ => ?_⟩
    · simp [fragments] at inner
      obtain ⟨plainProps, plainDirectives, plainTexts, plainNodes⟩ := inner
      exact .element stable (fun p own => props p own (plainProps p own))
        (fun d own => directives d (by simpa using own) (plainDirectives d (by simpa using own)))
        (fun t own => texts t (by simpa using own) (plainTexts t (by simpa using own)))
        (fun open_ => (none (noBlock open_)).1)
        (fun n own => children.writable n own (plainNodes n own)) children.apart
    · rw [(none (noBlock open_)).2]
      exact apart
  clear_value rest
  simp
  exact ⟨fun _ => (ElementProp.finds_listParser h.expr spelled).step (o.readPlain plain)
    fun props t o writable => tail o writable, fun _ => tail (o.readPlain plain) (by simp)⟩

theorem yields_branchHead_in (o : s.InBlock scope first depth braces) :
    Yields branchHead scope s fun _ t => t.InBlock scope first depth braces := by
  have head {s : ParserState} (o : s.InBlock scope first depth braces)
      (atSign : (scope.stream.get s.cursor).kind = .symbol .atSign) {k : TokenKind}
      (name : (scope.stream.get (s.cursor + 1)).kind = k) (word : k = .identifier ∨ k.isKeyword) :
      ((s.next scope).next scope).InBlock scope first depth braces :=
    o.readHead atSign (by rwa [Scope.IsBeforeWord, name])
  simp [branchHead]
  refine ⟨fun _ => o, fun atSign => ⟨fun name _ => head o atSign name (.inl rfl), fun _ =>
    ⟨fun word => ?_, fun _ => o⟩⟩⟩
  have o := head o atSign word (.inr rfl)
  exact ⟨fun atSign word => head o atSign word (.inr rfl),
    fun _ => ⟨fun word => o.read word rfl (by simp), fun _ => o⟩⟩

structure Branches.CanWrite (levels : Nat) (branches : Branches) : Prop where
  more : ∀ b ∈ branches.more, Fragment.ArePlain b.fragments → b.condition.IsWritableIn levels ∧
    ∀ n ∈ b.nodes, n.IsWritable levels
  moreApart : ∀ b ∈ branches.more, AreApart b.nodes
  alternate : ∀ nodes ∈ branches.alternate, AreFound levels nodes

theorem finds_branchParser (h : inner.Finding scope first depth levels) {branches : Branches}
    (inv : branches.CanWrite levels) :
    Finds scope first depth (fun next => Branches.CanWrite levels next.value)
      (branchParser inner branches) := by
  intro braces s o
  refine yields_bind.mpr (yields_current.mpr (yields_bind.mpr ?_))
  refine (yields_branchHead_in o).mono fun head t o => ?_
  split
  · exact yields_pure.mpr ⟨o, inv⟩
  · simp only [yields_bind, yields_pure]
    refine (MarkupInner.finds_condition h.expr).step o fun condition t o writable => ?_
    refine (MarkupInner.finds_children h).step o fun nodes t o found => ⟨o, ?_⟩
    have own : Fragment.ArePlain (Branch.mk condition nodes.1 default).fragments →
        condition.IsWritableIn levels ∧ ∀ n ∈ nodes.1, n.IsWritable levels := by
      intro plain
      simp [Branch.fragments] at plain
      exact ⟨writable plain.1, fun n own => found.writable n own (plain.2 n own)⟩
    refine { inv with more := Array.forall_mem_push.mpr ⟨own, inv.more⟩, moreApart := ?_ }
    exact Array.forall_mem_push.mpr ⟨found.apart, inv.moreApart⟩
  · simp only [yields_bind, yields_pure]
    refine (MarkupInner.finds_children h).step o fun nodes t o found => ⟨o, ?_⟩
    refine { inv with alternate := ?_ }
    rintro _ ⟨⟩
    exact found

theorem IsFound.closed {t : ParserState} (o : t.InBlock scope first depth braces)
    (writable : Fragment.ArePlain n.fragments → n.IsWritable levels) (noPart : n.isPart = false)
    (closed : n.isOpen = false) : IsFound scope first depth braces levels s n t where
  inBlock := o
  writable := writable
  part part := by simp [noPart] at part
  isOpen open_ := by simp [closed] at open_

theorem yields_conditionalParser_found (h : inner.Finding scope first depth levels)
    (o : s.InBlock scope first depth braces)
    (word : (scope.stream.get (s.cursor + 1)).kind = .keyword .if_) :
    Yields (conditionalParser inner) scope s (IsFound scope first depth braces (levels + 1) s) := by
  simp only [conditionalParser, yields_bind, yields_expectSymbol, yields_expectKeyword, yields_pure]
  intro atSign _
  have o := o.readHead atSign (.inr (by rw [word]; rfl))
  refine (MarkupInner.finds_condition h.expr).step o fun condition t o writable => ?_
  refine (MarkupInner.finds_children h).step o fun nodes t o found => ?_
  refine (yields_loop (I := fun branches u => u.InBlock scope first depth braces ∧
    Branches.CanWrite levels branches) (fun branches u inv => finds_branchParser h inv.2 inv.1)
    ⟨o, by simp, by simp, by simp⟩).mono fun branches u inv => ?_
  obtain ⟨o, found'⟩ := inv
  refine .closed o (fun plain => ?_) rfl rfl
  obtain ⟨more, alternate, span⟩ := branches
  have split : Fragment.ArePlain (.expression condition :: (nodes.1.flatMap MarkupNode.fragments ++
      (more.toList.flatMap Branch.fragments ++
        alternate.toList.flatMap fun ns => ns.flatMap MarkupNode.fragments))) := by
    cases alternate with
    | none => simpa [fragments] using plain
    | some ns => simpa [fragments] using plain
  simp at split
  obtain ⟨test, consequent, branches, alternate'⟩ := split
  refine .conditional (writable test) (fun n own => found.writable n own (consequent n own)) found.apart
    (fun b own => (found'.more b (by simpa using own) (branches b (by simpa using own))).1)
    (fun b own => (found'.more b (by simpa using own) (branches b (by simpa using own))).2)
    (fun b own => found'.moreApart b (by simpa using own)) (fun ns own n member => ?_)
    fun ns own => (found'.alternate ns own).apart
  exact (found'.alternate ns own).writable n member (alternate' ns own n member)

theorem finds_iterationKind : Finds scope first depth (fun _ => True) iterationKind := by
  intro braces s o
  simp [iterationKind]
  split
  · next word => simpa using o.read word rfl (by simp)
  · simpa using fun word => o.read word rfl (by simp)

theorem finds_loopHead (h : inner.Finding scope first depth levels) (spelled : scope.IsSpelled first)
    (keyword : LoopKeyword) :
    Finds scope first depth (fun head => Fragment.ArePlain head.fragments → head.IsWritable levels)
      (loopHead inner keyword) := by
  intro braces s o
  refine yields_bind.mpr (yields_expectSymbol.mpr fun opening => ?_)
  have o := o.read opening rfl (by simp)
  refine yields_bind.mpr (yields_expect.mpr fun item => ?_)
  have itemWord := o.word_of_identifier spelled item
  refine yields_bind.mpr ?_
  extract_lets rest
  have tail {index : Option String} {t : ParserState} (o : t.InBlock scope first depth braces)
      (indexWord : ∀ name ∈ index, Word.IsWord name.toList ∧ (word name).kind = .identifier) :
      Yields (rest index) scope t fun head u => u.InBlock scope first depth braces ∧
        (Fragment.ArePlain head.fragments → head.IsWritable levels) := by
    simp [rest, keyFollows]
    refine finds_iterationKind.step o fun kind t o _ => ?_
    refine h.expr.step o fun iterable t o writable closing => ?_
    have o := o.read closing rfl (by simp)
    refine ⟨fun word _ _ => ?_, fun _ => ⟨o, fun plain => ?_⟩⟩
    · have o := word.elim (o.read · rfl (by simp)) (o.read · rfl (by simp))
      refine (MarkupInner.finds_condition h.expr).step o fun key t o keyWritable => ⟨o, fun plain => ?_⟩
      intro plainKey
      exact ⟨itemWord, indexWord, writable plain, by simpa using keyWritable plainKey⟩
    · exact ⟨itemWord, indexWord, writable plain, by simp⟩
  clear_value rest
  simp only [yields_bind, yields_eatSymbol, yields_ite, yields_expect, yields_pure]
  have o := o.read item rfl (by simp)
  refine ⟨fun comma => ⟨fun _ index => ?_, by simp⟩, fun _ => ⟨by simp, fun _ => tail o (by simp)⟩⟩
  have o := o.read comma rfl (by simp)
  exact tail (o.read index rfl (by simp)) (by simpa using o.word_of_identifier spelled index)

theorem yields_loopParser_found (h : inner.Finding scope first depth levels)
    (spelled : scope.IsSpelled first) (o : s.InBlock scope first depth braces)
    (word : (scope.stream.get (s.cursor + 1)).kind.isKeyword) :
    Yields (loopParser inner) scope s (IsFound scope first depth braces (levels + 1) s) := by
  simp [loopParser]
  intro atSign
  refine (finds_loopHead h spelled _).step (o.readHead atSign (.inr word)) fun head t o writable => ?_
  refine (MarkupInner.finds_children h).step o
    fun nodes t o found => .closed o (fun plain => ?_) rfl rfl
  simp only [fragments, fragmentsOfList_eq, Fragment.arePlain_append,
    Fragment.arePlain_flatMap] at plain
  exact .loop (writable plain.1) (fun n own => found.writable n own (plain.2 n own)) found.apart

theorem yields_slotParser_found (h : inner.Finding scope first depth levels)
    (o : s.InBlock scope first depth braces) :
    Yields (slotParser inner) scope s (IsFound scope first depth braces (levels + 1) s) := by
  have fallback {t : ParserState} (o : t.InBlock scope first depth braces) (name : Option String)
      (span : Span) : Yields (inner.optionalChildren span) scope t fun nodes u =>
        IsFound scope first depth braces (levels + 1) s (slot name nodes.1 nodes.2) u := by
    refine (MarkupInner.yields_optionalChildren_found h span o).mono fun nodes u found => ?_
    refine .closed found.1 (fun plain => ?_) rfl rfl
    simp [fragments] at plain
    exact .slot (fun n own => found.2.1.writable n own (plain n own)) found.2.1.apart
  simp [slotParser]
  exact fun word => ⟨fun name => fallback ((o.read word rfl (by simp)).read name rfl (by simp)) _ _,
    fun _ => fallback (o.read word rfl (by simp)) _ _⟩

theorem finds_pathArguments (h : inner.Finding scope first depth levels) (name : String) :
    Finds scope first depth (fun a => ∀ e ∈ a.1 :: a.2.1.toList, e.ItemCanWriteIn levels)
      (pathArguments inner name) := by
  intro braces s o
  simp [pathArguments]
  refine (Expr.arguments_findsIn h.expr).step o fun args t o writable => ?_
  split
  · next path same =>
    rw [same] at writable
    exact yields_pure.mpr ⟨o, by simpa using writable⟩
  · next path options same =>
    rw [same] at writable
    exact yields_pure.mpr ⟨o, by simpa using writable⟩
  · simp

theorem yields_linkParser_found (h : inner.Finding scope first depth levels)
    (spelled : scope.IsSpelled first) (o : s.InBlock scope first depth braces)
    (word : scope.IsBeforeWord s.cursor) :
    Yields (linkParser inner) scope s (IsFound scope first depth braces (levels + 1) s) := by
  refine yields_bind.mpr ((yields_plainHead_in spelled o word).mono fun head t o => ?_)
  refine yields_bind.mpr ((finds_pathArguments h _).step o ?_)
  rintro ⟨path, options, close⟩ t o writable
  refine yields_bind.mpr (yields_current.mpr ?_)
  extract_lets span rest
  have tail {caption : Option TextNode × Span} {t : ParserState}
      (o : t.InBlock scope first depth braces)
      (isPlain : ∀ n ∈ caption.1, n.isInterpolated = false → n.IsPlain) :
      Yields (rest caption) scope t (IsFound scope first depth braces (levels + 1) s) := by
    simp [rest]
    refine (MarkupInner.yields_optionalChildren_found h _ o).mono fun nodes u found => ?_
    refine .closed found.1 (fun plain => ?_) rfl rfl
    simp [fragments] at plain
    obtain ⟨plainPath, plainOptions, plainCaption, plainNodes⟩ := plain
    refine .link (fun e own => writable e own ?_) (fun t own => isPlain t own (plainCaption t own))
      (fun n own => found.2.1.writable n own (plainNodes n own)) found.2.1.apart
    rcases List.mem_cons.mp own with rfl | own
    · exact plainPath
    · exact plainOptions e (by simpa using own)
  clear_value rest
  simp
  refine ⟨fun word => ?_, fun _ _ => tail o (by simp)⟩
  refine (TextNode.parser_finds _).step (word.elim (o.read · rfl (by simp)) (o.read · rfl (by simp)))
    fun node t o isPlain => tail o ?_
  simpa using isPlain

theorem yields_outletParser_found (h : inner.Finding scope first depth levels)
    (spelled : scope.IsSpelled first) (o : s.InBlock scope first depth braces)
    (word : scope.IsBeforeWord s.cursor) :
    Yields (outletParser inner) scope s (IsFound scope first depth braces (levels + 1) s) := by
  simp [outletParser]
  refine (yields_plainHead_in spelled o word).mono fun head t o =>
    ⟨fun _ => .closed o (fun _ => .outlet (by simp)) rfl rfl, fun _ => ?_⟩
  refine (Expr.arguments_findsIn h.expr).step o fun args t o writable => ?_
  split
  · simp
  · refine yields_pure.mpr (.closed o (fun plain => .outlet fun e own => ?_) rfl rfl)
    simp [fragments] at plain
    exact writable e (List.mem_of_mem_head? own) (plain e own)

theorem yields_navigateParser_found (h : inner.Finding scope first depth levels)
    (spelled : scope.IsSpelled first) (o : s.InBlock scope first depth braces)
    (word : scope.IsBeforeWord s.cursor) :
    Yields (navigateParser inner) scope s (IsFound scope first depth braces (levels + 1) s) := by
  simp [navigateParser]
  refine (yields_plainHead_in spelled o word).mono fun head t o => ?_
  refine (finds_pathArguments h _).step o fun path t o writable =>
    .closed o (fun plain => .navigate fun e own => writable e own ?_) rfl rfl
  simp [fragments] at plain
  rcases List.mem_cons.mp own with rfl | own
  · exact plain.1
  · exact plain.2 e (by simpa using own)

theorem yields_emptyArguments_in (spelled : scope.IsSpelled first)
    (o : s.InBlock scope first depth braces) (word : scope.IsBeforeWord s.cursor) :
    Yields emptyArguments scope s fun _ t => t.InBlock scope first depth braces := by
  simp [emptyArguments]
  exact (yields_plainHead_in spelled o word).mono fun head t o =>
    ⟨fun opening closing => (o.read opening rfl (by simp)).read closing rfl (by simp), fun _ => o⟩

theorem yields_namedDirective_found (h : inner.Finding scope first depth levels)
    (spelled : scope.IsSpelled first) (o : s.InBlock scope first depth braces)
    (atSign : (scope.stream.get s.cursor).kind = .symbol .atSign)
    (name : (scope.stream.get (s.cursor + 1)).kind = .identifier) :
    Yields (namedDirective inner (scope.stream.get (s.cursor + 1)).text) scope s
      (IsFound scope first depth braces (levels + 1) s) := by
  simp [namedDirective]
  refine fun noBranch => ⟨fun _ => ?_, fun noClient noServer _ _ _ _ _ => ?_⟩
  · refine (BoundaryTarget.parser_reads spelled o (.inl name)).mono fun head t found => ?_
    refine (MarkupInner.yields_optionalChildren_found h _ found.1).mono fun nodes u found => ?_
    refine .closed found.1 (fun plain => ?_) rfl rfl
    simp [fragments] at plain
    exact .boundary (fun n own => found.2.1.writable n own (plain n own)) found.2.1.apart
  · have free : (scope.stream.get (s.cursor + 1)).text ∉ EventHandler.reserved := by
      simp [EventHandler.reserved, *]
    refine (EventHandler.parser_canWrite h.expr spelled o atSign name free).mono
      fun head t handler => ?_
    refine (MarkupInner.yields_optionalChildren_found h _ handler.1).mono fun nodes u found => ?_
    refine ⟨found.1, fun plain => ?_, fun _ => ?_, by simp [isOpen]⟩
    · simp only [fragments, fragmentsOfList_eq, Fragment.arePlain_append,
        Fragment.arePlain_flatMap] at plain
      exact .event (handler.2 plain.1) (fun n own => found.2.1.writable n own (plain.2 n own))
        found.2.1.apart
    · rw [joins_eq, atSign]
      exact Directive.joins_of_event name noBranch noClient noServer

theorem yields_directiveParser_found (h : inner.Finding scope first depth levels)
    (spelled : scope.IsSpelled first) (o : s.InBlock scope first depth braces)
    (atSign : (scope.stream.get s.cursor).kind = .symbol .atSign) :
    Yields (directiveParser inner) scope s (IsFound scope first depth braces (levels + 1) s) := by
  have keyword {k : Keyword} (name : (scope.stream.get (s.cursor + 1)).kind = .keyword k) :
      (scope.stream.get (s.cursor + 1)).kind.isKeyword := by
    rw [name]
    rfl
  refine yields_bind.mpr (yields_peek.mpr ?_)
  split
  · next name => exact yields_conditionalParser_found h o name
  · next name => exact yields_loopParser_found h spelled o (keyword name)
  · next name => exact yields_loopParser_found h spelled o (keyword name)
  · next name => exact yields_linkParser_found h spelled o (.inr (keyword name))
  · next name => exact yields_outletParser_found h spelled o (.inr (keyword name))
  · next name => exact yields_navigateParser_found h spelled o (.inr (keyword name))
  · next name =>
    simp only [yields_bind, yields_pure]
    exact (yields_emptyArguments_in spelled o (.inr (keyword name))).mono fun _ t o =>
      .closed o (fun _ => .back) rfl rfl
  · next name =>
    simp only [yields_bind, yields_pure]
    exact (yields_emptyArguments_in spelled o (.inr (keyword name))).mono fun _ t o =>
      .closed o (fun _ => .forward) rfl rfl
  · exact yields_fail.mpr trivial
  · next name => exact yields_namedDirective_found h spelled o atSign name
  · simp

theorem yields_parserAt_found (h : inner.Finding scope first depth levels)
    (spelled : scope.IsSpelled first) (o : s.InBlock scope first depth braces) :
    Yields (parserAt inner) scope s (IsFound scope first depth braces (levels + 1) s) := by
  have literal (kind : (scope.stream.get s.cursor).kind ∈
        [.number, .bigInt, .keyword .true_, .keyword .false_, .keyword .null])
      (o' : (s.next scope).InBlock scope first depth braces) :
      Yields (return text (.ofLiteral (← advance))) scope s
        (IsFound scope first depth braces (levels + 1) s) := by
    simp only [yields_bind, yields_advance, yields_pure]
    obtain ⟨plain, bare⟩ := TextNode.ofLiteral_spelled (o.spelled spelled) kind
    exact .closed o' (fun _ => .text plain) (beq_eq_false_iff_ne.mpr bare) rfl
  have quoted (kind : (scope.stream.get s.cursor).kind = .string ∨
        (scope.stream.get s.cursor).kind = .template)
      (o' : (s.next scope).InBlock scope first depth braces) :
      Yields (return text (← TextNode.parser (← advance))) scope s
        (IsFound scope first depth braces (levels + 1) s) := by
    simp only [yields_bind, yields_advance, yields_pure]
    refine (TextNode.parser_finds _).step o' fun node t o isPlain =>
      ⟨o, fun plain => ?_, fun _ => ?_, by simp [isOpen]⟩
    · simp [fragments] at plain
      exact .text (isPlain plain)
    · rw [joins_eq]
      rcases kind with kind | kind <;> rw [kind]
  refine yields_bind.mpr (yields_current.mpr ?_)
  split
  · next kind => exact yields_elementParser_found h spelled o (.inl kind)
  · next kind => exact yields_elementParser_found h spelled o (.inr kind)
  · next kind => exact quoted (.inl kind) (o.read kind rfl (by simp))
  · next kind => exact quoted (.inr kind) (o.read kind rfl (by simp))
  · next kind => exact literal (by simp [kind]) (o.read kind rfl (by simp))
  · next kind => exact literal (by simp [kind]) (o.read kind rfl (by simp))
  · next kind => exact literal (by simp [kind]) (o.read kind rfl (by simp))
  · next kind => exact literal (by simp [kind]) (o.read kind rfl (by simp))
  · next kind => exact literal (by simp [kind]) (o.read kind rfl (by simp))
  · exact yields_slotParser_found h o
  · next atSign => exact yields_directiveParser_found h spelled o atSign
  · exact yields_failWanted.mpr trivial

theorem parserWithin_found (spelled : scope.IsSpelled first)
    (left : scope.options.maxDepth - depth = levels) (o : s.InBlock scope first depth braces) :
    Yields (parserWithin levels) scope s (IsFound scope first depth braces levels s) := by
  induction levels generalizing depth s braces with
  | zero => exact yields_failTooDeep.mpr trivial
  | succ levels ih =>
    obtain rfl : scope.options.maxDepth - (depth + 1) = levels := by omega
    have inner : MarkupInner.Finding scope first (depth + 1) (scope.options.maxDepth - (depth + 1))
        ⟨Expr.parser, parserWithin (scope.options.maxDepth - (depth + 1))⟩ :=
      ⟨Expr.parser_findsIn spelled, fun _ _ o => ih rfl o,
        ⟨Expr.parser_moving, moving_parserWithin _ (fun fits => fits.elim) fun fits => fits.elim⟩⟩
    intro n t ok
    obtain ⟨u, read, rfl⟩ := deeper_eq_ok.mp ok
    have inside : ParserState.InBlock scope first (depth + 1) braces { s with depth := s.depth + 1 } :=
      ⟨congrArg (· + 1) o.depth, o.braces, o.noAt⟩
    have found := yields_parserAt_found inner spelled inside read
    refine ⟨⟨congrArg (· - 1) found.inBlock.depth, found.inBlock.braces, found.inBlock.noAt⟩,
      found.writable, found.part, found.isOpen⟩

theorem parser_found (spelled : scope.IsSpelled first) (o : s.InBlock scope first depth braces) :
    Yields parser scope s
      (IsFound scope first depth braces (scope.options.maxDepth - depth) s) := by
  intro n t ok
  rw [parser, withLevels, o.depth] at ok
  exact parserWithin_found spelled rfl o ok

end MarkupNode

end PulseSyntax
