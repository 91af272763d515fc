import PulseSyntax.Proofs.Markup.Nodes

namespace PulseSyntax

open PulseSyntax.Parser PulseSyntax.Piece Lexeme

variable {scope : Scope} {depth : Nat}

theorem Parser.RestoresRounds.append {σ : Type} {ps qs : List Piece} {follow after : List Token → Prop}
    {step : σ → Parser (ForInStep σ)} {a : σ} {P Q : σ → Prop}
    (h : RestoresRounds scope depth ps follow step a P)
    (next : ∀ pos rest, after rest → follow (Lexer.placed pos qs ++ rest))
    (h' : ∀ b, P b → RestoresRounds scope depth qs after step b Q) :
    RestoresRounds scope depth (ps ++ qs) after step a Q := by
  intro pos s rest here tokens follows
  rw [Lexer.placed_append, List.append_assoc] at tokens
  obtain ⟨b, first, holds⟩ := h pos s _ here tokens (next _ rest follows)
  obtain ⟨c, rounds, holds'⟩ := h' b holds _ (s.past (Lexer.placed pos ps)) rest here
    (Scope.remaining_past tokens) follows
  refine ⟨c, ?_, holds'⟩
  rw [Lexer.placed_append, ParserState.past_append]
  exact first.trans rounds

theorem Parser.RestoresRounds.before {σ : Type} {ps : List Piece} {follow follow' : List Token → Prop}
    {step : σ → Parser (ForInStep σ)} {a : σ} {P : σ → Prop}
    (h : RestoresRounds scope depth ps follow step a P) (imp : ∀ rest, follow' rest → follow rest) :
    RestoresRounds scope depth ps follow' step a P :=
  fun pos s rest here tokens follows => h pos s rest here tokens (imp rest follows)

namespace Directive

variable {levels : Nat} {d : Directive}

theorem IsWritable.named (h : d.IsWritable levels) :
    (directive d.name.toList).kind = .identifier ∧ d.name ≠ "else-if" ∧
      (d.isBoundary = false → d.name ≠ "client" ∧ d.name ≠ "server") := by
  cases d with
  | event handler span =>
    have other (text : String) (reserved : text ∈ EventHandler.reserved) : handler.event ≠ text :=
      fun same => h.free (same ▸ reserved)
    exact ⟨h.plain, other _ (by decide), fun _ => ⟨other _ (by decide), other _ (by decide)⟩⟩
  | boundary target span =>
    rw [name]
    refine ⟨?_, ?_, by simp [isBoundary]⟩
    all_goals cases target <;> decide
  | model | a11y | live | focusTrap | srOnly =>
    rw [name]
    exact ⟨by decide, by decide, fun _ => ⟨by decide, by decide⟩⟩

theorem joins_placed (h : d.IsWritable levels) {rest : List Token}
    (noBrace : d.isBoundary → firstKind rest ≠ .symbol .openBrace) (pos : Position) :
    joins (Lexer.placed pos d.printed ++ rest) = true := by
  obtain ⟨ls, first⟩ := d.exists_lexemes_printed
  obtain ⟨plain, noBranch, other⟩ := h.named
  obtain ⟨t, ts, placed, -, others⟩ := exists_placed first pos
  obtain ⟨u, us, rfl, own, tail⟩ := List.map_eq_cons_iff.mp others
  have text : u.text = d.name := text_directive own
  have kind : u.kind = .identifier := (congrArg Lexeme.kind own).trans plain
  rw [placed, List.cons_append, List.cons_append, joins, kind, text]
  cases isBoundary : d.isBoundary with
  | false =>
    obtain ⟨noClient, noServer⟩ := other isBoundary
    simp [noBranch, noClient, noServer]
  | true =>
    cases d with
    | boundary target span =>
      rw [printed, lexemes_printedHead] at first
      obtain rfl : us = [] := by
        have empty : ls = [] := (List.cons.inj (List.cons.inj first).2).2.symm
        rwa [empty, List.map_eq_nil_iff] at tail
      simp [noBranch, noBrace isBoundary]
    | _ => cases isBoundary

end Directive

namespace MarkupNode

variable {node : Parser MarkupNode} {ns : List MarkupNode} {ds : List Directive} {ts : List TextNode}

structure AreRestored (scope : Scope) (depth : Nat) (node : Parser MarkupNode) (ns : List MarkupNode) :
    Prop where
  writable : ∀ n ∈ ns, n.IsWritable (scope.options.maxDepth - depth)
  restored : ∀ n ∈ ns, IsRestored scope depth node n
  apart : AreApart ns

theorem AreRestored.children (h : AreRestored scope depth node ns) :
    Restores scope depth (inBraces (printedAll ns)) (fun _ => True) (braced node)
      (contentAll ·.1 = contentAll ns) := restores_children h.writable h.restored h.apart

theorem AreRestored.optionalChildren (h : AreRestored scope depth node ns) (span : Span) :
    Restores scope depth (inBraces (printedAll ns)) (fun _ => True)
      (MarkupInner.optionalChildren ⟨Expr.parser, node⟩ span) (contentAll ·.1 = contentAll ns) := by
  refine .isSymbol (lexemes_inBraces _) ?_
  exact h.children.returns fun _ same => same

theorem restores_noChildren (inner : MarkupInner) (span : Span) :
    Restores scope depth [] (firstKind · ≠ .symbol .openBrace) (inner.optionalChildren span)
      (·.1 = []) := .is_false (fun _ _ other => other) (.pure rfl)

theorem restoresRounds_directives (h : ∀ d ∈ ds, d.IsWritable (scope.options.maxDepth - depth))
    (node : Parser MarkupNode) (tail : ElementTail) :
    RestoresRounds scope depth (ds.flatMap Directive.printed)
      (fun rest => EndsHead rest ∧
        (ds.getLast?.any Directive.isBoundary → firstKind rest ≠ .symbol .openBrace))
      (chainRound (elementPart ⟨Expr.parser, node⟩)) tail
      fun tail' => tail'.texts = tail.texts ∧
        tail'.directives.toList.map (Directive.unplaced id) =
          tail.directives.toList.map (Directive.unplaced id) ++ ds.map (Directive.unplaced id) := by
  induction ds generalizing tail with
  | nil => exact .nil (by simp)
  | cons d ds ih =>
    obtain ⟨writable, others⟩ := List.forall_mem_cons.mp h
    obtain ⟨ls, first⟩ := d.exists_lexemes_printed
    have round : Restores scope depth d.printed
        (fun rest => EndsHead rest ∧ (d.isBoundary → firstKind rest ≠ .symbol .openBrace))
        (elementPart ⟨Expr.parser, node⟩ tail) fun next => ∃ tail', next = some tail' ∧
          tail'.texts = tail.texts ∧ ∃ d', tail'.directives = tail.directives.push d' ∧
            d'.unplaced id = d.unplaced id := by
      refine .current first fun t own => ?_
      have kind : t.kind = .symbol .atSign := congrArg Lexeme.kind own
      rw [kind]
      refine .look (R := (· = true)) (fun pos s rest tokens follows =>
        ⟨_, Directive.attaches_joins scope s, ?_⟩) ?_
      · rw [tokens]
        exact Directive.joins_placed writable follows.2 pos
      · rintro _ rfl
        refine ((Directive.restores writable node).before fun _ follows => follows.1).returns ?_
        exact fun d' same => ⟨_, rfl, rfl, d', rfl, same⟩
    rw [List.flatMap_cons]
    refine .cons (by simp [first]) round.chainRound (fun pos rest follows => ?_) ?_
    · cases ds with
      | nil => simpa using follows
      | cons next ds =>
        obtain ⟨ls, first⟩ := next.exists_lexemes_printed
        have whole : lexemes ((next :: ds).flatMap Directive.printed) = Lexeme.symbol .atSign ::
            directive next.name.toList :: (ls ++ lexemes (ds.flatMap Directive.printed)) := by
          rw [List.flatMap_cons, lexemes_append, first, List.cons_append, List.cons_append]
        have kind := firstKind_placed whole pos rest
        exact ⟨⟨by rw [kind]; decide, by rw [kind]; decide⟩, fun _ => by rw [kind]; decide⟩
    · rintro tail' ⟨texts, d', directives, same⟩
      refine ((ih others tail').before fun rest follows => ⟨follows.1, fun last => ?_⟩).mono ?_
      · refine follows.2 ?_
        cases ds with
        | nil => cases last
        | cons => rwa [List.getLast?_cons_cons]
      · rintro tail'' ⟨texts', directives'⟩
        refine ⟨texts'.trans texts, directives'.trans ?_⟩
        simp [directives, same]

theorem restoresRounds_texts (h : ∀ t ∈ ts, t.IsPlain) (inner : MarkupInner) (tail : ElementTail) :
    RestoresRounds scope depth (spaced (ts.map TextNode.quoted)) (fun _ => True)
      (chainRound (elementPart inner)) tail
      fun tail' => tail'.directives = tail.directives ∧
        tail'.texts.toList.map TextNode.content =
          tail.texts.toList.map TextNode.content ++ ts.map TextNode.content := by
  induction ts generalizing tail with
  | nil => exact .nil (by simp)
  | cons t ts ih =>
    obtain ⟨plain, others⟩ := List.forall_mem_cons.mp h
    have round : Restores scope depth (spaced [t.quoted]) (fun _ => True) (elementPart inner tail)
        fun next => ∃ tail', next = some tail' ∧ tail'.directives = tail.directives ∧
          ∃ t', tail'.texts = tail.texts.push t' ∧ t'.content = t.content := by
      refine .current lexemes_spaced fun token own => ?_
      have kind : token.kind = .string := congrArg Lexeme.kind own
      rw [kind]
      exact plain.restores_quoted.returns fun t' same => ⟨_, rfl, rfl, t', rfl, same⟩
    change RestoresRounds scope depth (spaced [t.quoted] ++ spaced (ts.map TextNode.quoted)) _ _ _ _
    refine .cons (by rw [lexemes_spaced]; simp) round.chainRound (fun _ _ _ => trivial) ?_
    rintro tail' ⟨directives, t', texts, same⟩
    refine (ih others tail').mono ?_
    rintro tail'' ⟨directives', texts'⟩
    refine ⟨directives'.trans directives, texts'.trans ?_⟩
    simp [texts, same]

theorem restores_tail (directives : ∀ d ∈ ds, d.IsWritable (scope.options.maxDepth - depth))
    (texts : ∀ t ∈ ts, t.IsPlain) (node : Parser MarkupNode) (span : Span) :
    Restores scope depth (ds.flatMap Directive.printed ++ spaced (ts.map TextNode.quoted))
      (fun rest => EndsHead rest ∧ joins rest = false ∧
        (endsOpen ds ts → firstKind rest ≠ .symbol .openBrace))
      (chain (elementPart ⟨Expr.parser, node⟩) ⟨#[], #[], span⟩)
      fun tail => tail.directives.toList.map (Directive.unplaced id) = ds.map (Directive.unplaced id) ∧
        tail.texts.toList.map TextNode.content = ts.map TextNode.content := by
  have rounds : RestoresRounds scope depth
      (ds.flatMap Directive.printed ++ spaced (ts.map TextNode.quoted))
      (fun rest => EndsHead rest ∧ joins rest = false ∧
        (endsOpen ds ts → firstKind rest ≠ .symbol .openBrace))
      (chainRound (elementPart ⟨Expr.parser, node⟩)) ⟨#[], #[], span⟩ fun tail =>
        tail.directives.toList.map (Directive.unplaced id) = ds.map (Directive.unplaced id) ∧
          tail.texts.toList.map TextNode.content = ts.map TextNode.content := by
    refine (restoresRounds_directives directives node _).append (fun pos rest follows => ?_) ?_
    · cases ts with
      | nil => exact ⟨follows.1, follows.2.2⟩
      | cons t ts =>
        have first : firstKind (Lexer.placed pos (spaced ((t :: ts).map TextNode.quoted)) ++ rest) =
            .string := firstKind_placed lexemes_spaced pos rest
        exact ⟨⟨by rw [first]; decide, by rw [first]; decide⟩, fun _ => by rw [first]; decide⟩
    · rintro tail ⟨noText, directives'⟩
      refine ((restoresRounds_texts texts _ tail).before fun _ _ => trivial).mono ?_
      rintro tail' ⟨same, texts'⟩
      rw [same, texts', noText]
      exact ⟨directives', rfl⟩
  refine rounds.chain fun tail same pos s rest _ tokens follows => ?_
  refine ⟨none, elementPart_of_not_joins ?_ tail, rfl⟩
  rw [tokens]
  exact follows.2.1

theorem firstKind_tail_ne_openParen (ns : List MarkupNode) (pos : Position) (rest : List Token) :
    firstKind (Lexer.placed pos ((ds.flatMap Directive.printed ++ spaced (ts.map TextNode.quoted)) ++
      if endsOpen ds ts then [] else inBraces (printedAll ns)) ++ rest) ≠ .symbol .openParen := by
  cases ds with
  | cons d ds =>
    obtain ⟨ls, first⟩ := d.exists_lexemes_printed
    simp only [List.flatMap_cons, List.append_assoc]
    rw [firstKind_placed (by rw [lexemes_append, first, List.cons_append])]
    decide
  | nil =>
    rw [List.flatMap_nil, List.nil_append]
    cases ts with
    | cons t ts =>
      rw [List.map_cons, firstKind_spaced]
      simp [TextNode.quoted]
    | nil =>
      rw [if_neg (by simp [endsOpen]), List.map_nil]
      exact ne_of_eq_of_ne (firstKind_placed (lexemes_inBraces (printedAll ns)) pos rest) (by decide)

theorem restores_element {tag : String} {ps : List ElementProp} {span : Span}
    (props : ∀ p ∈ ps, p.IsWritable (scope.options.maxDepth - depth))
    (directives : ∀ d ∈ ds, d.IsWritable (scope.options.maxDepth - depth))
    (texts : ∀ t ∈ ts, t.IsPlain) (block : endsOpen ds ts → ns = [])
    (children : AreRestored scope depth node ns) :
    Restores scope depth (element tag ps ds ts ns span).printed (element tag ps ds ts ns span).Allows
      (elementParser ⟨Expr.parser, node⟩) (·.content = (element tag ps ds ts ns span).content) := by
  refine .andThen (.advance lexemes_spaced (by simp [Lexeme.selector])) fun head own => ?_
  have text : head.text = tag := (text_of_own own).trans String.ofList_toList
  have tail (props' : List ElementProp) (start : Span)
      (same : props'.map (ElementProp.unplaced id) = ps.map (ElementProp.unplaced id)) :
      Restores scope depth
        ((ds.flatMap Directive.printed ++ spaced (ts.map TextNode.quoted)) ++
          if endsOpen ds ts then [] else inBraces (printedAll ns))
        (element tag ps ds ts ns span).Allows (do
          let tail ← chain (elementPart ⟨Expr.parser, node⟩) ⟨#[], #[], start⟩
          let a ← MarkupInner.optionalChildren ⟨Expr.parser, node⟩ tail.span
          return element head.text props' tail.directives.toList tail.texts.toList a.1 a.2)
        (·.content = (element tag ps ds ts ns span).content) := by
    refine (restores_tail directives texts node start).bind (fun pos rest allowed => ?_) ?_
    · cases open_ : endsOpen ds ts with
      | true => exact ⟨allowed.1.head, allowed.2 open_, fun _ => allowed.1.noBrace⟩
      | false =>
        have first := firstKind_placed (lexemes_inBraces (printedAll ns)) pos rest
        rw [if_neg Bool.false_ne_true]
        refine ⟨⟨?_, ?_⟩, ?_, by simp⟩
        · rw [first]
          decide
        · rw [first]
          decide
        · rw [joins, first]
          rfl
    · rintro tail ⟨directives', texts'⟩
      have done (nodes : List MarkupNode) (span' : Span) (own : contentAll nodes = contentAll ns) :
          (element head.text props' tail.directives.toList tail.texts.toList nodes span').content =
            (element tag ps ds ts ns span).content := by
        simp only [content, text, same, directives', texts', own]
      cases open_ : endsOpen ds ts with
      | true =>
        refine ((restores_noChildren _ _).before fun rest allowed => allowed.1.noBrace).returns ?_
        rintro ⟨nodes, span'⟩ rfl
        exact done [] span' (by rw [block open_])
      | false =>
        exact ((children.optionalChildren _).before fun _ _ => trivial).returns
          fun a own => done _ _ own
  rw [← List.append_assoc (ds.flatMap _)]
  cases ps with
  | nil =>
    refine .is_false (fun pos rest allowed => ?_) (tail [] head.span rfl)
    exact firstKind_tail_ne_openParen ns pos rest
  | cons p ps =>
    refine .isSymbol (by rw [lexemes_append]; exact congrArg (· ++ _) (lexemes_inParens _)) ?_
    refine ((ElementProp.restores_listParser props).before fun _ _ => trivial).andThen
      fun props' same => ?_
    exact .previous fun t => tail props' _ same

theorem printedHead_eq (name : String) : printedHead name [] =
    [(Lexeme.symbol .atSign).piece] ++ [(directive name.toList).piece, .space] := rfl

theorem lexemes_word (l : Lexeme) : lexemes [l.piece, .space] = [l] := @lexemes_glued [l]

theorem restores_elseIf :
    Restores scope depth (printedHead "else-if" []) (fun _ => True) branchHead (· = some .elseIf) := by
  refine .peek (lexemes_printedHead ..) fun name own => .isSymbol (lexemes_printedHead ..) ?_
  have kind : name.kind = .identifier := congrArg Lexeme.kind own
  rw [kind, text_directive own, printedHead_eq]
  refine .andThen (.advance (lexemes_piece _) (by decide)) fun _ _ => ?_
  exact (Restores.advance (lexemes_word _) (by decide)).returns fun _ _ => rfl

theorem restores_else :
    Restores scope depth (printedHead "else" []) (firstKind · = .symbol .openBrace) branchHead
      (· = some .else_) := by
  refine .peek (lexemes_printedHead ..) fun name own => .isSymbol (lexemes_printedHead ..) ?_
  have kind : name.kind = .keyword .else_ := congrArg Lexeme.kind own
  rw [kind, printedHead_eq]
  refine .andThen (.advance (lexemes_piece _) (by decide)) fun _ _ => ?_
  refine .last (.advance (lexemes_word _) (by decide)) (fun _ _ => trivial) fun _ _ => ?_
  refine .is_false (fun _ _ opens => by rw [Lexer.placed]; simp [opens]) ?_
  refine .look (R := fun _ => True) (fun _ _ _ _ _ => ⟨_, peek_apply, trivial⟩) fun t _ => ?_
  exact .eat_false (by simp) (fun _ _ opens => by rw [Lexer.placed]; simp [opens]) (.pure rfl)

theorem restoresEnd_branches {bs : List Branch} {last : Option (List MarkupNode)}
    (conditions : ∀ b ∈ bs, b.condition.IsWritableIn (scope.options.maxDepth - depth))
    (branches : ∀ b ∈ bs, AreRestored scope depth node b.nodes)
    (alternate : ∀ nodes ∈ last, AreRestored scope depth node nodes)
    (start : Branches) (none : start.alternate = none) :
    RestoresEnd scope depth (printedBranches bs ++ printedAlternate last) (startsBranch · = false)
      (branchParser ⟨Expr.parser, node⟩) start fun found =>
        found.more.toList.map contentBranch =
            start.more.toList.map contentBranch ++ bs.map contentBranch ∧
          found.alternate.map contentAll = last.map contentAll := by
  induction bs generalizing start with
  | nil =>
    rw [printedBranches, List.nil_append]
    refine .last (.look (R := fun _ => True) (fun _ _ _ _ _ => ⟨_, current_apply, trivial⟩)
      fun t _ => ?_)
    cases last with
    | none =>
      refine .look (R := (· = Option.none))
        (fun pos s rest tokens ends => ⟨_, branchHead_of_not_startsBranch ?_, rfl⟩) ?_
      · rw [tokens]
        exact ends
      · rintro _ rfl
        exact .pure ⟨start, rfl, by simp [none]⟩
    | some nodes =>
      refine restores_else.bind (fun pos rest _ => firstKind_placed (lexemes_inBraces _) pos rest) ?_
      rintro _ rfl
      refine ((alternate nodes rfl).children.before fun _ _ => trivial).returns ?_
      rintro ⟨nodes', span⟩ same
      exact ⟨_, rfl, by simp, congrArg some same⟩
  | cons b bs ih =>
    obtain ⟨condition, conditions⟩ := List.forall_mem_cons.mp conditions
    obtain ⟨nodes, branches⟩ := List.forall_mem_cons.mp branches
    have round : Restores scope depth (printedBranch b) (fun _ => True)
        (branchParser ⟨Expr.parser, node⟩ start) fun next => ∃ found, next = .yield found ∧
          found.alternate = Option.none ∧ ∃ b', found.more = start.more.push b' ∧
            contentBranch b' = contentBranch b := by
      cases b with
      | mk e ns span =>
        refine .look (R := fun _ => True) (fun _ _ _ _ _ => ⟨_, current_apply, trivial⟩) fun t _ => ?_
        refine restores_elseIf.andThen ?_
        rintro _ rfl
        refine (MarkupInner.restores_condition rfl condition).andThen fun e' same => ?_
        refine nodes.children.returns ?_
        rintro ⟨ns', span'⟩ same'
        exact ⟨_, rfl, none, _, rfl, congrArg₂ (Branch.mk · · default) same same'⟩
    rw [printedBranches, List.append_assoc]
    refine .cons ?_ round (fun _ _ _ => trivial) ?_
    · cases b
      rw [printedBranch, lexemes_headed]
      simp
    · rintro found ⟨none', b', more, same⟩
      refine (ih conditions branches found none').mono ?_
      rintro found' ⟨more', last'⟩
      exact ⟨by simp [more', more, same], last'⟩

theorem restores_conditional {e : Expr} {bs : List Branch} {last : Option (List MarkupNode)}
    {span : Span} (condition : e.IsWritableIn (scope.options.maxDepth - depth))
    (consequent : AreRestored scope depth node ns)
    (conditions : ∀ b ∈ bs, b.condition.IsWritableIn (scope.options.maxDepth - depth))
    (branches : ∀ b ∈ bs, AreRestored scope depth node b.nodes)
    (alternate : ∀ nodes ∈ last, AreRestored scope depth node nodes) :
    Restores scope depth (conditional e ns bs last span).printed (startsBranch · = false)
      (conditionalParser ⟨Expr.parser, node⟩)
      (·.content = (conditional e ns bs last span).content) := by
  rw [printed, printedHead_eq, List.append_assoc]
  refine .andThen (.expect (lexemes_piece _) rfl (by simp)) fun _ _ => ?_
  refine .andThen (.expect (lexemes_word _) rfl (by simp)) fun _ _ => ?_
  refine (MarkupInner.restores_condition rfl condition).andThen fun e' test => ?_
  refine consequent.children.andThen ?_
  rintro ⟨nodes, own⟩ same
  refine ((restoresEnd_branches conditions branches alternate ⟨#[], none, own⟩ rfl).loop).returns ?_
  rintro found ⟨more, last'⟩
  simp only [content, test, contentBranches_eq, contentAlternate_eq, more, last']
  rw [show contentAll nodes = _ from same]
  rfl

theorem restores_loop {h : LoopHead} {span : Span} (head : h.IsWritable (scope.options.maxDepth - depth))
    (body : AreRestored scope depth node ns) {follow : List Token → Prop} :
    Restores scope depth (loop h ns span).printed follow (loopParser ⟨Expr.parser, node⟩)
      (·.content = (loop h ns span).content) := by
  rw [printed, LoopHead.printed, printedHead_eq]
  simp only [List.append_assoc]
  refine .andThen (.expect (lexemes_piece _) rfl (by simp)) fun _ _ => ?_
  refine .andThen (.advance (lexemes_word _) (by cases h.keyword <;> decide)) fun word own => ?_
  have keyword : (if word.kind == .keyword .each then LoopKeyword.each else .for_) = h.keyword := by
    rw [show word.kind = (directive h.keyword.name.toList).kind from congrArg Lexeme.kind own]
    cases h.keyword <;> rfl
  extract_lets keyword'
  rw [show keyword' = _ from keyword, ← List.append_assoc (inParens _)]
  refine (LoopHead.restores head node).bind (fun pos rest _ => ?_) fun h' same => ?_
  · exact firstKind_placed (lexemes_inBraces _) pos rest
  · refine (body.children.before fun _ _ => trivial).returns ?_
    rintro ⟨nodes, span'⟩ same'
    exact congrArg₂ (loop · · default) same same'

theorem endsHead_inBraces (ps : List Piece) (pos : Position) (rest : List Token) :
    EndsHead (Lexer.placed pos (inBraces ps) ++ rest) := by
  have first := firstKind_placed (lexemes_inBraces ps) pos rest
  exact ⟨by rw [first]; decide, by rw [first]; decide⟩

theorem restores_event {h : EventHandler} {span : Span}
    (handler : h.IsWritable (scope.options.maxDepth - depth))
    (children : AreRestored scope depth node ns) {follow : List Token → Prop} :
    Restores scope depth (event h ns span).printed follow
      (namedDirective ⟨Expr.parser, node⟩ h.event) (·.content = (event h ns span).content) := by
  have other (text : String) (reserved : text ∈ EventHandler.reserved) :
      (h.event == text) = false :=
    beq_eq_false_iff_ne.mpr fun same => handler.free (same ▸ reserved)
  have noDirective : ["model", "a11y", "live", "focusTrap", "srOnly"].contains h.event = false := by
    simp only [List.contains_cons, List.contains_nil, Bool.or_false, Bool.or_eq_false_iff]
    exact ⟨other _ (by decide), other _ (by decide), other _ (by decide), other _ (by decide),
      other _ (by decide)⟩
  rw [namedDirective, other "else-if" (by decide), other "client" (by decide),
    other "server" (by decide), noDirective]
  refine (EventHandler.restores handler).bind (fun pos rest _ => endsHead_inBraces _ pos rest) ?_
  rintro ⟨h', head⟩ same
  refine ((children.optionalChildren head).before fun _ _ => trivial).returns ?_
  rintro ⟨nodes, span'⟩ same'
  exact congrArg₂ (event · · default) same same'

theorem restores_boundary (target : BoundaryTarget) {span : Span}
    (children : AreRestored scope depth node ns) {follow : List Token → Prop} :
    Restores scope depth (boundary target ns span).printed follow
      (namedDirective ⟨Expr.parser, node⟩ target.name)
      (·.content = (boundary target ns span).content) := by
  have named : (target.name == "else-if") = false ∧
      (target.name == "client" || target.name == "server") = true := by cases target <;> decide
  rw [namedDirective, named.1, named.2]
  refine (BoundaryTarget.restores target).bind (fun pos rest _ => endsHead_inBraces _ pos rest) ?_
  rintro ⟨_, head⟩ rfl
  refine ((children.optionalChildren head).before fun _ _ => trivial).returns ?_
  rintro ⟨nodes, span'⟩ same
  exact congrArg (boundary _ · default) same

theorem restores_slot {name : Option String} {span : Span}
    (fallback : AreRestored scope depth node ns) {follow : List Token → Prop} :
    Restores scope depth (slot name ns span).printed follow (slotParser ⟨Expr.parser, node⟩)
      (·.content = (slot name ns span).content) := by
  have done (found : Option String) (start : Span) (same : found = name) :
      Restores scope depth (inBraces (printedAll ns)) follow (do
        let a ← MarkupInner.optionalChildren ⟨Expr.parser, node⟩ start
        return slot found a.1 a.2) (·.content = (slot name ns span).content) := by
    refine ((fallback.optionalChildren start).before fun _ _ => trivial).returns ?_
    rintro ⟨nodes, span'⟩ same'
    exact congrArg₂ (slot · · default) same same'
  cases name with
  | none =>
    refine .andThen (.expect lexemes_spaced rfl (by simp)) fun word _ => ?_
    refine .is (lexemes_inBraces _) ?_
    exact done none word.span rfl
  | some text =>
    change Restores scope depth (spaced [Lexeme.word "slot"] ++
      (spaced [Lexeme.quoted text] ++ inBraces (printedAll ns))) _ _ _
    refine .andThen (.expect lexemes_spaced rfl (by simp)) fun word _ => ?_
    refine .is (l := Lexeme.quoted text) (by rw [lexemes_append, lexemes_spaced]; rfl) ?_
    refine .andThen (.advance lexemes_spaced (by simp [quoted])) fun t own => ?_
    exact done (some t.text) (word.span.cover t.span) (congrArg some (text_of_own own))

theorem restores_pathArguments {path : Expr} {options : Option Expr}
    (h : ∀ e ∈ path :: options.toList, e.ItemIsWritableIn (scope.options.maxDepth - depth))
    (node : Parser MarkupNode) (name : String) {follow : List Token → Prop} :
    Restores scope depth (Expr.printedArguments (path :: options.toList)) follow
      (pathArguments ⟨Expr.parser, node⟩ name) fun a => a.1.erased id = path.erased id ∧
        a.2.1.map (Expr.erased id) = options.map (Expr.erased id) := by
  refine ((Expr.restores_arguments h).before fun _ _ => trivial).last (fun _ _ => trivial) ?_
  rintro ⟨arguments, close⟩ same
  obtain ⟨path', others, rfl, first, rest⟩ := List.map_eq_cons_iff.mp same
  cases options with
  | none =>
    obtain rfl := List.map_eq_nil_iff.mp rest
    exact .pure ⟨first, rfl⟩
  | some options =>
    obtain ⟨options', rfl, second⟩ := List.map_eq_singleton_iff.mp rest
    exact .pure ⟨first, congrArg some second⟩

theorem restores_link {path : Expr} {options : Option Expr} {caption : Option TextNode} {span : Span}
    (arguments : ∀ e ∈ path :: options.toList,
      e.ItemIsWritableIn (scope.options.maxDepth - depth))
    (plain : ∀ t ∈ caption, t.IsPlain) (children : AreRestored scope depth node ns)
    {follow : List Token → Prop} :
    Restores scope depth (link path options caption ns span).printed follow
      (linkParser ⟨Expr.parser, node⟩) (·.content = (link path options caption ns span).content) := by
  refine (restores_plainHead _).bind (fun pos rest _ => ?_) fun head _ => ?_
  · rw [Expr.printedArguments, firstKind_inParens]
    decide
  refine (restores_pathArguments arguments node _).andThen ?_
  rintro ⟨path', options', close⟩ ⟨samePath, sameOptions⟩
  have done (found : Option TextNode) (start : Span)
      (same : found.map TextNode.content = caption.map TextNode.content) :
      Restores scope depth (inBraces (printedAll ns)) follow (do
        let a ← MarkupInner.optionalChildren ⟨Expr.parser, node⟩ start
        return link path' options' found a.1 a.2)
        (·.content = (link path options caption ns span).content) := by
    refine ((children.optionalChildren start).before fun _ _ => trivial).returns ?_
    rintro ⟨nodes, span'⟩ same'
    rw [content, content, samePath, sameOptions, same, show contentAll nodes = _ from same']
  cases caption with
  | none =>
    change Restores scope depth (inBraces (printedAll ns)) _ _ _
    refine .current (lexemes_inBraces _) fun t own => ?_
    have kind : t.kind = .symbol .openBrace := congrArg Lexeme.kind own
    rw [kind]
    exact done none _ rfl
  | some caption =>
    change Restores scope depth (spaced [caption.quoted] ++ inBraces (printedAll ns)) _ _ _
    refine .current (by rw [lexemes_append, lexemes_spaced]; rfl) fun t own => ?_
    have kind : t.kind = .string := congrArg Lexeme.kind own
    rw [kind]
    refine .andThen (.advance lexemes_spaced (by simp [TextNode.quoted])) fun t own => ?_
    change Restores scope depth ([] ++ inBraces (printedAll ns)) _ _ _
    exact ((plain caption rfl).restores own).andThen fun caption' same =>
      done (some caption') _ (congrArg some same)

theorem restores_outlet {container : Option Expr} {span : Span}
    (h : ∀ e ∈ container, e.ItemIsWritableIn (scope.options.maxDepth - depth))
    (node : Parser MarkupNode) :
    Restores scope depth (outlet container span).printed EndsHead (outletParser ⟨Expr.parser, node⟩)
      (·.content = (outlet container span).content) := by
  cases container with
  | none =>
    rw [printed, List.append_nil]
    refine (restores_plainHead _).last (fun _ ends => ends.1) fun head _ => ?_
    exact .is_false (fun _ _ ends => ends.2) (.pure rfl)
  | some e =>
    change Restores scope depth (_ ++ Expr.printedArguments [e]) _ _ _
    refine (restores_plainHead _).bind (fun pos rest _ => ?_) fun head _ => ?_
    · rw [Expr.printedArguments, firstKind_placed (lexemes_inParens _)]
      decide
    refine .isSymbol (lexemes_inParens _) ?_
    have writable : ∀ e' ∈ [e], e'.ItemIsWritableIn (scope.options.maxDepth - depth) := by
      simpa using h
    refine ((Expr.restores_arguments writable).before fun _ _ => trivial).last (fun _ _ => trivial) ?_
    rintro ⟨arguments, close⟩ same
    obtain ⟨e', rfl, erased⟩ := List.map_eq_singleton_iff.mp same
    exact .pure (congrArg (outlet · default) (congrArg some erased))

theorem restores_navigate {path : Expr} {options : Option Expr} {span : Span}
    (arguments : ∀ e ∈ path :: options.toList,
      e.ItemIsWritableIn (scope.options.maxDepth - depth))
    (node : Parser MarkupNode) {follow : List Token → Prop} :
    Restores scope depth (navigate path options span).printed follow
      (navigateParser ⟨Expr.parser, node⟩) (·.content = (navigate path options span).content) := by
  refine (restores_plainHead _).bind (fun pos rest _ => ?_) fun head _ => ?_
  · rw [Expr.printedArguments, firstKind_placed (lexemes_inParens _)]
    decide
  refine (restores_pathArguments arguments node _).returns ?_
  rintro ⟨path', options', close⟩ ⟨samePath, sameOptions⟩
  exact congrArg₂ (navigate · · default) samePath sameOptions

theorem restores_emptyArguments (name : String) :
    Restores scope depth (printedHead name []) EndsHead emptyArguments fun _ => True := by
  refine (restores_plainHead name).last (fun _ ends => ends.1) fun head _ => ?_
  exact .eat_false (by simp) (fun _ _ ends => ends.2) (.pure trivial)

theorem restores_text {t : TextNode} (plain : t.IsPlain) (inner : MarkupInner)
    {follow : List Token → Prop} :
    Restores scope depth (text t).printed follow (parserAt inner) (·.content = (text t).content) := by
  refine .current lexemes_spaced fun token own => ?_
  rcases plain.alone_cases with same | ⟨found, -, bare⟩
  · have kind : token.kind = .string := congrArg Lexeme.kind (own.trans same)
    rw [kind, printed, same]
    exact plain.restores_quoted.returns fun _ same => congrArg text same
  · have kind := (bare?_stable bare).2.2
    have other : ∀ kind ∈ [.number, .bigInt, .keyword .true_, .keyword .false_, .keyword .null],
        kind ≠ TokenKind.string ∧ kind ≠ .endOfFile := by decide
    have literal : Restores scope depth (text t).printed follow
        (do return text (.ofLiteral (← advance))) (·.content = (text t).content) := by
      refine (Restores.advance lexemes_spaced (other _ kind).2).returns fun u same => ?_
      refine congrArg text (plain.content_ofLiteral same ?_)
      rw [show u.kind = _ from congrArg Lexeme.kind same]
      exact (other _ kind).1
    rw [← show token.kind = _ from congrArg Lexeme.kind own] at kind
    simp only [List.mem_cons, List.not_mem_nil, or_false] at kind
    rcases kind with kind | kind | kind | kind | kind
    all_goals
      rw [kind]
      exact literal

def directiveNamed (inner : MarkupInner) (name : Token) : Parser MarkupNode :=
  match name.kind with
  | .keyword .if_ => conditionalParser inner
  | .keyword .for_ | .keyword .each => loopParser inner
  | .keyword .link => linkParser inner
  | .keyword .outlet => outletParser inner
  | .keyword .navigate => navigateParser inner
  | .keyword .back => back <$> emptyArguments
  | .keyword .forward => forward <$> emptyArguments
  | .keyword .else_ => fail (.branchWithoutIf "else")
  | .identifier => namedDirective inner name.text
  | _ => advance >>= fun _ => failWanted .directiveName

theorem directiveParser_eq (inner : MarkupInner) :
    directiveParser inner = peek >>= directiveNamed inner := rfl

section

variable {name : String} {modifiers : List String} {ps : List Piece} {inner : MarkupInner}
  {follow : List Token → Prop} {P : MarkupNode → Prop}

theorem restores_directive (h : ∀ t : Token, t.kind = (directive name.toList).kind → t.text = name →
      Restores scope depth (printedHead name modifiers ++ ps) follow (directiveNamed inner t) P) :
    Restores scope depth (printedHead name modifiers ++ ps) follow (parserAt inner) P := by
  refine .current (lexemes_headed ..) fun t own => ?_
  have kind : t.kind = .symbol .atSign := congrArg Lexeme.kind own
  simp only [kind, directiveParser_eq]
  exact .peek (lexemes_headed ..) fun t own => h t (congrArg Lexeme.kind own) (text_directive own)

end

theorem IsWritable.restores {levels : Nat} {n : MarkupNode} (h : n.IsWritable levels)
    (left : scope.options.maxDepth - depth = levels) :
    IsRestored scope depth (parserWithin levels) n := by
  induction h generalizing depth with
  | @element levels tag ps ds ts ns span head props directives texts block children apart ih =>
    obtain rfl : scope.options.maxDepth - (depth + 1) = levels := by omega
    refine .deeper (.current (lexemes_append.trans (congrArg (· ++ _) lexemes_spaced)) fun t own => ?_)
    have kind : t.kind = .selector := congrArg Lexeme.kind own
    rw [kind]
    exact restores_element props directives texts block ⟨children, fun n own => ih n own rfl, apart⟩
  | text plain => exact .deeper (restores_text plain _)
  | @conditional levels e ns bs last span condition consequent apart conditions branches branchesApart
      alternate alternateApart ih ihBranches ihAlternate =>
    obtain rfl : scope.options.maxDepth - (depth + 1) = levels := by omega
    refine .deeper (restores_directive fun t kind _ => ?_)
    rw [directiveNamed, kind]
    have branch (b : Branch) (own : b ∈ bs) : AreRestored scope (depth + 1) _ b.nodes :=
      ⟨branches b own, fun n own' => ihBranches b own n own' rfl, branchesApart b own⟩
    have otherwise (nodes : List MarkupNode) (own : nodes ∈ last) :
        AreRestored scope (depth + 1) _ nodes :=
      ⟨alternate nodes own, fun n own' => ihAlternate nodes own n own' rfl, alternateApart nodes own⟩
    exact (restores_conditional condition ⟨consequent, fun n own => ih n own rfl, apart⟩ conditions
      branch otherwise).before fun _ allowed => allowed.1.noBranch
  | @loop levels h ns span head body apart ih =>
    obtain rfl : scope.options.maxDepth - (depth + 1) = levels := by omega
    have read : Restores scope (depth + 1) (MarkupNode.loop h ns span).printed
        (MarkupNode.loop h ns span).Allows (loopParser ⟨Expr.parser, _⟩) _ :=
      restores_loop head ⟨body, fun n own => ih n own rfl, apart⟩
    refine .deeper ?_
    rw [printed, LoopHead.printed, List.append_assoc] at read ⊢
    refine restores_directive fun t kind _ => ?_
    rw [directiveNamed, kind]
    revert kind read
    cases h.keyword <;> exact fun read _ => read
  | @event levels h ns span handler children apart ih =>
    obtain rfl : scope.options.maxDepth - (depth + 1) = levels := by omega
    refine .deeper ?_
    rw [printed, EventHandler.printed, List.append_assoc]
    refine restores_directive fun t kind text => ?_
    rw [directiveNamed, kind, handler.plain, text, ← List.append_assoc]
    exact restores_event handler ⟨children, fun n own => ih n own rfl, apart⟩
  | @boundary levels target ns span children apart ih =>
    obtain rfl : scope.options.maxDepth - (depth + 1) = levels := by omega
    refine .deeper (restores_directive fun t kind text => ?_)
    have plain : (directive target.name.toList).kind = .identifier := by cases target <;> decide
    rw [directiveNamed, kind, plain, text]
    exact restores_boundary target ⟨children, fun n own => ih n own rfl, apart⟩
  | @slot levels name ns span fallback apart ih =>
    obtain rfl : scope.options.maxDepth - (depth + 1) = levels := by omega
    refine .deeper (.current (lexemes_append.trans (congrArg (· ++ _) lexemes_spaced)) fun t own => ?_)
    have kind : t.kind = .keyword .slot := congrArg Lexeme.kind own
    rw [kind]
    exact restores_slot ⟨fallback, fun n own => ih n own rfl, apart⟩
  | @link levels path options caption ns span arguments plain children apart ih =>
    obtain rfl : scope.options.maxDepth - (depth + 1) = levels := by omega
    refine .deeper (restores_directive fun t kind _ => ?_)
    rw [directiveNamed, kind]
    exact restores_link arguments plain ⟨children, fun n own => ih n own rfl, apart⟩
  | @outlet levels container span container' =>
    obtain rfl : scope.options.maxDepth - (depth + 1) = levels := by omega
    refine .deeper (restores_directive fun t kind _ => ?_)
    rw [directiveNamed, kind]
    exact (restores_outlet container' _).before fun _ allowed => allowed.1.head
  | @navigate levels path options span arguments =>
    obtain rfl : scope.options.maxDepth - (depth + 1) = levels := by omega
    refine .deeper (restores_directive fun t kind _ => ?_)
    rw [directiveNamed, kind]
    exact restores_navigate arguments _
  | back =>
    refine .deeper ?_
    rw [printed, ← List.append_nil (printedHead _ _)]
    refine restores_directive fun t kind _ => ?_
    rw [directiveNamed, kind, List.append_nil]
    exact ((restores_emptyArguments _).before fun _ allowed => allowed.1.head).map fun _ _ => rfl
  | forward =>
    refine .deeper ?_
    rw [printed, ← List.append_nil (printedHead _ _)]
    refine restores_directive fun t kind _ => ?_
    rw [directiveNamed, kind, List.append_nil]
    exact ((restores_emptyArguments _).before fun _ allowed => allowed.1.head).map fun _ _ => rfl

end MarkupNode

structure ViewBlock.IsWritable (levels : Nat) (block : ViewBlock) : Prop where
  children : ∀ n ∈ block.children, n.IsWritable levels
  apart : MarkupNode.AreApart block.children

namespace ViewBlock

variable {block : ViewBlock} {levels : Nat}

theorem IsWritable.readsBack (h : block.IsWritable levels) :
    Lexer.ReadsBack 0 0 (block.children.flatMap MarkupNode.printed) :=
  .flatMap fun n own => .node (h.children n own)

theorem IsWritable.restores (h : block.IsWritable (scope.options.maxDepth - depth)) :
    Restores scope depth block.printed (fun _ => True) parser (·.content = block.content) := by
  have nodes : MarkupNode.AreRestored scope depth MarkupNode.parser block.children :=
    ⟨h.children, fun n own => .withLevels ((h.children n own).restores rfl), h.apart⟩
  rw [printed, ← MarkupNode.printedAll_eq]
  refine .andThen (.expect lexemes_spaced rfl (by simp)) fun start _ => ?_
  refine nodes.children.returns ?_
  rintro ⟨children, span⟩ same
  rw [content, content, ← MarkupNode.contentAll_eq, ← MarkupNode.contentAll_eq,
    show MarkupNode.contentAll children = _ from same]

end ViewBlock

end PulseSyntax
