import PulseSyntax.Proofs.Expr.Primary

namespace PulseSyntax.Expr

open PulseSyntax.Parser

/-- The readers of what nests in an expression, with `levels` left for it. -/
def Nested.within (levels : Nat) : Nested := ⟨parserWithin levels, unaryWithin levels⟩

/-- With so many levels left, the tokens are read as the phrase, wherever they stand and whatever
    follows, if that does not go on with it. -/
def Phrase.IsRead (scope : Scope) (levels : Nat) (own : List Token) : Phrase → Prop
  | .part follow level e => ∀ s rest, scope.remaining s = own ++ rest →
      (follow.Allows level rest →
        parserAt (.within levels) level scope s = .ok e (s.past own)) ∧
      ∀ head, follow = .any → level = head + 1 → Chained level → Ends head rest →
        OpenAt (.within levels) scope head s e (s.past own)
  | .owner e => ∀ s rest, scope.remaining s = own ++ rest → Ends 0 rest →
      (firstKind rest).goesOnAt = 1 → OpenAt (.within levels) scope 0 s e (s.past own)
  | .item e => ∀ close, bracketStep (.symbol close) = some false →
      ItemRead scope (spreadable (Nested.within levels).assignment) close own e
  | .items es => ∀ close, bracketStep (.symbol close) = some false →
      ListRead scope (spreadable (Nested.within levels).assignment) close own es
  | .member m => ItemRead scope (objectMember (.within levels)) .closeBrace own m
  | .members ms => ListRead scope (objectMember (.within levels)) .closeBrace own ms

variable {scope : Scope} {levels level : Nat} {follow : Follow} {own text : List Token} {e : Expr}

theorem Phrase.isRead_of_closed (alone : follow = .any → ¬ Chained level)
    (read : ∀ s rest, scope.remaining s = own ++ rest → follow.Allows level rest →
      parserAt (.within levels) level scope s = .ok e (s.past own)) :
    Phrase.IsRead scope levels own (.part follow level e) := by
  intro s rest tokens
  exact ⟨read s rest tokens, fun _ any _ chained => absurd chained (alone any)⟩

theorem Phrase.isRead_of_open (chained : Chained (level + 1))
    (read : ∀ s rest, scope.remaining s = own ++ rest → Ends level rest →
      OpenAt (.within levels) scope level s e (s.past own)) :
    Phrase.IsRead scope levels own (.expr (level + 1) e) := by
  intro s rest tokens
  refine ⟨fun ends => ?_, fun head _ same _ ends => ?_⟩
  · have ends' : Ends (level + 1) (scope.remaining (s.past own)) := by
      rwa [Scope.remaining_past tokens]
    have other := ends'.other (Nat.le_refl _)
    exact (read s rest tokens (Ends.mono ends (Nat.le_succ level))).parserAt_succ chained other
  · obtain rfl := Nat.succ.inj same
    exact read s rest tokens ends

section

variable {s : ParserState} {rest : List Token} {opening close : Token}

theorem assignment_within (h : Phrase.IsRead scope levels own (.part follow 10 e))
    (tokens : scope.remaining s = own ++ rest) (ends : follow.Allows 10 rest) :
    (Nested.within (levels + 1)).assignment scope s = .ok e (s.past own) :=
  deeper_of_ok ((h { s with depth := s.depth + 1 } rest tokens).1 ends)

theorem unary_within (h : Phrase.IsRead scope levels own (.part follow 3 e))
    (tokens : scope.remaining s = own ++ rest) (ends : follow.Allows 3 rest) :
    (Nested.within (levels + 1)).unary scope s = .ok e (s.past own) :=
  deeper_of_ok ((h { s with depth := s.depth + 1 } rest tokens).1 ends)

theorem Ends.closing {sign : Symbol} (hk : firstKind rest = .symbol sign)
    (closes : bracketStep (.symbol sign) = some false ∨ sign = .comma ∨ sign = .colon) :
    Ends 10 rest := by
  refine .symbol hk ?_ ?_
  · rintro rfl
    simp [bracketStep] at closes
  · rcases closes with closes | rfl | rfl
    · cases sign <;> first | decide | cases closes
    · decide
    · decide

theorem Ends.ofItem {sign : Symbol} (closes : bracketStep (.symbol sign) = some false)
    (ends : firstKind rest = .symbol .comma ∨ firstKind rest = .symbol sign) : Ends 10 rest := by
  rcases ends with comma | close
  · exact .closing comma (.inr (.inl rfl))
  · exact .closing close (.inl closes)

theorem arguments_read {expr : Parser Expr} {es : List Expr}
    (list : ListRead scope (spreadable expr) .closeParen own es)
    (ho : opening.kind = .symbol .openParen) (hc : close.kind = .symbol .closeParen)
    (tokens : scope.remaining s = opening :: own ++ close :: rest) :
    arguments expr scope s = .ok (es, close.span) (s.past (opening :: own ++ [close])) := by
  have inside := Scope.remaining_ahead_one tokens
  have after := Scope.remaining_past inside
  rw [arguments, bind_of_ok (expectSymbol_cons tokens ho),
    bind_of_ok (list.commaSeparated inside hc), bind_of_ok (expectSymbol_cons after hc), pure_apply]
  simp [ParserState.past_append, ParserState.past_cons]

theorem index_read (ho : opening.kind = .symbol .openBracket)
    (inner : Phrase.IsRead scope levels own (.expr 10 e)) (hc : close.kind = .symbol .closeBracket)
    (tokens : scope.remaining s = opening :: own ++ close :: rest) :
    index (.within (levels + 1)) scope s =
      .ok (e, close.span) (s.past (opening :: own ++ [close])) := by
  have inside := Scope.remaining_ahead_one tokens
  have after := Scope.remaining_past inside
  have ended : Ends 10 (close :: rest) := .closing hc (.inl rfl)
  rw [index, bind_of_ok (advance_cons tokens (by simp [ho])),
    bind_of_ok (assignment_within inner inside ended), bind_of_ok (expectSymbol_cons after hc),
    pure_apply]
  simp [ParserState.past_append, ParserState.past_cons]

theorem arrowFunction_read {arrow : Token} {params : List Expr} {start : Span} {isAsync : Bool}
    (ho : opening.kind = .symbol .openParen)
    (list : Phrase.IsRead scope (levels + 1) own (.items params)) (valid : params.all isParam)
    (hc : close.kind = .symbol .closeParen) (ha : arrow.kind = .symbol .arrow)
    (noBrace : firstKind text ≠ .symbol .openBrace) (starts : text ≠ [])
    (body : Phrase.IsRead scope levels text (.part follow 10 e))
    (tokens : scope.remaining s = opening :: own ++ close :: arrow :: text ++ rest)
    (ends : follow.Allows 10 rest) :
    arrowFunction (.within (levels + 1)) start isAsync scope s =
      .ok (.arrow params (.expression e) isAsync (start.cover e.span))
        (s.past (opening :: own ++ close :: arrow :: text)) := by
  have tokens' : scope.remaining s = opening :: own ++ close :: (arrow :: (text ++ rest)) := by
    simpa using tokens
  have here := Scope.get_of_remaining tokens'
  have read := arguments_read (list .closeParen rfl) ho hc tokens'
  have afterParams : scope.remaining (s.past (opening :: own ++ [close])) =
      arrow :: (text ++ rest) := by
    apply Scope.remaining_past
    simpa using tokens'
  have afterArrow := Scope.remaining_ahead_one afterParams
  have bodyKind : (scope.stream.get ((s.past (opening :: own ++ [close])).ahead 1).cursor).kind ≠
      .symbol .openBrace := by
    rw [Scope.kind_of_remaining afterArrow]
    obtain ⟨t, more, rfl⟩ := List.exists_cons_of_ne_nil starts
    exact noBrace
  rw [arrowFunction, bind_of_ok (isSymbol_apply _), here, ho]
  dsimp only
  rw [if_pos (by simp), bind_of_ok read]
  dsimp only
  rw [bind_of_ok (pure_apply _), if_neg (by simp [valid]),
    bind_of_ok (expectSymbol_cons afterParams ha), bind_of_ok (isSymbol_apply _),
    if_neg (by simpa using bodyKind), bind_of_ok (assignment_within body afterArrow ends),
    pure_apply]
  simp [ParserState.past_append, ParserState.past_cons]

end

namespace Phrase.IsRead

variable {t opening close dot : Token} {es : List Expr}

theorem name (hk : t.kind.isName) : IsRead scope levels [t] (.expr 0 (.ofName t)) :=
  isRead_of_closed (by simp [Chained]) fun _ _ tokens ends => primary_name hk ends tokens

theorem literal (h : literalOf? t = some e) : IsRead scope levels [t] (.expr 0 e) :=
  isRead_of_closed (by simp [Chained]) fun _ _ tokens _ => primary_literal h tokens

theorem group (ho : opening.kind = .symbol .openParen) (inner : IsRead scope levels own (.expr 10 e))
    (skips : Skips own) (hc : close.kind = .symbol .closeParen) :
    IsRead scope (levels + 1) (opening :: own ++ [close]) (.expr 0 e) := by
  refine isRead_of_closed (by simp [Chained]) fun s rest tokens ends => ?_
  rw [List.append_assoc, List.singleton_append] at tokens
  have inside := Scope.remaining_ahead_one tokens
  have after := Scope.remaining_past inside
  have noArrow : closesBeforeArrow 0 (opening :: own ++ close :: rest) = false := by
    rw [closesBeforeArrow_list skips ho hc, beq_eq_false_iff_ne]
    intro arrow
    have tighter := ends.tighter
    rw [arrow] at tighter
    cases tighter
  have ended : Ends 10 (close :: rest) := .closing hc (.inl rfl)
  change primary _ scope s = _
  rw [primary_symbol ho tokens, if_neg (by simpa using noArrow), nameOrBrackets_symbol ho]
  change grouped _ scope s = _
  rw [grouped, bind_of_ok (advance_cons tokens (by simp [ho])),
    bind_of_ok (assignment_within inner inside ended), bind_of_ok (expectSymbol_cons after hc),
    pure_apply]
  simp [ParserState.past_append, ParserState.past_cons]

theorem array (ho : opening.kind = .symbol .openBracket) (inner : IsRead scope levels own (.items es))
    (hc : close.kind = .symbol .closeBracket) :
    IsRead scope levels (opening :: own ++ [close])
      (.expr 0 (.array es (opening.span.cover close.span))) := by
  refine isRead_of_closed (by simp [Chained]) fun s rest tokens _ => ?_
  rw [List.append_assoc, List.singleton_append] at tokens
  have inside := Scope.remaining_ahead_one tokens
  have after := Scope.remaining_past inside
  change primary _ scope s = _
  rw [primary_symbol ho tokens, if_neg (by simp), nameOrBrackets_symbol ho]
  change arrayLiteral _ scope s = _
  rw [arrayLiteral, bind_of_ok (expectSymbol_cons tokens ho),
    bind_of_ok ((inner .closeBracket rfl).commaSeparated inside hc),
    bind_of_ok (expectSymbol_cons after hc), pure_apply]
  simp [ParserState.past_append, ParserState.past_cons]

theorem object {ms : List ObjectMember} (ho : opening.kind = .symbol .openBrace)
    (inner : IsRead scope levels own (.members ms)) (hc : close.kind = .symbol .closeBrace) :
    IsRead scope levels (opening :: own ++ [close])
      (.expr 0 (.object ms (opening.span.cover close.span))) := by
  refine isRead_of_closed (by simp [Chained]) fun s rest tokens _ => ?_
  rw [List.append_assoc, List.singleton_append] at tokens
  have inside := Scope.remaining_ahead_one tokens
  have after := Scope.remaining_past inside
  change primary _ scope s = _
  rw [primary_symbol ho tokens, if_neg (by simp), nameOrBrackets_symbol ho]
  change objectLiteral _ scope s = _
  rw [objectLiteral, bind_of_ok (expectSymbol_cons tokens ho),
    bind_of_ok (ListRead.commaSeparated inner inside hc),
    bind_of_ok (expectSymbol_cons after hc), pure_apply]
  simp [ParserState.past_append, ParserState.past_cons]

theorem arrow {arrow : Token} {params : List Expr} (last : follow ≠ .any)
    (ho : opening.kind = .symbol .openParen)
    (list : IsRead scope (levels + 1) own (.items params)) (skips : Skips own)
    (valid : params.all isParam) (hc : close.kind = .symbol .closeParen)
    (ha : arrow.kind = .symbol .arrow) (noBrace : firstKind text ≠ .symbol .openBrace)
    (starts : text ≠ []) (body : IsRead scope levels text (.part follow 10 e)) :
    IsRead scope (levels + 1) (opening :: own ++ close :: arrow :: text)
      (.part follow 0 (.arrow params (.expression e) false (opening.span.cover e.span))) := by
  refine isRead_of_closed (by simp [Chained]) fun s rest tokens ends => ?_
  change primary _ scope s = _
  rw [primary_symbol ho tokens, if_pos ⟨rfl, closesBeforeArrow_params skips ho hc ha⟩]
  exact arrowFunction_read ho list valid hc ha noBrace starts body tokens (ends.loosest last)

theorem asyncArrow {word arrow : Token} {params : List Expr} (last : follow ≠ .any)
    (hw : word.kind = .identifier) (raw : word.raw = "async")
    (ho : opening.kind = .symbol .openParen)
    (list : IsRead scope (levels + 1) own (.items params)) (skips : Skips own)
    (valid : params.all isParam) (hc : close.kind = .symbol .closeParen)
    (ha : arrow.kind = .symbol .arrow) (noBrace : firstKind text ≠ .symbol .openBrace)
    (starts : text ≠ []) (body : IsRead scope levels text (.part follow 10 e)) :
    IsRead scope (levels + 1) (word :: opening :: own ++ close :: arrow :: text)
      (.part follow 0 (.arrow params (.expression e) true (word.span.cover e.span))) := by
  refine isRead_of_closed (by simp [Chained]) fun s rest tokens ends => ?_
  change primary _ scope s = _
  rw [primary_asyncArrow hw raw (by exact ho) (closesBeforeArrow_params skips ho hc ha) tokens,
    List.cons_append, ParserState.past_cons]
  exact arrowFunction_read ho list valid hc ha noBrace starts body
    (Scope.remaining_ahead_one tokens) (ends.loosest last)

theorem ownerAlone (inner : IsRead scope levels own (.expr 1 e)) :
    IsRead scope levels own (.owner e) :=
  fun s rest tokens ends _ => (inner s rest tokens).2 0 rfl rfl (.inl rfl) ends

theorem ownerArrow (inner : IsRead scope levels own (.part .link 0 e)) :
    IsRead scope levels own (.owner e) :=
  fun s rest tokens _ link => ⟨e, s.past own, (inner s rest tokens).1 link, .refl _ _⟩

theorem linked {object : Expr} (operand : IsRead scope levels own (.owner object))
    {s : ParserState} {rest : List Token} (tokens : scope.remaining s = own ++ (dot :: text ++ rest))
    (ends : Ends 0 (dot :: text ++ rest)) (goesOn : dot.kind.goesOnAt = 1)
    (step : link (.within levels) object scope (s.past own) =
      .ok (some e) ((s.past own).past (dot :: text))) :
    OpenAt (.within levels) scope 0 s e (s.past (own ++ dot :: text)) := by
  obtain ⟨head, u, first, rounds⟩ := operand s _ tokens ends goesOn
  refine ⟨head, u, first, rounds.trans ?_⟩
  rw [ParserState.past_append]
  refine .head (chainRound_of_some step) ?_ ?_ (.refl _ _)
  · exact Scope.lt_size_of_remaining (Scope.remaining_past tokens)
  · simp only [ParserState.past, ParserState.ahead_cursor, List.length_cons]
    omega

theorem memberName_read {s : ParserState} {rest : List Token}
    (hk : t.kind = .identifier ∨ t.kind.isKeyword) (tokens : scope.remaining s = t :: rest) :
    memberName scope s = .ok (.ofName t) (s.ahead 1) := by
  have here := Scope.get_of_remaining tokens
  have noEnd : t.kind ≠ .endOfFile := by
    rintro kind
    rw [kind] at hk
    rcases hk with hk | hk <;> cases hk
  rw [memberName, bind_of_ok current_apply, here, if_pos (by simpa using hk),
    bind_of_ok (advance_cons tokens noEnd), pure_apply]

theorem member {object : Expr} {optional : Bool} (operand : IsRead scope levels own (.owner object))
    (hd : dot.kind = .symbol (if optional then .questionDot else .dot))
    (hk : t.kind = .identifier ∨ t.kind.isKeyword) :
    IsRead scope levels (own ++ [dot, t]) (.expr 1 (mkMember object (.ofName t) optional)) := by
  refine isRead_of_open (.inl rfl) fun s rest tokens _ => ?_
  rw [List.append_assoc] at tokens
  have atDot := Scope.remaining_past tokens
  have afterDot := Scope.remaining_ahead_one atDot
  have here := Scope.get_of_remaining atDot
  refine operand.linked tokens (.symbol hd ?_ ?_) ?_ ?_
  · cases optional <;> simp
  · cases optional <;> decide
  · rw [hd]
    cases optional <;> rfl
  rw [link, bind_of_ok current_apply, here, hd]
  cases optional with
  | false =>
    change (advance >>= fun _ => memberName >>= fun name => pure (some (mkMember object name false)))
      scope (s.past own) = _
    rw [bind_of_ok (advance_cons atDot (by simp [hd])), bind_of_ok (memberName_read hk afterDot),
      pure_apply]
    rfl
  | true =>
    have next := Scope.get_of_remaining afterDot
    change (advance >>= fun _ => current >>= fun t => _) scope (s.past own) = _
    rw [bind_of_ok (advance_cons atDot (by simp [hd])), bind_of_ok current_apply, next]
    have named : (memberName >>= fun name => pure (some (mkMember object name true))) scope
        ((s.past own).ahead 1) = .ok (some (mkMember object (.ofName t) true))
          ((s.past own).past [dot, t]) := by
      rw [bind_of_ok (memberName_read hk afterDot), pure_apply]
      rfl
    rcases hk with kind | keyword
    · rw [kind]
      exact named
    · cases kind : t.kind with
      | keyword word => exact named
      | _ => rw [kind] at keyword; cases keyword

theorem index {object : Expr} (operand : IsRead scope (levels + 1) own (.owner object))
    (ho : opening.kind = .symbol .openBracket) (inner : IsRead scope levels text (.expr 10 e))
    (hc : close.kind = .symbol .closeBracket) :
    IsRead scope (levels + 1) (own ++ opening :: text ++ [close])
      (.expr 1 (mkIndex object e false close.span)) := by
  refine isRead_of_open (.inl rfl) fun s rest tokens _ => ?_
  have tokens' : scope.remaining s = own ++ (opening :: (text ++ [close]) ++ rest) := by
    simpa using tokens
  have atBracket : scope.remaining (s.past own) = opening :: text ++ close :: rest := by
    simpa using Scope.remaining_past tokens'
  rw [List.append_assoc]
  refine operand.linked tokens' (.symbol ho (by simp) (by decide)) (by rw [ho]; rfl) ?_
  rw [link, bind_of_ok current_apply, Scope.get_of_remaining atBracket, ho]
  change (Expr.index _ >>= fun found => pure (some (mkIndex object found.1 false found.2))) scope
    (s.past own) = _
  rw [bind_of_ok (index_read ho inner hc atBracket)]
  rfl

theorem optionalIndex {object : Expr} (operand : IsRead scope (levels + 1) own (.owner object))
    (hd : dot.kind = .symbol .questionDot) (ho : opening.kind = .symbol .openBracket)
    (inner : IsRead scope levels text (.expr 10 e)) (hc : close.kind = .symbol .closeBracket) :
    IsRead scope (levels + 1) (own ++ dot :: opening :: text ++ [close])
      (.expr 1 (mkIndex object e true close.span)) := by
  refine isRead_of_open (.inl rfl) fun s rest tokens _ => ?_
  have tokens' : scope.remaining s = own ++ (dot :: (opening :: text ++ [close]) ++ rest) := by
    simpa using tokens
  have atDot : scope.remaining (s.past own) = dot :: (opening :: text ++ close :: rest) := by
    simpa using Scope.remaining_past tokens'
  have atBracket := Scope.remaining_ahead_one atDot
  rw [List.append_assoc]
  refine operand.linked tokens' (.symbol hd (by simp) (by decide)) (by rw [hd]; rfl) ?_
  rw [link, bind_of_ok current_apply, Scope.get_of_remaining atDot, hd]
  change (advance >>= fun _ => current >>= fun t => _) scope (s.past own) = _
  rw [bind_of_ok (advance_cons atDot (by simp [hd])), bind_of_ok current_apply,
    Scope.get_of_remaining atBracket, ho]
  change (Expr.index _ >>= fun found => pure (some (mkIndex object found.1 true found.2))) scope
    ((s.past own).ahead 1) = _
  rw [bind_of_ok (index_read ho inner hc atBracket), pure_apply, ParserState.past_cons _ dot]
  rfl

theorem call {callee : Expr} (operand : IsRead scope levels own (.owner callee))
    (ho : opening.kind = .symbol .openParen) (inner : IsRead scope levels text (.items es))
    (skips : Skips text) (hc : close.kind = .symbol .closeParen) :
    IsRead scope levels (own ++ opening :: text ++ [close])
      (.expr 1 (mkCall callee es false close.span)) := by
  refine isRead_of_open (.inl rfl) fun s rest tokens ends => ?_
  have tokens' : scope.remaining s = own ++ (opening :: (text ++ [close]) ++ rest) := by
    simpa using tokens
  have atParen : scope.remaining (s.past own) = opening :: text ++ close :: rest := by
    simpa using Scope.remaining_past tokens'
  have list : Ends 0 (opening :: (text ++ [close]) ++ rest) := by
    simpa using Ends.call skips ho hc ends
  rw [List.append_assoc]
  refine operand.linked tokens' list (by rw [ho]; rfl) ?_
  rw [link, bind_of_ok current_apply, Scope.get_of_remaining atParen, ho]
  change (arguments _ >>= fun found => pure (some (mkCall callee found.1 false found.2))) scope
    (s.past own) = _
  rw [bind_of_ok (arguments_read (inner .closeParen rfl) ho hc atParen)]
  rfl

theorem importCall (hk : t.kind = .keyword .import_) (ho : opening.kind = .symbol .openParen)
    (inner : IsRead scope levels text (.items es)) (hc : close.kind = .symbol .closeParen) :
    IsRead scope levels (t :: opening :: text ++ [close])
      (.expr 1 (mkCall (.ofName t) es false close.span)) := by
  refine isRead_of_open (.inl rfl) fun s rest tokens _ => ?_
  have tokens' : scope.remaining s = t :: (opening :: text ++ close :: rest) := by
    simpa using tokens
  have atParen := Scope.remaining_ahead_one tokens'
  have next : (scope.stream.get (s.cursor + 1)).kind = .symbol .openParen := by
    rw [← ho]
    exact congrArg Token.kind (Scope.get_of_remaining atParen)
  have async : startsAsyncArrow t scope s = .ok false s := by
    rw [startsAsyncArrow, hk]
    rfl
  have arrow : startsArrow t (scope.stream.get (s.cursor + 1)) scope s = .ok false s := by
    rw [startsArrow, hk]
    rfl
  have name : primary (.within levels) scope s = .ok (.ofName t) (s.ahead 1) := by
    rw [primary_of_starts (by rw [hk]; decide) tokens' async arrow, if_neg (by simp),
      if_neg (by simp), nameOrBrackets, if_pos (by simp [readsAsName, hk, next]),
      bind_of_ok (advance_cons tokens' (by simp [hk])), pure_apply]
  refine ⟨.ofName t, s.ahead 1, name, .head (chainRound_of_some ?_)
    (Scope.lt_size_of_remaining atParen) ?_ (.refl _ _)⟩
  · rw [stepAt, if_pos rfl, link, bind_of_ok current_apply, Scope.get_of_remaining atParen, ho]
    change (arguments _ >>= fun found => pure (some (mkCall (.ofName t) found.1 false found.2)))
      scope (s.ahead 1) = _
    rw [bind_of_ok (arguments_read (inner .closeParen rfl) ho hc atParen), pure_apply,
      List.cons_append, List.cons_append, ParserState.past_cons _ t]
    rfl
  · simp only [ParserState.past, ParserState.ahead_cursor, List.length_append, List.length_cons]
    omega

theorem optionalCall {callee : Expr} (operand : IsRead scope levels own (.owner callee))
    (hd : dot.kind = .symbol .questionDot) (ho : opening.kind = .symbol .openParen)
    (inner : IsRead scope levels text (.items es)) (hc : close.kind = .symbol .closeParen) :
    IsRead scope levels (own ++ dot :: opening :: text ++ [close])
      (.expr 1 (mkCall callee es true close.span)) := by
  refine isRead_of_open (.inl rfl) fun s rest tokens _ => ?_
  have tokens' : scope.remaining s = own ++ (dot :: (opening :: text ++ [close]) ++ rest) := by
    simpa using tokens
  have atDot : scope.remaining (s.past own) = dot :: (opening :: text ++ close :: rest) := by
    simpa using Scope.remaining_past tokens'
  have atParen := Scope.remaining_ahead_one atDot
  rw [List.append_assoc]
  refine operand.linked tokens' (.symbol hd (by simp) (by decide)) (by rw [hd]; rfl) ?_
  rw [link, bind_of_ok current_apply, Scope.get_of_remaining atDot, hd]
  change (advance >>= fun _ => current >>= fun t => _) scope (s.past own) = _
  rw [bind_of_ok (advance_cons atDot (by simp [hd])), bind_of_ok current_apply,
    Scope.get_of_remaining atParen, ho]
  change (arguments _ >>= fun found => pure (some (mkCall callee found.1 true found.2))) scope
    ((s.past own).ahead 1) = _
  rw [bind_of_ok (arguments_read (inner .closeParen rfl) ho hc atParen), pure_apply,
    ParserState.past_cons _ dot]
  rfl

theorem updateAfter {op : UpdateOp} (operand : IsRead scope levels own (.expr 1 e))
    (assignable : e.isAssignable) (ht : t.kind = .symbol op.symbol)
    (line : own.getLast?.map Token.line = some t.line) :
    IsRead scope levels (own ++ [t]) (.part follow 2 (.update op false e (e.span.cover t.span))) := by
  refine isRead_of_closed (by simp [Chained]) fun s rest tokens _ => ?_
  rw [List.append_assoc, List.singleton_append] at tokens
  have atSign := Scope.remaining_past tokens
  have ended : Ends 1 (t :: rest) := .symbol ht (by cases op <;> simp [UpdateOp.symbol])
    (by cases op <;> decide)
  have found : UpdateOp.ofKind? t.kind = some op := by rw [ht]; cases op <;> rfl
  obtain ⟨last, ends, sameLine⟩ := Option.map_eq_some_iff.mp line
  obtain ⟨init, rfl⟩ := List.getLast?_eq_some_iff.mp ends
  have before : scope.stream.get ((s.past (init ++ [last])).cursor - 1) = last := by
    rw [List.append_assoc] at tokens
    have here := Scope.get_of_remaining (Scope.remaining_past tokens)
    rwa [ParserState.past_append]
  have read : Expr.linked (.within levels) scope s = .ok e (s.past (init ++ [last])) :=
    (operand s _ tokens).1 ended
  change postfixed _ scope s = _
  rw [postfixed, bind_of_ok read, bind_of_ok current_apply, Scope.get_of_remaining atSign, found]
  dsimp only
  rw [bind_of_ok previous_apply, before, sameLine, if_neg (by simp), if_neg (by simp [assignable]),
    bind_of_ok (advance_cons atSign (by simp [ht])), pure_apply,
    ParserState.past_append _ (init ++ [last])]
  rfl

theorem unary {op : UnaryOp} (ht : t.kind = .symbol op.symbol)
    (operand : IsRead scope levels own (.part follow 3 e)) :
    IsRead scope (levels + 1) (t :: own) (.part follow 3 (.unary op e (t.span.cover e.span))) := by
  refine isRead_of_closed (by simp [Chained]) fun s rest tokens ends => ?_
  have inside := Scope.remaining_ahead_one tokens
  have found : UnaryOp.ofKind? t.kind = some op := by rw [ht]; cases op <;> rfl
  change unaryAt _ scope s = _
  rw [unaryAt, bind_of_ok current_apply, Scope.get_of_remaining tokens, found]
  dsimp only
  rw [bind_of_ok (advance_cons tokens (by simp [ht])),
    bind_of_ok (unary_within operand inside ends), pure_apply, ParserState.past_cons]

theorem updateBefore {op : UpdateOp} (ht : t.kind = .symbol op.symbol)
    (operand : IsRead scope levels own (.part follow 3 e)) (assignable : e.isAssignable) :
    IsRead scope (levels + 1) (t :: own) (.part follow 3 (.update op true e (t.span.cover e.span))) := by
  refine isRead_of_closed (by simp [Chained]) fun s rest tokens ends => ?_
  have inside := Scope.remaining_ahead_one tokens
  have other : UnaryOp.ofKind? t.kind = none := by rw [ht]; cases op <;> rfl
  have found : UpdateOp.ofKind? t.kind = some op := by rw [ht]; cases op <;> rfl
  change unaryAt _ scope s = _
  rw [unaryAt, bind_of_ok current_apply, Scope.get_of_remaining tokens, other, found]
  dsimp only
  rw [bind_of_ok (advance_cons tokens (by simp [ht])),
    bind_of_ok (unary_within operand inside ends), if_neg (by simp [assignable]), pure_apply,
    ParserState.past_cons]

theorem binaryOpen {left right : Expr} {op : BinaryOp} {s : ParserState} {rest : List Token}
    (first : IsRead scope levels own (.expr (3 + op.level) left)) (ht : t.kind = .symbol op.symbol)
    (second : IsRead scope levels text (.part follow (2 + op.level) right))
    (tokens : scope.remaining s = own ++ t :: text ++ rest)
    (ends : follow.Allows (2 + op.level) rest) :
    OpenAt (.within levels) scope (2 + op.level) s (mkBinary op left right)
      (s.past (own ++ t :: text)) := by
  have low := op.level_pos
  have high := op.level_le
  have chained : Chained (2 + op.level + 1) := .inr (by omega)
  rw [show 3 + op.level = 2 + op.level + 1 by omega] at first
  rw [List.append_assoc, List.cons_append] at tokens
  have atSign := Scope.remaining_past tokens
  have inside := Scope.remaining_ahead_one atSign
  have goesOn : (TokenKind.symbol op.symbol).goesOnAt = 3 + op.level := by cases op <;> rfl
  have ended : Ends (2 + op.level) (t :: (text ++ rest)) :=
    .symbol ht (by cases op <;> simp [BinaryOp.symbol]) (by omega)
  obtain ⟨head, u, read, rounds⟩ := (first s _ tokens).2 _ rfl rfl chained ended
  refine ⟨head, u, read, rounds.trans ?_⟩
  rw [ParserState.past_append]
  refine .head (chainRound_of_some ?_) (Scope.lt_size_of_remaining atSign) ?_ (.refl _ _)
  · have found : BinaryOp.ofKind? op.level (.symbol op.symbol) = some op := by cases op <;> rfl
    rw [stepAt, if_neg (by omega), join, bind_of_ok current_apply, Scope.get_of_remaining atSign, ht,
      show 2 + op.level + 1 - 3 = op.level by omega, found]
    dsimp only
    rw [bind_of_ok (advance_cons atSign (by simp [ht])),
      show 2 + op.level + 1 - 1 = 2 + op.level by omega,
      bind_of_ok ((second _ _ inside).1 ends), pure_apply, ParserState.past_cons]
  · simp only [ParserState.past, ParserState.ahead_cursor, List.length_cons]
    omega

theorem binary {left right : Expr} {op : BinaryOp}
    (first : IsRead scope levels own (.expr (3 + op.level) left)) (ht : t.kind = .symbol op.symbol)
    (second : IsRead scope levels text (.part follow (2 + op.level) right)) :
    IsRead scope levels (own ++ t :: text) (.part follow (3 + op.level) (mkBinary op left right)) := by
  have low := op.level_pos
  have high := op.level_le
  have chained : Chained (2 + op.level + 1) := .inr (by omega)
  intro s rest tokens
  have room : 3 + op.level = 2 + op.level + 1 := by omega
  refine ⟨fun ends => ?_, fun head any same _ ends => ?_⟩
  · have other := ends.other (by omega) (fun _ => by omega)
    rw [room] at other ⊢
    rw [← Scope.remaining_past tokens] at other
    exact (binaryOpen first ht second tokens (ends.mono (by omega))).parserAt_succ chained other
  · subst any
    obtain rfl : head = 2 + op.level := by omega
    exact binaryOpen first ht second tokens ends

theorem conditional {question colon : Token} {one other : List Token}
    {test consequent alternate : Expr} (condition : IsRead scope (levels + 1) own (.expr 8 test))
    (hq : question.kind = .symbol .question)
    (first : IsRead scope levels one (.expr 10 consequent)) (hc : colon.kind = .symbol .colon)
    (second : IsRead scope levels other (.part follow 10 alternate)) :
    IsRead scope (levels + 1) (own ++ question :: one ++ colon :: other)
      (.part follow 10 (.conditional test consequent alternate (test.span.cover alternate.span))) := by
  refine isRead_of_closed (by simp [Chained]) fun s rest tokens ends => ?_
  have tokens' : scope.remaining s = own ++ (question :: (one ++ (colon :: (other ++ rest)))) := by
    simpa using tokens
  have atQuestion := Scope.remaining_past tokens'
  have atFirst := Scope.remaining_ahead_one atQuestion
  have atColon := Scope.remaining_past atFirst
  have atSecond := Scope.remaining_ahead_one atColon
  have ended : Ends 8 (question :: (one ++ (colon :: (other ++ rest)))) :=
    .symbol hq (by simp) (by decide)
  have ended' : Ends 10 (colon :: (other ++ rest)) := .closing hc (.inr (.inr rfl))
  have eaten : eatSymbol .question scope (s.past own) = .ok true ((s.past own).ahead 1) := by
    rw [eatSymbol, eat_apply (by simp), if_pos]
    rw [Scope.get_of_remaining atQuestion, hq]
  have readTest : binaryAt (unaryAt (.within (levels + 1))) BinaryOp.loosest scope s =
      .ok test (s.past own) := (condition s _ tokens').1 ended
  have state : s.past (own ++ question :: one ++ colon :: other) =
      ((((s.past own).ahead 1).past one).ahead 1).past other := by
    simp [ParserState.past_append, ParserState.past_cons]
  have read : parserAt (.within (levels + 1)) 9 scope s =
      .ok (.conditional test consequent alternate (test.span.cover alternate.span))
        (s.past (own ++ question :: one ++ colon :: other)) := by
    change conditionalAt _ scope s = _
    rw [conditionalAt, bind_of_ok readTest, bind_of_ok eaten, if_neg (by simp),
      bind_of_ok (assignment_within first atFirst ended'),
      bind_of_ok (expectSymbol_cons atColon hc),
      bind_of_ok (assignment_within second atSecond ends), pure_apply, state]
  refine parserAt_succ read (by omega) ?_ (fun tight => by omega)
  rw [Scope.remaining_past tokens]
  exact ends.other (Nat.le_refl 10) (fun _ => by omega)

theorem assignment {target value : Expr} {op : AssignOp}
    (left : IsRead scope (levels + 1) own (.expr 9 target)) (assignable : target.isAssignable)
    (ht : t.kind = .symbol op.symbol) (right : IsRead scope levels text (.part follow 10 value)) :
    IsRead scope (levels + 1) (own ++ t :: text)
      (.part follow 10 (.assignment op target value (target.span.cover value.span))) := by
  refine isRead_of_closed (by simp [Chained]) fun s rest tokens ends => ?_
  rw [List.append_assoc, List.cons_append] at tokens
  have atSign := Scope.remaining_past tokens
  have inside := Scope.remaining_ahead_one atSign
  have ended : Ends 9 (t :: (text ++ rest)) :=
    .symbol ht (by cases op <;> simp [AssignOp.symbol]) (by cases op <;> decide)
  have found : AssignOp.ofKind? t.kind = some op := by rw [ht]; cases op <;> rfl
  have readTarget : conditionalAt (.within (levels + 1)) scope s = .ok target (s.past own) :=
    (left s _ tokens).1 ended
  change assignmentAt _ scope s = _
  rw [assignmentAt, bind_of_ok readTarget, bind_of_ok current_apply, Scope.get_of_remaining atSign,
    found]
  dsimp only
  rw [if_neg (by simp [assignable]), bind_of_ok (advance_cons atSign (by simp [ht])),
    bind_of_ok (assignment_within right inside ends), pure_apply, ParserState.past_append,
    ParserState.past_cons]

theorem looser (tight : IsRead scope levels own (.part follow level e)) (bound : level < 10)
    (whole : follow = .link → 2 ≤ level) (starts : Phrase.Starts (.part follow level e) own) :
    IsRead scope levels own (.part follow (level + 1) e) := by
  intro s rest tokens
  refine ⟨fun ends => ?_, fun head any same chained ends => ?_⟩
  · refine parserAt_succ ((tight s rest tokens).1 (ends.mono (Nat.le_succ level))) bound ?_
      fun small => ?_
    · rw [Scope.remaining_past tokens]
      exact ends.other bound fun link => Nat.le_succ_of_le (whole link)
    · obtain ⟨t, more, rfl, -, plain⟩ := starts
      rw [Scope.get_of_remaining tokens]
      exact plain small
  · subst any
    obtain rfl := Nat.succ.inj same
    exact ⟨e, _, (tight s rest tokens).1 ends, .refl _ _⟩

theorem closing (inner : IsRead scope levels own (.expr level e)) (bound : level ≤ 10) :
    IsRead scope levels own (.part .close level e) :=
  fun s rest tokens => ⟨fun ends => (inner s rest tokens).1 (Ends.mono ends bound), by simp⟩

theorem loosest (inner : IsRead scope levels own (.part .close 10 e)) :
    IsRead scope levels own (.expr 10 e) :=
  isRead_of_closed (by simp [Chained]) fun s rest tokens => (inner s rest tokens).1

theorem item (inner : IsRead scope levels own (.expr 10 e))
    (starts : Phrase.Starts (.expr 10 e) own) : IsRead scope (levels + 1) own (.item e) := by
  obtain ⟨t, more, rfl, first, -⟩ := starts
  simp only [mayStart, Bool.and_eq_true, bne_iff_ne] at first
  refine fun close closes => ⟨⟨t, more, rfl, fun kind => first.1 (kind ▸ closes)⟩, ?_⟩
  intro s rest tokens ends
  have ended : Ends 10 rest := .ofItem closes ends
  rw [spreadable, bind_of_ok (isSymbol_apply _), Scope.get_of_remaining tokens,
    if_neg (by simpa using first.2), assignment_within inner tokens ended]

theorem spreadItem {dots : Token} (hd : dots.kind = .symbol .spread)
    (inner : IsRead scope levels own (.expr 10 e)) :
    IsRead scope (levels + 1) (dots :: own) (.item (.spread e (dots.span.cover e.span))) := by
  refine fun close closes => ⟨⟨dots, own, rfl, fun kind => ?_⟩, ?_⟩
  · rw [← kind, hd] at closes
    cases closes
  intro s rest tokens ends
  have inside := Scope.remaining_ahead_one tokens
  have ended : Ends 10 rest := .ofItem closes ends
  rw [spreadable, bind_of_ok (isSymbol_apply _), Scope.get_of_remaining tokens,
    if_pos (by simp [hd]), bind_of_ok (advance_cons tokens (by simp [hd])),
    bind_of_ok (assignment_within inner inside ended), pure_apply, ParserState.past_cons]

theorem shorthand (hk : t.kind = .identifier) :
    IsRead scope levels [t]
      (.member (.property (.identifier t.raw) (.ofName t) true t.span)) := by
  refine ⟨⟨t, [], rfl, by simp [hk]⟩, fun s rest tokens ends => ?_⟩
  have next : (scope.stream.get (s.ahead 1).cursor).kind = firstKind rest :=
    Scope.kind_of_remaining (Scope.remaining_ahead_one tokens)
  have key : keyOf? t = some (.identifier t.raw) := by rw [keyOf?, hk]
  rw [objectMember, bind_of_ok current_apply, Scope.get_of_remaining tokens,
    if_neg (by simp [hk]), if_neg (by simp [hk]), key]
  dsimp only
  rw [bind_of_ok (advance_cons tokens (by simp [hk])), bind_of_ok current_apply, next,
    if_pos (by simpa [hk] using ends)]
  rfl

theorem propertyValue_read {colon : Token} {start : Span} {key : PropertyKey} {s : ParserState}
    {rest : List Token} (hc : colon.kind = .symbol .colon)
    (inner : IsRead scope levels own (.expr 10 e)) (ends : Ends 10 rest)
    (tokens : scope.remaining s = colon :: own ++ rest) :
    propertyValue (.within (levels + 1)) start key scope s =
      .ok (.property key e false (start.cover e.span)) (s.past (colon :: own)) := by
  rw [propertyValue, bind_of_ok (expectSymbol_cons tokens hc),
    bind_of_ok (assignment_within inner (Scope.remaining_ahead_one tokens) ends), pure_apply,
    ParserState.past_cons]

theorem property {colon : Token} {key : PropertyKey} (hk : keyOf? t = some key)
    (hc : colon.kind = .symbol .colon) (inner : IsRead scope levels own (.expr 10 e)) :
    IsRead scope (levels + 1) (t :: colon :: own)
      (.member (.property key e false (t.span.cover e.span))) := by
  obtain ⟨noEnd, plain, -⟩ := plain_of_keyOf? hk
  have noSpread : t.kind ≠ .symbol .spread := by
    intro kind
    rw [keyOf?, kind] at hk
    cases hk
  have noBracket : t.kind ≠ .symbol .openBracket := by
    intro kind
    rw [kind] at plain
    cases plain
  refine ⟨⟨t, _, rfl, fun kind => by rw [kind] at plain; cases plain⟩, fun s rest tokens ends => ?_⟩
  have atColon := Scope.remaining_ahead_one tokens
  have next := Scope.get_of_remaining atColon
  rw [objectMember, bind_of_ok current_apply, Scope.get_of_remaining tokens,
    if_neg (by simpa using noSpread), if_neg (by simpa using noBracket), hk]
  dsimp only
  rw [bind_of_ok (advance_cons tokens noEnd), bind_of_ok current_apply, next,
    if_neg (by simp [hc]), propertyValue_read hc inner (.ofItem rfl ends) atColon,
    ParserState.past_cons _ t]

theorem computed {colon : Token} {key : Expr} (ho : opening.kind = .symbol .openBracket)
    (name : IsRead scope levels text (.expr 10 key)) (hc : close.kind = .symbol .closeBracket)
    (hs : colon.kind = .symbol .colon) (inner : IsRead scope levels own (.expr 10 e)) :
    IsRead scope (levels + 1) (opening :: text ++ close :: colon :: own)
      (.member (.property (.computed key) e false (opening.span.cover e.span))) := by
  refine ⟨⟨opening, _, rfl, by simp [ho]⟩, fun s rest tokens ends => ?_⟩
  have tokens' : scope.remaining s = opening :: (text ++ (close :: (colon :: own ++ rest))) := by
    simpa using tokens
  have inside := Scope.remaining_ahead_one tokens'
  have atClose := Scope.remaining_past inside
  have atColon := Scope.remaining_ahead_one atClose
  have ended : Ends 10 (close :: (colon :: own ++ rest)) := .closing hc (.inl rfl)
  rw [objectMember, bind_of_ok current_apply, Scope.get_of_remaining tokens',
    if_neg (by simp [ho]), if_pos (by simp [ho]), bind_of_ok (advance_cons tokens' (by simp [ho])),
    bind_of_ok (assignment_within name inside ended), bind_of_ok (expectSymbol_cons atClose hc),
    propertyValue_read hs inner (.ofItem rfl ends) atColon]
  simp [ParserState.past_append, ParserState.past_cons]

theorem spreadMember {dots : Token} (hd : dots.kind = .symbol .spread)
    (inner : IsRead scope levels own (.expr 10 e)) :
    IsRead scope (levels + 1) (dots :: own) (.member (.spread e (dots.span.cover e.span))) := by
  refine ⟨⟨dots, own, rfl, by simp [hd]⟩, fun s rest tokens ends => ?_⟩
  have inside := Scope.remaining_ahead_one tokens
  rw [objectMember, bind_of_ok current_apply, Scope.get_of_remaining tokens,
    if_pos (by simp [hd]), bind_of_ok (advance_cons tokens (by simp [hd])),
    bind_of_ok (assignment_within inner inside (.ofItem rfl ends)), pure_apply,
    ParserState.past_cons]

end Phrase.IsRead

theorem Derives.isRead {phrase : Phrase} (h : Derives levels phrase own) (scope : Scope) :
    phrase.IsRead scope levels own := by
  have noComma {close : Symbol} (closes : bracketStep (.symbol close) = some false) :
      close ≠ .comma := by
    rintro rfl
    cases closes
  induction h with
  | name hk => exact .name hk
  | literal h => exact .literal h
  | group ho inner hc ih => exact .group ho ih inner.skips hc
  | array ho _ hc ih => exact .array ho ih hc
  | object ho _ hc ih => exact .object ho ih hc
  | openArrow last ho list valid hc ha noBrace inner ihList ih =>
    obtain ⟨t, more, rfl, -⟩ := inner.starts
    exact .arrow last ho ihList list.skips valid hc ha noBrace (by simp) ih
  | openAsyncArrow last hw raw ho list valid hc ha noBrace inner ihList ih =>
    obtain ⟨t, more, rfl, -⟩ := inner.starts
    exact .asyncArrow last hw raw ho ihList list.skips valid hc ha noBrace (by simp) ih
  | ownerAlone _ ih => exact .ownerAlone ih
  | ownerArrow _ ih => exact .ownerArrow ih
  | member _ hd hk ih => exact .member ih hd hk
  | index _ ho _ hc ih ihIndex => exact .index ih ho ihIndex hc
  | optionalIndex _ hd ho _ hc ih ihIndex => exact .optionalIndex ih hd ho ihIndex hc
  | call _ ho inner hc ih ihList => exact .call ih ho ihList inner.skips hc
  | importCall hk ho _ hc ihList => exact .importCall hk ho ihList hc
  | optionalCall _ hd ho _ hc ih ihList => exact .optionalCall ih hd ho ihList hc
  | updateAfter _ assignable ht line ih => exact .updateAfter ih assignable ht line
  | unary ht _ ih => exact .unary ht ih
  | updateBefore ht _ assignable ih => exact .updateBefore ht ih assignable
  | binary _ ht _ ihLeft ihRight => exact .binary ihLeft ht ihRight
  | conditional _ hq _ hc _ ihTest ihOne ihOther => exact .conditional ihTest hq ihOne hc ihOther
  | assignment _ assignable ht _ ihLeft ihRight => exact .assignment ihLeft assignable ht ihRight
  | looserPart tight bound whole ih => exact ih.looser bound whole tight.starts
  | closing _ bound ih => exact ih.closing bound
  | loosest _ ih => exact ih.loosest
  | item inner ih => exact .item ih inner.starts
  | spreadItem hd _ ih => exact .spreadItem hd ih
  | noItems => exact fun _ _ => .nil
  | lastItem _ ih => exact fun close closes => .single (ih close closes) (noComma closes)
  | moreItems _ hc _ ihFirst ih =>
    exact fun close closes => .cons (ihFirst close closes) hc (ih close closes)
  | shorthand hk => exact .shorthand hk
  | property hk hc _ ih => exact .property hk hc ih
  | computed ho _ hc hs _ ihKey ih => exact .computed ho ihKey hc hs ih
  | spreadMember hd _ ih => exact .spreadMember hd ih
  | noMembers => exact ListRead.nil
  | lastMember _ ih => exact ListRead.single ih (by simp)
  | moreMembers _ hc _ ihFirst ih => exact ListRead.cons ihFirst hc ih

theorem Derives.parser {e : Expr} (h : Derives levels (.expr 10 e) own) {scope : Scope}
    {s : ParserState} {rest : List Token} (tokens : scope.remaining s = own ++ rest)
    (ends : 10 < (firstKind rest).goesOnAt)
    (left : scope.options.maxDepth - s.depth = levels + 1) :
    parser scope s = .ok e (s.past own) := by
  have ended : Ends 10 rest := by
    refine ⟨ends, fun params => ?_⟩
    rw [params] at ends
    exact absurd ends (by decide)
  rw [Expr.parser, withLevels, left]
  exact assignment_within (h.isRead scope) tokens ended

end PulseSyntax.Expr
