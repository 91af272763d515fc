import PulseSyntax.Proofs.Block.Twin
import PulseSyntax.Proofs.Expr.Linked
import PulseSyntax.Proofs.Parser.Entries

namespace PulseSyntax

open PulseSyntax.Parser Scope.Link

variable {a b : Scope} {T : a.Link b} {α ε : Type} {s : ParserState} {n : Nat}
variable {e : (TokenRange → TokenRange) → α → ε}

theorem Property.parser_copies : T.Copies 0 Property.unplaced parser parser s := by
  have rest (s : ParserState) (name : Token) : T.Copies 0 Property.unplaced
      (expectSymbol .colon >>= fun _ => Expr.parser >>= fun value =>
        pure ⟨name.text, value, name.span.cover value.span⟩)
      (expectSymbol .colon >>= fun _ => Expr.parser >>= fun value =>
        pure ⟨name.text, value, name.span.cover value.span⟩) s := by
    refine copies_expectSymbol (by simp) (Expr.parser_copies.bind fun _ _ _ _ same => copies_pure ?_)
    exact congrArg (Property.mk name.text · default) same
  refine copies_startIs Property.parser_starting.moving (fun string => ?_) fun _ => ?_
  · exact copies_pass (by simp [string]) (by simp [string]) (rest _ _)
  · exact copies_expectName (rest _ _)

theorem PropertyBlock.parser_copies (word : Keyword) :
    T.Copies 0 PropertyBlock.unplaced (parser word) (parser word) s := by
  refine copies_expectKeyword ?_
  have entries := copies_braced (T := T) (s := s.ahead 1) (n := 0)
    (fun _ _ => Property.parser_starting.moving.entry)
    fun _ => (Property.parser_copies.mono (Nat.zero_le 1)).entry
  exact entries.bind fun _ _ _ _ same => copies_pure (congrArg (PropertyBlock.mk · default) same)

theorem Param.parser_copies {before before' : Array Param}
    (same : items Param.unplaced T.left before = items Param.unplaced T.right before') :
    T.Copies 1 Param.unplaced (parser before) (parser before') s := by
  have last (keep : TokenRange → TokenRange) (before : Array Param) : before.back?.any (·.rest) =
      (items Param.unplaced keep before).getLast?.any (·.rest) := by
    rw [items, Scope.Track.items, List.getLast?_map, Option.any_map, Array.getLast?_toList]
    rfl
  rw [parser, parser, last T.left, last T.right, same]
  refine .ite (fun _ => copies_of_fails fail_ne_ok) fun _ => copies_current ?_
  have tail (s : ParserState) (start : Span) (rest : Bool) : T.Copies 1 Param.unplaced (do
      let name ← expectName
      if !(← eatSymbol .eq) then return ⟨name.raw, none, rest, start.cover name.span⟩
      else if rest then fail .restDefault
      else
        let value ← Expr.parser
        return ⟨name.raw, some value, rest, start.cover value.span⟩) (do
      let name ← expectName
      if !(← eatSymbol .eq) then return ⟨name.raw, none, rest, start.cover name.span⟩
      else if rest then fail .restDefault
      else
        let value ← Expr.parser
        return ⟨name.raw, some value, rest, start.cover value.span⟩) s := by
    refine copies_expectName (copies_eatSymbol (by simp) (fun _ => ?_) fun _ => copies_pure rfl)
    refine .ite (by simp) fun _ => .ite (fun _ => copies_of_fails fail_ne_ok) fun _ => ?_
    refine (Expr.parser_copies.mono (Nat.zero_le 1)).bind fun _ _ _ _ value => copies_pure ?_
    exact congrArg (Param.mk _ · rest Inhabited.default) (congrArg some value)
  exact copies_eatSymbol (by simp) (fun _ => tail _ _ true) fun _ => tail _ _ false

theorem Param.copies_listParser :
    T.Copies 0 (each Param.unplaced) listParser listParser s := by
  refine copies_expectSymbol (by simp) ?_
  have params := copies_commaSeparatedAfter .closeParen (T := T) (s := s.ahead 1) (n := 0)
    (fun _ _ => parser_steady) fun _ _ _ => parser_copies
  exact params.closed (by simp) fun _ _ _ same => same

def Action.namedParser (first : Token) (isAsync : Bool) : Parser Action := do
  if !(← isName) then failWanted .actionName
  else
    let name ← advance
    let params ← Param.listParser
    let body ← rawBlock
    return ⟨name.raw, params, body, isAsync, first.span.cover (← previous).span⟩

/-- A function from its first token on, once it is known whether a parenthesis follows that. -/
def Action.parserAfter (first : Token) (called : Bool) : Parser Action :=
  let isAsync := first.kind == .identifier && first.raw == "async" && !called
  if isAsync then advance >>= fun _ => namedParser first isAsync else namedParser first isAsync

theorem Action.parser_eq : parser = current >>= fun first => peek >>= fun next =>
    parserAfter first (next.kind == .symbol .openParen) := rfl

section

variable {c : Course} {first : Token} {isAsync called : Bool}

theorem Action.moving_namedParser : c.Moving (namedParser first isAsync) := by
  intro s hs
  refine .look rfl (.ite (fun _ => .failWanted) fun name =>
    .token (Course.isName_ne ?_) hs (Nat.zero_le _) ?_)
  · simpa using name
  · exact Param.starting_listParser.steady.bind fun _ => Course.starting_rawBlock.steady.bind fun _ =>
      Course.steady_previous.bind fun _ => Course.steady_pure _

theorem Action.moving_parserAfter : c.Moving (parserAfter first called) := fun s hs =>
  .ite (fun _ => Course.steady_advance.andMoving (fun _ => moving_namedParser) s hs)
    fun _ => moving_namedParser s hs

theorem plain_of_isName {kind : TokenKind} (name : kind.isName = true) : kind ≠ .symbol .atSign := by
  rintro rfl
  cases name

theorem Action.isName_of_namedParser {scope : Scope} {x : Action} {t : ParserState}
    (ok : namedParser first isAsync scope s = .ok x t) :
    (scope.stream.get s.cursor).kind.isName = true := by
  obtain ⟨_, _, look, rest⟩ := bind_eq_ok.mp ok
  cases look
  by_contra other
  rw [if_pos (by simpa using other)] at rest
  exact failAtToken_ne_ok rest

end

section

variable {p q : Unit → Parser α}

theorem copies_ensureFirst {seen seen' : Bool} {field block : String} (same : seen = seen')
    (h : T.Copies n e (p ()) (q ()) s) :
    T.Copies n e (ensureFirst seen field block >>= p) (ensureFirst seen' field block >>= q) s := by
  subst same
  cases seen with
  | true => exact copies_of_fails fun ok => let ⟨_, _, failed, _⟩ := bind_eq_ok.mp ok
      fail_ne_ok failed
  | false => exact h

theorem copies_fieldColon {word : Keyword} (found : (a.stream.get s.cursor).kind = .keyword word)
    (h : T.Copies n e (p ()) (q ()) ((s.ahead 1).ahead 1)) :
    T.Copies n e (fieldColon >>= p) (fieldColon >>= q) s := by
  have regroup (p : Unit → Parser α) : fieldColon >>= p =
      advance >>= fun _ => expectSymbol .colon >>= fun _ => p () := by
    simp only [fieldColon, bind_assoc, pure_bind]
  rw [regroup, regroup]
  exact copies_pass (by simp [found]) (by simp [found]) (copies_expectSymbol (by simp) h)

end

theorem Route.parser_copies {before before' : Array Route}
    (same : items Route.unplaced T.left before = items Route.unplaced T.right before') :
    T.Copies 0 Route.unplaced (parser before) (parser before') s := by
  have seen (keep : TokenRange → TokenRange) (before : Array Route) (path : String) :
      before.any (·.path == path) = (items Route.unplaced keep before).any (·.path == path) := by
    rw [items, Scope.Track.items, List.any_map, ← Array.any_toList]
    rfl
  refine copies_expect (by simp) (by simp) fun _ => ?_
  rw [seen T.left, seen T.right, same]
  refine .ite (fun _ => copies_of_fails failAt_ne_ok) fun _ => copies_expectSymbol (by simp) ?_
  refine Expr.parser_copies.bind fun _ _ _ _ handler => copies_pure ?_
  exact congrArg (Route.mk _ · default) handler

theorem Route.copies_listParser : T.Copies 0 (each Route.unplaced) listParser listParser s := by
  have routes (s : ParserState) : T.Copies 0 (each Route.unplaced) (do
      let _ ← expectSymbol .openBrace
      let routes ← manyAfter .closeBrace fun before => entry (parser before)
      let _ ← expectSymbol .closeBrace
      return routes) (do
      let _ ← expectSymbol .openBrace
      let routes ← manyAfter .closeBrace fun before => entry (parser before)
      let _ ← expectSymbol .closeBrace
      return routes) s := by
    refine copies_expectSymbol (by simp) ?_
    have routes := copies_manyAfter .closeBrace (T := T) (s := s.ahead 1) (n := 0)
      (fun _ _ before => (parser_starting before).moving.entry)
      fun _ _ _ same => ((parser_copies same).mono (Nat.zero_le 1)).entry
    exact routes.closed (by simp) fun _ _ _ same => same
  refine copies_expectKeyword (copies_startEat (by simp) ?_ (routes _) (routes _))
  refine (Course.steady_eatSymbol _).andMoving fun _ => (Course.starting_expectSymbol _).moving.bind ?_
  exact fun _ => (Course.steady_manyAfter fun before => (parser_starting before).moving.entry).bind
    fun _ => (Course.starting_expectSymbol _).steady.bind fun _ => Course.steady_pure _

section

variable (inFile : a.quotation = none)

include inFile

theorem Action.copies_namedParser {first : Token} {isAsync : Bool} :
    T.Copies 0 Action.unplaced (namedParser first isAsync) (namedParser first isAsync) s := by
  refine copies_startName moving_namedParser (fun name => ?_) (copies_of_fails failAtToken_ne_ok)
  refine copies_pass (Course.isName_ne name) (plain_of_isName name) ?_
  refine Param.copies_listParser.bind fun _ _ _ _ params => (copies_rawBlock inFile).bind fun _ _ _ _ body => ?_
  refine copies_previous fun _ _ => copies_pure ?_
  rw [each, each] at params
  rw [unplaced, unplaced, params, body]

theorem Action.parser_copies : T.Copies 0 Action.unplaced parser parser s := by
  have moving := Action.parser_moving (c := a.course s.depth)
  rw [parser_eq] at moving ⊢
  refine copies_start moving ?_
  by_cases name : (a.stream.get s.cursor).kind.isName = true
  · refine copies_nextIs (by simp [TokenKind.Settled, TokenKind.goesOnAt]) (Course.isName_ne name)
      (plain_of_isName name) (fun _ => moving_parserAfter) fun _ => ?_
    refine .ite (fun _ => ?_) fun _ => copies_namedParser inFile
    exact copies_pass (Course.isName_ne name) (plain_of_isName name) (copies_namedParser inFile)
  · refine copies_of_fails fun ok => ?_
    have other : ((a.stream.get s.cursor).kind == .identifier) = false := by
      rw [beq_eq_false_iff_ne]
      intro kind
      rw [kind] at name
      exact name rfl
    rw [bind_of_ok peek_apply, parserAfter, other] at ok
    exact name (isName_of_namedParser ok)

theorem ActionsBlock.parser_copies : T.Copies 0 ActionsBlock.unplaced parser parser s := by
  refine copies_expectKeyword (copies_expectSymbol (by simp) ?_)
  have functions := copies_many .closeBrace (T := T) (s := (s.ahead 1).ahead 1) (n := 0)
    (fun _ _ => Action.parser_moving.entry) fun _ => ((Action.parser_copies inFile).mono (Nat.zero_le 1)).entry
  exact functions.closed (by simp) fun _ _ _ same => congrArg (ActionsBlock.mk · default) same

theorem Guard.parser_copies {word : Keyword} (found : (a.stream.get s.cursor).kind = .keyword word) :
    T.Copies 0 Guard.unplaced parser parser s := by
  refine copies_pass (by simp [found]) (by simp [found]) ?_
  refine Param.copies_listParser.bind fun _ _ _ _ params => (copies_rawBlock inFile).bind fun _ _ _ _ body => ?_
  refine copies_previous fun _ _ => copies_pure ?_
  rw [each, each] at params
  rw [unplaced, unplaced, params, body]

theorem RouterFields.copies_add {fields fields' : RouterFields}
    (same : fields.unplaced T.left = fields'.unplaced T.right) :
    T.Copies 0 RouterFields.unplaced fields.add fields'.add s := by
  have moving := moving_add (c := a.course s.depth) fields
  obtain ⟨mode, base, routes, beforeEach, afterEach⟩ := fields
  obtain ⟨mode', base', routes', beforeEach', afterEach'⟩ := fields'
  simp only [RouterFields.unplaced, RouterFields.mk.injEq] at same
  obtain ⟨rfl, rfl, sameRoutes, sameBefore, sameAfter⟩ := same
  refine copies_start moving ?_
  dsimp only
  split
  · next kind =>
    refine copies_ensureFirst rfl (copies_fieldColon kind (copies_expectStringOr (by simp) (by simp) ?_))
    exact copies_pure (by simp [unplaced, sameRoutes, sameBefore, sameAfter])
  · next kind =>
    refine copies_ensureFirst rfl (copies_fieldColon kind (copies_expect (by simp) (by simp) fun _ => ?_))
    exact copies_pure (by simp [unplaced, sameRoutes, sameBefore, sameAfter])
  · refine copies_ensureFirst (isSome_of_map sameRoutes) ?_
    refine Route.copies_listParser.bind fun _ _ _ _ value => copies_pure ?_
    rw [each, each] at value
    simp [unplaced, value, sameBefore, sameAfter]
  · next kind =>
    refine copies_ensureFirst (isSome_of_map sameBefore) ?_
    refine (Guard.parser_copies inFile kind).bind fun _ _ _ _ value => copies_pure ?_
    simp [unplaced, value, sameRoutes, sameAfter]
  · next kind =>
    refine copies_ensureFirst (isSome_of_map sameAfter) ?_
    refine (Guard.parser_copies inFile kind).bind fun _ _ _ _ value => copies_pure ?_
    simp [unplaced, value, sameRoutes, sameBefore]
  · exact copies_of_fails failAtToken_ne_ok

theorem RouterBlock.parser_copies : T.Copies 0 RouterBlock.unplaced parser parser s := by
  refine copies_expectKeyword (copies_expectSymbol (by simp) ?_)
  have fields := copies_foldEntries (T := T) (s := (s.ahead 1).ahead 1) (n := 0)
    (fun _ _ => RouterFields.moving_add) (fun _ _ _ same => (RouterFields.copies_add inFile same).mono (Nat.zero_le 1))
    (x := ⟨none, none, none, none, none⟩) (y := ⟨none, none, none, none, none⟩) rfl
  exact fields.closed (by simp) fun _ _ _ => RouterFields.block_unplaced

theorem Getter.parser_copies : T.Copies 0 Getter.unplaced parser parser s := by
  refine copies_startName parser_starting.moving (fun name => ?_) (copies_of_fails failAtToken_ne_ok)
  refine copies_pass (Course.isName_ne name) (plain_of_isName name) ?_
  extract_lets rest close
  have tail (s : ParserState) : T.Copies 0 Getter.unplaced (rest ()) (rest ()) s :=
    (copies_rawBlock inFile).bind fun _ _ _ _ body => copies_previous fun _ _ =>
      copies_pure (congrArg (Getter.mk _ · default) body)
  have moving {c : Course} : c.Moving (rest ()) :=
    Course.starting_rawBlock.moving.bind fun _ => Course.steady_previous.bind fun _ =>
      Course.steady_pure _
  have closing {c : Course} (u : Unit) : c.Moving (close u) :=
    Course.steady_advance.andMoving fun _ => moving
  have failing {c : Course} {cause : Cause} (shallow : cause.isTooDeep = false) :
      c.Moving (fail cause >>= close) := (Course.starting_fail shallow).steady.andMoving closing
  refine copies_startEat (by simp) ((Course.steady_eatSymbol _).andMoving ?_) ?_ (tail _)
  · intro found s hs
    refine .ite (fun _ => .atCurrent (.ite (fun _ => ?_) fun _ => ?_)) fun _ => moving s hs
    · exact failing rfl s hs
    · exact closing () s hs
  · refine copies_start (fun s hs => .atCurrent (.ite (fun _ => ?_) fun _ => ?_)) ?_
    · exact failing rfl s hs
    · exact closing () s hs
    refine .ite (fun _ => copies_of_fails fun ok => ?_) fun found => ?_
    · obtain ⟨_, _, failed, -⟩ := bind_eq_ok.mp ok
      exact fail_ne_ok failed
    · rw [Bool.not_eq_true, bne_eq_false_iff_eq] at found
      exact copies_pass (by rw [found]; simp) (by rw [found]; simp) (tail _)

theorem Getter.copies_listParser : T.Copies 0 (each Getter.unplaced) listParser listParser s := by
  refine copies_expectKeyword ?_
  have getters := copies_braced (T := T) (s := s.ahead 1) (n := 0)
    (fun _ _ => parser_starting.moving.entry) fun _ => ((parser_copies inFile).mono (Nat.zero_le 1)).entry
  exact getters.bind fun _ _ _ _ same => copies_pure same

theorem StoreFields.copies_add {fields fields' : StoreFields}
    (same : fields.unplaced T.left = fields'.unplaced T.right) :
    T.Copies 0 StoreFields.unplaced fields.add fields'.add s := by
  have moving := moving_add (c := a.course s.depth) fields
  obtain ⟨state, getters, actions, persist, storageKey, plugins⟩ := fields
  obtain ⟨state', getters', actions', persist', storageKey', plugins'⟩ := fields'
  simp only [StoreFields.unplaced, StoreFields.mk.injEq] at same
  obtain ⟨sameState, sameGetters, sameActions, rfl, rfl, samePlugins⟩ := same
  refine copies_start moving ?_
  dsimp only
  split
  · refine copies_ensureFirst (isSome_of_map sameState) ?_
    refine (PropertyBlock.parser_copies _).bind fun _ _ _ _ value => copies_pure ?_
    simp [unplaced, value, sameGetters, sameActions, samePlugins]
  · refine copies_ensureFirst (isSome_of_map sameGetters) ?_
    refine (Getter.copies_listParser inFile).bind fun _ _ _ _ value => copies_pure ?_
    rw [each, each] at value
    simp [unplaced, value, sameState, sameActions, samePlugins]
  · refine copies_ensureFirst (isSome_of_map sameActions) ?_
    refine (ActionsBlock.parser_copies inFile).bind fun _ _ _ _ value => copies_pure ?_
    simp [unplaced, value, sameState, sameGetters, samePlugins]
  · next kind =>
    refine copies_ensureFirst rfl (copies_fieldColon kind ?_)
    have read (s : ParserState) (word : Keyword) (value : Bool)
        (kind : (a.stream.get s.cursor).kind = .keyword word) :
        T.Copies 0 StoreFields.unplaced
          (advance >>= fun _ => pure ⟨state, getters, actions, some value, storageKey, plugins⟩)
          (advance >>= fun _ => pure ⟨state', getters', actions', some value, storageKey, plugins'⟩)
          s := by
      refine copies_pass (by simp [kind]) (by simp [kind]) (copies_pure ?_)
      simp [unplaced, sameState, sameGetters, sameActions, samePlugins]
    refine copies_start (fun s hs => .atCurrent ?_) ?_
    · split
      · next kind =>
        rw [pure_bind]
        exact .token (by rw [kind]; simp) hs (Nat.zero_le _) (Course.steady_pure _)
      · next kind =>
        rw [pure_bind]
        exact .token (by rw [kind]; simp) hs (Nat.zero_le _) (Course.steady_pure _)
      · exact (Course.starting_failWanted _).moving.proceeds hs fun _ => Course.steady_advance.bind
          fun _ => Course.steady_pure _
    · split
      · next kind => exact read _ .true_ true kind
      · next kind => exact read _ .false_ false kind
      · refine copies_of_fails fun ok => ?_
        obtain ⟨_, _, failed, -⟩ := bind_eq_ok.mp ok
        exact failAtToken_ne_ok failed
  · next kind =>
    refine copies_ensureFirst rfl (copies_fieldColon kind (copies_expect (by simp) (by simp) fun _ => ?_))
    exact copies_pure (by simp [unplaced, sameState, sameGetters, sameActions, samePlugins])
  · next kind =>
    refine copies_ensureFirst (isSome_of_map samePlugins) (copies_fieldColon kind ?_)
    refine copies_startIs (fun s hs => .atIs (.ite (fun _ => .failWanted) fun _ => ?_)) (fun _ => ?_)
      fun _ => copies_of_fails failAtToken_ne_ok
    · exact Expr.parser_moving.proceeds hs fun _ => Course.steady_pure _
    · refine Expr.parser_copies.bind fun _ _ _ _ value => copies_pure ?_
      simp [unplaced, value, sameState, sameGetters, sameActions]
  · exact copies_of_fails failAtToken_ne_ok

theorem StoreBlock.parser_copies : T.Copies 0 StoreBlock.unplaced parser parser s := by
  refine copies_expectKeyword (copies_expectSymbol (by simp) ?_)
  have fields := copies_foldEntries (T := T) (s := (s.ahead 1).ahead 1) (n := 0)
    (fun _ _ => StoreFields.moving_add) (fun _ _ _ same => (StoreFields.copies_add inFile same).mono (Nat.zero_le 1))
    (x := ⟨none, none, none, none, none, none⟩) (y := ⟨none, none, none, none, none, none⟩) rfl
  exact fields.closed (by simp) fun _ _ _ => StoreFields.block_unplaced

end

end PulseSyntax
