import PulseSyntax.Proofs.Program.Course
import PulseSyntax.Proofs.Expr.Twin

namespace PulseSyntax

open PulseSyntax.Parser Scope.Track

variable {a b : Scope} {T : a.Track b} {α ε : Type} {I : Nat → Prop} {e : α → ε} {p q : Parser α}
variable {parens : Nat}

theorem Scope.Track.Closing.twin {first : Nat} (free : T.Free first)
    (h : T.Closing (T.Open parens) e p q) : T.Twin (T.Open parens) (T.Open parens) e p q :=
  fun _ _ _ ok => ⟨Nat.le_of_lt (h ok).1, fun here within =>
    ⟨(free _ _).mpr (Nat.le_trans ((free _ _).mp here) (Nat.le_of_lt (h ok).1)),
      (h ok).2 here (Nat.le_succ_of_le within)⟩⟩

variable [T.Plain]

theorem Property.parser_twin :
    T.Twin (T.Open 1) (T.Open 1) (Property.unplaced T.keep) parser parser := by
  have rest : ∀ t u : Token, t.content = u.content → T.Twin (T.Open 1) (T.Open 1)
      (Property.unplaced T.keep)
      (expectSymbol .colon >>= fun _ => Expr.parser >>= fun value =>
        pure ⟨t.text, value, t.span.cover value.span⟩)
      (expectSymbol .colon >>= fun _ => Expr.parser >>= fun value =>
        pure ⟨u.text, value, u.span.cover value.span⟩) := fun t u name =>
    (twin_expectSymbol _).bind fun _ _ _ => Expr.parser_twin.bind fun _ _ value =>
      twin_pure (by simp [unplaced, Token.text_of_content name, value])
  refine twin_is (sees_of_plain rfl) ?_ (twin_expectName.bind rest)
  exact (twin_advance (by simp) (exact_at rfl)).bind rest

theorem PropertyBlock.parser_closing (word : Keyword) :
    T.Closing (T.Open 1) (PropertyBlock.unplaced T.keep) (parser word) (parser word) := by
  refine (twin_expectKeyword word).close fun _ _ _ => ?_
  have body := Twin.closing_braced (fun _ => Property.parser_starting.moving.entry)
    (Twin.entry (Property.parser_twin (T := T)))
  exact body.map fun _ _ same => congrArg (PropertyBlock.mk · default) same

theorem Param.parser_twin {before before' : Array Param}
    (same : items (Param.unplaced T.keep) before = items (Param.unplaced T.keep) before') :
    T.Twin (T.Open 2) (T.Open 2) (Param.unplaced T.keep) (parser before) (parser before') := by
  have last (before : Array Param) : before.back?.any (·.rest) =
      (items (Param.unplaced T.keep) before).getLast?.any (·.rest) := by
    rw [items, List.getLast?_map, Option.any_map, Array.getLast?_toList]
    rfl
  rw [parser, parser, last, last, same]
  refine .ite (fun _ => twin_of_fails fail_ne_ok) fun _ => twin_near fun t u _ => ?_
  have tail (rest : Bool) : T.Twin (T.Open 2) (T.Open 2) (Param.unplaced T.keep) (do
      let name ← expectName
      if !(← eatSymbol .eq) then return ⟨name.raw, none, rest, t.span.cover name.span⟩
      else if rest then fail .restDefault
      else
        let value ← Expr.parser
        return ⟨name.raw, some value, rest, t.span.cover value.span⟩) (do
      let name ← expectName
      if !(← eatSymbol .eq) then return ⟨name.raw, none, rest, u.span.cover name.span⟩
      else if rest then fail .restDefault
      else
        let value ← Expr.parser
        return ⟨name.raw, some value, rest, u.span.cover value.span⟩) := by
    refine twin_expectName.bind fun _ _ name => twin_eatSymbol ?_ ?_
    · refine .ite (by simp) fun _ => .ite (fun _ => twin_of_fails fail_ne_ok) fun _ => ?_
      exact Expr.parser_twin.bind fun _ _ value =>
        twin_pure (by simp [unplaced, Token.raw_of_content name, value])
    · exact twin_pure (by simp [unplaced, Token.raw_of_content name])
  exact (twin_eatSymbol (tail true) (tail false)).atKind

theorem Param.twin_listParser :
    T.Twin (T.Open 1) (T.Open 1) (List.map (Param.unplaced T.keep)) listParser listParser :=
  (twin_expectSymbol _).bind fun _ _ _ =>
    (Twin.commaSeparatedAfter (fun _ => parser_steady) fun _ _ => parser_twin).bind fun _ _ same =>
      (twin_expectSymbol _).bind fun _ _ _ => twin_pure same

section

variable {first : Nat} (free : T.Free first)

include free

omit [T.Plain] in
theorem twin_rawBlock : T.Twin (T.Open 1) (T.Open 1) T.keep rawBlock rawBlock :=
  twin_rawBlock_of fun r delimits _ here => by
    have le := delimits.matched.le
    have start := (free _ _).mp here
    exact (free _ _).mpr (by omega)

theorem Action.parser_twin :
    T.Twin (T.Open 1) (T.Open 1) (Action.unplaced T.keep) parser parser := by
  refine twin_current exact_open fun t u content => twin_peekNear fun next next' after => ?_
  extract_lets isAsync rest isAsync' rest'
  have async : isAsync = isAsync' := by
    dsimp only [isAsync, isAsync']
    rw [← Token.kind_of_content content, ← Token.raw_of_content content]
    by_cases kind : t.kind = .identifier
    · rw [bne, bne, (after (by simp [kind]) (by simp [kind])).beq_kind rfl]
    · rw [beq_eq_false_iff_ne.mpr kind]
      rfl
  have tail : T.Twin (T.Open 1) (T.Open 1) (Action.unplaced T.keep) (rest ()) (rest' ()) := by
    refine twin_isName (fun _ name => (twin_passName name).bind fun _ _ same => ?_)
      (twin_of_fails failAtToken_ne_ok)
    refine Param.twin_listParser.bind fun _ _ params => (twin_rawBlock free).bind fun _ _ body => ?_
    refine twin_previous.bind fun _ _ _ => twin_pure ?_
    simp [unplaced, Token.raw_of_content same, params, body, async]
  rw [← async]
  refine .ite (fun yes => ?_) fun _ => tail.atKind
  have kind : t.kind = .identifier := by
    by_contra other
    simp [isAsync, other] at yes
  rw [kind]
  exact (twin_passName rfl).bind fun _ _ _ => tail

theorem ActionsBlock.parser_closing :
    T.Closing (T.Open 1) (ActionsBlock.unplaced T.keep) parser parser := by
  refine (twin_expectKeyword .actions).close fun _ _ _ => (twin_expectSymbol _).close fun _ _ _ => ?_
  refine (Twin.many (fun _ => Action.parser_moving.entry) (Action.parser_twin free).entry).close
    fun _ _ same => ?_
  exact (closing_expectSymbol _).map fun _ _ _ => congrArg (ActionsBlock.mk · default) same

omit [T.Plain] free in
theorem twin_ensureFirst {seen seen' : Bool} (same : seen = seen') (field block : String) :
    T.Twin I I (fun _ : Unit => ()) (ensureFirst seen field block)
      (ensureFirst seen' field block) := by
  subst same
  exact .ite (fun _ => twin_of_fails fail_ne_ok) fun _ => twin_pure rfl

omit [T.Plain] free in
theorem twin_fieldColon (word : Keyword) :
    T.Twin (a.At (T.Open 1) (.keyword word)) (T.Open 1) (fun _ : Unit => ()) fieldColon fieldColon :=
  (twin_pass (by simp) rfl).bind fun _ _ _ => (twin_expectSymbol _).bind fun _ _ _ => twin_pure rfl

omit free in
theorem Route.parser_twin {before before' : Array Route}
    (same : items (Route.unplaced T.keep) before = items (Route.unplaced T.keep) before') :
    T.Twin (T.Open 1) (T.Open 1) (Route.unplaced T.keep) (parser before) (parser before') := by
  have seen (before : Array Route) (path : String) : before.any (·.path == path) =
      (items (Route.unplaced T.keep) before).any (·.path == path) := by
    rw [items, List.any_map, ← Array.any_toList]
    rfl
  refine (twin_expect (by simp) exact_open.sees).bind fun path path' content => ?_
  rw [seen, seen, same, Token.text_of_content content]
  refine .ite (fun _ => twin_of_fails failAt_ne_ok) fun _ => (twin_expectSymbol _).bind fun _ _ _ => ?_
  exact Expr.parser_twin.bind fun _ _ handler => twin_pure (by simp [unplaced, handler])

omit free in
theorem Route.twin_listParser :
    T.Twin (T.Open 1) (T.Open 1) (List.map (Route.unplaced T.keep)) listParser listParser := by
  refine (twin_expectKeyword .routes).bind fun _ _ _ => ?_
  have routes : T.Twin (T.Open 1) (T.Open 1) (List.map (Route.unplaced T.keep)) (do
      let _ ← expectSymbol .openBrace
      let routes ← manyAfter .closeBrace fun before => entry (parser before)
      let _ ← expectSymbol .closeBrace
      return routes) (do
      let _ ← expectSymbol .openBrace
      let routes ← manyAfter .closeBrace fun before => entry (parser before)
      let _ ← expectSymbol .closeBrace
      return routes) := by
    refine (twin_expectSymbol _).bind fun _ _ _ => ?_
    refine (Twin.manyAfter (fun _ before => (parser_starting before).moving.entry)
      fun _ _ same => (parser_twin same).entry).bind fun _ _ same => ?_
    exact (twin_expectSymbol _).bind fun _ _ _ => twin_pure same
  exact twin_eatSymbol routes routes

theorem Guard.parser_twin (word : Keyword) :
    T.Twin (a.At (T.Open 1) (.keyword word)) (T.Open 1) (Guard.unplaced T.keep) parser parser := by
  refine (twin_pass (by simp) rfl).bind fun _ _ name => Param.twin_listParser.bind fun _ _ params => ?_
  refine (twin_rawBlock free).bind fun _ _ body => twin_previous.bind fun _ _ _ => twin_pure ?_
  simp [unplaced, Token.raw_of_content name, params, body]

omit free in
theorem isSome_of_map {α β : Type} {e e' : α → β} {x y : Option α} (same : x.map e = y.map e') :
    x.isSome = y.isSome := by
  rw [← Option.isSome_map (f := e), same, Option.isSome_map]

omit free in
theorem getD_map_nil {α β : Type} (f : α → β) (x : Option (List α)) :
    (x.map (List.map f)).getD [] = (x.getD []).map f := by
  cases x <;> rfl

/-- What two runs have in common of the fields of a router. -/
def RouterFields.unplaced (keep : TokenRange → TokenRange) (fields : RouterFields) : RouterFields where
  mode := fields.mode
  base := fields.base
  routes := fields.routes.map (List.map (Route.unplaced keep))
  beforeEach := fields.beforeEach.map (Guard.unplaced keep)
  afterEach := fields.afterEach.map (Guard.unplaced keep)

omit free in
theorem RouterFields.block_unplaced {left right : TokenRange → TokenRange} {x y : RouterFields}
    {own own' : Span} (same : x.unplaced left = y.unplaced right) :
    RouterBlock.unplaced left ⟨x.mode, x.base, x.routes.getD [], x.beforeEach, x.afterEach, own⟩ =
      RouterBlock.unplaced right ⟨y.mode, y.base, y.routes.getD [], y.beforeEach, y.afterEach, own'⟩ := by
  simp only [RouterFields.unplaced, RouterFields.mk.injEq] at same
  obtain ⟨mode, base, routes, beforeEach, afterEach⟩ := same
  have listed := congrArg (Option.getD · []) routes
  simp only [getD_map_nil] at listed
  simp [RouterBlock.unplaced, mode, base, listed, beforeEach, afterEach]

theorem RouterFields.twin_add {fields fields' : RouterFields}
    (same : fields.unplaced T.keep = fields'.unplaced T.keep) :
    T.Twin (T.Open 1) (T.Open 1) (RouterFields.unplaced T.keep) fields.add fields'.add := by
  obtain ⟨mode, base, routes, beforeEach, afterEach⟩ := fields
  obtain ⟨mode', base', routes', beforeEach', afterEach'⟩ := fields'
  simp only [RouterFields.unplaced, RouterFields.mk.injEq] at same
  obtain ⟨rfl, rfl, sameRoutes, sameBefore, sameAfter⟩ := same
  refine twin_current exact_open fun t u content => ?_
  dsimp only
  rw [← Token.kind_of_content content]
  split
  · next kind =>
    rw [kind]
    refine (twin_ensureFirst rfl _ _).bind fun _ _ _ => (twin_fieldColon _).bind fun _ _ _ => ?_
    refine (twin_expectStringOr (by simp) rfl).bind fun _ _ value => twin_pure ?_
    simp [unplaced, Token.text_of_content value, sameRoutes, sameBefore, sameAfter]
  · next kind =>
    rw [kind]
    refine (twin_ensureFirst rfl _ _).bind fun _ _ _ => (twin_fieldColon _).bind fun _ _ _ => ?_
    refine (twin_expect (by simp) exact_open.sees).bind fun _ _ value => twin_pure ?_
    simp [unplaced, Token.text_of_content value, sameRoutes, sameBefore, sameAfter]
  · refine (twin_ensureFirst (isSome_of_map sameRoutes) _ _).bind fun _ _ _ => ?_
    refine Route.twin_listParser.atKind.bind fun _ _ value => twin_pure ?_
    simp [unplaced, value, sameBefore, sameAfter]
  · next kind =>
    rw [kind]
    refine (twin_ensureFirst (isSome_of_map sameBefore) _ _).bind fun _ _ _ => ?_
    refine (Guard.parser_twin free _).bind fun _ _ value => twin_pure ?_
    simp [unplaced, value, sameRoutes, sameAfter]
  · next kind =>
    rw [kind]
    refine (twin_ensureFirst (isSome_of_map sameAfter) _ _).bind fun _ _ _ => ?_
    refine (Guard.parser_twin free _).bind fun _ _ value => twin_pure ?_
    simp [unplaced, value, sameRoutes, sameBefore]
  · exact twin_of_fails failAtToken_ne_ok

theorem RouterBlock.parser_closing :
    T.Closing (T.Open 1) (RouterBlock.unplaced T.keep) parser parser := by
  refine (twin_expectKeyword .router).close fun _ _ _ => (twin_expectSymbol _).close fun _ _ _ => ?_
  refine (Twin.foldEntries (fun _ => RouterFields.moving_add)
    (fun _ _ same => RouterFields.twin_add free same) rfl).close fun x y same => ?_
  exact (closing_expectSymbol _).map fun _ _ _ => RouterFields.block_unplaced same

omit [T.Plain] in
theorem Getter.parser_twin :
    T.Twin (T.Open 1) (T.Open 1) (Getter.unplaced T.keep) parser parser := by
  refine twin_isName (fun kind name => (twin_passName name).bind fun t u same => ?_)
    (twin_of_fails failAtToken_ne_ok)
  extract_lets rest close rest' close'
  have tail : T.Twin (T.Open 1) (T.Open 1) (Getter.unplaced T.keep) (rest ()) (rest' ()) :=
    (twin_rawBlock free).bind fun _ _ body => twin_previous.bind fun _ _ _ =>
      twin_pure (by simp [unplaced, Token.raw_of_content same, body])
  refine twin_eatSymbol ?_ tail
  refine twin_current exact_open fun u u' content => ?_
  rw [← Token.kind_of_content content]
  refine .ite (fun _ => twin_of_fails fun ok => ?_) fun closing => ?_
  · obtain ⟨_, _, failed, -⟩ := bind_eq_ok.mp ok
    exact fail_ne_ok failed
  · rw [show u.kind = .symbol .closeParen by simpa using closing]
    exact (twin_advance (by simp) (exact_at rfl)).bind fun _ _ _ => tail

omit [T.Plain] in
theorem Getter.twin_listParser :
    T.Twin (T.Open 1) (T.Open 1) (List.map (Getter.unplaced T.keep)) listParser listParser :=
  (twin_expectKeyword .getters).bind fun _ _ _ =>
    (Twin.braced (fun _ => parser_starting.moving.entry) (parser_twin free).entry).bind
      fun _ _ same => twin_pure same

/-- What two runs have in common of the fields of a store. -/
def StoreFields.unplaced (keep : TokenRange → TokenRange) (fields : StoreFields) : StoreFields :=
  { fields with
    state := fields.state.map (PropertyBlock.unplaced keep)
    getters := fields.getters.map (List.map (Getter.unplaced keep))
    actions := fields.actions.map (ActionsBlock.unplaced keep)
    plugins := fields.plugins.map (Expr.erased keep) }

omit free in
theorem StoreFields.block_unplaced {left right : TokenRange → TokenRange} {x y : StoreFields}
    {own own' : Span} (same : x.unplaced left = y.unplaced right) :
    StoreBlock.unplaced left
        ⟨x.state, x.getters.getD [], x.actions, x.persist, x.storageKey, x.plugins, own⟩ =
      StoreBlock.unplaced right
        ⟨y.state, y.getters.getD [], y.actions, y.persist, y.storageKey, y.plugins, own'⟩ := by
  simp only [StoreFields.unplaced, StoreFields.mk.injEq] at same
  obtain ⟨state, getters, actions, persist, storageKey, plugins⟩ := same
  have listed := congrArg (Option.getD · []) getters
  simp only [getD_map_nil] at listed
  simp [StoreBlock.unplaced, state, listed, actions, persist, storageKey, plugins]

theorem StoreFields.twin_add {fields fields' : StoreFields}
    (same : fields.unplaced T.keep = fields'.unplaced T.keep) :
    T.Twin (T.Open 1) (T.Open 1) (StoreFields.unplaced T.keep) fields.add fields'.add := by
  obtain ⟨state, getters, actions, persist, storageKey, plugins⟩ := fields
  obtain ⟨state', getters', actions', persist', storageKey', plugins'⟩ := fields'
  simp only [StoreFields.unplaced, StoreFields.mk.injEq] at same
  obtain ⟨sameState, sameGetters, sameActions, rfl, rfl, samePlugins⟩ := same
  refine twin_current exact_open fun t u content => ?_
  dsimp only
  rw [← Token.kind_of_content content]
  split
  · refine (twin_ensureFirst (isSome_of_map sameState) _ _).bind fun _ _ _ => ?_
    refine ((PropertyBlock.parser_closing _).twin free).atKind.bind fun _ _ value => twin_pure ?_
    simp [unplaced, value, sameGetters, sameActions, samePlugins]
  · refine (twin_ensureFirst (isSome_of_map sameGetters) _ _).bind fun _ _ _ => ?_
    refine (Getter.twin_listParser free).atKind.bind fun _ _ value => twin_pure ?_
    simp [unplaced, value, sameState, sameActions, samePlugins]
  · refine (twin_ensureFirst (isSome_of_map sameActions) _ _).bind fun _ _ _ => ?_
    refine ((ActionsBlock.parser_closing free).twin free).atKind.bind fun _ _ value => twin_pure ?_
    simp [unplaced, value, sameState, sameGetters, samePlugins]
  · next kind =>
    rw [kind]
    refine (twin_ensureFirst rfl _ _).bind fun _ _ _ => (twin_fieldColon _).bind fun _ _ _ => ?_
    refine twin_current exact_open fun value value' same => ?_
    rw [← Token.kind_of_content same]
    have read (word : Keyword) (value : Bool) :
        T.Twin (a.At (T.Open 1) (.keyword word)) (T.Open 1) (StoreFields.unplaced T.keep)
          (advance >>= fun _ =>
            pure ⟨state, getters, actions, some value, storageKey, plugins⟩)
          (advance >>= fun _ =>
            pure ⟨state', getters', actions', some value, storageKey, plugins'⟩) := by
      refine (twin_pass (by simp) rfl).bind fun _ _ _ => twin_pure ?_
      simp [unplaced, sameState, sameGetters, sameActions, samePlugins]
    split
    · next kind => exact kind ▸ read .true_ true
    · next kind => exact kind ▸ read .false_ false
    · refine twin_of_fails fun ok => ?_
      obtain ⟨_, _, failed, -⟩ := bind_eq_ok.mp ok
      exact failAtToken_ne_ok failed
  · next kind =>
    rw [kind]
    refine (twin_ensureFirst rfl _ _).bind fun _ _ _ => (twin_fieldColon _).bind fun _ _ _ => ?_
    refine (twin_expect (by simp) exact_open.sees).bind fun _ _ value => twin_pure ?_
    simp [unplaced, Token.text_of_content value, sameState, sameGetters, sameActions, samePlugins]
  · next kind =>
    rw [kind]
    refine (twin_ensureFirst (isSome_of_map samePlugins) _ _).bind fun _ _ _ => ?_
    refine (twin_fieldColon _).bind fun _ _ _ => twin_isSymbol ?_ (twin_of_fails failAtToken_ne_ok)
    refine Expr.parser_twin.atKind.bind fun _ _ value => twin_pure ?_
    simp [unplaced, value, sameState, sameGetters, sameActions]
  · exact twin_of_fails failAtToken_ne_ok

theorem StoreBlock.parser_closing :
    T.Closing (T.Open 1) (StoreBlock.unplaced T.keep) parser parser := by
  refine (twin_expectKeyword .store).close fun _ _ _ => (twin_expectSymbol _).close fun _ _ _ => ?_
  refine (Twin.foldEntries (fun _ => StoreFields.moving_add)
    (fun _ _ same => StoreFields.twin_add free same) rfl).close fun x y same => ?_
  exact (closing_expectSymbol _).map fun _ _ _ => StoreFields.block_unplaced same

end

end PulseSyntax
