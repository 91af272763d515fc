import PulseSyntax.Component
import PulseSyntax.Proofs.Program.Course
import PulseSyntax.Proofs.Program.Slots

namespace PulseSyntax

open PulseSyntax.Parser PulseSyntax.Course

/-- Where the parser succeeds it has read a token at least and no end of the file. -/
def Parser.Advances {α : Type} (p : Parser α) : Prop :=
  ∀ ⦃scope s a t⦄, p scope s = .ok a t → s.cursor < t.cursor ∧
    ∀ i, s.cursor ≤ i → i < t.cursor → (scope.stream.get i).kind ≠ .endOfFile

theorem Parser.advances_of_moving {α : Type} {p : Parser α}
    (h : ∀ c : Course, ¬ c.fits → c.Moving p) : p.Advances := by
  intro scope s a t ok
  have proceeds := h ⟨scope, s.depth, False⟩ id s rfl
  exact ⟨proceeds.progress ok trivial, (proceeds.reaches ok).inside⟩

def IsExpr (expr : Parser Expr) : Prop :=
  expr = Expr.parser ∨ ∃ levels, expr = Expr.parserWithin levels

def IsNode (node : Parser MarkupNode) : Prop :=
  node = MarkupNode.parser ∨ ∃ levels, node = MarkupNode.parserWithin levels

/-- The rounds of all the repetitions by which component files are read. -/
inductive IsRound : {σ : Type} → (σ → Parser (ForInStep σ)) → Prop
  | argument {expr : Parser Expr} (h : IsExpr expr) :
    IsRound (commaRound .closeParen fun _ => Expr.spreadable expr)
  | element {expr : Parser Expr} (h : IsExpr expr) :
    IsRound (commaRound .closeBracket fun _ => Expr.spreadable expr)
  | member (levels : Nat) : IsRound (commaRound .closeBrace fun _ =>
      Expr.objectMember ⟨Expr.parserWithin levels, Expr.unaryWithin levels⟩)
  | link (levels : Nat) : IsRound (chainRound
      (Expr.link ⟨Expr.parserWithin levels, Expr.unaryWithin levels⟩))
  | operand (levels level : Nat) : IsRound (chainRound (Expr.join (Expr.binaryAt
      (Expr.unaryAt ⟨Expr.parserWithin levels, Expr.unaryWithin levels⟩) level) (level + 1)))
  | bodyToken : IsRound rawToken
  | node {node : Parser MarkupNode} (h : IsNode node) :
    IsRound (manyRound .closeBrace fun _ => node)
  | namePart : IsRound (chainRound hyphenPart)
  | elementProp : IsRound (commaRound .closeParen fun _ => ElementProp.parser Expr.parser)
  | modifier (allowed : Bool) (name : Token) : IsRound (chainRound (modifierPart allowed name))
  | a11yAttribute :
    IsRound (commaRound .closeParen fun _ => Directive.attributeParser Expr.parser)
  | elementPart (levels : Nat) : IsRound (chainRound
      (MarkupNode.elementPart ⟨Expr.parser, MarkupNode.parserWithin levels⟩))
  | branch (levels : Nat) :
    IsRound (MarkupNode.branchParser ⟨Expr.parser, MarkupNode.parserWithin levels⟩)
  | itemToken : IsRound Style.itemToken
  | propertyToken : IsRound Style.propertyToken
  | bodyItem (levels : Nat) :
    IsRound (Style.bodyItem ⟨Style.ruleWithin levels, Style.atRuleWithin levels⟩)
  | rule (stop : Nat) : IsRound (Style.rulesItem stop)
  | separator : IsRound separatorRound
  | property : IsRound (manyRound .closeBrace fun _ => entry Property.parser)
  | param : IsRound (commaRound .closeParen Param.parser)
  | action : IsRound (manyRound .closeBrace fun _ => entry Action.parser)
  | route : IsRound (manyRound .closeBrace fun before => entry (Route.parser before))
  | getter : IsRound (manyRound .closeBrace fun _ => entry Getter.parser)
  | routerField : IsRound (entryRound RouterFields.add)
  | storeField : IsRound (entryRound StoreFields.add)
  | importName : IsRound (commaRound .closeBrace fun _ => Import.namedParser)
  | declaration : IsRound Declarations.round

section

variable {c : Course}

theorem IsExpr.moving {expr : Parser Expr} (h : IsExpr expr) (any : ¬ c.fits) : c.Moving expr := by
  rcases h with rfl | ⟨levels, rfl⟩
  · exact Expr.parser_moving
  · exact (Expr.moving_within levels fun fits => absurd fits any).assignment

theorem moving_parserWithin (any : ¬ c.fits) (levels : Nat) :
    c.Moving (MarkupNode.parserWithin levels) :=
  MarkupNode.moving_parserWithin levels (fun fits => absurd fits any) fun fits => absurd fits any

theorem IsNode.moving {node : Parser MarkupNode} (h : IsNode node) (any : ¬ c.fits) :
    c.Moving node := by
  rcases h with rfl | ⟨levels, rfl⟩
  · exact MarkupNode.parser_moving fun fits => absurd fits any
  · exact moving_parserWithin any levels

theorem IsRound.turning {σ : Type} {step : σ → Parser (ForInStep σ)} (h : IsRound step)
    (any : ¬ c.fits) : c.Turning step := by
  have expr (levels : Nat) := Expr.moving_within (c := c) levels fun fits => absurd fits any
  have style (levels : Nat) := Style.moving_within (c := c) levels fun fits => absurd fits any
  have markup (levels : Nat) : MarkupInner.Moving c ⟨Expr.parser, MarkupNode.parserWithin levels⟩ :=
    ⟨Expr.parser_moving, moving_parserWithin any levels⟩
  cases h with
  | argument h | element h =>
    exact turning_commaRound fun _ => Expr.steady_spreadable (h.moving any).steady
  | member levels => exact Expr.turning_members (expr levels)
  | link levels => exact (Expr.extending_link (expr levels)).turning
  | operand levels level =>
    exact (Expr.extending_join (Expr.starting_binaryAt (Expr.starting_unaryAt (expr levels))
      level).steady _).turning
  | bodyToken => exact turning_rawToken
  | node h => exact turning_manyRound fun _ => h.moving any
  | namePart => exact extending_hyphenPart.turning
  | elementProp => exact ElementProp.turning_listParser Expr.parser_moving.steady
  | modifier allowed name => exact (extending_modifierPart allowed name).turning
  | a11yAttribute => exact Directive.turning_a11yParser Expr.parser_moving.steady
  | elementPart levels =>
    exact (MarkupNode.extending_elementPart (markup levels) fun fits => absurd fits any).turning
  | branch levels => exact MarkupNode.turning_branchParser (markup levels)
  | itemToken => exact Style.turning_itemToken
  | propertyToken => exact Style.turning_propertyToken
  | bodyItem levels => exact Style.turning_bodyItem (style levels)
  | rule stop => exact Style.turning_rulesItem stop
  | separator => exact turning_separatorRound
  | property => exact turning_manyRound fun _ => Property.parser_starting.moving.entry
  | param => exact turning_commaRound Param.parser_steady
  | action => exact turning_manyRound fun _ => Action.parser_moving.entry
  | route => exact turning_manyRound fun before => (Route.parser_starting before).moving.entry
  | getter => exact turning_manyRound fun _ => Getter.parser_starting.moving.entry
  | routerField => exact turning_entryRound RouterFields.moving_add
  | storeField => exact turning_entryRound StoreFields.moving_add
  | importName => exact turning_commaRound fun _ => Import.steady_namedParser
  | declaration => exact Declarations.turning_round fun fits => absurd fits any

end

theorem IsRound.repeats {σ : Type} {step : σ → Parser (ForInStep σ)} (h : IsRound step) (a : σ)
    (scope : Scope) (s : ParserState) (inside : s.cursor < scope.stream.size) :
    Repeats step scope a s (loop step a scope s) :=
  (h.turning (c := ⟨scope, s.depth, False⟩) id).repeats rfl inside

namespace Style

theorem Slices.inside {scope : Scope} {p : Parser (List Token)} {s t : ParserState}
    (h : Slices scope p s t) (inside : s.cursor < scope.stream.size) :
    s.cursor ≤ t.cursor ∧ t.cursor < scope.stream.size :=
  ⟨h.reaches.cursor, h.reaches.inside_of_inside inside⟩

theorem ClosesAt.inside {scope : Scope} {s : ParserState} {stop : Nat}
    (h : ClosesAt scope s stop) : s.cursor ≤ stop ∧ stop < scope.stream.size :=
  ⟨h.reaches.cursor, Nat.lt_of_succ_lt (TokenStream.lt_size_of_kind_ne (by simp [h.closing]))⟩

end Style

def Reply.answer {α : Type} : Reply α → Except ParseError α
  | ok a _ => .ok a
  | error e _ => .error e

theorem Reply.exists_ok {α : Type} {reply : Reply α} (h : reply.answer.toOption.isSome = true) :
    ∃ x t, reply = .ok x t := by
  cases reply with
  | ok x t => exact ⟨x, t, rfl⟩
  | error => cases h

/-- The state that so many parses leave, each of which goes on where the one before it stopped. -/
def Scope.stateAfter (scope : Scope) : Nat → ParserState → ParserState
  | 0, s => s
  | calls + 1, s => scope.stateAfter calls (Program.parser scope s).state

theorem parseAgain_eq (stream : TokenStream) (options : Options) (calls : Nat) (s : ParserState) :
    parseAgain stream options calls s = (List.range calls).map fun n =>
      (Program.parser ⟨stream, options, none⟩
        (Scope.stateAfter ⟨stream, options, none⟩ n s)).answer := by
  induction calls generalizing s with
  | zero => rfl
  | succ calls ih =>
    rw [List.range_succ_eq_map, List.map_cons, List.map_map, parseAgain, Parser.run]
    cases answer : Program.parser ⟨stream, options, none⟩ s with
    | ok program t | error e t =>
      dsimp only
      rw [ih]
      simp [Scope.stateAfter, answer, Reply.answer, Reply.state, Function.comp_def]

theorem Scope.stateAfter_inside (scope : Scope) (calls : Nat) {s : ParserState}
    (inside : s.cursor < scope.stream.size) :
    (scope.stateAfter calls s).cursor < scope.stream.size ∧
      (scope.stateAfter calls s).depth = s.depth := by
  induction calls generalizing s with
  | zero => exact ⟨inside, rfl⟩
  | succ calls ih =>
    have proceeds := Program.parser_steady (c := ⟨scope, s.depth, False⟩) False.elim s rfl
    obtain ⟨further, same⟩ : (Program.parser scope s).state.cursor < scope.stream.size ∧
        (Program.parser scope s).state.depth = s.depth := by
      cases answer : Program.parser scope s with
      | ok program t =>
        have reaches := proceeds.reaches answer
        exact ⟨reaches.inside_of_inside inside, reaches.depth⟩
      | error e t =>
        have stops := proceeds.stops answer
        exact ⟨stops.inside inside, stops.depth⟩
    obtain ⟨bound, depth⟩ := ih further
    exact ⟨bound, depth.trans same⟩

/-- Any tokens can be parsed any number of times. Each parse answers and leaves the cursor among
    them, each repetition in it comes to a last round of its own and starts all of them inside, and
    the slices that are taken of the tokens end inside. A nested reader that succeeds has read a
    token and has not passed the next end of the file. -/
theorem Program.parser_progress (tokens : List Token) (options : Options) (calls : Nat) :
    let scope : Scope := ⟨.ofList tokens, options, none⟩
    (parseRepeatedly scope.stream options calls 0 = (List.range calls).map fun n =>
        (Program.parser scope (scope.stateAfter n .initial)).answer) ∧
      (∀ n, (scope.stateAfter n .initial).cursor < scope.stream.size ∧
        (scope.stateAfter n .initial).depth = 0) ∧
      (∀ (inner : Scope) (s : ParserState), s.cursor < inner.stream.size →
        (∀ {σ : Type} {step : σ → Parser (ForInStep σ)}, IsRound step →
          ∀ a, Repeats step inner a s (loop step a inner s)) ∧
        (∃ t, Style.Slices inner Style.itemTokens s t ∧ t.cursor < inner.stream.size) ∧
        (∃ t, Style.Slices inner Style.propertyTokens s t ∧ t.cursor < inner.stream.size) ∧
        ∀ stop t, Style.findEnd inner s = .ok stop t →
          t = s ∧ s.cursor ≤ stop ∧ stop < inner.stream.size) ∧
      Expr.parser.Advances ∧ MarkupNode.parser.Advances ∧
      (∀ levels, (Style.ruleWithin levels).Advances ∧ (Style.atRuleWithin levels).Advances) ∧
      Style.declaration.Advances ∧ Action.parser.Advances ∧ Guard.parser.Advances ∧
      Getter.parser.Advances ∧ (∀ before, (Route.parser before).Advances) ∧
      Property.parser.Advances := by
  intro scope
  refine ⟨parseAgain_eq _ _ _ _, fun n => scope.stateAfter_inside n scope.stream.nonempty,
    fun inner s inside => ⟨fun h a => h.repeats a inner s inside, ?_, ?_, fun stop t found => ?_⟩,
    ?_, ?_, fun levels => ⟨?_, ?_⟩, ?_, ?_, ?_, ?_, fun before => ?_, ?_⟩
  · obtain ⟨t, slices⟩ := Style.itemTokens_slices inner s
    exact ⟨t, slices, (slices.inside inside).2⟩
  · obtain ⟨t, slices⟩ := Style.propertyTokens_slices inner s
    exact ⟨t, slices, (slices.inside inside).2⟩
  · obtain ⟨same, closes⟩ := Style.findEnd_closesAt found
    exact ⟨same, closes.inside⟩
  · exact advances_of_moving fun _ _ => Expr.parser_moving
  · exact advances_of_moving fun _ any => MarkupNode.parser_moving fun fits => absurd fits any
  · exact advances_of_moving fun _ any =>
      (Style.moving_within levels fun fits => absurd fits any).rule
  · exact advances_of_moving fun _ any =>
      (Style.moving_within levels fun fits => absurd fits any).atRule
  · exact advances_of_moving fun _ _ => Style.moving_declaration
  · exact advances_of_moving fun _ _ => Action.parser_moving
  · exact advances_of_moving fun _ _ => Guard.parser_moving
  · exact advances_of_moving fun _ _ => Getter.parser_starting.moving
  · exact advances_of_moving fun _ _ => (Route.parser_starting before).moving
  · exact advances_of_moving fun _ _ => Property.parser_starting.moving

/-- An end of the file in the middle stops neither the second parse nor the reading of an entry. -/
theorem Program.parser_progress_middle :
    let scope : Scope := ⟨.ofList (tokenize "a: 1" ++ tokenize r"}"), .standard, none⟩
    (scope.stateAfter 2 .initial).cursor < scope.stream.size ∧
      ∃ property t, Property.parser scope .initial = .ok property t ∧ 0 < t.cursor := by
  intro scope
  have read : (Property.parser scope .initial).answer.toBool := by decide +kernel
  obtain ⟨-, states, -, -, -, -, -, -, -, -, -, advances⟩ :=
    Program.parser_progress (tokenize "a: 1" ++ tokenize r"}") .standard 2
  refine ⟨(states 2).1, ?_⟩
  cases answer : Property.parser scope .initial with
  | error e t =>
    rw [answer] at read
    cases read
  | ok property t => exact ⟨property, t, rfl, (advances answer).1⟩

variable {scope : Scope} {s t : ParserState}

def Program.empty (span : Span) : Program := { Declarations.empty with span := span }

theorem Program.parser_endOfFile (atEnd : (scope.stream.get s.cursor).kind = .endOfFile) :
    Program.parser scope s = .ok (.empty (scope.stream.get s.cursor).span) s := by
  have round : Declarations.round .empty scope s = .ok (.done .empty) s := by
    unfold Declarations.round
    rw [bind_of_ok is_apply, atEnd]
    rfl
  have all : loop Declarations.round .empty scope s = .ok .empty s := Rounds.loop (.refl _ _) round
  rw [Program.parser_eq, bind_of_ok current_apply, bind_of_ok all, bind_of_ok current_apply,
    Span.cover_self]
  rfl

namespace Scope

variable (scope)

theorem stateAfter_add (calls more : Nat) (s : ParserState) :
    scope.stateAfter (calls + more) s = scope.stateAfter more (scope.stateAfter calls s) := by
  induction calls generalizing s with
  | zero => rw [Nat.zero_add, stateAfter]
  | succ calls ih => rw [Nat.succ_add, stateAfter, stateAfter, ih]

theorem stateAfter_succ (calls : Nat) (s : ParserState) :
    scope.stateAfter (calls + 1) s = (Program.parser scope (scope.stateAfter calls s)).state :=
  scope.stateAfter_add calls 1 s

theorem stateAfter_endOfFile (atEnd : (scope.stream.get s.cursor).kind = .endOfFile) (calls : Nat) :
    scope.stateAfter calls s = s := by
  induction calls with
  | zero => rfl
  | succ calls ih =>
    rw [stateAfter, Program.parser_endOfFile atEnd]
    exact ih

end Scope

theorem parseAgain_one (stream : TokenStream) (options : Options) (s : ParserState) :
    parseAgain stream options 1 s = [(Program.parser ⟨stream, options, none⟩ s).answer] :=
  parseAgain_eq stream options 1 s

/-- No state is hidden. After any number of parses of one sequence, whatever they have answered, the
    depth is zero, so that the answer of each parse, and the cursor that it leaves, are those of a
    parse that starts at its cursor. After a parse that succeeds the cursor stands at an end of the
    file, and all later ones answer with the empty program of that token and leave the cursor there. -/
theorem Program.parser_stateless (tokens : List Token) (options : Options) (calls : Nat) :
    let scope : Scope := ⟨.ofList tokens, options, none⟩
    let cursor (n : Nat) : Nat := (scope.stateAfter n .initial).cursor
    (∀ n, scope.stateAfter n .initial = ⟨cursor n, 0⟩) ∧
      (∀ n < calls, (parseRepeatedly scope.stream options calls 0)[n]? =
        (parseRepeatedly scope.stream options 1 (cursor n))[0]?) ∧
      (∀ n, cursor (n + 1) = (Program.parser scope ⟨cursor n, 0⟩).state.cursor) ∧
      ∀ n program t, Program.parser scope (scope.stateAfter n .initial) = .ok program t →
        (scope.stream.get (cursor (n + 1))).kind = .endOfFile ∧
          ∀ m, n < m → cursor m = cursor (n + 1) ∧ (m < calls →
            (parseRepeatedly scope.stream options calls 0)[m]? =
              some (.ok (.empty (scope.stream.get (cursor (n + 1))).span))) := by
  intro scope cursor
  have fresh (n : Nat) : scope.stateAfter n .initial = ⟨cursor n, 0⟩ := by
    have depth := (scope.stateAfter_inside n scope.stream.nonempty (s := .initial)).2
    exact congrArg (ParserState.mk (cursor n)) depth
  have answers (n : Nat) (hn : n < calls) : (parseRepeatedly scope.stream options calls 0)[n]? =
      some (Program.parser scope ⟨cursor n, 0⟩).answer := by
    rw [← fresh, parseRepeatedly, parseAgain_eq, List.getElem?_map, List.getElem?_range hn]
    rfl
  refine ⟨fresh, fun n hn => ?_, fun n => ?_, fun n program t ok => ?_⟩
  · rw [answers n hn, parseRepeatedly, parseAgain_one]
    rfl
  · rw [← fresh]
    exact congrArg ParserState.cursor (scope.stateAfter_succ n .initial)
  · have next : scope.stateAfter (n + 1) .initial = t := by rw [scope.stateAfter_succ, ok]; rfl
    have atEnd : (scope.stream.get (cursor (n + 1))).kind = .endOfFile := by
      rw [show cursor (n + 1) = t.cursor from congrArg ParserState.cursor next]
      exact (Program.yields_parser ok).1
    have halts (m : Nat) (later : n < m) : cursor m = cursor (n + 1) := by
      obtain ⟨more, rfl⟩ := Nat.exists_eq_add_of_le later
      refine congrArg ParserState.cursor ?_
      rw [scope.stateAfter_add (n + 1) more]
      exact scope.stateAfter_endOfFile atEnd more
    refine ⟨atEnd, fun m later => ⟨halts m later, fun hm => ?_⟩⟩
    have nothing : Program.parser scope ⟨cursor (n + 1), 0⟩ = _ := Program.parser_endOfFile atEnd
    rw [answers m hm, halts m later, nothing]
    rfl

/-- The first of three parses fails at the end of the file, four levels deep in an expression. The
    other two find nothing there. -/
theorem Program.parser_stateless_nested :
    let stream := TokenStream.ofList (tokenize r"state { a: [(1")
    (parseRepeatedly stream .standard 3 0)[1]? = (parseRepeatedly stream .standard 1 7)[0]? ∧
      (parseRepeatedly stream .standard 3 0)[2]? = some (.ok (.empty ⟨14, 14⟩)) := by
  intro stream
  have stops : ((⟨stream, .standard, none⟩ : Scope).stateAfter 1 .initial).cursor = 7 := by
    decide +kernel
  have atEnd : (stream.get 7).kind = .endOfFile := by decide +kernel
  have place : (stream.get 7).span = ⟨14, 14⟩ := by decide +kernel
  obtain ⟨fresh, again, -, later⟩ :=
    Program.parser_stateless (tokenize r"state { a: [(1") .standard 3
  have second := again 1 (by decide)
  dsimp only at fresh second
  rw [stops] at second
  have ok : Program.parser ⟨stream, .standard, none⟩ ⟨7, 0⟩ = _ := Program.parser_endOfFile atEnd
  obtain ⟨-, third⟩ := later 1 _ _ ((fresh 1).symm ▸ stops.symm ▸ ok)
  obtain ⟨-, nothing⟩ := third 2 (by decide)
  have halts : ((⟨stream, .standard, none⟩ : Scope).stateAfter 2 .initial).cursor = 7 := by
    decide +kernel
  have answer := nothing (by decide)
  dsimp only at answer
  rw [halts, place] at answer
  exact ⟨second, answer⟩

end PulseSyntax
