import PulseSyntax.Proofs.Markup.Fails
import PulseSyntax.Proofs.Program.Course

namespace PulseSyntax

open PulseSyntax.Parser PulseSyntax.Sites

variable {S : Sites} {s : ParserState}

theorem Property.parser_bound (s : ParserState) : S.Bound parser s := by
  simp [parser, Expr.parser_bound]

theorem PropertyBlock.parser_bound (word : Keyword) (s : ParserState) : S.Bound (parser word) s := by
  simp [parser, bound_braced (bound_entry Property.parser_bound)]

theorem Param.parser_bound (before : Array Param) (s : ParserState) : S.Bound (parser before) s := by
  simp [parser, Expr.parser_bound]
  exact ⟨fun _ => bound_fail rfl, fun _ _ _ _ => bound_fail rfl⟩

@[simp] theorem Param.bound_listParser : S.Bound listParser s := by
  simp [listParser, bound_commaSeparatedAfter Param.parser_bound]

theorem Action.parser_bound (s : ParserState) : S.Bound parser s := by simp [parser]

theorem ActionsBlock.parser_bound (s : ParserState) : S.Bound parser s := by
  simp [parser, many, bound_manyAfter fun _ => bound_entry Action.parser_bound]

@[simp] theorem bound_ensureFirst {seen : Bool} {field block : String} :
    S.Bound (ensureFirst seen field block) s := by
  simp [ensureFirst]
  exact fun _ => bound_fail rfl

@[simp] theorem bound_fieldColon : S.Bound fieldColon s := by simp [fieldColon]

theorem Route.parser_bound (before : Array Route) (s : ParserState) : S.Bound (parser before) s := by
  simp [parser, Expr.parser_bound]
  exact fun _ _ _ _ => S.atToken _ _ rfl

theorem Route.bound_listParser (s : ParserState) : S.Bound listParser s := by
  simp [listParser, bound_manyAfter fun before => bound_entry (Route.parser_bound before)]

theorem Guard.parser_bound (s : ParserState) : S.Bound parser s := by simp [parser]

theorem RouterFields.bound_add (fields : RouterFields) (s : ParserState) : S.Bound fields.add s := by
  simp [add]
  split <;> simp [Route.bound_listParser, Guard.parser_bound]

theorem RouterBlock.parser_bound (s : ParserState) : S.Bound parser s := by
  simp [parser, bound_foldEntries RouterFields.bound_add]

theorem Getter.parser_bound (s : ParserState) : S.Bound parser s := by
  simp [parser]
  exact fun _ _ _ => bound_fail rfl

theorem Getter.bound_listParser (s : ParserState) : S.Bound listParser s := by
  simp [listParser, bound_braced (bound_entry Getter.parser_bound)]

theorem StoreFields.bound_add (fields : StoreFields) (s : ParserState) : S.Bound fields.add s := by
  simp [add]
  split <;> simp [PropertyBlock.parser_bound, Getter.bound_listParser, ActionsBlock.parser_bound,
    Expr.parser_bound]
  intro _ _ t _
  split <;> simp

theorem StoreBlock.parser_bound (s : ParserState) : S.Bound parser s := by
  simp [parser, bound_foldEntries StoreFields.bound_add]

namespace Style

@[simp] theorem bound_tokensBetween {start stop : Nat} : S.Bound (tokensBetween start stop) s := by
  simp [tokensBetween]

@[simp] theorem bound_itemTokens : S.Bound itemTokens s := by
  have token (depth : Nat) (s : ParserState) : S.Bound (itemToken depth) s := by simp [itemToken]
  simp [itemTokens, bound_loop token]

@[simp] theorem bound_propertyTokens : S.Bound propertyTokens s := by
  have token (before : Unit) (s : ParserState) : S.Bound (propertyToken before) s := by
    simp [propertyToken]
  simp [propertyTokens, bound_loop token]

@[simp] theorem bound_blockFollows : S.Bound blockFollows s := by simp [blockFollows]

theorem bound_declaration (s : ParserState) : S.Bound declaration s := by
  simp [declaration]
  exact fun _ _ _ => ⟨fun _ => bound_fail rfl, fun _ => ⟨fun _ => bound_fail rfl,
    fun _ _ _ _ _ => bound_fail rfl⟩⟩

structure Nested.Bound (S : Sites) (nested : Nested) : Prop where
  rule : ∀ s, S.Bound nested.rule s
  atRule : ∀ s, S.Bound nested.atRule s

variable {nested : Nested}

theorem bound_bodyItem (h : nested.Bound S) (body : Body) (s : ParserState) :
    S.Bound (bodyItem nested body) s := by
  simp [bodyItem]
  split <;> simp [h.rule, h.atRule, bound_declaration]

theorem bound_bodyParser (h : nested.Bound S) (s : ParserState) : S.Bound (bodyParser nested) s := by
  simp [bodyParser, bound_loop (bound_bodyItem h)]

theorem bound_ruleAt (h : nested.Bound S) (s : ParserState) : S.Bound (ruleAt nested) s := by
  simp [ruleAt, bound_bodyParser h]
  exact fun _ _ _ _ => bound_fail rfl

theorem bound_atRuleAt (h : nested.Bound S) (s : ParserState) : S.Bound (atRuleAt nested) s := by
  have name (atSign : Token) (s : ParserState) : S.Bound (atName atSign) s := by
    simp [atName]
    exact ⟨fun _ => bound_fail rfl, fun _ _ _ => bound_fail rfl⟩
  simp [atRuleAt, name, bound_bodyParser h]

theorem bound_within (S : Sites) (levels : Nat) :
    Nested.Bound S ⟨ruleWithin levels, atRuleWithin levels⟩ := by
  induction levels with
  | zero => exact ⟨fun _ => bound_failTooDeep, fun _ => bound_failTooDeep⟩
  | succ levels ih =>
    exact ⟨fun _ => bound_deeper (bound_ruleAt ih), fun _ => bound_deeper (bound_atRuleAt ih)⟩

theorem bound_rulesParser (stop : Nat) (s : ParserState) : S.Bound (rulesParser stop) s := by
  have rule (s : ParserState) : S.Bound (withLevels ruleWithin) s :=
    bound_withLevels fun levels => (bound_within S levels).rule
  have atRule (s : ParserState) : S.Bound (withLevels atRuleWithin) s :=
    bound_withLevels fun levels => (bound_within S levels).atRule
  have item (rules : Array StyleNode) (s : ParserState) : S.Bound (rulesItem stop rules) s := by
    simp [rulesItem]
    intro _
    split <;> simp [rule, atRule]
    exact fun _ _ _ _ => bound_fail rfl
  simp [rulesParser, bound_loop item]

theorem bound_findEnd : S.Bound findEnd s := by
  simp [findEnd]
  split
  · exact bound_pure
  · simp
    exact bound_fail rfl
  · simp

end Style

theorem StyleBlock.parser_bound (s : ParserState) : S.Bound parser s := by
  rw [parser_eq]
  simp [rulesUpTo, Style.bound_findEnd]
  intro _ _ stop t _ tokens u _
  refine (yields_attempt (Style.bound_rulesParser stop u)).mono fun outcome v holds => ?_
  split
  · simp
  · next e => simp [holds e rfl]

namespace Import

theorem bound_sourceParser (start : Span) (specifiers : List ImportSpecifier) (s : ParserState) :
    S.Bound (sourceParser start specifiers) s := by simp [sourceParser]

theorem bound_namedParser (s : ParserState) : S.Bound namedParser s := by simp [namedParser]

theorem bound_bindingsParser (s : ParserState) : S.Bound bindingsParser s := by
  simp [bindingsParser, namespaceParser, bound_commaSeparated bound_namedParser]
  exact fun _ _ => bound_fail rfl

theorem parser_bound (s : ParserState) : S.Bound parser s := by
  simp [parser, bound_sourceParser, bound_bindingsParser]

end Import

theorem PageDecl.parser_bound (s : ParserState) : S.Bound parser s := by simp [parser]

theorem RouteDecl.parser_bound (s : ParserState) : S.Bound parser s := by simp [parser]

namespace Declarations

theorem bound_failUnknown {α : Type} : S.Bound (failUnknown : Parser α) s := by
  simp [failUnknown]
  exact bound_failAtToken fun _ => rfl

theorem bound_once {α : Type} {p : Parser α} (h : ∀ s, S.Bound p s) (seen : Option α) (name : String)
    (s : ParserState) : S.Bound (once seen name p) s := by
  simp [once, h]
  exact fun _ => bound_fail rfl

theorem bound_add (file : S.InFile) (d : Declarations) (s : ParserState) : S.Bound d.add s := by
  simp [add]
  split
  · simp [Import.parser_bound]
  · simp
    split
    · simp [bound_once PageDecl.parser_bound]
    · simp [bound_once RouteDecl.parser_bound]
    · exact bound_failUnknown
  · simp [bound_once (PropertyBlock.parser_bound _)]
  · simp [bound_once (PropertyBlock.parser_bound _)]
  · simp [bound_once fun _ => ViewBlock.parser_bound file]
  · simp [bound_once ActionsBlock.parser_bound]
  · simp [bound_once StyleBlock.parser_bound]
  · simp [bound_once RouterBlock.parser_bound]
  · simp [bound_once StoreBlock.parser_bound]
  · simp
  · exact bound_failUnknown

end Declarations

theorem Program.parser_bound (file : S.InFile) (s : ParserState) : S.Bound parser s := by
  have round (d : Declarations) (s : ParserState) : S.Bound d.round s := by
    simp [Declarations.round, Declarations.bound_add file]
  rw [parser_eq]
  simp [bound_loop round]

/-- What holds of the errors at a text, and at the tokens of its interpolations where these are spelled
    as they read, holds of every error in the text. -/
theorem TextNode.ofToken_holds {source : String} {options : Options} {t : Token}
    {Holds : ParseError → Prop} (member : t ∈ tokenize source)
    (quoted : t.kind = .string ∨ t.kind = .template) {e : ParseError}
    (failed : ofToken options t = .error e)
    (atText : ∀ {cause : Cause}, cause.isApart = false → Holds ⟨cause, t.place⟩)
    (inHole : t.IsVerbatim → ∀ start hole,
      .hole start hole ∈ TextSegment.cut (t.kind == .template) 0 0 t.text.toList →
      ∀ u ∈ holeTokens t start hole, ∀ cause : Cause, cause.isApart = false → Holds ⟨cause, u.place⟩) :
    Holds e := by
  rcases assemble_error (ofToken_error failed) with (rfl | rfl) | ⟨start, hole, own, failed⟩
  · exact atText rfl
  · exact atText rfl
  obtain ⟨u, failed⟩ := readHole_error failed
  obtain ⟨content, -, longer⟩ := holeTokens_places member quoted own
  let S : Sites := {
    scope := holeScope options t start hole
    Holds
    atToken := fun i cause plain => by
      have inner := TokenStream.get_mem (.ofList (holeTokens t start hole)) i
      rw [TokenStream.toList_ofList_of_content content] at inner
      by_cases spelled : t.IsVerbatim
      · exact inHole spelled start hole own _ inner cause plain
      · exact longer spelled _ inner ▸ atText plain }
  have bound : S.Bound (holeParser hole) .initial := by
    simp [holeParser, Expr.parser_bound]
    exact fun _ _ _ _ => bound_fail rfl
  exact bound failed

theorem Sites.InFile.parse_error {S : Sites} (file : S.InFile) {source : String} {options : Options}
    (scope : S.scope = ⟨.ofList (tokenize source), options, none⟩) {e : ParseError}
    (failed : Component.parse source options = .error e) : S.Holds e := by
  have bound := Program.parser_bound file .initial
  rw [Sites.Bound, scope] at bound
  unfold Component.parse Parser.run at failed
  dsimp only at failed
  split at failed
  · cases failed
  · next answer =>
    cases failed
    exact bound answer

/-- The span is a part of the source. The line and the column are those at which it starts, unless the
    error is one of a directive: then they are those of a closing parenthesis further on. -/
structure ParseError.StandsIn (source : String) (e : ParseError) : Prop where
  slice : ∃ own, Text.slice? source.toList e.place.span.start e.place.span.stop = some own
  together : e.place.StartsIn source.toList ↔ e.cause.isApart = false
  apart : e.cause.isApart → ∃ close ∈ tokenize source, close.kind = .symbol .closeParen ∧
    e.place.line = close.place.line ∧ e.place.column = close.place.column ∧
    e.place.span.start < close.span.start

namespace ParseError.StandsIn

variable {source : String} {options : Options}

theorem ofPlace {t : Token} {place : Place} {cause : Cause} (h : t.StandsIn source.toList)
    (same : place = t.place) (plain : cause.isApart = false) : StandsIn source ⟨cause, place⟩ where
  slice := ⟨_, by rw [same]; exact h.raw⟩
  together := iff_of_true (by rw [same]; exact ⟨h.place⟩) plain
  apart yes := absurd yes (by simp [plain])

theorem ofClose {k : Nat} {i j : Nat} {span : Span} {cause : Cause} (special : cause.isApart)
    (edges : (TokenStream.ofList (tokenize source)).Edges i j span)
    (closing : ((TokenStream.ofList (tokenize source)).get k).kind = .symbol .closeParen)
    (before : span.start < ((TokenStream.ofList (tokenize source)).get k).span.start) :
    StandsIn source ⟨cause, ((TokenStream.ofList (tokenize source)).get k).place.line,
      ((TokenStream.ofList (tokenize source)).get k).place.column, span⟩ where
  slice := edges.slice
  together := by
    refine iff_of_false (fun starts => ?_) (by simp [special])
    have close := TokenStream.get_standsIn source k
    exact Nat.not_lt.mpr (starts.start_le ⟨close.place⟩ rfl rfl) before
  apart _ := ⟨_, TokenStream.get_mem_tokenize source k, closing, rfl, rfl, before⟩

theorem ofText {t : Token} (member : t ∈ tokenize source)
    (quoted : t.kind = .string ∨ t.kind = .template) {e : ParseError}
    (failed : TextNode.ofToken options t = .error e) : StandsIn source e :=
  TextNode.ofToken_holds member quoted failed
    (ofPlace ((laid_tokens source.toList).standsIn t member) rfl)
    fun verbatim _ _ own u inner _ plain =>
      ofPlace ((TextNode.holeTokens_places member quoted own).2.1 verbatim u inner) rfl plain

end ParseError.StandsIn

def Sites.ofFile (source : String) (options : Options) : Sites where
  scope := ⟨.ofList (tokenize source), options, none⟩
  Holds := ParseError.StandsIn source
  atToken i _ plain := .ofPlace (TokenStream.get_standsIn source i) rfl plain

theorem Sites.inFile_ofFile (source : String) (options : Options) : (ofFile source options).InFile where
  ordered := TokenStream.ordered_tokenize source
  start_lt edges le inside := edges.start_lt le inside
  texts {i _} quoted failed := .ofText (TokenStream.get_mem_tokenize source i) quoted failed
  apart special edges closing before := .ofClose special edges closing before

/-- Wherever a parse fails, the span of the error is a part of the source. Its line and column are
    those at which the span starts, at every site but two: several arguments of an event handler and a
    binding that nothing can be assigned to have the line and the column of the parenthesis that
    closes the arguments, and never those of their span. -/
theorem Component.parse_error_place {source : String} {options : Options} {e : ParseError}
    (failed : parse source options = .error e) :
    (∃ own, Text.slice? source.toList e.place.span.start e.place.span.stop = some own) ∧
      (e.place.StartsIn source.toList ↔ e.cause.isApart = false) ∧
      (e.cause.isApart → ∃ close ∈ tokenize source, close.kind = .symbol .closeParen ∧
        e.place.line = close.place.line ∧ e.place.column = close.place.column ∧
        e.place.span.start < close.span.start) := by
  have stands : ParseError.StandsIn source e := by
    have bound := Program.parser_bound (Sites.inFile_ofFile source options) .initial
    unfold parse Parser.run at failed
    dsimp only at failed
    split at failed
    · cases failed
    · next answer =>
      cases failed
      exact bound answer
  exact ⟨stands.slice, stands.together, stands.apart⟩

def ParseError.of? {α : Type} : Except ParseError α → Option ParseError
  | .ok _ => none
  | .error e => some e

/-- The span starts with the directive, at column 10; the error is shown at its last character. -/
theorem Component.parse_error_place_handler :
    ∃ e, parse "view { a @click(f, g) }" .standard = .error e ∧
      e.place = ⟨1, 21, ⟨9, 21⟩⟩ ∧
      ¬ e.place.StartsIn "view { a @click(f, g) }".toList ∧
      ∃ close ∈ tokenize "view { a @click(f, g) }", e.place.column = close.place.column ∧
        e.place.span.start < close.span.start := by
  generalize hs : "view { a @click(f, g) }" = source
  have read : ParseError.of? (parse source .standard) = some ⟨.severalHandlers "click", 1, 21, ⟨9, 21⟩⟩ := by
    subst hs
    decide +kernel
  cases failed : parse source .standard with
  | ok c =>
    rw [failed] at read
    cases read
  | error e =>
    rw [failed] at read
    cases read
    obtain ⟨-, together, apart⟩ := parse_error_place failed
    obtain ⟨close, member, -, -, column, before⟩ := apart rfl
    refine ⟨_, rfl, rfl, fun starts => ?_, close, member, column, before⟩
    cases together.mp starts

/-- A token of the file, or one of an interpolation in a text of it that is spelled as its value. -/
inductive Token.IsWithin (source : String) : Token → Prop
  | own {t : Token} : t ∈ tokenize source → IsWithin source t
  | inner {t u : Token} {start : Nat} {hole : List Char} : t ∈ tokenize source →
      t.kind = .string ∨ t.kind = .template → t.IsVerbatim →
      .hole start hole ∈ TextSegment.cut (t.kind == .template) 0 0 t.text.toList →
      u ∈ TextNode.holeTokens t start hole → IsWithin source u

theorem Token.IsWithin.standsIn {source : String} {t : Token} (h : t.IsWithin source) :
    t.StandsIn source.toList := by
  cases h with
  | own member => exact (laid_tokens source.toList).standsIn t member
  | inner member quoted verbatim own within =>
    exact (TextNode.holeTokens_places member quoted own).2.1 verbatim t within

/-- The line and the column are those of a token in the file. -/
structure ParseError.PointsIn (source : String) (e : ParseError) : Prop where
  token : ∃ t : Token, t.IsWithin source ∧ e.place.line = t.place.line ∧ e.place.column = t.place.column

namespace ParseError.PointsIn

variable {source : String} {options : Options} {e : ParseError}

theorem ofToken {t : Token} {place : Place} {cause : Cause} (h : t.IsWithin source)
    (same : place = t.place) : PointsIn source ⟨cause, place⟩ :=
  ⟨t, h, by rw [same], by rw [same]⟩

theorem ofText {t : Token} (member : t ∈ tokenize source)
    (quoted : t.kind = .string ∨ t.kind = .template)
    (failed : TextNode.ofToken options t = .error e) : PointsIn source e :=
  TextNode.ofToken_holds member quoted failed (fun _ => ofToken (.own member) rfl)
    fun verbatim _ _ own _ inner _ _ => ofToken (.inner member quoted verbatim own inner) rfl

end ParseError.PointsIn

def Sites.pointing (source : String) (options : Options) : Sites where
  scope := ⟨.ofList (tokenize source), options, none⟩
  Holds := ParseError.PointsIn source
  atToken i _ _ := .ofToken (.own (TokenStream.get_mem_tokenize source i)) rfl

theorem Sites.inFile_pointing (source : String) (options : Options) :
    (pointing source options).InFile where
  ordered := TokenStream.ordered_tokenize source
  start_lt edges le inside := edges.start_lt le inside
  texts {i _} quoted failed := .ofText (TokenStream.get_mem_tokenize source i) quoted failed
  apart {_ _ k _ _} _ _ _ _ := ⟨_, .own (TokenStream.get_mem_tokenize source k), rfl, rfl⟩

/-- Wherever a parse fails, the error has the line and the column of a token that stands in the file: of
    one of its own, or of one of an interpolation without escapes. So the line is one of the file, and
    the column is at most one past the end of that line. -/
theorem Component.parse_error_token {source : String} {options : Options} {e : ParseError}
    (failed : parse source options = .error e) :
    (∃ t : Token, t.IsWithin source ∧ t.StandsIn source.toList ∧
        e.place.line = t.place.line ∧ e.place.column = t.place.column) ∧
      1 ≤ e.place.line ∧ e.place.line ≤ source.toList.count '\n' + 1 ∧
      ∃ line, (source.toList.splitOn '\n')[e.place.line - 1]? = some line ∧
        1 ≤ e.place.column ∧ e.place.column ≤ line.length + 1 := by
  obtain ⟨t, within, line, column⟩ :=
    ((Sites.inFile_pointing source options).parse_error rfl failed).token
  refine ⟨⟨t, within, within.standsIn, line, column⟩, ?_⟩
  have starts : t.place.StartsIn source.toList := ⟨within.standsIn.place⟩
  rw [line, column]
  exact starts.onLine

/-- The text starts on the second line, and the expression in it goes on up to a parenthesis on the
    third that nothing opens. -/
theorem Component.parse_error_token_hole :
    ∃ e, parse r#"view {
  p "é {x
  + )}"
}"# .standard = .error e ∧
      e.place.line = 3 ∧ e.place.column = 5 ∧
      ∃ t : Token, t.IsWithin r#"view {
  p "é {x
  + )}"
}"# ∧
        t.place.line = 3 ∧ t.place.column = 5 := by
  generalize hs : r#"view {
  p "é {x
  + )}"
}"# = source
  have read : (ParseError.of? (parse source .standard)).map (fun e => (e.place.line, e.place.column)) =
      some (3, 5) := by
    subst hs
    decide +kernel
  cases failed : parse source .standard with
  | ok c =>
    rw [failed] at read
    cases read
  | error e =>
    rw [failed] at read
    obtain ⟨line, column⟩ := Prod.mk.inj (Option.some.inj read)
    obtain ⟨⟨t, within, -, hl, hc⟩, -⟩ := parse_error_token failed
    exact ⟨e, rfl, line, column, t, within, hl ▸ line, hc ▸ column⟩

end PulseSyntax
