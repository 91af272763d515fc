import PulseSyntax.Proofs.Program.Course
import PulseSyntax.Proofs.Parser.Entries

namespace PulseSyntax

open PulseSyntax.Parser

section

variable {scope : Scope} {s t : ParserState}

namespace Route

def filling : Filling (Array Route) Route String where
  empty := #[]
  field := path
  held routes path := routes.toList.filter (·.path = path)
  put := Array.push
  isList _ := false
  held_empty _ := rfl
  held_put routes route path _ := by simp [List.filter_append, List.filter_cons]

def reader : Parser Route := do
  let path ← expect .string
  let _ ← expectSymbol .colon
  let handler ← Expr.parser
  return ⟨path.text, handler, path.span.cover handler.span⟩

theorem fill_eq (routes : List Route) : filling.fill routes = routes.toArray := by
  induction routes using List.reverseRecOn with
  | nil => rfl
  | append_singleton routes route ih =>
    rw [Filling.fill_concat, ih, ← List.push_toArray]
    rfl

theorem taken_eq (routes : Array Route) (path : String) :
    filling.taken routes path = routes.any (·.path == path) := by
  rw [Bool.eq_iff_iff, Array.any_eq_true']
  simp [Filling.taken, filling]

def tail (path : Token) : Parser Route := do
  let _ ← expectSymbol .colon
  let handler ← Expr.parser
  return ⟨path.text, handler, path.span.cover handler.span⟩

theorem tail_path {path : Token} {route : Route} (ok : tail path scope s = .ok route t) :
    route.path = path.text := by
  obtain ⟨_, _, -, more⟩ := bind_eq_ok.mp ok
  obtain ⟨_, _, -, last⟩ := bind_eq_ok.mp more
  cases last
  rfl

theorem parser_eq_ok {before : Array Route} {route : Route} :
    parser before scope s = .ok route t ↔
      reader scope s = .ok route t ∧ filling.taken before route.path = false := by
  change (expect .string >>= fun path =>
    if before.any (·.path == path.text) then failAt path.place (.duplicateRoute path.text)
      else tail path) scope s = _ ↔ (expect .string >>= tail) scope s = _ ∧ _
  simp only [bind_eq_ok, taken_eq]
  constructor
  · rintro ⟨path, u, string, rest⟩
    split at rest
    · cases rest
    · next free =>
      refine ⟨⟨path, u, string, rest⟩, ?_⟩
      rw [tail_path rest]
      simpa using free
  · rintro ⟨⟨path, u, string, rest⟩, free⟩
    rw [tail_path rest] at free
    exact ⟨path, u, string, by rwa [free, if_neg Bool.false_ne_true]⟩

theorem parser_error {before : Array Route}
    (string : (scope.stream.get s.cursor).kind = .string)
    (taken : filling.taken before (scope.stream.get s.cursor).text = true) :
    parser before scope s = .error ⟨.duplicateRoute (scope.stream.get s.cursor).text,
      (scope.stream.get s.cursor).place⟩ (s.ahead 1) := by
  rw [taken_eq] at taken
  rw [parser, bind_of_ok (expect_apply string (by simp)), if_pos taken]
  rfl

theorem reader_starting {c : Course} : c.Starting reader :=
  (Course.starting_expect (by simp)).bind fun _ => (Course.starting_expectSymbol _).steady.bind
    fun _ => Expr.parser_moving.steady.bind fun _ => Course.steady_pure _

def round : Array Route → Parser (ForInStep (Array Route)) :=
  manyRound .closeBrace fun before => Parser.entry (parser before)

theorem round_apply (routes : Array Route) (scope : Scope) (s : ParserState) :
    round routes scope s =
      if Filling.EndsBlock (scope.stream.get s.cursor).kind then .ok (.done routes) s
      else (Parser.entry (parser routes) >>= fun route => pure (.yield (routes.push route)))
        scope s := by
  rw [round, manyRound, bind_of_ok current_apply]
  simp only [Filling.EndsBlock, Bool.or_eq_true, beq_iff_eq]
  exact apply_ite (fun p : Parser (ForInStep (Array Route)) => p scope s) _ _ _

theorem turns : filling.Turns round (Parser.entry reader) some Filling.EndsBlock := by
  refine Filling.turns_entry round_apply (fun {a next scope s t} => ?_) (fun read ends => ?_)
    fun read => Course.reaches_of_moving (fun _ _ => reader_starting.moving) read
  · simp only [bind_eq_ok, Parser.entry_eq_ok, parser_eq_ok, pure_apply, Reply.ok.injEq]
    constructor
    · rintro ⟨route, u, ⟨v, ⟨read, free⟩, skipped⟩, rfl, rfl⟩
      exact ⟨route, ⟨v, read, skipped⟩, free, rfl⟩
    · rintro ⟨route, ⟨v, read, skipped⟩, free, rfl⟩
      exact ⟨route, t, ⟨v, ⟨read, free⟩, skipped⟩, rfl, rfl⟩
  · obtain ⟨path, u, string, -⟩ := bind_eq_ok.mp read
    have kind := ((expect_eq_ok (by simp)).mp string).1
    rw [kind] at ends
    simp [Filling.EndsBlock] at ends

inductive OpensList (scope : Scope) (s : ParserState) : ParserState → Prop
  | plain (word : (scope.stream.get s.cursor).kind = .keyword .routes)
      (brace : (scope.stream.get (s.cursor + 1)).kind = .symbol .openBrace) :
      OpensList scope s (s.ahead 2)
  | colon (word : (scope.stream.get s.cursor).kind = .keyword .routes)
      (colon : (scope.stream.get (s.cursor + 1)).kind = .symbol .colon)
      (brace : (scope.stream.get (s.cursor + 2)).kind = .symbol .openBrace) :
      OpensList scope s (s.ahead 3)

def inBraces : Parser (List Route) := do
  let routes ← loop round #[]
  let _ ← expectSymbol .closeBrace
  return routes.toList

theorem listParser_eq : listParser = (do
    let _ ← expectKeyword .routes
    let _ ← eatSymbol .colon
    let _ ← expectSymbol .openBrace
    inBraces) := by
  rw [listParser, manyAfter_eq]
  simp only [inBraces, bind_assoc, pure_bind]
  rfl

theorem OpensList.listParser_apply (h : OpensList scope s t) :
    listParser scope s = inBraces scope t := by
  rw [listParser_eq, expectKeyword]
  cases h with
  | plain word brace =>
    have noColon : eatSymbol .colon scope (s.ahead 1) = .ok false (s.ahead 1) := by
      rw [eatSymbol, eat_apply (by simp), if_neg (by simp [brace])]
    rw [bind_of_ok (expect_apply word (by simp)), bind_of_ok noColon, expectSymbol,
      bind_of_ok (expect_apply brace (by simp)), ParserState.ahead_ahead]
  | colon word colon brace =>
    have eaten : eatSymbol .colon scope (s.ahead 1) = .ok true (s.ahead 2) := by
      rw [eatSymbol, eat_apply (by simp), ParserState.ahead_cursor, if_pos colon,
        ParserState.ahead_ahead]
    rw [bind_of_ok (expect_apply word (by simp)), bind_of_ok eaten, expectSymbol,
      bind_of_ok (expect_apply brace (by simp)), ParserState.ahead_ahead]

theorem yields_inBraces : Yields inBraces scope s fun routes t => ∃ parts u,
    Parts scope (Parser.entry reader) s parts u ∧
      (scope.stream.get u.cursor).kind = .symbol .closeBrace ∧ t = u.ahead 1 ∧
      routes = parts.map Parser.Part.value ∧ (routes.map path).Nodup := by
  simp only [inBraces, yields_bind, yields_expectSymbol, yields_pure]
  refine turns.yields_loop.mono ?_
  rintro _ u ⟨-, parts, read, distinct, rfl⟩ closes
  rw [ParserState.next_of_kind closes (by simp), fill_eq]
  refine ⟨parts, u, read, closes, rfl, ?_, ?_⟩
  · simp [Filling.entries]
  · rw [List.Nodup, List.pairwise_map]
    refine List.Pairwise.imp ?_ distinct
    exact fun {a b} (differ : a.path = b.path → (false : Bool) = true) same =>
      Bool.false_ne_true (differ same)

theorem yields_listParser : Yields listParser scope s fun routes t => ∃ first parts u,
    OpensList scope s first ∧ Parts scope (Parser.entry reader) first parts u ∧
      (scope.stream.get u.cursor).kind = .symbol .closeBrace ∧ t = u.ahead 1 ∧
      routes = parts.map Parser.Part.value ∧ (routes.map path).Nodup := by
  simp only [listParser_eq, yields_bind, yields_expectKeyword, yields_eatSymbol, yields_expectSymbol]
  intro word
  rw [ParserState.next_of_kind word (by simp)]
  refine ⟨fun colon => ?_, fun _ => ?_⟩
  · rw [ParserState.next_of_kind colon (by simp), ParserState.ahead_ahead]
    intro brace
    rw [ParserState.next_of_kind brace (by simp), ParserState.ahead_ahead]
    refine yields_inBraces.mono fun _ _ own => ?_
    obtain ⟨parts, u, read⟩ := own
    exact ⟨_, parts, u, .colon word colon brace, read⟩
  · intro brace
    rw [ParserState.next_of_kind brace (by simp), ParserState.ahead_ahead]
    refine yields_inBraces.mono fun _ _ own => ?_
    obtain ⟨parts, u, read⟩ := own
    exact ⟨_, parts, u, .plain word brace, read⟩

theorem listParser_error {parts : List (Parser.Part Route)} {u : ParserState} (opens : OpensList scope s t)
    (read : Parts scope (Parser.entry reader) t parts u)
    (distinct : filling.Distinct (Filling.entries some parts))
    (string : (scope.stream.get u.cursor).kind = .string)
    (again : ∃ route ∈ Filling.entries some parts, route.path = (scope.stream.get u.cursor).text) :
    listParser scope s = .error ⟨.duplicateRoute (scope.stream.get u.cursor).text,
      (scope.stream.get u.cursor).place⟩ (u.ahead 1) := by
  have failed := parser_error string ((Filling.taken_fill distinct).mpr ⟨rfl, again⟩)
  have last := round_apply (filling.fill (Filling.entries some parts)) scope u
  rw [if_neg (by simp [Filling.EndsBlock, string]), bind_apply, Parser.entry_error failed] at last
  have list := turns.loop_error read distinct last
  change loop round #[] scope t = _ at list
  rw [opens.listParser_apply, inBraces, bind_apply, list]

end Route

end

theorem ensureFirst_bind {α : Type} (seen : Bool) (field block : String) (p : Parser α) :
    (ensureFirst seen field block >>= fun _ => p) =
      if seen then Parser.fail (.duplicateField field block) else p := by
  cases seen <;> rfl

/-- A field of a router. -/
inductive RouterField where
  | mode (value : String)
  | base (path : String)
  | routes (routes : List Route)
  | beforeEach (guard : Guard)
  | afterEach (guard : Guard)

namespace RouterField

def word : RouterField → Keyword
  | mode _ => .mode
  | base _ => .base
  | routes _ => .routes
  | beforeEach _ => .beforeEach
  | afterEach _ => .afterEach

def ofKind? : TokenKind → Option Keyword
  | .keyword .mode => some .mode
  | .keyword .base => some .base
  | .keyword .routes => some .routes
  | .keyword .beforeEach => some .beforeEach
  | .keyword .afterEach => some .afterEach
  | _ => none

/-- Reads the field that the word at the cursor names. -/
def parser : Keyword → Parser RouterField
  | .mode => (mode ·.text) <$> do
    fieldColon
    expectStringOr .identifier
  | .base => (base ·.text) <$> do
    fieldColon
    expect .string
  | .routes => routes <$> Route.listParser
  | .beforeEach => beforeEach <$> Guard.parser
  | .afterEach => afterEach <$> Guard.parser
  | _ => failWanted .routerOption

end RouterField

namespace RouterFields

def held (fields : RouterFields) : Keyword → List RouterField
  | .mode => (fields.mode.map .mode).toList
  | .base => (fields.base.map .base).toList
  | .routes => (fields.routes.map .routes).toList
  | .beforeEach => (fields.beforeEach.map .beforeEach).toList
  | .afterEach => (fields.afterEach.map .afterEach).toList
  | _ => []

def put (fields : RouterFields) : RouterField → RouterFields
  | .mode value => { fields with mode := some value }
  | .base path => { fields with base := some path }
  | .routes routes => { fields with routes := some routes }
  | .beforeEach guard => { fields with beforeEach := some guard }
  | .afterEach guard => { fields with afterEach := some guard }

def filling : Filling RouterFields RouterField Keyword where
  empty := ⟨none, none, none, none, none⟩
  field := RouterField.word
  held := held
  put := put
  isList _ := false
  held_empty word := by cases word <;> rfl
  held_put fields e key free := by
    have free := free.resolve_left Bool.false_ne_true
    cases e <;> cases key <;> simp_all [held, put, RouterField.word]

def reader : EntryReader filling where
  field? kind _ := RouterField.ofKind? kind
  reader := RouterField.parser
  repeated word := .duplicateField word.spelling "router"
  unknown := failWanted .routerOption
  field_of_reader {word scope s e t} ok := by
    cases word <;> simp only [RouterField.parser, map_eq_ok, failWanted_ne_ok] at ok
    all_goals
      obtain ⟨_, _, rfl⟩ := ok
      rfl
  repeated_kind _ := rfl
  unknown_ne_ok := failAtToken_ne_ok

theorem add_eq (fields : RouterFields) : fields.add = reader.add fields := by
  funext scope s
  rw [RouterFields.add, EntryReader.add, bind_of_ok current_apply, bind_of_ok current_apply,
    bind_of_ok peek_apply]
  simp only [ensureFirst_bind, reader]
  generalize (scope.stream.get s.cursor).kind = kind
  split
  case h_6 =>
    have none : RouterField.ofKind? kind = none := by
      unfold RouterField.ofKind?
      split <;> simp_all
    simp only [none]
  all_goals
    simp only [RouterField.ofKind?, RouterField.parser]
    rw [Filling.taken_slot rfl rfl]
    simp only [filling, put, Keyword.spelling, ← bind_pure_comp, bind_assoc, pure_bind]

def toBlock (fields : RouterFields) (span : Span) : RouterBlock where
  mode := fields.mode
  base := fields.base
  routes := fields.routes.getD []
  beforeEach := fields.beforeEach
  afterEach := fields.afterEach
  span := span

theorem noEnd (kind next : TokenKind) (ends : Filling.EndsBlock kind) :
    reader.field? kind next = none := by
  rcases ends with rfl | rfl <;> rfl

theorem turns : filling.Turns (entryRound reader.add) (Parser.entry reader.entry) some
    Filling.EndsBlock :=
  EntryReader.turns_entryRound noEnd fun _ _ => add_eq _ ▸ moving_add _

end RouterFields

theorem RouterBlock.parser_eq :
    RouterBlock.parser = RouterFields.reader.block .router RouterFields.toBlock := by
  rw [RouterBlock.parser, EntryReader.block, ← funext RouterFields.add_eq]
  rfl

section

variable {scope : Scope} {s t : ParserState}

theorem RouterFields.nodup_routes {parts : List (Parser.Part RouterField)} {routes : List Route}
    (read : Parts scope (Parser.entry reader.entry) s parts t)
    (member : RouterField.routes routes ∈ Filling.entries some parts) :
    (routes.map Route.path).Nodup := by
  obtain ⟨⟨own, _⟩, here, same⟩ := List.mem_filterMap.mp member
  cases same
  obtain ⟨u, ok, -⟩ := read.read_of_mem here
  obtain ⟨v, field, -⟩ := Parser.entry_eq_ok.mp ok
  obtain ⟨word, -, ok⟩ := EntryReader.entry_eq_ok.mp field
  cases reader.field_of_reader ok
  obtain ⟨_, list, same⟩ := map_eq_ok.mp ok
  cases same
  obtain ⟨first, routes, w, -, -, -, -, -, nodup⟩ := Route.yields_listParser list
  exact nodup

theorem RouterBlock.yields_parser : Yields parser scope s fun block t =>
    EntryReader.OpensBlock scope s .router ∧ ∃ parts u fields,
      Parts scope (Parser.entry RouterFields.reader.entry) (s.ahead 2) parts u ∧
      (scope.stream.get u.cursor).kind = .symbol .closeBrace ∧ t = u.ahead 1 ∧
      RouterFields.filling.Fills (Filling.entries some parts) fields ∧
      block = fields.toBlock block.span ∧ (block.routes.map Route.path).Nodup := by
  rw [parser_eq]
  refine (EntryReader.yields_block RouterFields.turns).mono ?_
  rintro _ t ⟨opens, parts, u, span, read, closes, rfl, distinct, rfl⟩
  refine ⟨opens, parts, u, _, read, closes, rfl, distinct.fills, rfl, ?_⟩
  have held : (Option.map RouterField.routes _).toList = _ := Filling.held_fill distinct .routes
  cases given : (RouterFields.filling.fill (Filling.entries some parts)).routes with
  | none => simp [RouterFields.toBlock, given]
  | some routes =>
    rw [given] at held
    have member : RouterField.routes routes ∈ (Option.map RouterField.routes (some routes)).toList :=
      List.mem_singleton_self _
    rw [held, List.mem_filter] at member
    simpa [RouterFields.toBlock, given] using RouterFields.nodup_routes read member.1

theorem RouterBlock.parser_error {fields : List (Parser.Part RouterField)} {u : ParserState}
    {err : ParseError} {word : Keyword} (opens : EntryReader.OpensBlock scope s .router)
    (read : Parts scope (Parser.entry RouterFields.reader.entry) (s.ahead 2) fields t)
    (distinct : RouterFields.filling.Distinct (Filling.entries some fields))
    (here : RouterFields.reader.fieldAt? scope t = some word)
    (failed : RouterFields.reader.add (RouterFields.filling.fill (Filling.entries some fields))
      scope t = .error err u) : parser scope s = .error err u := by
  rw [parser_eq]
  exact EntryReader.block_error RouterFields.turns RouterFields.noEnd opens read distinct here failed

end

inductive StoreField where
  | state (block : PropertyBlock)
  | getters (getters : List Getter)
  | actions (block : ActionsBlock)
  | persist (value : Bool)
  | storageKey (key : String)
  | plugins (list : Expr)

namespace StoreField

def word : StoreField → Keyword
  | state _ => .state
  | getters _ => .getters
  | actions _ => .actions
  | persist _ => .persist
  | storageKey _ => .storageKey
  | plugins _ => .plugins

def ofKind? : TokenKind → Option Keyword
  | .keyword .state => some .state
  | .keyword .getters => some .getters
  | .keyword .actions => some .actions
  | .keyword .persist => some .persist
  | .keyword .storageKey => some .storageKey
  | .keyword .plugins => some .plugins
  | _ => none

def truthParser : Parser Bool := do
  let value ← match (← current).kind with
    | .keyword .true_ => pure true
    | .keyword .false_ => pure false
    | _ => failWanted .truthValue
  let _ ← advance
  return value

/-- Reads the field that the word at the cursor names. -/
def parser : Keyword → Parser StoreField
  | .state => state <$> PropertyBlock.parser .state
  | .getters => getters <$> Getter.listParser
  | .actions => actions <$> ActionsBlock.parser
  | .persist => persist <$> do
    fieldColon
    truthParser
  | .storageKey => (storageKey ·.text) <$> do
    fieldColon
    expect .string
  | .plugins => plugins <$> do
    fieldColon
    if !(← isSymbol .openBracket) then failWanted .pluginArray else Expr.parser
  | _ => failWanted .storeOption

end StoreField

namespace StoreFields

def held (fields : StoreFields) : Keyword → List StoreField
  | .state => (fields.state.map .state).toList
  | .getters => (fields.getters.map .getters).toList
  | .actions => (fields.actions.map .actions).toList
  | .persist => (fields.persist.map .persist).toList
  | .storageKey => (fields.storageKey.map .storageKey).toList
  | .plugins => (fields.plugins.map .plugins).toList
  | _ => []

def put (fields : StoreFields) : StoreField → StoreFields
  | .state block => { fields with state := some block }
  | .getters getters => { fields with getters := some getters }
  | .actions block => { fields with actions := some block }
  | .persist value => { fields with persist := some value }
  | .storageKey key => { fields with storageKey := some key }
  | .plugins list => { fields with plugins := some list }

def filling : Filling StoreFields StoreField Keyword where
  empty := ⟨none, none, none, none, none, none⟩
  field := StoreField.word
  held := held
  put := put
  isList _ := false
  held_empty word := by cases word <;> rfl
  held_put fields e key free := by
    have free := free.resolve_left Bool.false_ne_true
    cases e <;> cases key <;> simp_all [held, put, StoreField.word]

def reader : EntryReader filling where
  field? kind _ := StoreField.ofKind? kind
  reader := StoreField.parser
  repeated word := .duplicateField word.spelling "store"
  unknown := failWanted .storeOption
  field_of_reader {word scope s e t} ok := by
    cases word <;> simp only [StoreField.parser, map_eq_ok, failWanted_ne_ok] at ok
    all_goals
      obtain ⟨_, _, rfl⟩ := ok
      rfl
  repeated_kind _ := rfl
  unknown_ne_ok := failAtToken_ne_ok

theorem add_eq (fields : StoreFields) : fields.add = reader.add fields := by
  funext scope s
  rw [StoreFields.add, EntryReader.add, bind_of_ok current_apply, bind_of_ok current_apply,
    bind_of_ok peek_apply]
  simp only [ensureFirst_bind, reader]
  generalize (scope.stream.get s.cursor).kind = kind
  split
  case h_7 =>
    have none : StoreField.ofKind? kind = none := by
      unfold StoreField.ofKind?
      split <;> simp_all
    simp only [none]
  all_goals
    simp only [StoreField.ofKind?, StoreField.parser]
    rw [Filling.taken_slot rfl rfl]
    simp only [filling, put, Keyword.spelling, ← bind_pure_comp, bind_assoc, pure_bind]
  case h_4 =>
    refine congrFun (congrFun (if_congr Iff.rfl rfl (bind_congr fun _ => ?_)) scope) s
    rw [StoreField.truthParser]
    simp only [bind_assoc]
    refine bind_congr fun value => ?_
    generalize value.kind = kind
    split <;> simp_all
  case h_6 =>
    refine congrFun (congrFun (if_congr Iff.rfl rfl (bind_congr fun _ => ?_)) scope) s
    refine bind_congr fun list => ?_
    cases list <;> rfl

def toBlock (fields : StoreFields) (span : Span) : StoreBlock where
  state := fields.state
  getters := fields.getters.getD []
  actions := fields.actions
  persist := fields.persist
  storageKey := fields.storageKey
  plugins := fields.plugins
  span := span

theorem noEnd (kind next : TokenKind) (ends : Filling.EndsBlock kind) :
    reader.field? kind next = none := by
  rcases ends with rfl | rfl <;> rfl

theorem turns : filling.Turns (entryRound reader.add) (Parser.entry reader.entry) some
    Filling.EndsBlock :=
  EntryReader.turns_entryRound noEnd fun _ _ => add_eq _ ▸ moving_add _

end StoreFields

theorem StoreBlock.parser_eq :
    StoreBlock.parser = StoreFields.reader.block .store StoreFields.toBlock := by
  rw [StoreBlock.parser, EntryReader.block, ← funext StoreFields.add_eq]
  rfl

theorem StoreBlock.yields_parser {scope : Scope} {s : ParserState} :
    Yields parser scope s fun block t =>
      EntryReader.OpensBlock scope s .store ∧ ∃ parts u fields,
        Parts scope (Parser.entry StoreFields.reader.entry) (s.ahead 2) parts u ∧
        (scope.stream.get u.cursor).kind = .symbol .closeBrace ∧ t = u.ahead 1 ∧
        StoreFields.filling.Fills (Filling.entries some parts) fields ∧
        block = fields.toBlock block.span := by
  rw [parser_eq]
  refine (EntryReader.yields_block StoreFields.turns).mono ?_
  rintro _ t ⟨opens, parts, u, span, read, closes, rfl, distinct, rfl⟩
  exact ⟨opens, parts, u, _, read, closes, rfl, distinct.fills, rfl⟩

theorem StoreBlock.parser_error {scope : Scope} {s t u : ParserState}
    {fields : List (Parser.Part StoreField)} {err : ParseError} {word : Keyword}
    (opens : EntryReader.OpensBlock scope s .store)
    (read : Parts scope (Parser.entry StoreFields.reader.entry) (s.ahead 2) fields t)
    (distinct : StoreFields.filling.Distinct (Filling.entries some fields))
    (here : StoreFields.reader.fieldAt? scope t = some word)
    (failed : StoreFields.reader.add (StoreFields.filling.fill (Filling.entries some fields))
      scope t = .error err u) : parser scope s = .error err u := by
  rw [parser_eq]
  exact EntryReader.block_error StoreFields.turns StoreFields.noEnd opens read distinct here failed

end PulseSyntax
