import PulseSyntax.Proofs.Block.Fields
import PulseSyntax.Proofs.Program.Course

namespace PulseSyntax

open PulseSyntax.Parser

/-- A declaration of a component file. -/
inductive Declaration where
  | import_ (import_ : Import)
  | page (page : PageDecl)
  | route (route : RouteDecl)
  | props (block : PropertyBlock)
  | state (block : PropertyBlock)
  | view (block : ViewBlock)
  | actions (block : ActionsBlock)
  | style (block : StyleBlock)
  | router (block : RouterBlock)
  | store (block : StoreBlock)

namespace Declaration

def word : Declaration → Keyword
  | import_ _ => .import_
  | page _ => .page
  | route _ => .route
  | props _ => .props
  | state _ => .state
  | view _ => .view
  | actions _ => .actions
  | style _ => .style
  | router _ => .router
  | store _ => .store

def ofKinds? : TokenKind → TokenKind → Option Keyword
  | .keyword .import_, _ => some .import_
  | .symbol .atSign, .keyword .page => some .page
  | .symbol .atSign, .keyword .route => some .route
  | .keyword .props, _ => some .props
  | .keyword .state, _ => some .state
  | .keyword .view, _ => some .view
  | .keyword .actions, _ => some .actions
  | .keyword .style, _ => some .style
  | .keyword .router, _ => some .router
  | .keyword .store, _ => some .store
  | _, _ => none

/-- The declaration as it is called in errors. -/
def name : Keyword → String
  | .page => "@page"
  | .route => "@route"
  | word => word.spelling

def parser : Keyword → Parser Declaration
  | .import_ => import_ <$> Import.parser
  | .page => page <$> PageDecl.parser
  | .route => route <$> RouteDecl.parser
  | .props => props <$> PropertyBlock.parser .props
  | .state => state <$> PropertyBlock.parser .state
  | .view => view <$> ViewBlock.parser
  | .actions => actions <$> ActionsBlock.parser
  | .style => style <$> StyleBlock.parser
  | .router => router <$> RouterBlock.parser
  | .store => store <$> StoreBlock.parser
  | _ => Declarations.failUnknown

end Declaration

namespace Declarations

def held (d : Declarations) : Keyword → List Declaration
  | .import_ => d.imports.map .import_
  | .page => (d.page.map .page).toList
  | .route => (d.route.map .route).toList
  | .props => (d.props.map .props).toList
  | .state => (d.state.map .state).toList
  | .view => (d.view.map .view).toList
  | .actions => (d.actions.map .actions).toList
  | .style => (d.style.map .style).toList
  | .router => (d.router.map .router).toList
  | .store => (d.store.map .store).toList
  | _ => []

def put (d : Declarations) : Declaration → Declarations
  | .import_ read => { d with imports := d.imports ++ [read] }
  | .page read => { d with page := some read }
  | .route read => { d with route := some read }
  | .props block => { d with props := some block }
  | .state block => { d with state := some block }
  | .view block => { d with view := some block }
  | .actions block => { d with actions := some block }
  | .style block => { d with style := some block }
  | .router block => { d with router := some block }
  | .store block => { d with store := some block }

def filling : Filling Declarations Declaration Keyword where
  empty := empty
  field := Declaration.word
  held := held
  put := put
  isList word := word == .import_
  held_empty word := by cases word <;> rfl
  held_put d e key free := by
    cases e <;> cases key <;> simp_all [held, put, Declaration.word]

def reader : EntryReader filling where
  field? := Declaration.ofKinds?
  reader := Declaration.parser
  repeated word := .duplicateDeclaration (Declaration.name word)
  unknown := failUnknown
  field_of_reader {word scope s e t} ok := by
    cases word <;> simp only [Declaration.parser, map_eq_ok, failUnknown_ne_ok] at ok
    all_goals
      obtain ⟨_, _, rfl⟩ := ok
      rfl
  repeated_kind _ := rfl
  unknown_ne_ok := failUnknown_ne_ok

section

variable {scope : Scope} {s : ParserState}

theorem add_semicolon (d : Declarations)
    (semicolon : (scope.stream.get s.cursor).kind = .symbol .semicolon) :
    d.add scope s = .ok d (s.ahead 1) := by
  have read : advance scope s = .ok _ (s.ahead 1) := advance_apply (by simp [semicolon])
  rw [add, bind_of_ok current_apply, semicolon]
  change (advance >>= fun _ => pure d) scope s = _
  rw [bind_of_ok read, pure_apply]

theorem once_bind {α β : Type} (seen : Option α) (name : String) (p : Parser α)
    (f : Option α → β) :
    (once seen name p >>= fun a => pure (f a)) =
      if seen.isSome then Parser.fail (.duplicateDeclaration name)
      else p >>= fun a => pure (f (some a)) := by
  unfold once
  split
  · rfl
  · rw [← bind_pure_comp, bind_assoc]
    rfl

theorem add_eq (d : Declarations)
    (other : (scope.stream.get s.cursor).kind ≠ .symbol .semicolon) :
    d.add scope s = reader.add d scope s := by
  rw [add, EntryReader.add, bind_of_ok current_apply, bind_of_ok current_apply,
    bind_of_ok peek_apply]
  simp only [reader, once_bind]
  generalize (scope.stream.get s.cursor).kind = kind at other ⊢
  split
  case h_1 =>
    have many : filling.taken d .import_ = false := rfl
    simp only [Declaration.ofKinds?, Declaration.parser, many]
    simp [filling, put, ← bind_pure_comp]
  case h_2 =>
    rw [bind_of_ok peek_apply]
    generalize (scope.stream.get (s.cursor + 1)).kind = next
    split
    case h_3 =>
      have none : Declaration.ofKinds? (.symbol .atSign) next = none := by
        unfold Declaration.ofKinds?
        split <;> simp_all
      simp only [none]
    all_goals
      simp only [Declaration.ofKinds?, Declaration.parser]
      rw [Filling.taken_slot rfl rfl]
      simp only [filling, put, Declaration.name, ← bind_pure_comp, bind_assoc, pure_bind]
  case h_10 => exact absurd rfl other
  case h_11 =>
    have none : Declaration.ofKinds? kind (scope.stream.get (s.cursor + 1)).kind = none := by
      unfold Declaration.ofKinds?
      split <;> simp_all
    simp only [none]
  all_goals
    simp only [Declaration.ofKinds?, Declaration.parser]
    rw [Filling.taken_slot rfl rfl]
    simp only [filling, put, Declaration.name, Keyword.spelling, ← bind_pure_comp, bind_assoc,
      pure_bind]

end

end Declarations

/-- A declaration, or a semicolon between declarations. -/
def Declaration.part : Parser (Option Declaration) := do
  if (← current).kind = .symbol .semicolon then
    let _ ← advance
    return none
  else some <$> Declarations.reader.entry

namespace Declaration

variable {scope : Scope} {s t : ParserState} {read : Option Declaration}

theorem part_semicolon (semicolon : (scope.stream.get s.cursor).kind = .symbol .semicolon) :
    part scope s = .ok none (s.ahead 1) := by
  have passed : advance scope s = .ok _ (s.ahead 1) := advance_apply (by simp [semicolon])
  rw [part, bind_of_ok current_apply, if_pos semicolon, bind_of_ok passed, pure_apply]

theorem part_eq (other : (scope.stream.get s.cursor).kind ≠ .symbol .semicolon) :
    part scope s = (some <$> Declarations.reader.entry) scope s := by
  rw [part, bind_of_ok current_apply, if_neg other]

end Declaration

namespace Declarations

variable {scope : Scope} {s t : ParserState}

theorem round_apply (d : Declarations) :
    round d scope s =
      if (scope.stream.get s.cursor).kind = .endOfFile then .ok (.done d) s
      else (d.add >>= fun d => pure (.yield d)) scope s := by
  rw [round, bind_of_ok is_apply]
  simp only [beq_iff_eq]
  exact apply_ite (fun p : Parser (ForInStep Declarations) => p scope s) _ _ _

theorem reader_start {word : Keyword} (here : reader.fieldAt? scope s = some word) :
    (scope.stream.get s.cursor).kind ≠ .endOfFile ∧
      (scope.stream.get s.cursor).kind ≠ .symbol .semicolon := by
  rw [EntryReader.fieldAt?] at here
  constructor <;> intro same <;> rw [same] at here <;> cases here

theorem turns : filling.Turns round Declaration.part id (· = .endOfFile) where
  yield_iff {scope d b s t} := by
    by_cases semicolon : (scope.stream.get s.cursor).kind = .symbol .semicolon
    · rw [round_apply, if_neg (by simp [semicolon]), Declaration.part_semicolon semicolon,
        bind_of_ok (add_semicolon d semicolon)]
      simp only [pure_apply, Reply.ok.injEq, ForInStep.yield.injEq]
      constructor
      · rintro ⟨rfl, rfl⟩
        exact ⟨none, ⟨rfl, rfl⟩, nofun, rfl⟩
      · rintro ⟨_, ⟨rfl, rfl⟩, -, rfl⟩
        exact ⟨rfl, rfl⟩
    · rw [round_apply, Declaration.part_eq semicolon]
      constructor
      · split
        · exact nofun
        · intro ok
          obtain ⟨next, u, added, last⟩ := bind_eq_ok.mp ok
          cases last
          rw [add_eq d semicolon] at added
          obtain ⟨e, read, free, rfl⟩ := EntryReader.add_eq_ok.mp added
          exact ⟨some e, map_eq_ok.mpr ⟨e, read, rfl⟩, by rintro _ ⟨⟩; exact free, rfl⟩
      · rintro ⟨_, ok, free, rfl⟩
        obtain ⟨e, read, rfl⟩ := map_eq_ok.mp ok
        obtain ⟨word, here, -⟩ := EntryReader.entry_eq_ok.mp read
        have added := EntryReader.add_eq_ok.mpr ⟨e, read, free e rfl, rfl⟩
        rw [← add_eq d semicolon] at added
        rw [if_neg (reader_start here).1, bind_of_ok added]
        rfl
  done {scope d b s t} ok := by
    rw [round_apply] at ok
    split at ok
    · next atEnd =>
      cases ok
      exact ⟨rfl, rfl, atEnd⟩
    · obtain ⟨_, _, -, last⟩ := bind_eq_ok.mp ok
      cases last
  advances {scope s v t} ok := by
    by_cases semicolon : (scope.stream.get s.cursor).kind = .symbol .semicolon
    · rw [Declaration.part_semicolon semicolon] at ok
      cases ok
      exact ⟨.ahead_one (by simp [semicolon]), Nat.lt_succ_self _⟩
    · rw [Declaration.part_eq semicolon] at ok
      obtain ⟨e, read, -⟩ := map_eq_ok.mp ok
      have added := EntryReader.add_eq_ok.mpr ⟨e, read, Filling.taken_empty, rfl⟩
      rw [← add_eq _ semicolon] at added
      exact Course.reaches_of_moving (fun c none => moving_add (fun fits => absurd fits none) _) added

end Declarations

section

variable {scope : Scope} {s t u : ParserState} {parts : List (Parser.Part (Option Declaration))}
  {err : ParseError} {word : Keyword}

theorem Program.yields_parser : Yields Program.parser scope s fun program t =>
    (scope.stream.get t.cursor).kind = .endOfFile ∧
      ∃ parts, Parts scope Declaration.part s parts t ∧
        Declarations.filling.Distinct (Filling.entries id parts) ∧
        program.toDeclarations = Declarations.filling.fill (Filling.entries id parts) := by
  simp only [parser_eq, yields_bind, yields_current, yields_pure]
  exact Declarations.turns.yields_loop

theorem Program.parser_error (read : Parts scope Declaration.part s parts t)
    (distinct : Declarations.filling.Distinct (Filling.entries id parts))
    (here : Declarations.reader.fieldAt? scope t = some word)
    (failed : Declarations.reader.add (Declarations.filling.fill (Filling.entries id parts)) scope t =
      .error err u) : Program.parser scope s = .error err u := by
  obtain ⟨inside, other⟩ := Declarations.reader_start here
  rw [← Declarations.add_eq _ other] at failed
  have last : Declarations.round (Declarations.filling.fill (Filling.entries id parts)) scope t = _ :=
    Declarations.round_apply _
  rw [if_neg inside, bind_apply, failed] at last
  have all := Declarations.turns.loop_error read distinct last
  change loop Declarations.round .empty scope s = _ at all
  rw [parser_eq, bind_of_ok current_apply, bind_apply, all]

theorem TokenStream.takeWhile_ofList (tokens : List Token) :
    (ofList tokens).toList.takeWhile (·.kind != .endOfFile) =
      tokens.takeWhile (·.kind != .endOfFile) := by
  unfold ofList
  split
  · next none =>
    rw [List.getLast?_eq_none_iff.mp none]
    rfl
  · next last ends =>
    split
    · rfl
    · simp only [ofEnded, toList, endAfter, List.toList_toArray, List.takeWhile_append]
      split
      · next whole =>
        have same := (List.takeWhile_prefix fun t : Token =>
          t.kind != .endOfFile).sublist.eq_of_length whole
        simp [same]
      · rfl

/-- A token at which something is declared that may be declared once and has been, while all before
    it is read: a declaration, a field of a router or a store, or a route. -/
inductive Redeclared (scope : Scope) : ParserState → Prop
  | declaration {parts : List (Parser.Part (Option Declaration))} {s : ParserState} {word : Keyword}
      (before : Parts scope Declaration.part .initial parts s)
      (again : Declarations.reader.Again scope (Filling.entries id parts) s word) :
      Redeclared scope s
  | routerField {parts : List (Parser.Part (Option Declaration))} {fields : List (Parser.Part RouterField)}
      {s t : ParserState} {word : Keyword}
      (before : Parts scope Declaration.part .initial parts s)
      (first : Declarations.reader.First scope (Filling.entries id parts) s .router)
      (opens : EntryReader.OpensBlock scope s .router)
      (inside : Parts scope (Parser.entry RouterFields.reader.entry) (s.ahead 2) fields t)
      (again : RouterFields.reader.Again scope (Filling.entries some fields) t word) :
      Redeclared scope t
  | storeField {parts : List (Parser.Part (Option Declaration))} {fields : List (Parser.Part StoreField)}
      {s t : ParserState} {word : Keyword}
      (before : Parts scope Declaration.part .initial parts s)
      (first : Declarations.reader.First scope (Filling.entries id parts) s .store)
      (opens : EntryReader.OpensBlock scope s .store)
      (inside : Parts scope (Parser.entry StoreFields.reader.entry) (s.ahead 2) fields t)
      (again : StoreFields.reader.Again scope (Filling.entries some fields) t word) :
      Redeclared scope t
  | route {parts : List (Parser.Part (Option Declaration))} {fields : List (Parser.Part RouterField)}
      {routes : List (Parser.Part Route)} {s t u v : ParserState}
      (before : Parts scope Declaration.part .initial parts s)
      (first : Declarations.reader.First scope (Filling.entries id parts) s .router)
      (opens : EntryReader.OpensBlock scope s .router)
      (inside : Parts scope (Parser.entry RouterFields.reader.entry) (s.ahead 2) fields t)
      (firstList : RouterFields.reader.First scope (Filling.entries some fields) t .routes)
      (opensList : Route.OpensList scope t u)
      (among : Parts scope (Parser.entry Route.reader) u routes v)
      (distinct : Route.filling.Distinct (Filling.entries some routes))
      (string : (scope.stream.get v.cursor).kind = .string)
      (again : ∃ route ∈ Filling.entries some routes,
        route.path = (scope.stream.get v.cursor).text) :
      Redeclared scope v

theorem Program.parser_error_of_block {α : Type} {p : Parser α} {f : α → Declaration}
    (read : Parts scope Declaration.part .initial parts s)
    (first : Declarations.reader.First scope (Filling.entries id parts) s word)
    (same : Declaration.parser word = f <$> p) (failed : p scope s = .error err t) :
    Program.parser scope .initial = .error err t := by
  refine Program.parser_error read first.before first.here (first.add ?_)
  change Declaration.parser word scope s = _
  rw [same, Parser.map_error failed]

theorem Redeclared.parser_error (h : Redeclared scope s) :
    ∃ e t, Program.parser scope .initial = .error e t ∧ e.cause.kind = .duplicateBlock ∧
      e.place = (scope.stream.get s.cursor).place := by
  cases h with
  | declaration before again =>
    exact ⟨_, _, Program.parser_error before again.before again.here again.add,
      Declarations.reader.repeated_kind _, rfl⟩
  | routerField before first opens inside again =>
    have block := RouterBlock.parser_error opens inside again.before again.here again.add
    exact ⟨_, _, Program.parser_error_of_block before first rfl block,
      RouterFields.reader.repeated_kind _, rfl⟩
  | storeField before first opens inside again =>
    have block := StoreBlock.parser_error opens inside again.before again.here again.add
    exact ⟨_, _, Program.parser_error_of_block before first rfl block,
      StoreFields.reader.repeated_kind _, rfl⟩
  | route before first opens inside firstList opensList among distinct string again =>
    have list := Route.listParser_error opensList among distinct string again
    have field : RouterFields.reader.reader .routes scope _ = .error _ _ := Parser.map_error list
    have block := RouterBlock.parser_error opens inside firstList.before firstList.here
      (firstList.add field)
    exact ⟨_, _, Program.parser_error_of_block before first rfl block, rfl, rfl⟩

theorem Declaration.own_of_none {part : Parser.Part (Option Declaration)}
    (read : Parts scope Declaration.part s parts t) (member : part ∈ parts)
    (none : part.value = none) :
    ∃ semicolon, part.own = [semicolon] ∧ semicolon.kind = .symbol .semicolon := by
  obtain ⟨u, ok, rest, tokens⟩ := read.read_of_mem member
  by_cases semicolon : (scope.stream.get u.cursor).kind = .symbol .semicolon
  · rw [part_semicolon semicolon, Reply.ok.injEq] at ok
    have single : part.own.length = 1 := by
      simpa [ParserState.past] using congrArg ParserState.cursor ok.2.symm
    obtain ⟨t, own⟩ := List.length_eq_one_iff.mp single
    rw [own] at tokens
    exact ⟨t, own, Scope.get_of_remaining tokens ▸ semicolon⟩
  · rw [part_eq semicolon, none] at ok
    obtain ⟨_, -, some⟩ := map_eq_ok.mp ok
    cases some

end

/-- Nothing that a file declares is overwritten or dropped. The tokens up to the end of the file are
    those of semicolons and declarations, each declaration is in the slot of its own, and all slots
    but that of the imports hold one at most; so do the fields of a router and of a store, and no two
    routes of a router have the same path. What is declared once more fails where it stands. -/
theorem Program.parser_fills (tokens : List Token) (options : Options) :
    let scope : Scope := ⟨.ofList tokens, options, none⟩
    (∀ program t, parser scope .initial = .ok program t →
      ∃ parts, Parts scope Declaration.part .initial parts t ∧
        tokens.takeWhile (·.kind != .endOfFile) = parts.flatMap Parser.Part.own ∧
        (∀ part ∈ parts, part.value = none →
          ∃ semicolon, part.own = [semicolon] ∧ semicolon.kind = .symbol .semicolon) ∧
        Declarations.filling.Fills (Filling.entries id parts) program.toDeclarations) ∧
    (∀ s block t, RouterBlock.parser scope s = .ok block t →
      ∃ parts u fields, Parts scope (Parser.entry RouterFields.reader.entry) (s.ahead 2) parts u ∧
        (scope.stream.get u.cursor).kind = .symbol .closeBrace ∧ t = u.ahead 1 ∧
        RouterFields.filling.Fills (Filling.entries some parts) fields ∧
        block = fields.toBlock block.span ∧ (block.routes.map Route.path).Nodup) ∧
    (∀ s routes t, Route.listParser scope s = .ok routes t →
      ∃ first parts u, Route.OpensList scope s first ∧
        Parts scope (Parser.entry Route.reader) first parts u ∧
        (scope.stream.get u.cursor).kind = .symbol .closeBrace ∧ t = u.ahead 1 ∧
        routes = parts.map Parser.Part.value) ∧
    (∀ s block t, StoreBlock.parser scope s = .ok block t →
      ∃ parts u fields, Parts scope (Parser.entry StoreFields.reader.entry) (s.ahead 2) parts u ∧
        (scope.stream.get u.cursor).kind = .symbol .closeBrace ∧ t = u.ahead 1 ∧
        StoreFields.filling.Fills (Filling.entries some parts) fields ∧
        block = fields.toBlock block.span) ∧
    ∀ s, Redeclared scope s → ∃ e t, parser scope .initial = .error e t ∧
      e.cause.kind = .duplicateBlock ∧ e.place = (scope.stream.get s.cursor).place := by
  intro scope
  refine ⟨fun program t ok => ?_, fun s block t ok => ?_, fun s routes t ok => ?_,
    fun s block t ok => ?_, fun s => Redeclared.parser_error⟩
  · obtain ⟨atEnd, parts, read, distinct, declares⟩ := Program.yields_parser ok
    refine ⟨parts, read, ?_, fun part => Declaration.own_of_none read, declares ▸ distinct.fills⟩
    have whole := read.takeWhile atEnd
    rw [← whole, ← TokenStream.takeWhile_ofList, Scope.remaining, TokenStream.tokensFrom_eq]
    rfl
  · exact (RouterBlock.yields_parser ok).2
  · obtain ⟨first, parts, u, opens, read, closes, last, same, -⟩ := Route.yields_listParser ok
    exact ⟨first, parts, u, opens, read, closes, last, same⟩
  · exact (StoreBlock.yields_parser ok).2

def twoPages : List Token :=
  [⟨.symbol .atSign, .none, "@", ⟨1, 1, ⟨0, 1⟩⟩⟩, ⟨.keyword .page, .none, "page", ⟨1, 2, ⟨1, 5⟩⟩⟩,
    ⟨.identifier, .text "A", "A", ⟨1, 7, ⟨6, 7⟩⟩⟩, ⟨.symbol .atSign, .none, "@", ⟨1, 9, ⟨8, 9⟩⟩⟩,
    ⟨.keyword .page, .none, "page", ⟨1, 10, ⟨9, 13⟩⟩⟩, ⟨.identifier, .text "B", "B", ⟨1, 15, ⟨14, 15⟩⟩⟩]

/-- The second page fails at its at sign. -/
theorem Program.parser_fills_twoPages :
    ∃ e t, Program.parser ⟨.ofList twoPages, .standard, none⟩ .initial = .error e t ∧
      e.cause.kind = .duplicateBlock ∧ e.place = ⟨1, 9, ⟨8, 9⟩⟩ := by
  have before : Parts ⟨.ofList twoPages, .standard, none⟩ Declaration.part .initial
      [⟨twoPages.take 3, some (.page ⟨"A", ⟨0, 7⟩⟩)⟩] ⟨3, 0⟩ :=
    .cons (by decide) (by decide) rfl rfl (.nil _)
  exact (Program.parser_fills twoPages .standard).2.2.2.2 _
    (.declaration before ⟨List.pairwise_singleton _ _, rfl, rfl, _, List.mem_singleton_self _, rfl⟩)

end PulseSyntax
