import PulseSyntax.Proofs.Program.Balance
import PulseSyntax.Proofs.Program.Slots
import PulseSyntax.Proofs.Program.Unplaced

namespace PulseSyntax

open PulseSyntax.Parser PulseSyntax.Course

namespace Import

def bareSource (start : Span) (specifiers : List ImportSpecifier) : Parser Import := do
  let _ ← expectKeyword .from_
  let source ← expect .string
  return ⟨specifiers, source.text, start.cover source.span⟩

def bare : Parser Import := do
  let start := (← expectKeyword .import_).span
  if ← is .string then
    let source ← advance
    return ⟨[], source.text, start.cover source.span⟩
  else if ← is .identifier then
    let name ← advance
    let first : ImportSpecifier := ⟨.default, "default", name.text, name.span⟩
    if ← eatSymbol .comma then bareSource start (first :: (← bindingsParser))
    else bareSource start [first]
  else bareSource start (← bindingsParser)

theorem sourceParser_eq (start : Span) (specifiers : List ImportSpecifier) :
    sourceParser start specifiers =
      bareSource start specifiers >>= fun i => eatSymbol .semicolon >>= fun _ => pure i := by
  simp only [sourceParser, bareSource, bind_assoc, pure_bind]

theorem parser_eq :
    parser = bare >>= fun i => eatSymbol .semicolon >>= fun _ => pure i := by
  have split {c : Bool} {p q : Parser Import} {f : Import → Parser Import} :
      (if c then p else q) >>= f = if c then p >>= f else q >>= f := by
    cases c <;> rfl
  simp only [parser, bare, sourceParser_eq, bind_assoc, pure_bind, split]

theorem starting_bare {c : Course} : c.Starting bare := by
  have source (start : Span) (specifiers : List ImportSpecifier) :
      c.Steady (bareSource start specifiers) :=
    (starting_expectKeyword _).steady.bind fun _ => (starting_expect (by simp)).steady.bind
      fun _ => steady_pure _
  refine (starting_expectKeyword _).bind fun _ => (steady_is _).bind fun _ => .ite ?_
    ((steady_is _).bind fun _ => .ite ?_ (steady_bindingsParser.bind fun _ => source _ _))
  · exact steady_advance.bind fun _ => steady_pure _
  · refine steady_advance.bind fun _ => (steady_eatSymbol _).bind fun _ => .ite ?_ (source _ _)
    exact steady_bindingsParser.bind fun _ => source _ _

end Import

namespace Declaration

def bare : Keyword → Parser Declaration
  | .import_ => import_ <$> Import.bare
  | word => parser word

end Declaration

/-- From one state to another stand these declarations, with semicolons between them. -/
inductive Declared (scope : Scope) : ParserState → List Declaration → ParserState → Prop
  | nil (s : ParserState) : Declared scope s [] s
  | semicolon {s t : ParserState} {es : List Declaration}
      (kind : (scope.stream.get s.cursor).kind = .symbol .semicolon)
      (more : Declared scope (s.ahead 1) es t) : Declared scope s es t
  | declaration {s t u : ParserState} {word : Keyword} {e : Declaration} {es : List Declaration}
      (here : Declarations.reader.fieldAt? scope s = some word)
      (read : Declaration.bare word scope s = .ok e t) (more : Declared scope t es u) :
      Declared scope s (e :: es) u

namespace Declared

variable {scope : Scope} {s t u : ParserState} {es es' : List Declaration} {e : Declaration}
variable {word : Keyword} {parts : List (Parser.Part (Option Declaration))}

theorem trans (h : Declared scope s es t) (h' : Declared scope t es' u) :
    Declared scope s (es ++ es') u := by
  induction h with
  | nil => exact h'
  | semicolon kind _ ih => exact .semicolon kind (ih h')
  | declaration here read _ ih => exact .declaration here read (ih h')

theorem parser_eq_ok : Declaration.parser word scope s = .ok e t ↔
    ∃ u, Declaration.bare word scope s = .ok e u ∧
      t = if word = .import_ ∧ (scope.stream.get u.cursor).kind = .symbol .semicolon then u.ahead 1
        else u := by
  by_cases import_ : word = .import_
  · subst import_
    have parts : Declaration.parser .import_ = Declaration.bare .import_ >>= fun e =>
        eatSymbol .semicolon >>= fun _ => pure e := by
      rw [Declaration.parser, Declaration.bare, Import.parser_eq]
      simp only [← bind_pure_comp, bind_assoc, pure_bind]
    have eats (u : ParserState) (e : Declaration) :
        (eatSymbol .semicolon >>= fun _ => pure e) scope u =
          .ok e (if (scope.stream.get u.cursor).kind = .symbol .semicolon then u.ahead 1 else u) := by
      rw [bind_apply, eatSymbol, eat_apply (by simp)]
      by_cases kind : (scope.stream.get u.cursor).kind = .symbol .semicolon
      · simp only [kind, ↓reduceIte]
        rfl
      · simp only [kind, ↓reduceIte]
        rfl
    rw [parts, bind_eq_ok]
    simp only [eats, Reply.ok.injEq, true_and]
    constructor
    · rintro ⟨e, u, read, rfl, rfl⟩
      exact ⟨u, read, rfl⟩
    · rintro ⟨u, read, rfl⟩
      exact ⟨e, u, read, rfl, rfl⟩
  · have same : Declaration.bare word = Declaration.parser word := Declaration.bare.eq_2 word import_
    simp [import_, same]

theorem reaches_of_bare (here : Declarations.reader.fieldAt? scope s = some word)
    (read : Declaration.bare word scope s = .ok e t) :
    s.Reaches scope t ∧ s.cursor < t.cursor := by
  by_cases import_ : word = .import_
  · subst import_
    obtain ⟨i, parsed, -⟩ := map_eq_ok.mp read
    exact reaches_of_moving (fun _ _ => Import.starting_bare.moving) parsed
  · have part : Declaration.part scope s = .ok (some e) t := by
      have parsed := parser_eq_ok.mpr ⟨t, read, rfl⟩
      rw [if_neg fun eaten => import_ eaten.1] at parsed
      rw [Declaration.part_eq (Declarations.reader_start here).2]
      exact map_eq_ok.mpr ⟨e, EntryReader.entry_eq_ok.mpr ⟨word, here, parsed⟩, rfl⟩
    exact Declarations.turns.advances part

theorem reaches (h : Declared scope s es t) : s.Reaches scope t := by
  induction h with
  | nil => exact .refl _ _
  | semicolon kind _ ih => exact (ParserState.Reaches.ahead_one (by simp [kind])).trans ih
  | declaration here read _ ih => exact (reaches_of_bare here read).1.trans ih

theorem le (h : Declared scope s es t) : s.cursor ≤ t.cursor := h.reaches.cursor

theorem of_part (here : (scope.stream.get s.cursor).kind ≠ .symbol .semicolon)
    {read : Option Declaration} (ok : Declaration.part scope s = .ok read t) :
    ∃ e word, read = some e ∧ Declarations.reader.fieldAt? scope s = some word ∧
      Declaration.parser word scope s = .ok e t := by
  rw [Declaration.part_eq here] at ok
  obtain ⟨e, entry, rfl⟩ := map_eq_ok.mp ok
  obtain ⟨word, field, parsed⟩ := EntryReader.entry_eq_ok.mp entry
  exact ⟨e, word, rfl, field, parsed⟩

theorem of_parts (h : Parts scope Declaration.part s parts t) :
    Declared scope s (Filling.entries id parts) t := by
  induction h with
  | nil s => exact .nil s
  | @cons s t own rest read parts nonempty inside tokens ok more ih =>
    by_cases semicolon : (scope.stream.get s.cursor).kind = .symbol .semicolon
    · rw [Declaration.part_semicolon semicolon] at ok
      obtain ⟨rfl, same⟩ := Reply.ok.inj ok
      rw [← same] at ih
      exact .semicolon semicolon ih
    · obtain ⟨e, word, rfl, here, ok⟩ := of_part semicolon ok
      obtain ⟨u, bare, past⟩ := parser_eq_ok.mp ok
      rw [past] at ih
      refine .declaration here bare ?_
      split at ih
      · next eaten => exact .semicolon eaten.2 ih
      · exact ih

theorem parts_of_semicolon (kind : (scope.stream.get s.cursor).kind = .symbol .semicolon)
    (h : Parts scope Declaration.part (s.ahead 1) parts t) :
    ∃ own, Parts scope Declaration.part s (⟨own, none⟩ :: parts) t := by
  obtain ⟨own, part⟩ := Parts.single (Declaration.part_semicolon kind)
    (.ahead_one (by simp [kind])) (Nat.lt_succ_self _)
  exact ⟨own, part.append h⟩

theorem exists_parts (h : Declared scope s es t)
    (atEnd : (scope.stream.get t.cursor).kind = .endOfFile) :
    ∃ parts, Parts scope Declaration.part s parts t ∧ Filling.entries id parts = es := by
  induction h with
  | nil s => exact ⟨[], .nil s, rfl⟩
  | semicolon kind _ ih =>
    obtain ⟨parts, read, rfl⟩ := ih atEnd
    obtain ⟨own, read⟩ := parts_of_semicolon kind read
    exact ⟨_, read, rfl⟩
  | @declaration s t u word e es here read more ih =>
    obtain ⟨parts, rest, rfl⟩ := ih atEnd
    obtain ⟨v, parts', same, following, ok⟩ : ∃ v parts',
        Filling.entries id parts' = Filling.entries id parts ∧
        Parts scope Declaration.part v parts' u ∧ Declaration.parser word scope s = .ok e v := by
      by_cases eaten : word = .import_ ∧ (scope.stream.get t.cursor).kind = .symbol .semicolon
      · -- The semicolon is the first part that is read after the declaration.
        cases rest with
        | nil =>
          rw [eaten.2] at atEnd
          cases atEnd
        | @cons _ _ own _ _ parts nonempty inside tokens ok following =>
          rw [Declaration.part_semicolon eaten.2] at ok
          obtain ⟨rfl, same⟩ := Reply.ok.inj ok
          rw [← same] at following
          exact ⟨_, parts, rfl, following, parser_eq_ok.mpr ⟨t, read, (if_pos eaten).symm⟩⟩
      · exact ⟨t, parts, rfl, rest, parser_eq_ok.mpr ⟨t, read, (if_neg eaten).symm⟩⟩
    have part : Declaration.part scope s = .ok (some e) v := by
      rw [Declaration.part_eq (Declarations.reader_start here).2]
      exact map_eq_ok.mpr ⟨e, EntryReader.entry_eq_ok.mpr ⟨word, here, ok⟩, rfl⟩
    obtain ⟨reaches, progress⟩ := Declarations.turns.advances part
    obtain ⟨own, first⟩ := Parts.single part reaches progress
    exact ⟨_, first.append following, by rw [← same]; rfl⟩

end Declared

section

variable {scope : Scope} {s t : ParserState} {es es' : List Declaration}

theorem Declared.parser_ok (h : Declared scope s es t)
    (atEnd : (scope.stream.get t.cursor).kind = .endOfFile)
    (distinct : Declarations.filling.Distinct es) :
    ∃ program, Program.parser scope s = .ok program t ∧
      program.toDeclarations = Declarations.filling.fill es := by
  obtain ⟨parts, read, rfl⟩ := h.exists_parts atEnd
  have last : Declarations.round (Declarations.filling.fill (Filling.entries id parts)) scope t =
      .ok (.done (Declarations.filling.fill (Filling.entries id parts))) t := by
    rw [Declarations.round_apply, if_pos atEnd]
  have all := (Declarations.turns.rounds read distinct).loop last
  change loop Declarations.round .empty scope s = _ at all
  rw [Program.parser_eq, bind_of_ok current_apply, bind_of_ok all, bind_of_ok current_apply]
  exact ⟨_, rfl, rfl⟩

theorem Declared.of_program {program : Program} (ok : Program.parser scope s = .ok program t) :
    (scope.stream.get t.cursor).kind = .endOfFile ∧ ∃ es, Declared scope s es t ∧
      Declarations.filling.Distinct es ∧ program.toDeclarations = Declarations.filling.fill es := by
  obtain ⟨atEnd, parts, read, distinct, same⟩ := Program.yields_parser ok
  exact ⟨atEnd, _, .of_parts read, distinct, same⟩

end

theorem Declaration.bare_readsBlock {scope : Scope} (inFile : scope.quotation = none)
    {s t : ParserState} {word : Keyword} {e : Declaration} (opens : word.opensBlock)
    (read : bare word scope s = .ok e t) : ∃ span, scope.ReadsBlock word span s t := by
  have reads {α : Type} {span : α → Span} {fragments : α → List Fragment} {p : Parser α}
      {f : α → Declaration} (block : ReadsBlock scope word span fragments p)
      (read : (f <$> p) scope s = .ok e t) : ∃ span, scope.ReadsBlock word span s t := by
    obtain ⟨x, parsed, -⟩ := map_eq_ok.mp read
    exact ⟨_, (block s parsed).1⟩
  cases word
  case props => exact reads (PropertyBlock.parser_readsBlock .props) read
  case state => exact reads (PropertyBlock.parser_readsBlock .state) read
  case view => exact reads ViewBlock.parser_readsBlock read
  case actions => exact reads (ActionsBlock.parser_readsBlock inFile) read
  case style => exact reads StyleBlock.parser_readsBlock read
  case router => exact reads (RouterBlock.parser_readsBlock inFile) read
  case store => exact reads (StoreBlock.parser_readsBlock inFile) read
  all_goals cases opens

theorem Declaration.bare_last {scope : Scope} (inFile : scope.quotation = none) {s t : ParserState}
    {word : Keyword} {e : Declaration} (read : bare word scope s = .ok e t) :
    (scope.stream.get (t.cursor - 1)).kind ≠ .invalid := by
  have after {kind : TokenKind} {u : ParserState} (real : kind ≠ .endOfFile) (valid : kind ≠ .invalid)
      (found : (scope.stream.get u.cursor).kind = kind) :
      (scope.stream.get ((u.next scope).cursor - 1)).kind ≠ .invalid := by
    rw [ParserState.next_of_kind found real, ParserState.ahead_cursor, Nat.add_sub_cancel, found]
    exact valid
  have ends {α : Type} {p : Parser α} {f : α → Declaration}
      (yields : Yields p scope s fun _ t => (scope.stream.get (t.cursor - 1)).kind ≠ .invalid)
      (read : (f <$> p) scope s = .ok e t) : (scope.stream.get (t.cursor - 1)).kind ≠ .invalid := by
    obtain ⟨x, parsed, -⟩ := map_eq_ok.mp read
    exact yields parsed
  by_cases opens : word.opensBlock
  · obtain ⟨span, j, last, block⟩ := bare_readsBlock inFile opens read
    rw [last, Nat.add_sub_cancel, block.closing]
    simp
  · cases word
    case import_ =>
      have source (start : Span) (specifiers : List ImportSpecifier) (u : ParserState) :
          Yields (Import.bareSource start specifiers) scope u fun _ t =>
            (scope.stream.get (t.cursor - 1)).kind ≠ .invalid := by
        simp only [Import.bareSource, yields_bind, yields_expectKeyword, yields_expect, yields_pure]
        exact fun _ found => after (by simp) (by simp) found
      refine ends ?_ read
      simp only [Import.bare, yields_bind, yields_expectKeyword, yields_is, yields_ite, yields_advance,
        yields_pure, yields_eatSymbol]
      intro _
      refine ⟨fun found => after (by simp) (by simp) (beq_iff_eq.mp found), fun _ => ⟨fun _ => ?_,
        fun _ => fun _ _ _ => source _ _ _⟩⟩
      exact ⟨fun _ => ⟨fun _ _ _ _ => source _ _ _, by simp⟩, fun _ => ⟨by simp, fun _ => source _ _ _⟩⟩
    case page =>
      refine ends ?_ read
      simp only [PageDecl.parser, yields_bind, yields_expectSymbol, yields_expectKeyword,
        yields_expectStringOr, yields_pure]
      exact fun _ _ name => name.elim (after (by simp) (by simp)) (after (by simp) (by simp))
    case route =>
      refine ends ?_ read
      simp only [RouteDecl.parser, yields_bind, yields_expectSymbol, yields_expectKeyword,
        yields_expect, yields_pure]
      exact fun _ _ found => after (by simp) (by simp) found
    case props | state | view | actions | style | router | store => exact absurd rfl opens
    all_goals exact absurd read Declarations.failUnknown_ne_ok

/-- The tokens that may stand first where something is declared. -/
def TokenKind.StartsFile : TokenKind → Prop
  | symbol .semicolon | symbol .atSign | keyword _ => True
  | _ => False

theorem TokenKind.StartsFile.ne_symbol {kind : TokenKind} (h : kind.StartsFile) :
    kind ≠ .symbol .openBrace ∧ kind ≠ .symbol .arrow := by
  constructor <;> rintro rfl <;> exact h

namespace Declared

variable {scope : Scope} {s t : ParserState} {es : List Declaration}

theorem start (h : Declared scope s es t) (some : es ≠ []) :
    (scope.stream.get s.cursor).kind.StartsFile := by
  cases h with
  | nil => exact absurd rfl some
  | semicolon kind => rw [kind]; trivial
  | declaration here =>
    change Declaration.ofKinds? _ _ = _ at here
    unfold Declaration.ofKinds? at here
    split at here
    case h_11 => cases here
    all_goals simp_all [TokenKind.StartsFile]

theorem last (h : Declared scope s es t) (inFile : scope.quotation = none)
    (progress : s.cursor < t.cursor) : (scope.stream.get (t.cursor - 1)).kind ≠ .invalid := by
  induction h with
  | nil => exact absurd progress (Nat.lt_irrefl _)
  | @semicolon s t es kind more ih =>
    rcases Nat.eq_or_lt_of_le more.le with same | less
    · rw [← same, ParserState.ahead_cursor, Nat.add_sub_cancel, kind]
      simp
    · exact ih less
  | @declaration s t u word e es here read more ih =>
    rcases Nat.eq_or_lt_of_le more.le with same | less
    · rw [← same]
      exact Declaration.bare_last inFile read
    · exact ih less

end Declared

namespace Declaration

variable (keep : TokenRange → TokenRange)

/-- The declaration without the places of its parts. -/
def unplaced : Declaration → Declaration
  | import_ i => import_ i.unplaced
  | page d => page d.unplaced
  | route d => route d.unplaced
  | props block => props (block.unplaced keep)
  | state block => state (block.unplaced keep)
  | view block => view (block.unplaced keep)
  | actions block => actions (block.unplaced keep)
  | style block => style block.unplaced
  | router block => router (block.unplaced keep)
  | store block => store (block.unplaced keep)

theorem word_unplaced (e : Declaration) : (e.unplaced keep).word = e.word := by
  cases e <;> rfl

end Declaration

namespace Declarations

variable (keep : TokenRange → TokenRange)

theorem put_unplaced (d : Declarations) (e : Declaration) :
    (filling.put d e).unplaced keep = filling.put (d.unplaced keep) (e.unplaced keep) := by
  cases e <;> simp [filling, put, unplaced, Declaration.unplaced]

theorem fill_unplaced (es : List Declaration) :
    (filling.fill es).unplaced keep = filling.fill (es.map (Declaration.unplaced keep)) := by
  induction es using List.reverseRecOn with
  | nil => rfl
  | append_singleton es e ih =>
    rw [List.map_append, List.map_singleton, Filling.fill_concat, Filling.fill_concat, put_unplaced, ih]

theorem distinct_unplaced {es : List Declaration} :
    filling.Distinct (es.map (Declaration.unplaced keep)) ↔ filling.Distinct es := by
  refine List.pairwise_map.trans (List.Pairwise.iff fun e e' => ?_)
  change ((e.unplaced keep).word = (e'.unplaced keep).word → filling.isList (e.unplaced keep).word) ↔ _
  rw [Declaration.word_unplaced, Declaration.word_unplaced]
  rfl

theorem eq_of_held {d d' : Declarations} (same : ∀ word, filling.held d word = filling.held d' word) :
    d = d' := by
  have slot {α : Type} {f : α → Declaration} (injective : Function.Injective f) {x y : Option α}
      (h : (x.map f).toList = (y.map f).toList) : x = y := by
    cases x <;> cases y <;> simp_all [injective.eq_iff]
  have imports : d.imports = d'.imports :=
    List.map_injective_iff.mpr (fun _ _ => Declaration.import_.inj) (same .import_)
  have page := slot (fun _ _ => Declaration.page.inj) (same .page)
  have route := slot (fun _ _ => Declaration.route.inj) (same .route)
  have props := slot (fun _ _ => Declaration.props.inj) (same .props)
  have state := slot (fun _ _ => Declaration.state.inj) (same .state)
  have view := slot (fun _ _ => Declaration.view.inj) (same .view)
  have actions := slot (fun _ _ => Declaration.actions.inj) (same .actions)
  have style := slot (fun _ _ => Declaration.style.inj) (same .style)
  have router := slot (fun _ _ => Declaration.router.inj) (same .router)
  have store := slot (fun _ _ => Declaration.store.inj) (same .store)
  cases d
  cases d'
  simp_all

theorem fill_perm {es es' : List Declaration} (perm : es.Perm es') (distinct : filling.Distinct es)
    (imports : es.filter (·.word = .import_) = es'.filter (·.word = .import_)) :
    filling.fill es = filling.fill es' := by
  have distinct' : filling.Distinct es' :=
    (perm.pairwise_iff fun {e e'} single same => same ▸ single same.symm).mp distinct
  refine eq_of_held fun word => ?_
  rw [Filling.held_fill distinct, Filling.held_fill distinct']
  by_cases import_ : word = .import_
  · subst import_
    exact imports
  · have perm := perm.filter (filling.field · = word)
    have single : (es.filter (filling.field · = word)).Pairwise fun _ _ => False := by
      refine (distinct.filter _).imp_of_mem fun {e e'} member member' single => ?_
      have first : filling.field e = word := by simpa using (List.mem_filter.mp member).2
      have second : filling.field e' = word := by simpa using (List.mem_filter.mp member').2
      have list := single (first.trans second.symm)
      rw [first] at list
      exact import_ (beq_iff_eq.mp list)
    generalize es.filter (filling.field · = word) = xs at perm single
    generalize es'.filter (filling.field · = word) = ys at perm
    match xs, single with
    | [], _ => exact perm.nil_eq
    | [x], _ => exact (List.perm_singleton.mp perm.symm).symm
    | x :: y :: _, single => exact ((List.pairwise_cons.mp single).1 y List.mem_cons_self).elim

/-- All that is declared, kind by kind. -/
def toList (d : Declarations) : List Declaration := Keyword.all.flatMap d.held

theorem eq_singleton_of_toList {es : List Declaration} {e : Declaration} (distinct : filling.Distinct es)
    (alone : (filling.fill es).toList = [e]) : es = [e] := by
  have held (word : Keyword) : (filling.fill es).held word = es.filter (·.word = word) :=
    Filling.held_fill distinct word
  have part (word : Keyword) : (es.filter (·.word = word)).Sublist [e] := by
    rw [← held, ← alone, toList]
    exact List.sublist_flatten_of_mem (List.mem_map_of_mem (Keyword.mem_all word))
  have same (e' : Declaration) (member : e' ∈ es) : e' = e :=
    List.mem_singleton.mp ((part e'.word).subset (List.mem_filter.mpr ⟨member, by simp⟩))
  have all : es.filter (·.word = e.word) = es :=
    List.filter_eq_self.mpr fun e' member => by simp [same e' member]
  have whole := part e.word
  rw [all] at whole
  refine whole.eq_of_length_le ?_
  rw [List.length_singleton, Nat.one_le_iff_ne_zero, Ne, List.length_eq_zero_iff]
  rintro rfl
  have none : (filling.fill []).toList = [] := List.flatMap_eq_nil_iff.mpr fun word _ => held word
  rw [none] at alone
  cases alone

end Declarations

end PulseSyntax
