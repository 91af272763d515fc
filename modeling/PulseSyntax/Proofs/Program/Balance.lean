import PulseSyntax.Proofs.Markup.Balance
import PulseSyntax.Proofs.Style.Overrun

namespace PulseSyntax

open PulseSyntax.Parser

variable {scope : Scope} {s : ParserState}

namespace StyleBlock

theorem parser_readsBlock : ReadsBlock scope .style (·.span) (fun _ => []) parser := by
  intro s
  refine yields_bind.mpr (yields_expectKeyword.mpr fun hw => ?_)
  refine yields_bind.mpr (yields_expectSymbol.mpr fun ho => ?_)
  refine yields_bind.mpr (yields_cursor.mpr ?_)
  refine yields_bind.mpr fun stop u found => ?_
  obtain ⟨rfl, body, close, rest, tokens, rfl, hc, matched, -⟩ := Style.findEnd_ok found
  have atClose := Scope.get_of_remaining (Scope.remaining_ahead tokens)
  have inner : scope.stream.Open ((s.next scope).next scope).cursor
      (((s.next scope).next scope).cursor + body.length) 0 := by
    refine ⟨Nat.le_add_right _ _, fun _ => ?_, ?_⟩
    · refine Nat.lt_of_succ_lt (TokenStream.lt_size_of_kind_ne ?_)
      rw [← ParserState.ahead_cursor, atClose, hc]
      simp
    · rw [TokenStream.between_of_tokensFrom tokens]
      exact matched
  -- Wherever the attempt stops, the cursor is set to the closing brace.
  have finish (rules : List StyleNode) (parseError : Option String) (raw : String)
      (v : ParserState) :
      Yields (do
          seek (((s.next scope).next scope).cursor + body.length)
          let close ← expectSymbol .closeBrace
          return (⟨raw, rules, parseError, (scope.stream.get s.cursor).span.cover close.span⟩ :
            StyleBlock)) scope v
        fun b t => scope.ReadsBlock .style b.span s t ∧ scope.Has [] := by
    simp
    exact fun hc => Scope.readsBlock hw ho inner hc (.inl rfl)
  refine yields_bind.mpr fun kept u _ => yields_bind.mpr fun outcome v _ => ?_
  cases outcome with
  | ok rules => exact yields_bind.mpr (yields_pure.mpr (finish _ _ _ v))
  | error e =>
    refine yields_bind.mpr (yields_scope.mpr (yields_ite.mpr ⟨fun _ => ?_, fun _ => ?_⟩))
    · exact yields_bind.mpr (yields_pure.mpr (finish _ _ _ v))
    · exact yields_bind.mpr fun _ _ failed => nomatch failed

end StyleBlock

/-- From index `i` up to `j` braces stand in pairs, and no outermost one follows a word that opens a
    block. -/
inductive TokenStream.Flat (stream : TokenStream) (i : Nat) : Nat → Prop
  | refl : Flat stream i i
  | plain {j : Nat} (before : Flat stream i j) (he : (stream.get j).kind ≠ .endOfFile)
      (plain : (stream.get j).kind.isBrace = false) : Flat stream i (j + 1)
  | group {j k : Nat} (before : Flat stream i j) (pos : 0 < j)
      (word : (stream.get (j - 1)).kind.opensBlock = false)
      (opening : (stream.get j).kind = .symbol .openBrace) (inside : stream.Open (j + 1) k 0)
      (closing : (stream.get k).kind = .symbol .closeBrace) : Flat stream i (k + 1)

namespace TokenStream.Flat

variable {i : Nat} {kind : TokenKind}

theorem le {stream : TokenStream} {j : Nat} (h : stream.Flat i j) : i ≤ j := by
  induction h with
  | refl => exact Nat.le_refl i
  | plain _ _ _ ih => exact Nat.le_succ_of_le ih
  | group _ _ _ _ inside _ ih =>
    have beyond := inside.le
    omega

theorem lt_size {stream : TokenStream} {j : Nat} (h : stream.Flat i j) (progress : i < j) :
    j < stream.size := by
  cases h with
  | refl => exact absurd progress (Nat.lt_irrefl i)
  | plain _ he _ => exact lt_size_of_kind_ne he
  | group _ _ _ _ _ closing => exact lt_size_of_kind_ne (by simp [closing])

theorem read (h : scope.stream.Flat i s.cursor)
    (hk : (scope.stream.get s.cursor).kind = kind) (plain : kind.isBrace = false) :
    scope.stream.Flat i (s.next scope).cursor := by
  by_cases he : (scope.stream.get s.cursor).kind = .endOfFile
  · rw [ParserState.next, if_pos he]
    exact h
  · rw [ParserState.next, if_neg he]
    exact h.plain he (hk ▸ plain)

end TokenStream.Flat

namespace Import

variable {i : Nat}

/-- Where the parser succeeds, no word that it reads opens a block. -/
def Flat (scope : Scope) {α : Type} (p : Parser α) : Prop :=
  ∀ ⦃i s⦄, scope.stream.Flat i s.cursor → Yields p scope s fun _ t => scope.stream.Flat i t.cursor

theorem flat_sourceParser (start : Span) (specifiers : List ImportSpecifier) :
    Flat scope (sourceParser start specifiers) := by
  intro i s h
  simp [sourceParser]
  intro word source
  have h := (h.read word rfl).read source rfl
  exact ⟨fun semicolon => h.read semicolon rfl, fun _ => h⟩

theorem balances_namedParser : Balances scope (fun _ => True) namedParser := by
  intro i depth s o
  simp [namedParser]
  intro name
  have o := o.readName name
  exact ⟨fun word given => ⟨(o.read word rfl).read given rfl, trivial⟩, fun _ => ⟨o, trivial⟩⟩

theorem yields_bindingsParser {kind : TokenKind} (h : scope.stream.Flat i (s.next scope).cursor)
    (hk : (scope.stream.get s.cursor).kind = kind) (he : kind ≠ .endOfFile)
    (word : kind.opensBlock = false) :
    Yields bindingsParser scope (s.next scope) fun _ t => scope.stream.Flat i t.cursor := by
  simp [bindingsParser, namespaceParser]
  refine ⟨fun star as name => ?_, fun _ opening => ?_⟩
  · exact ((h.read star rfl).read as rfl).read name rfl
  · refine (Balances.commaSeparated _ balances_namedParser).step (.refl _ _)
      fun specifiers t inside _ closing => ?_
    rw [ParserState.next_of_kind opening (by simp)] at inside
    rw [ParserState.next_of_kind closing (by simp)]
    obtain ⟨pos, before⟩ := ParserState.get_before_next hk he
    exact h.group pos (by rwa [before, hk]) opening inside closing

theorem parser_yields (h : scope.stream.Flat i (s.next scope).cursor) :
    Yields parser scope s fun _ t => scope.stream.Flat i t.cursor := by
  simp [parser]
  refine fun word => ⟨fun source => ?_, fun _ => ⟨fun name => ⟨fun comma => ?_, fun _ => ?_⟩,
    fun _ => ?_⟩⟩
  · have h := h.read source rfl
    exact ⟨fun semicolon => h.read semicolon rfl, fun _ => h⟩
  · refine (yields_bindingsParser ((h.read name rfl).read comma rfl) comma (by simp) rfl).mono ?_
    exact fun _ t h => flat_sourceParser _ _ h
  · exact flat_sourceParser _ _ (h.read name rfl)
  · exact (yields_bindingsParser h word (by simp) rfl).mono fun _ t h => flat_sourceParser _ _ h

end Import

variable {i : Nat}

theorem PageDecl.parser_yields (h : scope.stream.Flat i (s.next scope).cursor) :
    Yields parser scope s fun _ t => scope.stream.Flat i t.cursor := by
  simp [parser]
  intro _ word name
  exact name.elim ((h.read word rfl).read · rfl) ((h.read word rfl).read · rfl)

theorem RouteDecl.parser_yields (h : scope.stream.Flat i (s.next scope).cursor) :
    Yields parser scope s fun _ t => scope.stream.Flat i t.cursor := by
  simp [parser]
  exact fun _ word path => (h.read word rfl).read path rfl

namespace Declarations

/-- The span of the block that a word opens, if it has been read. -/
def spanOf (d : Declarations) : Keyword → Option Span
  | .props => d.props.map (·.span)
  | .state => d.state.map (·.span)
  | .view => d.view.map (·.span)
  | .actions => d.actions.map (·.span)
  | .style => d.style.map (·.span)
  | .router => d.router.map (·.span)
  | .store => d.store.map (·.span)
  | _ => none

/-- The bodies in all that has been read are captured. -/
structure Captured (scope : Scope) (d : Declarations) : Prop where
  props : ∀ b ∈ d.props, scope.Has b.fragments
  state : ∀ b ∈ d.state, scope.Has b.fragments
  view : ∀ b ∈ d.view, scope.Has b.fragments
  actions : ∀ b ∈ d.actions, scope.Has b.fragments
  router : ∀ b ∈ d.router, scope.Has b.fragments
  store : ∀ b ∈ d.store, scope.Has b.fragments

theorem Captured.has {d : Declarations} (h : d.Captured scope) : scope.Has d.fragments := by
  simpa [fragments] using ⟨h.props, h.state, h.view, h.actions, h.router, h.store⟩

/-- What one round of the top-level loop reads: no block, or one that has not been read before. -/
inductive Reads (scope : Scope) (d : Declarations) (s : ParserState) (next : Declarations)
    (t : ParserState) : Prop
  | flat (same : next.spanOf = d.spanOf) (h : scope.stream.Flat s.cursor t.cursor)
  | block {word : Keyword} {span : Span} (opens : word.opensBlock) (unseen : d.spanOf word = none)
      (spans : ∀ w, next.spanOf w = if w = word then some span else d.spanOf w)
      (h : scope.ReadsBlock word span s t)

structure Reading (scope : Scope) (d : Declarations) (s : ParserState) (next : Declarations)
    (t : ParserState) : Prop where
  reads : Reads scope d s next t
  progress : s.cursor < t.cursor
  inside : t.cursor < scope.stream.size
  captured : d.Captured scope → next.Captured scope

theorem yields_once {α : Type} {seen : Option α} {name : String} {p : Parser α}
    {Q : Option α → ParserState → Prop} :
    Yields (once seen name p) scope s Q ↔
      (seen = none → Yields p scope s fun a t => Q (some a) t) := by
  cases seen <;> simp [once]

variable {d : Declarations} {α : Type}

theorem yields_flat (more : (scope.stream.get s.cursor).kind ≠ .endOfFile)
    (plain : (scope.stream.get s.cursor).kind.isBrace = false) {p : Parser α}
    (h : ∀ {i}, scope.stream.Flat i (s.next scope).cursor →
      Yields p scope s fun _ t => scope.stream.Flat i t.cursor)
    {next : α → Declarations} (same : ∀ a, (next a).spanOf = d.spanOf)
    (captured : ∀ a, d.Captured scope → (next a).Captured scope) :
    Yields p scope s fun a t => Yields (pure (next a)) scope t (Reading scope d s) := by
  intro a t ok
  have first : scope.stream.Flat s.cursor (s.next scope).cursor :=
    TokenStream.Flat.refl.read rfl plain
  have whole := h first ok
  have onward := (h .refl ok).le
  have progress := Nat.lt_of_lt_of_le (ParserState.next_progress more).1 onward
  exact yields_pure.mpr ⟨.flat (same a) whole, progress, whole.lt_size progress, captured a⟩

theorem yields_block {word : Keyword} {span : α → Span} {fragments : α → List Fragment} {p : Parser α}
    (h : ReadsBlock scope word span fragments p) {seen : Option α} {name : String}
    {next : Option α → Declarations} (opens : word.opensBlock)
    (unseen : seen = none → d.spanOf word = none)
    (spans : ∀ a w, (next (some a)).spanOf w = if w = word then some (span a) else d.spanOf w)
    (captured : ∀ a, scope.Has (fragments a) → d.Captured scope →
      (next (some a)).Captured scope) :
    Yields (do return next (← once seen name p)) scope s (Reading scope d s) := by
  refine yields_bind.mpr (yields_once.mpr fun none => (h s).mono fun a t ⟨block, kept⟩ => ?_)
  refine yields_pure.mpr ⟨.block opens (unseen none) (spans a) block, ?_, ?_, captured a kept⟩
  · obtain ⟨j, stop, block⟩ := block
    have beyond := block.inside.le
    omega
  · obtain ⟨j, stop, block⟩ := block
    rw [stop]
    exact TokenStream.lt_size_of_kind_ne (by simp [block.closing])

theorem yields_add (inFile : scope.quotation = none) (d : Declarations)
    (more : (scope.stream.get s.cursor).kind ≠ .endOfFile) :
    Yields d.add scope s (Reading scope d s) := by
  have unknown : Yields failUnknown scope s (Reading scope d s) :=
    fun _ _ ok => absurd ok failUnknown_ne_ok
  refine yields_bind.mpr (yields_current.mpr ?_)
  split
  · next word =>
    exact yields_bind.mpr (yields_flat more (by rw [word]; rfl) Import.parser_yields
      (fun _ => rfl) fun _ h => { h with })
  · next atSign =>
    refine yields_bind.mpr (yields_peek.mpr ?_)
    split
    · refine yields_bind.mpr (yields_once.mpr fun _ => ?_)
      exact yields_flat more (by rw [atSign]; rfl) PageDecl.parser_yields (fun _ => rfl)
        fun _ h => { h with }
    · refine yields_bind.mpr (yields_once.mpr fun _ => ?_)
      exact yields_flat more (by rw [atSign]; rfl) RouteDecl.parser_yields (fun _ => rfl)
        fun _ h => { h with }
    · exact unknown
  · exact yields_block (PropertyBlock.parser_readsBlock .props) rfl (by simp [spanOf])
      (fun _ w => by cases w <;> rfl) fun _ kept h => { h with props := by simpa using kept }
  · exact yields_block (PropertyBlock.parser_readsBlock .state) rfl (by simp [spanOf])
      (fun _ w => by cases w <;> rfl) fun _ kept h => { h with state := by simpa using kept }
  · exact yields_block ViewBlock.parser_readsBlock rfl (by simp [spanOf])
      (fun _ w => by cases w <;> rfl) fun _ kept h => { h with view := by simpa using kept }
  · exact yields_block (ActionsBlock.parser_readsBlock inFile) rfl (by simp [spanOf])
      (fun _ w => by cases w <;> rfl) fun _ kept h => { h with actions := by simpa using kept }
  · exact yields_block StyleBlock.parser_readsBlock rfl (by simp [spanOf])
      (fun _ w => by cases w <;> rfl) fun _ _ h => { h with }
  · exact yields_block (RouterBlock.parser_readsBlock inFile) rfl (by simp [spanOf])
      (fun _ w => by cases w <;> rfl) fun _ kept h => { h with router := by simpa using kept }
  · exact yields_block (StoreBlock.parser_readsBlock inFile) rfl (by simp [spanOf])
      (fun _ w => by cases w <;> rfl) fun _ kept h => { h with store := by simpa using kept }
  · next semicolon =>
    exact yields_bind.mpr (yields_flat more (by rw [semicolon]; rfl)
      (fun h => yields_advance.mpr h) (fun _ => rfl) fun _ h => h)
  · exact unknown

/-- The declarations and the state before a round of the top-level loop. -/
inductive Reached (scope : Scope) : Declarations → ParserState → Prop
  | start : Reached scope .empty .initial
  | round {d next : Declarations} {s t : ParserState} (before : Reached scope d s)
      (more : (scope.stream.get s.cursor).kind ≠ .endOfFile) (read : d.add scope s = .ok next t) :
      Reached scope next t

theorem Reached.captured (inFile : scope.quotation = none) {d : Declarations}
    (h : Reached scope d s) : d.Captured scope := by
  induction h with
  | start => constructor <;> simp [empty]
  | round before more read ih => exact (yields_add inFile _ more read).captured ih

end Declarations

theorem Program.reached {program : Program} {t : ParserState} (inFile : scope.quotation = none)
    (h : Program.parser scope .initial = .ok program t) :
    program.toDeclarations.Reached scope t ∧ (scope.stream.get t.cursor).kind = .endOfFile := by
  revert program t
  change Yields Program.parser scope .initial fun program t =>
    program.toDeclarations.Reached scope t ∧ (scope.stream.get t.cursor).kind = .endOfFile
  refine yields_bind.mpr (yields_current.mpr (yields_bind.mpr ?_))
  refine (yields_loop_until (I := Declarations.Reached scope) (Q := fun d t =>
    d.Reached scope t ∧ (scope.stream.get t.cursor).kind = .endOfFile) ?_ .start).mono
    fun d t done => by simpa using done
  intro d s reached
  simp
  refine ⟨fun atEnd => ⟨reached, atEnd⟩, fun more next t read => ?_⟩
  have reading := Declarations.yields_add inFile d more read
  exact ⟨reached.round more read, reading.progress, reading.inside⟩

end PulseSyntax
