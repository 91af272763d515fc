import PulseSyntax.Proofs.Markup.Clears
import PulseSyntax.Proofs.Program.Functions

namespace PulseSyntax

open PulseSyntax.Parser

variable {scope : Scope} {i j : Nat} {s : ParserState}

namespace Import

theorem yields_sourceParser_clean (start : Span) (specifiers : List ImportSpecifier)
    (o : scope.Accounts i s.cursor []) :
    Yields (sourceParser start specifiers) scope s fun _ t => scope.Accounts i t.cursor [] := by
  simp [sourceParser]
  intro word source
  have o := (o.read word (by simp)).read source (by simp)
  exact ⟨fun semicolon => o.read semicolon (by simp), fun _ => o⟩

theorem clean_namedParser : Clean scope (fun _ => []) namedParser := by
  intro s
  simp [namedParser]
  intro name
  have o := (Scope.Accounts.refl s.cursor : scope.Accounts _ _ []).readName name
  exact ⟨fun word given => (o.read word (by simp)).read given (by simp), fun _ => o⟩

theorem clean_bindingsParser : Clean scope (fun _ => []) bindingsParser := by
  intro s
  have o : scope.Accounts s.cursor s.cursor [] := .refl _
  simp [bindingsParser, namespaceParser]
  refine ⟨fun star as name => ((o.read star (by simp)).read as (by simp)).read name (by simp),
    fun _ opening => ?_⟩
  refine (Clean.commaSeparated _ clean_namedParser).step (o.read opening (by simp))
    fun specifiers t o closing => ?_
  exact (o.widen (by simp)).read closing (by simp)

theorem parser_clean : Clean scope (fun _ => []) parser := by
  intro s
  have o : scope.Accounts s.cursor s.cursor [] := .refl _
  simp [parser]
  intro word
  have o := o.read word (by simp)
  refine ⟨fun source => ?_, fun _ => ⟨fun name => ⟨fun comma => ?_, fun _ => ?_⟩, fun _ => ?_⟩⟩
  · have o := o.read source (by simp)
    exact ⟨fun semicolon => o.read semicolon (by simp), fun _ => o⟩
  · exact clean_bindingsParser.step ((o.read name (by simp)).read comma (by simp))
      fun specifiers t o => yields_sourceParser_clean _ _ o
  · exact yields_sourceParser_clean _ _ (o.read name (by simp))
  · exact clean_bindingsParser.step o fun specifiers t o => yields_sourceParser_clean _ _ o

end Import

theorem PageDecl.parser_clean : Clean scope (fun _ => []) parser := by
  intro s
  have o : scope.Accounts s.cursor s.cursor [] := .refl _
  simp [parser]
  intro atSign word name
  have o := (o.read atSign (by simp)).read word (by simp)
  exact name.elim (o.read · (by simp)) (o.read · (by simp))

theorem RouteDecl.parser_clean : Clean scope (fun _ => []) parser := by
  intro s
  have o : scope.Accounts s.cursor s.cursor [] := .refl _
  simp [parser]
  exact fun atSign word path => ((o.read atSign (by simp)).read word (by simp)).read path (by simp)

namespace Declarations

/-- The tokens are those of a body in what has been read, or those in the braces of the style
    block. -/
def Keep (scope : Scope) (d : Declarations) (r : TokenRange) : Prop :=
  Fragment.Keep d.fragments r ∨
    ∃ b ∈ d.style, ∃ i, r.start = i + 2 ∧ scope.stream.BlockAt .style b.span i r.stop

variable {d : Declarations} {α : Type}

theorem yields_clean {fragments : α → List Fragment} {p : Parser α} (h : Clean scope fragments p)
    (o : scope.Clears (d.Keep scope) i s.cursor) {next : α → Declarations}
    (sub : ∀ a, ∀ f ∈ d.fragments ++ fragments a, f ∈ (next a).fragments)
    (style : ∀ a, (next a).style = d.style) :
    Yields p scope s fun a t => scope.Clears ((next a).Keep scope) i t.cursor := by
  refine (h s).mono fun a t own => (o.mono ?_).trans (own.clears.mono ?_)
  · rintro r (⟨owner, body⟩ | block)
    · obtain ⟨f, member, owned⟩ := List.mem_flatMap.mp body
      exact .inl ⟨owner, List.mem_flatMap.mpr ⟨f, sub a f (List.mem_append_left _ member), owned⟩⟩
    · exact .inr (style a ▸ block)
  · rintro r ⟨owner, body⟩
    obtain ⟨f, member, owned⟩ := List.mem_flatMap.mp body
    exact .inl ⟨owner, List.mem_flatMap.mpr ⟨f, sub a f (List.mem_append_right _ member), owned⟩⟩

theorem yields_add_clean (inFile : scope.quotation = none)
    (o : scope.Clears (d.Keep scope) i s.cursor) :
    Yields d.add scope s fun next t => scope.Clears (next.Keep scope) i t.cursor := by
  have unknown : Yields failUnknown scope s fun next t =>
      scope.Clears (Declarations.Keep scope next) i t.cursor :=
    fun _ _ ok => absurd ok failUnknown_ne_ok
  refine yields_bind.mpr (yields_current.mpr ?_)
  split
  · simp
    exact yields_clean Import.parser_clean o (by simp [fragments]) fun _ => rfl
  · simp
    split
    · simp [yields_once]
      exact fun _ => yields_clean PageDecl.parser_clean o (by simp [fragments]) fun _ => rfl
    · simp [yields_once]
      exact fun _ => yields_clean RouteDecl.parser_clean o (by simp [fragments]) fun _ => rfl
    · exact unknown
  · simp [yields_once]
    exact fun unseen => yields_clean (PropertyBlock.parser_clean inFile .props) o
      (by simp [fragments, unseen]; grind) fun _ => rfl
  · simp [yields_once]
    exact fun unseen => yields_clean (PropertyBlock.parser_clean inFile .state) o
      (by simp [fragments, unseen]; grind) fun _ => rfl
  · simp [yields_once]
    exact fun unseen => yields_clean (ViewBlock.parser_clean inFile) o
      (by simp [fragments, unseen]; grind) fun _ => rfl
  · simp [yields_once]
    exact fun unseen => yields_clean (ActionsBlock.parser_clean inFile) o
      (by simp [fragments, unseen]; grind) fun _ => rfl
  · simp [yields_once]
    intro unseen
    refine (StyleBlock.parser_readsBlock s).mono fun b t read => ?_
    obtain ⟨⟨j, stop, block⟩, -⟩ := read
    have delimits : scope.Delimits ⟨s.cursor + 2, j⟩ :=
      ⟨Nat.succ_pos _, block.opening, block.closing, block.inside⟩
    rw [stop]
    refine (o.mono ?_).trans (.trans (.token block.word (by simp)) (.block rfl delimits ?_))
    · rintro r (body | ⟨b', read, _⟩)
      · exact .inl body
      · rw [unseen] at read
        cases read
    · exact .inr ⟨b, rfl, s.cursor, rfl, block⟩
  · simp [yields_once]
    exact fun unseen => yields_clean (RouterBlock.parser_clean inFile) o
      (by simp [fragments, unseen]; grind) fun _ => rfl
  · simp [yields_once]
    exact fun unseen => yields_clean (StoreBlock.parser_clean inFile) o
      (by simp [fragments, unseen]) fun _ => rfl
  · next semicolon =>
    simp
    exact o.read semicolon (by simp)
  · exact unknown

theorem Reached.clears (inFile : scope.quotation = none) (h : d.Reached scope s) :
    scope.Clears (d.Keep scope) 0 s.cursor := by
  induction h with
  | start => exact .refl 0
  | round _ _ read ih => exact yields_add_clean inFile ih read

end Declarations

theorem TokenStream.BlockAt.encloses {word : Keyword} {span : Span} {i j : Nat}
    (h : scope.stream.BlockAt word span i j) (ordered : scope.stream.Ordered) :
    scope.Encloses span ⟨i + 2, j⟩ := by
  refine ⟨⟨Nat.succ_pos _, h.opening, h.closing, h.inside⟩, i, by simp, ?_⟩
  rcases h.span with same | same
  · exact same
  · -- The opening brace stands between the word and the closing one.
    have le := h.inside.le
    have more := lt_size_of_kind_ne (show (scope.stream.get (i + 1)).kind ≠ .endOfFile by
      simp [h.opening])
    have before : i < i + 1 := Nat.lt_succ_self i
    have starts := ordered.disjoint before (Nat.lt_of_succ_lt more)
    have proper := ordered.proper i
    have inner := ordered.proper (i + 1)
    have stops := ordered.stop_le_stop (show i + 1 ≤ j by omega)
    simp only [same, Span.cover, Span.mk.injEq]
    omega

theorem TokenStream.lt_of_endOfFile {source : String} {k : Nat}
    (atEnd : ((ofList (tokenize source)).get j).kind = .endOfFile)
    (inside : ((ofList (tokenize source)).get k).kind ≠ .endOfFile) : k < j := by
  have more := lt_size_of_kind_ne inside
  have last := size_le_of_endOfFile atEnd
  omega

theorem TextNode.holeTokens_invalid {options : Options} {token : Token} {start : Nat}
    {hole : List Char} {e : Expr} (read : readHole options token start hole = .ok e) {k : Nat}
    {inner : Token} (here : (Lexer.tokens hole)[k]? = some inner) (invalid : inner.kind = .invalid) :
    ∃ span text, (span, .inline text) ∈ e.arrows ∧ ∃ r : TokenRange,
      r.IsBody (Lexer.tokens hole) ∧ r.Spells hole (Lexer.tokens hole) text.toList ∧
        r.start ≤ k ∧ k < r.stop := by
  obtain ⟨u, ok, atEnd⟩ := readHole_eq_ok.mp read
  have alone : (TokenStream.ofList (tokenize (String.ofList hole))).toList = Lexer.tokens hole := by
    rw [TokenStream.toList_ofList_tokenize, tokenize, String.toList_ofList]
  have kinds : (holeScope options token start hole).stream.toList.map Token.kind =
      (TokenStream.ofList (tokenize (String.ofList hole))).toList.map Token.kind := by
    rw [toList_holeScope, alone, map_kind_holeTokens]
  have kind (i : Nat) := TokenStream.get_congr kinds i
  have own : (TokenStream.ofList (tokenize (String.ofList hole))).get k = inner := by
    rw [TokenStream.get_eq, alone, here, Option.getD_some]
  have before : k < u.cursor := TokenStream.lt_of_endOfFile ((kind _).symm.trans atEnd)
    (by simp [own, invalid])
  obtain ⟨r, ⟨span, present, encloses⟩, within⟩ :=
    (Expr.parser_sound _ _ ok).clears.inBody k (Nat.zero_le k) before
      ((kind k).trans (own.symm ▸ invalid))
  have body := encloses.isBody
  rw [toList_holeScope] at body
  have body := body.congr (map_kind_holeTokens token start hole)
  refine ⟨span, _, present, r, body, ?_, within⟩
  rw [String.toList_ofList]
  exact body.spells

/-- Text that forms no token is never passed over. In a file that parses it stands in a body that the
    program keeps, or between the braces of the style block; and in the source of an interpolation
    it stands in the block of an arrow function of the expression. -/
theorem Component.parse_invalid {source : String} {options : Options} {c : Component}
    (parsed : Component.parse source options = .ok c) :
    (∀ k t, c.tokens[k]? = some t → t.kind = .invalid →
      (∃ r ∈ c.program.outline.bodies, r.start ≤ k ∧ k < r.stop) ∨
      ∃ b ∈ c.program.style, ∃ r : TokenRange, r.IsBody c.tokens ∧ r.BelongsTo c.tokens b.span ∧
        r.start ≤ k ∧ k < r.stop) ∧
    ∀ t, .text t ∈ c.program.fragments → ∀ part e, .interpolation part e ∈ t.parts →
      ∃ token ∈ c.tokens, token.span = t.span ∧ ∃ start hole,
        .hole start hole ∈ TextSegment.cut (token.kind == .template) 0 0 token.text.toList ∧
        part = String.ofList (Text.trim hole) ∧
        ∀ k inner, (Lexer.tokens hole)[k]? = some inner → inner.kind = .invalid →
          ∃ span text, (span, .inline text) ∈ e.arrows ∧ ∃ r : TokenRange,
            r.IsBody (Lexer.tokens hole) ∧ r.Spells hole (Lexer.tokens hole) text.toList ∧
              r.start ≤ k ∧ k < r.stop := by
  obtain ⟨same, t', read⟩ := Component.parse_ok parsed
  let scope : Scope := ⟨.ofList (tokenize source), options, none⟩
  obtain ⟨reached, atEnd⟩ := Program.reached (rfl : scope.quotation = none) read
  have tokens : scope.stream.toList = c.tokens := by
    rw [same]
    exact TokenStream.toList_ofList_tokenize source
  refine ⟨fun k t here invalid => ?_, fun t member part e inText => ?_⟩
  · have own : scope.stream.get k = t := by
      rw [TokenStream.get_eq, tokens, here, Option.getD_some]
    have inside : (scope.stream.get k).kind ≠ .endOfFile := by
      rw [own, invalid]
      nofun
    have before : k < t'.cursor := TokenStream.lt_of_endOfFile atEnd inside
    obtain ⟨r, body | ⟨b, read, i, first, block⟩, within⟩ :=
      (reached.clears rfl).inBody k (Nat.zero_le k) before (own.symm ▸ invalid)
    · obtain ⟨owner, owned⟩ := body
      refine .inl ⟨r, ?_, within⟩
      rw [← Outline.map_snd_owned, Program.owned_outline]
      exact List.mem_map.mpr ⟨_, owned, rfl⟩
    · obtain ⟨start, stop⟩ := r
      obtain rfl : start = i + 2 := first
      have encloses := block.encloses (TokenStream.ordered_tokenize source)
      refine .inr ⟨b, read, _, tokens ▸ encloses.isBody, tokens ▸ encloses.belongsTo ?_, within⟩
      rw [tokens, same]
      exact areRising_tokenize source
  · obtain ⟨i, start, hole, place, cut, trimmed, own⟩ :=
      (reached.captured rfl).has _ member part e inText
    refine ⟨scope.stream.get i, tokens ▸ TokenStream.get_mem _ _, place, start, hole, cut, trimmed,
      fun k inner here invalid => TextNode.holeTokens_invalid own here invalid⟩

/-- An action with a character that the language does not know: it can only belong to the body of the
    action, since no style block is read. -/
theorem Component.parse_invalid_action :
    ∃ c t r, Component.parse "actions { go() { ^ } }" .standard = .ok c ∧
      c.tokens[6]? = some t ∧ t.kind = .invalid ∧ r ∈ c.program.outline.bodies ∧
      r.start ≤ 6 ∧ 6 < r.stop := by
  generalize hs : "actions { go() { ^ } }" = source
  have read : (Component.parse source .standard).toOption.map
      (fun c => (c.tokens[6]?.map Token.kind, c.program.style.isNone)) =
        some (some .invalid, true) := by
    subst hs
    decide +kernel
  cases parsed : Component.parse source .standard with
  | error e =>
    rw [parsed] at read
    cases read
  | ok c =>
    simp only [parsed, Except.toOption, Option.map_some, Option.some.injEq, Prod.mk.injEq] at read
    obtain ⟨kind, unstyled⟩ := read
    obtain ⟨t, here, invalid⟩ := Option.map_eq_some_iff.mp kind
    obtain ⟨r, member, within⟩ | ⟨b, styled, -⟩ := (parse_invalid parsed).1 6 t here invalid
    · exact ⟨c, t, r, rfl, here, invalid, member, within⟩
    · rw [styled] at unstyled
      cases unstyled

end PulseSyntax
