import PulseSyntax.Proofs.Markup.Alone
import PulseSyntax.Proofs.Outline.Bodies
import PulseSyntax.Proofs.Outline.Owned
import PulseSyntax.Proofs.Program.Balance
import PulseSyntax.Proofs.Token.Body

namespace PulseSyntax

theorem Declarations.Captured.fragments {scope : Scope} {d : Declarations} (h : d.Captured scope) :
    scope.Captures d.fragments :=
  h.has.captures

/-- The bodies of a node are its own. In the texts there are none, since an interpolation has no
    tokens of the file. -/
theorem Scope.Captures.owns {scope : Scope} {fragments : List Fragment}
    (h : scope.Captures fragments) {span : Span} {r : TokenRange}
    (member : (span, r) ∈ fragments.flatMap Fragment.owned) : scope.Owns span r := by
  obtain ⟨f, present, owned⟩ := List.mem_flatMap.mp member
  have kept := h f present
  cases f with
  | body owner range =>
    cases List.mem_singleton.mp owned
    exact kept
  | expression e =>
    cases kept _ (mem_blocksOf.mp owned) with
    | block owns => exact owns
  | text t =>
    obtain ⟨part, inText, owned⟩ := List.mem_flatMap.mp owned
    cases part with
    | literal text => cases owned
    | interpolation source e =>
      obtain ⟨i, start, hole, -, -, -, inner⟩ := kept source e inText
      cases inner _ (mem_blocksOf.mp owned) with
      | block owns => cases owns.inFile

theorem Program.captures {scope : Scope} {program : Program}
    (h : program.toDeclarations.Captured scope) :
    ∀ r ∈ program.outline.bodies, scope.Delimits r := by
  intro r member
  rw [← Outline.map_snd_owned, owned_outline] at member
  obtain ⟨⟨span, r⟩, owned, rfl⟩ := List.mem_map.mp member
  exact (h.fragments.owns owned).toDelimits

/-- A body is opaque to the rest of the file. Any text that fits between its braces leaves every
    token before it as it is, and the kind, the value and the text of every token after it. In
    markup a text fits only if it leaves as many parentheses open as the body does, for the lexer
    counts the parentheses in a body and does not forget them at its closing brace. -/
theorem Component.parse_body_replaced {source : String} {options : Options} {c : Component}
    {r : TokenRange} (parsed : Component.parse source options = .ok c)
    (member : r ∈ c.program.outline.bodies) :
    ∃ before body after atClose, Lexer.BodyAt source.toList r before body after ∧
      (Lexer.contexts source.toList)[r.stop]? = some atClose ∧
      ∀ text, Lexer.FitsBody before atClose text →
        ∃ rest, tokenize (String.ofList (before ++ '{' :: (text ++ '}' :: after))) =
            c.tokens.take r.start ++ (Lexer.tokensIn before text).dropLast ++ rest ∧
          rest.map Token.content = (c.tokens.drop r.stop).map Token.content := by
  obtain ⟨same, t, read⟩ := Component.parse_ok parsed
  let scope : Scope := ⟨.ofList (tokenize source), options, none⟩
  have reached := (Program.reached (rfl : scope.quotation = none) read).1
  have captured := Program.captures (reached.captured rfl) r member
  have token {i : Nat} {sign : Symbol} (h : (scope.stream.get i).kind = .symbol sign) :
      (tokenize source)[i]? = some (scope.stream.get i) :=
    TokenStream.getElem?_tokenize (show (scope.stream.get i).kind ≠ .endOfFile by simp [h])
  have matched : BracesMatch (r.tokens (tokenize source)) := by
    have braces := captured.matched.braces
    rw [TokenStream.between_eq] at braces
    rw [← TokenStream.toList_ofList_tokenize source]
    exact braces
  obtain ⟨before, body, after, atClose, parts, here, replaced⟩ :=
    Lexer.tokens_replaced captured.start_pos captured.matched.le (token captured.opening)
      captured.opening (token captured.closing) captured.closing matched
  refine ⟨before, body, after, atClose, parts, here, fun text fits => ?_⟩
  rw [same, tokenize, String.toList_ofList]
  exact replaced text fits

/-- A call in the body of a handler does not change what stands beside it in the markup. -/
theorem Component.parse_body_replaced_call :
    ∃ c r before body after atClose rest,
      Component.parse r"view { a @click(() => {
}) b.c }" .standard = .ok c ∧
      r ∈ c.program.outline.bodies ∧
      r"view { a @click(() => {
}) b.c }".toList =
        before ++ '{' :: (body ++ '}' :: after) ∧
      Lexer.FitsBody before atClose "f(x)\n".toList ∧
      tokenize (String.ofList (before ++ '{' :: ("f(x)\n".toList ++ '}' :: after))) =
        c.tokens.take r.start ++ (Lexer.tokensIn before "f(x)\n".toList).dropLast ++ rest ∧
      rest.map Token.content = (c.tokens.drop r.stop).map Token.content := by
  generalize hs : r"view { a @click(() => {
}) b.c }" = source
  have read : (Component.parse source .standard).toOption.map (·.program.outline.bodies) =
      some [⟨10, 10⟩] := by
    subst hs
    decide +kernel
  cases parsed : Component.parse source .standard with
  | error e =>
    rw [parsed] at read
    cases read
  | ok c =>
    rw [parsed] at read
    have bodies : c.program.outline.bodies = [⟨10, 10⟩] := Option.some.inj read
    have member : ⟨10, 10⟩ ∈ c.program.outline.bodies := by simp [bodies]
    obtain ⟨before, body, after, atClose, parts, here, replaced⟩ :=
      Component.parse_body_replaced parsed member
    obtain rfl : r"view { a @click(() => ".toList = before := by
      have own : (Lexer.tokens source.toList)[9]?.bind
          (Text.takeBytes? source.toList ·.span.start) =
            some r"view { a @click(() => ".toList := by
        subst hs
        decide +kernel
      exact Option.some.inj (own.symm.trans parts.bind_takeBytes?)
    have parens : atClose.parens = 1 := by
      have count : (Lexer.contexts source.toList)[10]?.map (·.parens) = some 1 := by
        subst hs
        decide +kernel
      have own : some atClose.parens = some 1 := (congrArg (Option.map _) here).symm.trans count
      exact Option.some.inj own
    have fits : Lexer.FitsBody r"view { a @click(() => ".toList atClose "f(x)\n".toList := by
      refine ⟨by decide +kernel, ⟨by decide +kernel, by decide +kernel⟩, by decide +kernel, ?_⟩
      rw [parens]
      exact fun _ => by decide +kernel
    obtain ⟨rest, whole, same⟩ := replaced _ fits
    exact ⟨c, _, _, body, after, atClose, rest, rfl, member, parts.whole, fits, whole, same⟩

/-- A parenthesis that a body leaves open does: `b.c` is no selector there. -/
example : ((tokenize r"view { a @click(() => {
(
}) b.c }").filter
    (·.kind == .selector)).map (·.raw) = ["a"] := by
  decide +kernel

theorem areRising_tokenize (source : String) : AreRising (tokenize source) :=
  Lexer.areRising_place _ _

namespace TextNode

variable {options : Options} {t : Token} {start : Nat} {hole : List Char}

theorem areRising_holeTokens (t : Token) (start : Nat) (hole : List Char) :
    AreRising (holeTokens t start hole) := by
  unfold holeTokens
  split
  · exact Lexer.areRising_place _ _
  · -- All stand at the place of the text.
    refine List.pairwise_map.mpr (List.pairwise_of_forall fun _ _ => ?_)
    exact ⟨Nat.le_refl _, Nat.le_refl _⟩

theorem toList_holeScope (options : Options) :
    (holeScope options t start hole).stream.toList = holeTokens t start hole :=
  TokenStream.toList_ofList_of_content (holeTokens_content t start hole)

theorem map_kind_holeTokens (t : Token) (start : Nat) (hole : List Char) :
    (holeTokens t start hole).map Token.kind = (Lexer.tokens hole).map Token.kind := by
  have same := congrArg (List.map (·.1)) (holeTokens_content t start hole)
  rwa [List.map_map, List.map_map] at same

theorem exists_kind_hole {k : Nat} {kind : TokenKind}
    (h : ((holeScope options t start hole).stream.get k).kind = kind) :
    ∃ inner ∈ Lexer.tokens hole, inner.kind = kind := by
  have member := TokenStream.get_mem (holeScope options t start hole).stream k
  rw [toList_holeScope] at member
  have kinds := List.mem_map_of_mem (f := Token.kind) member
  rw [map_kind_holeTokens, h] at kinds
  exact List.mem_map.mp kinds

/-- The block of an arrow function in an interpolation is the part of its source that stands between
    the braces there. -/
theorem inline_holeScope {span : Span} {text : String}
    (h : (holeScope options t start hole).KeepsArrow span (.inline text)) :
    ∃ r : TokenRange, r.IsBody (Lexer.tokens hole) ∧
      r.Spells hole (Lexer.tokens hole) text.toList ∧
      r.BelongsTo (holeTokens t start hole) span := by
  cases h with
  | @inline r q quoted encloses =>
    cases quoted
    have body := encloses.isBody
    rw [toList_holeScope] at body
    have inHole := body.congr (map_kind_holeTokens t start hole)
    refine ⟨r, inHole, ?_, ?_⟩
    · rw [String.toList_ofList]
      exact inHole.spells
    · have rising := areRising_holeTokens t start hole
      rw [← toList_holeScope options] at rising ⊢
      exact encloses.belongsTo rising

end TextNode

theorem Component.source_of_parse {source : String} {options : Options} {c : Component}
    (parsed : Component.parse source options = .ok c) : c.source = source := by
  unfold Component.parse at parsed
  dsimp only at parsed
  split at parsed
  · cases parsed
    rfl
  · cases parsed

/-- The bodies that a program keeps are sound. Each stands between two braces of the file, has its
    own braces in pairs and ends with the node that it is the body of, and its text is the source
    from its first token to its last; two of them are one in the other or apart. The block of an
    arrow function is kept as tokens everywhere but in an interpolation, and there as the part of
    the interpolation that stands between its braces. -/
theorem Component.parse_ranges {source : String} {options : Options} {c : Component}
    (parsed : Component.parse source options = .ok c) :
    (∀ owner r, (owner, r) ∈ c.program.outline.owned →
      r.IsBody c.tokens ∧ r.BelongsTo c.tokens owner ∧
        r.Spells source.toList c.tokens (c.rawText r).toList) ∧
    (∀ r ∈ c.program.outline.bodies, ∀ r' ∈ c.program.outline.bodies, r.AreNested r') ∧
    (∀ e, .expression e ∈ c.program.fragments → ∀ span text, (span, .inline text) ∉ e.arrows) ∧
    ∀ t, .text t ∈ c.program.fragments → ∀ part e, .interpolation part e ∈ t.parts →
      ∃ token ∈ c.tokens, token.span = t.span ∧ ∃ start hole,
        .hole start hole ∈ TextSegment.cut (token.kind == .template) 0 0 token.text.toList ∧
        part = String.ofList (Text.trim hole) ∧
        (∀ span r, (span, .block r) ∉ e.arrows) ∧
        ∀ span text, (span, .inline text) ∈ e.arrows → ∃ r : TokenRange,
          r.IsBody (Lexer.tokens hole) ∧ r.Spells hole (Lexer.tokens hole) text.toList ∧
            r.BelongsTo (TextNode.holeTokens token start hole) span := by
  obtain ⟨same, t, read⟩ := Component.parse_ok parsed
  let scope : Scope := ⟨.ofList (tokenize source), options, none⟩
  have captured := (Program.reached (rfl : scope.quotation = none) read).1.captured rfl
  have tokens : scope.stream.toList = c.tokens := by
    rw [same]
    exact TokenStream.toList_ofList_tokenize source
  have bodies := Program.captures captured
  refine ⟨fun owner r member => ?_, fun r member r' member' => ?_, fun e member span text => ?_,
    fun t member part e inText => ?_⟩
  · rw [Program.owned_outline] at member
    have owns := captured.fragments.owns member
    have body := owns.isBody
    have rising : AreRising scope.stream.toList := by
      rw [tokens, same]
      exact areRising_tokenize source
    have belongs := owns.belongsTo rising
    rw [tokens] at body belongs
    refine ⟨body, belongs, ?_⟩
    rw [Component.rawText, String.toList_ofList, Component.source_of_parse parsed, same]
    rw [same] at body
    exact body.spells
  · exact (bodies r member).areNested (bodies r' member')
  · exact fun inline => nomatch captured.fragments _ member _ inline
  · obtain ⟨i, start, hole, place, cut, trimmed, kept⟩ := captured.fragments _ member part e inText
    refine ⟨scope.stream.get i, ?_, place, start, hole, cut, trimmed, fun span r block => ?_,
      fun span text inline => TextNode.inline_holeScope (kept _ inline)⟩
    · rw [← tokens]
      exact TokenStream.get_mem _ _
    · cases kept _ block with
      | block owns => cases owns.inFile

/-- An arrow function in a text and one in the handler after it: only the second has a range. -/
theorem Component.parse_ranges_handler :
    ∃ c owner r, Component.parse r#"view { p "{() => { a }}" @click(() => { b c }) }"#
        .standard = .ok c ∧
      c.program.outline.owned = [(owner, r)] ∧ c.rawText r = "b c" ∧ r.IsBody c.tokens ∧
      r.BelongsTo c.tokens owner := by
  generalize hs : r#"view { p "{() => { a }}" @click(() => { b c }) }"# = source
  have read : (Component.parse source .standard).toOption.map
      (fun c => (c.program.outline.owned, c.rawText ⟨11, 13⟩)) =
        some ([(⟨32, 45⟩, ⟨11, 13⟩)], "b c") := by
    subst hs
    decide +kernel
  cases parsed : Component.parse source .standard with
  | error e =>
    rw [parsed] at read
    cases read
  | ok c =>
    rw [parsed] at read
    obtain ⟨owned, text⟩ := Prod.mk.inj (Option.some.inj read)
    have member : (⟨32, 45⟩, ⟨11, 13⟩) ∈ c.program.outline.owned := by simp [owned]
    obtain ⟨body, belongs, -⟩ := (Component.parse_ranges parsed).1 _ _ member
    exact ⟨c, _, _, rfl, owned, text, body, belongs⟩

end PulseSyntax
