import PulseSyntax.Proofs.Style.Overrun
import PulseSyntax.Proofs.Token.Verbatim

namespace PulseSyntax

theorem Laid.spelled {source before : List Char} {tokens : List Token}
    (h : Laid source before tokens) : tokens.Pairwise fun t _ => t.raw ≠ "" := by
  induction h with
  | endOfFile => exact List.pairwise_singleton _ _
  | token _ _ _ nonempty _ ih =>
    refine List.pairwise_cons.mpr ⟨fun _ _ empty => ?_, ih⟩
    exact nonempty (String.ofList_eq_empty_iff.mp empty)

theorem TokenStream.between_isInfix (stream : TokenStream) (i j : Nat) :
    stream.between i j <:+: stream.toList := by
  rw [between_eq]
  exact (List.take_prefix _ _).isInfix.trans (List.drop_suffix _ _).isInfix

theorem TokenStream.Holds.isInfix {stream : TokenStream} {i j : Nat} {own : List Token}
    (h : stream.Holds i j own) : own <:+: stream.toList := by
  obtain ⟨a, b, -, -, rfl⟩ := h
  exact stream.between_isInfix a b

namespace Style

/-- The characters that follow a token on a line, each with the token it is of. A space between two
    tokens is of none. -/
def originsAfter (part : Part) : Token → List Token → List (Char × Option Token)
  | _, [] => []
  | before, t :: rest =>
    (if needsSpace part before t then [(' ', none)] else []) ++ t.raw.toList.map (·, some t) ++
      originsAfter part t rest

/-- The characters of a line, each with the token it is of. -/
def origins (part : Part) : List Token → List (Char × Option Token)
  | [] => []
  | t :: rest => t.raw.toList.map (·, some t) ++ originsAfter part t rest

theorem map_fst_originsAfter (part : Part) (before : Token) (tokens : List Token) :
    (originsAfter part before tokens).map Prod.fst = lineAfter part before tokens := by
  induction tokens generalizing before with
  | nil => rfl
  | cons t rest ih =>
    rw [originsAfter, lineAfter, List.map_append, List.map_append, ih, List.map_map]
    split <;> simp [Function.comp_def]

theorem map_fst_origins (part : Part) (tokens : List Token) :
    (origins part tokens).map Prod.fst = (line part tokens).toList := by
  cases tokens with
  | nil => rfl
  | cons t rest =>
    rw [origins, line, List.map_append, map_fst_originsAfter, List.map_map, String.toList_ofList]
    simp [Function.comp_def]

/-- The character is a space between two tokens, or of a token that does not keep its text. -/
def IsFree (tokens : List Token) (c : Char × Option Token) : Prop :=
  ∀ t ∈ c.2, ¬ t.IsKept tokens

/-- Where two characters that follow one another are both free, there is no white space inside a
    bracket or before a mark. -/
def TidyAt (tokens : List Token) (c d : Char × Option Token) : Prop :=
  IsFree tokens c → IsFree tokens d →
    ¬ (Text.isBlank c.1 ∧ closes d.1) ∧ ¬ (opens c.1 ∧ Text.isBlank d.1)

/-- The characters of the text are those of a line of tokens that stand next to each other, and
    between any two of them it is tidy. -/
def IsTidy (tokens : List Token) (text : String) : Prop :=
  ∃ part own, own <:+: tokens ∧ (origins part own).map Prod.fst = text.toList ∧
    (origins part own).IsChain (TidyAt tokens)

section

variable {tokens own : List Token} {t : Token} {c d : Char × Option Token} {part : Part}

theorem neat_of_free (kept : t.IsKept tokens ∨ t.IsNeat)
    (member : c ∈ t.raw.toList.map (·, some t)) (free : IsFree tokens c) :
    t.IsNeat ∧ c.1 ∈ t.raw.toList := by
  obtain ⟨char, inside, rfl⟩ := List.mem_map.mp member
  exact ⟨kept.resolve_left (free t rfl), inside⟩

theorem tidyAt_of_tokens {u : Token} (kept : t.IsKept tokens ∨ t.IsNeat)
    (kept' : u.IsKept tokens ∨ u.IsNeat) (first : c ∈ t.raw.toList.map (·, some t))
    (second : d ∈ u.raw.toList.map (·, some u)) : TidyAt tokens c d := by
  intro free free'
  obtain ⟨neat, inside⟩ := neat_of_free kept first free
  obtain ⟨neat', inside'⟩ := neat_of_free kept' second free'
  simp [neat.visible c.1 inside, neat'.visible d.1 inside']

theorem tidyAt_space (kept : t.IsKept tokens ∨ t.IsNeat)
    (member : c ∈ t.raw.toList.map (·, some t)) (apart : isOpener t.kind = false) :
    TidyAt tokens c (' ', none) := by
  intro free _
  obtain ⟨neat, inside⟩ := neat_of_free kept member free
  refine ⟨by simp [closes], ?_⟩
  rintro ⟨opening, -⟩
  rw [neat.opener c.1 inside opening] at apart
  cases apart

theorem space_tidyAt (kept : t.IsKept tokens ∨ t.IsNeat)
    (member : c ∈ t.raw.toList.map (·, some t)) (apart : isCloser t.kind = false) :
    TidyAt tokens (' ', none) c := by
  intro _ free
  obtain ⟨neat, inside⟩ := neat_of_free kept member free
  refine ⟨?_, by simp [opens]⟩
  rintro ⟨-, closing⟩
  rw [neat.closer c.1 inside closing] at apart
  cases apart

theorem isChain_raw (kept : t.IsKept tokens ∨ t.IsNeat) :
    (t.raw.toList.map (·, some t)).IsChain (TidyAt tokens) := by
  refine List.Pairwise.isChain (List.pairwise_of_forall_mem_list fun c first d second => ?_)
  exact tidyAt_of_tokens kept kept first second

theorem mem_raw_of_mem_head? {rest : List Token}
    (spelled : (t :: rest).Pairwise fun t _ => t.raw ≠ "")
    (h : d ∈ (t.raw.toList.map (·, some t) ++ originsAfter part t rest).head?) :
    d ∈ t.raw.toList.map (·, some t) := by
  refine List.mem_of_mem_head? ?_
  cases rest with
  | nil => rwa [originsAfter, List.append_nil] at h
  | cons u rest =>
    have some : t.raw ≠ "" := List.rel_of_pairwise_cons spelled List.mem_cons_self
    rwa [List.head?_append_of_ne_nil _ (by simpa using some)] at h

theorem needsSpace_apart {before next : Token} (h : needsSpace part before next) :
    isOpener before.kind = false ∧ isCloser next.kind = false := by
  unfold needsSpace at h
  repeat split at h
  all_goals simp_all

/-- By induction on the tokens: what is between a token and the next is one space, unless the first
    opens or the next closes. -/
theorem isChain_originsAfter (part : Part) {before : Token} {rest : List Token}
    (kept : ∀ t ∈ before :: rest, t.IsKept tokens ∨ t.IsNeat)
    (spelled : (before :: rest).Pairwise fun t _ => t.raw ≠ "") :
    (before.raw.toList.map (·, some before) ++ originsAfter part before rest).IsChain
      (TidyAt tokens) := by
  induction rest generalizing before with
  | nil =>
    rw [originsAfter, List.append_nil]
    exact isChain_raw (kept before List.mem_cons_self)
  | cons t rest ih =>
    have own := kept before List.mem_cons_self
    have next := kept t (by simp)
    have later := ih (fun u member => kept u (List.mem_cons_of_mem _ member)) spelled.of_cons
    have begins {d : Char × Option Token} (first : d ∈ (t.raw.toList.map (·, some t) ++
        originsAfter part t rest).head?) : d ∈ t.raw.toList.map (·, some t) :=
      mem_raw_of_mem_head? spelled.of_cons first
    rw [originsAfter, List.append_assoc]
    split
    · next apart =>
      obtain ⟨opener, closer⟩ := needsSpace_apart apart
      refine (isChain_raw own).append (List.isChain_cons.mpr ⟨fun d first => ?_, later⟩) ?_
      · exact space_tidyAt next (begins first) closer
      · rintro c last d ⟨⟩
        exact tidyAt_space own (List.mem_of_getLast? last) opener
    · refine (isChain_raw own).append later fun c last d first => ?_
      exact tidyAt_of_tokens own next (List.mem_of_getLast? last) (begins first)

theorem isChain_origins (part : Part) (kept : ∀ t ∈ own, t.IsKept tokens ∨ t.IsNeat)
    (spelled : own.Pairwise fun t _ => t.raw ≠ "") :
    (origins part own).IsChain (TidyAt tokens) := by
  cases own with
  | nil => exact .nil
  | cons t rest => exact isChain_originsAfter part kept spelled

end

end Style

theorem isTidy_line {source : String} {own : List Token} (part : Style.Part)
    (stands : own <:+: tokenize source) : Style.IsTidy (tokenize source) (Style.line part own) := by
  have laid : Laid source.toList [] (tokenize source) := laid_tokens source.toList
  refine ⟨part, own, stands, Style.map_fst_origins part own,
    Style.isChain_origins part (fun t member => ?_) ?_⟩
  · exact tokenize_kept source t (stands.subset member)
  · exact laid.spelled.sublist stands.sublist

def StyleDeclaration.texts (d : StyleDeclaration) : List String := [d.property, d.value]

namespace StyleNode

mutual

/-- The selectors, properties, values and preludes of a rule and of all it holds. -/
def texts : StyleNode → List String
  | rule selector declarations rules _ =>
    selector :: (declarations.flatMap StyleDeclaration.texts ++ allTexts rules)
  | atRule _ prelude _ declarations rules _ =>
    prelude :: (declarations.flatMap StyleDeclaration.texts ++ allTexts rules)

def allTexts : List StyleNode → List String
  | [] => []
  | node :: nodes => texts node ++ allTexts nodes

end

theorem allTexts_eq (nodes : List StyleNode) : allTexts nodes = nodes.flatMap texts := by
  induction nodes with
  | nil => rfl
  | cons node nodes ih => rw [allTexts, ih, List.flatMap_cons]

end StyleNode

section

variable {stream : TokenStream} {i j : Nat} {text : String}

def TokenStream.Lines (stream : TokenStream) (text : String) : Prop :=
  ∃ part own, own <:+: stream.toList ∧ text = Style.line part own

theorem Style.prefix_item (own : List Token) :
    (Style.beforeImportant? own).getD own <+: own := by
  unfold Style.beforeImportant?
  split
  · next word bang rest backward =>
    split
    · refine ⟨[bang, word], ?_⟩
      rw [Option.getD_some, ← List.reverse_reverse own, backward]
      simp
    · exact List.prefix_rfl
  · exact List.prefix_rfl

theorem StyleDeclaration.BuiltFrom.lines {d : StyleDeclaration} (h : d.BuiltFrom stream i j)
    (member : text ∈ d.texts) : stream.Lines text := by
  obtain ⟨name, holdsName, property⟩ := h.property
  obtain ⟨own, holds, value, -⟩ := h.value
  rcases List.mem_pair.mp member with rfl | rfl
  · exact ⟨.value, name, holdsName.isInfix, property⟩
  · exact ⟨.value, _, (Style.prefix_item own).isInfix.trans holds.isInfix, value⟩

theorem StyleNode.lines_of_parts {lead : String} {declarations : List StyleDeclaration}
    {rules : List StyleNode} (own : stream.Lines lead)
    (ds : ∀ d ∈ declarations, d.BuiltFrom stream i j)
    (rs : ∀ node ∈ rules, ∀ text ∈ node.texts, stream.Lines text) :
    ∀ text ∈ lead :: (declarations.flatMap StyleDeclaration.texts ++ allTexts rules),
      stream.Lines text := by
  intro text member
  rw [allTexts_eq, List.mem_cons, List.mem_append, List.mem_flatMap, List.mem_flatMap] at member
  rcases member with rfl | ⟨d, among, inside⟩ | ⟨node, among, inside⟩
  · exact own
  · exact (ds d among).lines inside
  · exact rs node among text inside

theorem StyleNode.BuiltFrom.lines {node : StyleNode} (h : node.BuiltFrom stream i j) :
    ∀ text ∈ node.texts, stream.Lines text := by
  induction h with
  | rule own ds _ _ ih => exact StyleNode.lines_of_parts ⟨.selector, _, own.isInfix, rfl⟩ ds ih
  | atRule _ _ own ds _ _ ih => exact StyleNode.lines_of_parts ⟨.value, _, own.isInfix, rfl⟩ ds ih

end

theorem StyleBlock.parser_rules {scope : Scope} {s t : ParserState} {block : StyleBlock}
    (h : StyleBlock.parser scope s = .ok block t) :
    block.parseError = none ∨ block.rules = [] := by
  obtain ⟨word, opening, body, close, rest, tokens, hw, ho, hc, matched, inside⟩ :=
    StyleBlock.parser_tokens h
  rw [StyleBlock.parser_apply tokens hw ho hc matched inside] at h
  split at h
  · cases h
    exact .inl rfl
  · split at h
    · cases h
      exact .inr rfl
    · cases h

theorem StyleBlock.parser_lines {scope : Scope} {s t : ParserState} {block : StyleBlock}
    (h : StyleBlock.parser scope s = .ok block t) :
    ∀ node ∈ block.rules, ∀ text ∈ node.texts, scope.stream.Lines text := by
  rcases StyleBlock.parser_rules h with read | none
  · obtain ⟨word, opening, body, close, rest, u, tokens, -, ho, hc, -, rules⟩ :=
      StyleBlock.parser_ok h read
    have stop : (scope.stream.get (s.cursor + 2 + body.length)).kind = .symbol .closeBrace := by
      have afterOpening : scope.remaining (s.ahead 2) = body ++ close :: rest :=
        Scope.remaining_ahead_one (Scope.remaining_ahead_one tokens)
      rw [← hc]
      exact congrArg Token.kind (Scope.get_of_remaining (Scope.remaining_ahead afterOpening))
    intro node member
    exact ((Style.rulesParser_ok stop (Nat.le_add_right _ _) rules).1.built node member).lines
  · simp [none]

/-- In the selectors, properties, values and preludes of the structured rules of a program, at any
    nesting, no white space is right before `)`, `]`, `,` and `;` or right after `(` and `[`,
    however the source was spaced. Both characters are meant to stand outside the tokens that keep
    their text: strings and templates, what forms no token, selectors of markup, and the unquoted
    argument of `url`. -/
theorem Component.parse_style_tidy {source : String} {options : Options} {c : Component}
    {block : StyleBlock} (parsed : Component.parse source options = .ok c)
    (has : c.program.style = some block) :
    ∀ node ∈ block.rules, ∀ text ∈ node.texts, Style.IsTidy c.tokens text := by
  obtain ⟨same, t, read⟩ := Component.parse_ok parsed
  obtain ⟨s, u, style⟩ := Program.parser_style read has
  intro node member text among
  obtain ⟨part, own, stands, rfl⟩ := StyleBlock.parser_lines style node member text among
  rw [TokenStream.toList_ofList_tokenize] at stands
  rw [same]
  exact isTidy_line part stands

/-- Spaces inside brackets and before commas are lost. -/
theorem Component.parse_style_tidy_spaced :
    ∃ c block,
      Component.parse "style { a [ b ] , c { d: rgb ( 1 , 2 ) } }" .standard = .ok c ∧
      c.program.style = some block ∧
      StyleNode.allTexts block.rules = ["a [b], c", "d", "rgb(1, 2)"] ∧
      ∀ node ∈ block.rules, ∀ text ∈ node.texts, Style.IsTidy c.tokens text := by
  generalize hs : "style { a [ b ] , c { d: rgb ( 1 , 2 ) } }" = source
  have read : (Component.parse source .standard).toOption.bind (fun c => c.program.style.map
      fun block => StyleNode.allTexts block.rules) = some ["a [b], c", "d", "rgb(1, 2)"] := by
    subst hs
    decide +kernel
  obtain ⟨c, parsed, found⟩ := Component.exists_parse read
  obtain ⟨block, has, texts⟩ := Option.map_eq_some_iff.mp found
  exact ⟨c, block, parsed, has, texts, Component.parse_style_tidy parsed has⟩

/-- The unquoted argument of `url` keeps its spaces. -/
theorem Component.parse_style_url :
    ∃ c block, Component.parse "style { a { b: url(c , d) } }" .standard = .ok c ∧
      c.program.style = some block ∧ (∀ t ∈ c.tokens, t.kind ≠ .string) ∧
      ∃ node ∈ block.rules, ∃ text ∈ node.texts, [' ', ','] <:+: text.toList := by
  generalize hs : "style { a { b: url(c , d) } }" = source
  have read : (Component.parse source .standard).toOption.bind (fun c => c.program.style.map
      fun block => StyleNode.allTexts block.rules) = some ["a", "b", "url(c , d)"] := by
    subst hs
    decide +kernel
  have unquoted : ∀ t ∈ tokenize source, t.kind ≠ .string := by
    subst hs
    decide +kernel
  obtain ⟨c, parsed, found⟩ := Component.exists_parse read
  obtain ⟨block, has, texts⟩ := Option.map_eq_some_iff.mp found
  have value : "url(c , d)" ∈ StyleNode.allTexts block.rules := by simp [texts]
  rw [StyleNode.allTexts_eq] at value
  obtain ⟨node, member, among⟩ := List.mem_flatMap.mp value
  refine ⟨c, block, parsed, has, ?_, node, member, _, among, by decide +kernel⟩
  rwa [(Component.parse_ok parsed).1]

end PulseSyntax
