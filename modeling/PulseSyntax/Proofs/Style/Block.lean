import PulseSyntax.Component
import PulseSyntax.Proofs.Parser.Reads

namespace PulseSyntax

open PulseSyntax.Parser

namespace Style

theorem readsOn_blockFollows : ReadsOn blockFollows :=
  readsOn_scope.bind fun _ => readsOn_cursor.bind fun _ => readsOn_pure _

theorem readsOn_tokensBetween (start stop : Nat) : ReadsOn (tokensBetween start stop) :=
  readsOn_scope.bind fun _ => readsOn_pure _

theorem readsOn_itemToken (depth : Nat) : ReadsOn (itemToken depth) := by
  refine readsOn_current.bind fun t => ?_
  dsimp only
  split
  · exact readsOn_pure _
  · exact readsOn_advance.bind fun _ => readsOn_pure _

theorem readsOn_itemTokens : ReadsOn itemTokens :=
  readsOn_cursor.bind fun start => (ReadsOn.loop readsOn_itemToken 0).bind fun _ =>
    readsOn_cursor.bind fun stop => readsOn_tokensBetween start stop

theorem readsOn_propertyToken (u : Unit) : ReadsOn (propertyToken u) := by
  refine readsOn_current.bind fun t => ?_
  split
  · exact readsOn_pure _
  · exact readsOn_advance.bind fun _ => readsOn_pure _

theorem readsOn_propertyTokens : ReadsOn propertyTokens :=
  readsOn_cursor.bind fun start => (ReadsOn.loop readsOn_propertyToken ()).bind fun _ =>
    readsOn_cursor.bind fun stop => readsOn_tokensBetween start stop

theorem readsOn_declaration : ReadsOn declaration := by
  refine readsOn_current.bind fun start => readsOn_propertyTokens.bind fun property => ?_
  dsimp only
  split
  · exact readsOn_fail _
  · refine (readsOn_is _).bind fun colon => ?_
    split
    · exact readsOn_current.bind fun _ => readsOn_fail _
    · refine readsOn_advance.bind fun _ => readsOn_itemTokens.bind fun tokens => ?_
      split
      · exact readsOn_fail _
      · exact readsOn_previous.bind fun _ => (readsOn_eat _).bind fun _ => readsOn_pure _

structure Nested.ReadsOn (nested : Nested) : Prop where
  rule : Parser.ReadsOn nested.rule
  atRule : Parser.ReadsOn nested.atRule

variable {nested : Nested}

theorem readsOn_bodyItem (h : nested.ReadsOn) (body : Body) : ReadsOn (bodyItem nested body) := by
  refine readsOn_current.bind fun t => ?_
  split
  · exact readsOn_pure _
  · exact readsOn_pure _
  · exact readsOn_advance.bind fun _ => readsOn_pure _
  · exact h.atRule.bind fun _ => readsOn_pure _
  · refine readsOn_blockFollows.bind fun block => ?_
    split
    · exact h.rule.bind fun _ => readsOn_pure _
    · exact readsOn_declaration.bind fun _ => readsOn_pure _

theorem readsOn_bodyParser (h : nested.ReadsOn) : ReadsOn (bodyParser nested) :=
  (ReadsOn.loop (readsOn_bodyItem h) _).bind fun _ => (readsOn_expect _).bind fun _ => readsOn_pure _

theorem readsOn_ruleAt (h : nested.ReadsOn) : ReadsOn (ruleAt nested) := by
  refine readsOn_current.bind fun start => readsOn_itemTokens.bind fun selector => ?_
  dsimp only
  split
  · exact readsOn_fail _
  · exact (readsOn_expect _).bind fun _ => (readsOn_bodyParser h).bind fun _ => readsOn_pure _

theorem readsOn_atName (atSign : Token) : ReadsOn (atName atSign) := by
  refine readsOn_current.bind fun t => ?_
  dsimp only
  split
  · exact readsOn_fail _
  · split
    · exact readsOn_fail _
    · exact readsOn_advance.bind fun _ => readsOn_pure _

theorem readsOn_atRuleAt (h : nested.ReadsOn) : ReadsOn (atRuleAt nested) := by
  refine (readsOn_expect _).bind fun atSign => (readsOn_atName atSign).bind fun name =>
    readsOn_itemTokens.bind fun tokens => (readsOn_eat _).bind fun block => ?_
  split
  · exact (readsOn_bodyParser h).bind fun _ => readsOn_pure _
  · exact readsOn_previous.bind fun _ => (readsOn_eat _).bind fun _ => readsOn_pure _

theorem readsOn_within (levels : Nat) :
    Nested.ReadsOn ⟨ruleWithin levels, atRuleWithin levels⟩ := by
  have tooDeep : ReadsOn (failTooDeep : Parser StyleNode) :=
    readsOn_scope.bind fun _ => readsOn_fail _
  induction levels with
  | zero => exact ⟨tooDeep, tooDeep⟩
  | succ levels ih => exact ⟨(readsOn_ruleAt ih).deeper, (readsOn_atRuleAt ih).deeper⟩

theorem readsOn_rulesItem (stop : Nat) (rules : Array StyleNode) :
    ReadsOn (rulesItem stop rules) := by
  refine readsOn_cursor.bind fun cursor => ?_
  split
  · exact readsOn_pure _
  · refine readsOn_current.bind fun t => ?_
    split
    · exact readsOn_advance.bind fun _ => readsOn_pure _
    · exact (ReadsOn.withLevels fun levels => (readsOn_within levels).atRule).bind
        fun _ => readsOn_pure _
    · refine readsOn_blockFollows.bind fun block => ?_
      split
      · exact (ReadsOn.withLevels fun levels => (readsOn_within levels).rule).bind
          fun _ => readsOn_pure _
      · exact readsOn_current.bind fun _ => readsOn_fail _

theorem readsOn_rulesParser (stop : Nat) : ReadsOn (rulesParser stop) :=
  (ReadsOn.loop (readsOn_rulesItem stop) _).bind fun _ => readsOn_pure _

theorem lengthToClose?_append {body rest : List Token} {close : Token} {depth : Nat}
    (matched : openBraces? depth body = some 0) (inside : ∀ t ∈ body, t.kind ≠ .endOfFile)
    (hc : close.kind = .symbol .closeBrace) :
    lengthToClose? depth (body ++ close :: rest) = some body.length := by
  induction body generalizing depth with
  | nil =>
    obtain rfl : depth = 0 := by simpa [openBraces?] using matched
    simp only [List.nil_append, lengthToClose?, hc, List.length_nil]
  | cons t body ih =>
    have later : ∀ u ∈ body, u.kind ≠ .endOfFile := fun u member =>
      inside u (List.mem_cons_of_mem t member)
    have notEnd := inside t (by simp)
    unfold openBraces? at matched
    rw [List.cons_append]
    unfold lengthToClose?
    split at matched
    · next kind => simp only [kind, ih matched later, Option.map_some, List.length_cons]
    · next kind =>
      split at matched
      · cases matched
      · simp only [kind, ih matched later, Option.map_some, List.length_cons]
    · split
      · contradiction
      · contradiction
      · contradiction
      · simp only [ih matched later, Option.map_some, List.length_cons]

theorem findEnd_apply {scope : Scope} {s : ParserState} {body rest : List Token} {close : Token}
    (tokens : scope.remaining s = body ++ close :: rest) (matched : BracesMatch body)
    (inside : ∀ t ∈ body, t.kind ≠ .endOfFile) (hc : close.kind = .symbol .closeBrace) :
    findEnd scope s = .ok (s.cursor + body.length) s := by
  have length : lengthToClose? 0 (body ++ close :: rest) = some body.length :=
    lengthToClose?_append matched inside hc
  rw [Scope.remaining] at tokens
  simp only [findEnd, bind_of_ok cursor_apply, bind_of_ok scope_apply, tokens, length, pure_apply]

theorem tokensBetween_apply {scope : Scope} {s : ParserState} {own rest : List Token}
    (tokens : scope.remaining s = own ++ rest) :
    tokensBetween s.cursor (s.cursor + own.length) scope s = .ok own s := by
  simp only [tokensBetween, bind_of_ok scope_apply, pure_apply,
    TokenStream.between_of_tokensFrom tokens]

/-- The tokens before the brace that is found to close a block are those of which braces match. The
    end of the file is not among them. -/
theorem eq_of_lengthToClose? {depth length : Nat} {tokens : List Token}
    (h : lengthToClose? depth tokens = some length) :
    ∃ body close rest, tokens = body ++ close :: rest ∧ body.length = length ∧
      close.kind = .symbol .closeBrace ∧ openBraces? depth body = some 0 ∧
      ∀ t ∈ body, t.kind ≠ .endOfFile := by
  induction tokens generalizing depth length with
  | nil => cases h
  | cons t tokens ih =>
    unfold lengthToClose? at h
    split at h
    · next hk =>
      obtain ⟨n, found, rfl⟩ := Option.map_eq_some_iff.mp h
      obtain ⟨body, close, rest, rfl, rfl, hc, matched, inside⟩ := ih found
      exact ⟨t :: body, close, rest, rfl, rfl, hc, by simp only [openBraces?, hk, matched],
        List.forall_mem_cons.mpr ⟨by simp [hk], inside⟩⟩
    · next hk =>
      cases depth with
      | zero =>
        cases h
        exact ⟨[], t, tokens, rfl, rfl, hk, rfl, List.forall_mem_nil _⟩
      | succ depth =>
        obtain ⟨n, found, rfl⟩ := Option.map_eq_some_iff.mp h
        obtain ⟨body, close, rest, rfl, rfl, hc, matched, inside⟩ := ih found
        exact ⟨t :: body, close, rest, rfl, rfl, hc, by simp only [openBraces?, hk, matched],
          List.forall_mem_cons.mpr ⟨by simp [hk], inside⟩⟩
    · cases h
    · next atEnd =>
      obtain ⟨n, found, rfl⟩ := Option.map_eq_some_iff.mp h
      obtain ⟨body, close, rest, rfl, rfl, hc, matched, inside⟩ := ih found
      refine ⟨t :: body, close, rest, rfl, rfl, hc, ?_, List.forall_mem_cons.mpr ⟨atEnd, inside⟩⟩
      unfold openBraces?
      split
      · contradiction
      · contradiction
      · exact matched

theorem findEnd_ok {scope : Scope} {s t : ParserState} {stop : Nat}
    (h : findEnd scope s = .ok stop t) :
    t = s ∧ ∃ body close rest, scope.remaining s = body ++ close :: rest ∧
      stop = s.cursor + body.length ∧ close.kind = .symbol .closeBrace ∧ BracesMatch body ∧
      ∀ t ∈ body, t.kind ≠ .endOfFile := by
  rw [findEnd, bind_of_ok cursor_apply, bind_of_ok scope_apply] at h
  change Parser.run _ scope s = _ at h
  split at h
  · next found =>
    cases h
    obtain ⟨body, close, rest, tokens, rfl, hc, matched, inside⟩ := eq_of_lengthToClose? found
    exact ⟨rfl, body, close, rest, tokens, rfl, hc, matched, inside⟩
  · rw [Parser.run, bind_of_ok (seek_apply _), bind_of_ok current_apply] at h
    exact absurd h fail_ne_ok
  · rw [Parser.run, bind_of_ok (seek_apply _)] at h
    exact absurd h failAtToken_ne_ok

end Style

theorem StyleBlock.parser_tokens {scope : Scope} {s t : ParserState} {block : StyleBlock}
    (h : StyleBlock.parser scope s = .ok block t) :
    ∃ word opening body close rest,
      scope.remaining s = word :: opening :: (body ++ close :: rest) ∧
      word.kind = .keyword .style ∧ opening.kind = .symbol .openBrace ∧
      close.kind = .symbol .closeBrace ∧ BracesMatch body ∧ ∀ t ∈ body, t.kind ≠ .endOfFile := by
  obtain ⟨word, u, readWord, h⟩ := bind_eq_ok.mp h
  obtain ⟨hw, rfl, rfl⟩ := (expect_eq_ok (by simp)).mp readWord
  obtain ⟨opening, u, readOpening, h⟩ := bind_eq_ok.mp h
  obtain ⟨ho, rfl, rfl⟩ := (expect_eq_ok (by simp)).mp readOpening
  rw [bind_of_ok cursor_apply] at h
  obtain ⟨stop, u, found, h⟩ := bind_eq_ok.mp h
  obtain ⟨-, body, close, rest, tokens, -, hc, matched, inside⟩ := Style.findEnd_ok found
  refine ⟨_, _, body, close, rest, ?_, hw, ho, hc, matched, inside⟩
  have first : scope.remaining s = _ := TokenStream.tokensFrom_of_kind_ne (by simp [hw])
  have second := TokenStream.tokensFrom_of_kind_ne (by rw [ho]; simp)
  rw [first, show s.cursor + 1 = (s.ahead 1).cursor from rfl, second]
  exact congrArg _ (congrArg _ tokens)

/-- What a style block keeps of the attempt to read it as rules. -/
def StyleBlock.Keeps (block : StyleBlock) : Reply (List StyleNode) → Prop
  | .ok rules _ => block.rules = rules ∧ block.parseError = none
  | .error e _ => block.rules = [] ∧ block.parseError = some e.display

/-- The block that is read between two braces that match, or the error where its rules cannot be
    read and no text is to stand for them. -/
theorem StyleBlock.parser_apply {scope : Scope} {s : ParserState} {word opening close : Token}
    {body rest : List Token} (tokens : scope.remaining s = word :: opening :: (body ++ close :: rest))
    (hw : word.kind = .keyword .style) (ho : opening.kind = .symbol .openBrace)
    (hc : close.kind = .symbol .closeBrace) (matched : BracesMatch body)
    (inside : ∀ t ∈ body, t.kind ≠ .endOfFile) :
    StyleBlock.parser scope s =
      match Style.rulesParser (s.cursor + 2 + body.length) scope (s.ahead 2) with
      | .ok rules _ => .ok ⟨Style.block body, rules, none, word.span.cover close.span⟩
          (s.ahead (2 + body.length + 1))
      | .error e t =>
        if scope.options.styleFallback then
          .ok ⟨Style.block body, [], some e.display, word.span.cover close.span⟩
            (s.ahead (2 + body.length + 1))
        else .error e t := by
  have afterWord := Scope.remaining_ahead_one tokens
  have afterOpening : scope.remaining (s.ahead 2) = body ++ close :: rest :=
    Scope.remaining_ahead_one afterWord
  have afterBody := Scope.remaining_ahead afterOpening
  have readWord : expectKeyword .style scope s = .ok word (s.ahead 1) :=
    expect_cons tokens hw (by simp)
  have readOpening : expectSymbol .openBrace scope (s.ahead 1) = .ok opening (s.ahead 2) :=
    expect_cons afterWord ho (by simp)
  have stop := Style.findEnd_apply afterOpening matched inside hc
  have raw := Style.tokensBetween_apply afterOpening
  -- Wherever the attempt stopped, the cursor is set to the closing brace, and the depth is kept.
  have readClose {t : ParserState} (reads : ParserState.Reaches scope (s.ahead 2) t) :
      expectSymbol .closeBrace scope { t with cursor := s.cursor + 2 + body.length } =
        .ok close (s.ahead (2 + body.length + 1)) := by
    have state : { t with cursor := s.cursor + 2 + body.length } = s.ahead (2 + body.length) := by
      have depth : t.depth = s.depth := reads.depth
      rw [ParserState.ahead, ← Nat.add_assoc, depth]
    rw [ParserState.ahead_ahead] at afterBody
    rw [state, expectSymbol, expect_cons afterBody hc (by simp), ParserState.ahead_ahead]
  have reads := Style.readsOn_rulesParser (s.cursor + 2 + body.length) scope (s.ahead 2)
  rw [ParserState.ahead_cursor] at stop raw
  simp only [StyleBlock.parser, bind_of_ok readWord, bind_of_ok readOpening,
    bind_of_ok cursor_apply, bind_of_ok stop, ParserState.ahead_cursor, bind_of_ok raw]
  cases attempted : Style.rulesParser (s.cursor + 2 + body.length) scope (s.ahead 2) with
  | ok rules t =>
    have onward : ParserState.Reaches scope (s.ahead 2) t := by rwa [attempted] at reads
    rw [bind_of_ok (attempt_of_ok attempted)]
    dsimp only
    rw [bind_of_ok (pure_apply _)]
    dsimp only
    rw [bind_of_ok (seek_apply _), bind_of_ok (readClose onward), pure_apply]
  | error e t =>
    have onward : ParserState.Reaches scope (s.ahead 2) t := by rwa [attempted] at reads
    rw [bind_of_ok (attempt_of_error attempted)]
    dsimp only
    rw [bind_of_ok scope_apply]
    split
    · rw [bind_of_ok (pure_apply _), bind_of_ok (seek_apply _), bind_of_ok (readClose onward),
        pure_apply]
    · rfl

/-- With the fallback a style block whose braces match is read, whatever stands between them and
    however deep it nests: the cursor is then right after its closing brace, at the depth of before,
    its text is that of the tokens between the braces, and its rules are those that can be read or,
    with the error, none. -/
theorem StyleBlock.parser_fallback (scope : Scope) (s : ParserState)
    {word opening close : Token} {body rest : List Token}
    (fallback : scope.options.styleFallback)
    (tokens : scope.remaining s = word :: opening :: (body ++ close :: rest))
    (hw : word.kind = .keyword .style) (ho : opening.kind = .symbol .openBrace)
    (hc : close.kind = .symbol .closeBrace) (matched : BracesMatch body)
    (inside : ∀ t ∈ body, t.kind ≠ .endOfFile) :
    ∃ block, StyleBlock.parser scope s = .ok block (s.ahead (2 + body.length + 1)) ∧
      block.raw = Style.block body ∧ (block.parseError.isSome → block.rules = []) ∧
      block.Keeps (Style.rulesParser (s.cursor + 2 + body.length) scope (s.ahead 2)) := by
  rw [StyleBlock.parser_apply tokens hw ho hc matched inside]
  cases Style.rulesParser (s.cursor + 2 + body.length) scope (s.ahead 2) with
  | ok rules t => exact ⟨_, rfl, rfl, by simp, rfl, rfl⟩
  | error e t => exact ⟨_, if_pos fallback, rfl, fun _ => rfl, rfl, rfl⟩

/-- A rule nested too deep, with a declaration that has no property, is kept as text. -/
theorem StyleBlock.parser_fallback_nested :
    ∃ scope block, scope.options = ⟨true, 1⟩ ∧
      scope.stream.toList = tokenize "style { .a { .b { : } } }" ∧
      StyleBlock.parser scope .initial = .ok block ⟨12, 0⟩ ∧
      block.raw = ".a { .b { : } }" := by
  let scope : Scope :=
    ⟨.ofList (tokenize "style { .a { .b { : } } }"), ⟨true, 1⟩, none⟩
  have tokens : scope.remaining .initial = scope.stream.get 0 :: scope.stream.get 1 ::
      ((tokenize "style { .a { .b { : } } }").extract 2 11 ++
        scope.stream.get 11 :: [scope.stream.get 12]) := by decide +kernel
  obtain ⟨block, read, raw, -⟩ := StyleBlock.parser_fallback scope .initial rfl tokens
    (by decide +kernel) (by decide +kernel) (by decide +kernel) (by decide +kernel)
    (by decide +kernel)
  have text : block.raw = ".a { .b { : } }" := raw.trans (by decide +kernel)
  exact ⟨scope, block, rfl, by decide +kernel, read, text⟩

section

variable {scope : Scope} {s t : ParserState}

namespace Declarations

theorem once_ok {α : Type} {seen read : Option α} {name : String} {p : Parser α}
    (h : once seen name p scope s = .ok read t) :
    seen = none ∧ ∃ a, read = some a ∧ p scope s = .ok a t := by
  unfold once at h
  split at h
  · exact absurd h fail_ne_ok
  · next unseen =>
    obtain ⟨a, u, first, rest⟩ := bind_eq_ok.mp h
    cases rest
    exact ⟨Option.not_isSome_iff_eq_none.mp unseen, a, rfl, first⟩

theorem failUnknown_ne_ok {α : Type} {a : α} : (failUnknown : Parser α) scope s ≠ .ok a t := by
  intro h
  rw [failUnknown, bind_of_ok current_apply, bind_of_ok peek_apply] at h
  exact failAtToken_ne_ok h

theorem add_style {d next : Declarations} (h : d.add scope s = .ok next t) :
    next.style = d.style ∨ d.style = none ∧
      ∃ block, next.style = some block ∧ StyleBlock.parser scope s = .ok block t := by
  rw [add, bind_of_ok current_apply] at h
  change Parser.run _ scope s = _ at h
  split at h
  case h_2 =>
    rw [Parser.run, bind_of_ok peek_apply] at h
    change Parser.run _ scope s = _ at h
    split at h
    · obtain ⟨_, _, -, rest⟩ := bind_eq_ok.mp h
      cases rest
      exact .inl rfl
    · obtain ⟨_, _, -, rest⟩ := bind_eq_ok.mp h
      cases rest
      exact .inl rfl
    · exact absurd h failUnknown_ne_ok
  case h_7 =>
    obtain ⟨read, u, first, rest⟩ := bind_eq_ok.mp h
    obtain ⟨unseen, block, rfl, parsed⟩ := once_ok first
    cases rest
    exact .inr ⟨unseen, block, rfl, parsed⟩
  case h_11 => exact absurd h failUnknown_ne_ok
  all_goals
    obtain ⟨_, _, -, rest⟩ := bind_eq_ok.mp h
    cases rest
    exact .inl rfl

end Declarations

theorem Program.parser_style {program : Program} {block : StyleBlock}
    (h : Program.parser scope s = .ok program t) (has : program.style = some block) :
    ∃ u v, StyleBlock.parser scope u = .ok block v := by
  rw [Program.parser, bind_of_ok current_apply] at h
  obtain ⟨d, v, read, h⟩ := bind_eq_ok.mp h
  rw [bind_of_ok current_apply] at h
  cases h
  refine loop_keeps (I := fun d => ∀ {block}, d.style = some block →
    ∃ u v, StyleBlock.parser scope u = .ok block v) ?_ ?_ read has
  · intro d next u v inv round block has
    rw [bind_of_ok (is_apply)] at round
    split at round
    · cases round
      exact inv has
    · obtain ⟨later, w, added, rest⟩ := bind_eq_ok.mp round
      cases rest
      rcases Declarations.add_style added with same | ⟨-, read, here, parsed⟩
      · exact inv (same ▸ has)
      · obtain rfl : read = block := Option.some.inj (here.symm.trans has)
        exact ⟨u, v, parsed⟩
  · intro block none
    cases none

end

end PulseSyntax
