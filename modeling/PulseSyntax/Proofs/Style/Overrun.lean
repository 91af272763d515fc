import PulseSyntax.Proofs.Style.Block
import PulseSyntax.Proofs.Style.Extent
import PulseSyntax.Proofs.Token.Order

/-!
How far the rules of a style block reach. The block ends at the brace that matches its first, but its
rules are read without regard to that: an item with an open parenthesis goes on beyond it, and takes
in what the file declares next. The rules keep to the block exactly where both notions of its end
agree.
-/

namespace PulseSyntax

open PulseSyntax.Parser

def Span.Within (inner outer : Span) : Prop := outer.start ≤ inner.start ∧ inner.stop ≤ outer.stop

/-- A rule and all it holds, at any nesting, stand within a range. -/
inductive StyleNode.LiesIn (outer : Span) : StyleNode → Prop
  | rule {selector : String} {declarations : List StyleDeclaration} {rules : List StyleNode}
      {span : Span} (ds : ∀ d ∈ declarations, d.span.Within outer)
      (rs : ∀ node ∈ rules, LiesIn outer node) (whole : span.Within outer) :
      LiesIn outer (.rule selector declarations rules span)
  | atRule {name prelude : String} {hasBlock : Bool} {declarations : List StyleDeclaration}
      {rules : List StyleNode} {span : Span} (ds : ∀ d ∈ declarations, d.span.Within outer)
      (rs : ∀ node ∈ rules, LiesIn outer node) (whole : span.Within outer) :
      LiesIn outer (.atRule name prelude hasBlock declarations rules span)

theorem StyleNode.LiesIn.span {outer : Span} {node : StyleNode} (h : node.LiesIn outer) :
    node.span.Within outer := by
  cases h with
  | rule _ _ whole => exact whole
  | atRule _ _ whole => exact whole

section

variable {stream : TokenStream} {i stop : Nat}

theorem TokenStream.Spans.within {span : Span} (h : stream.Spans (i + 1) stop span)
    (ordered : stream.Ordered) (inside : stop < stream.size) :
    span.Within ⟨(stream.get i).span.stop, (stream.get stop).span.start⟩ := by
  obtain ⟨a, b, first, le, last, rfl⟩ := h
  have aStart := ordered.disjoint (show i < a by omega) (by omega)
  have aStop := ordered.disjoint (show a < stop by omega) inside
  have bStart := ordered.disjoint (show i < b by omega) (by omega)
  have bStop := ordered.disjoint (show b < stop by omega) inside
  exact ⟨Nat.le_min.mpr ⟨aStart, bStart⟩, Nat.max_le.mpr ⟨aStop, bStop⟩⟩

theorem StyleNode.BuiltFrom.liesIn {node : StyleNode} (h : node.BuiltFrom stream (i + 1) stop)
    (ordered : stream.Ordered) (inside : stop < stream.size) :
    node.LiesIn ⟨(stream.get i).span.stop, (stream.get stop).span.start⟩ := by
  induction h with
  | rule _ ds _ whole ih =>
    exact .rule (fun d member => (ds d member).span.within ordered inside) ih
      (whole.within ordered inside)
  | atRule _ _ _ ds _ whole ih =>
    exact .atRule (fun d member => (ds d member).span.within ordered inside) ih
      (whole.within ordered inside)

theorem Style.RulesRead.eq_of_liesIn {rules : List StyleNode} {j : Nat}
    (read : Style.RulesRead stream (i + 1) stop rules j) (ordered : stream.Ordered)
    (hc : (stream.get stop).kind = .symbol .closeBrace) (beyond : stop ≤ j)
    (lie : ∀ node ∈ rules,
      node.LiesIn ⟨(stream.get i).span.stop, (stream.get stop).span.start⟩) : j = stop := by
  rcases Nat.eq_or_lt_of_le beyond with same | further
  · exact same.symm
  · obtain ⟨node, member, last, le, reach⟩ := read.beyond further
    have kept := (lie node member).span.2
    have some := ordered.nonempty (show (stream.get stop).kind ≠ .endOfFile by simp [hc])
    have onward := ordered.stop_le_stop le
    dsimp only at kept
    omega

end

theorem StyleBlock.parser_ok {scope : Scope} {s t : ParserState} {block : StyleBlock}
    (h : StyleBlock.parser scope s = .ok block t) (read : block.parseError = none) :
    ∃ word opening body close rest u,
      scope.remaining s = word :: opening :: (body ++ close :: rest) ∧
      word.kind = .keyword .style ∧ opening.kind = .symbol .openBrace ∧
      close.kind = .symbol .closeBrace ∧ BracesMatch body ∧
      Style.rulesParser (s.cursor + 2 + body.length) scope (s.ahead 2) = .ok block.rules u := by
  obtain ⟨word, opening, body, close, rest, tokens, hw, ho, hc, matched, inside⟩ :=
    StyleBlock.parser_tokens h
  rw [StyleBlock.parser_apply tokens hw ho hc matched inside] at h
  split at h
  · next rules u attempted =>
    cases h
    exact ⟨word, opening, body, close, rest, u, tokens, hw, ho, hc, matched, attempted⟩
  · split at h
    · cases h
      cases read
    · cases h

theorem Component.parse_ok {source : String} {options : Options} {c : Component}
    (parsed : Component.parse source options = .ok c) :
    c.tokens = tokenize source ∧
      ∃ t, Program.parser ⟨.ofList (tokenize source), options, none⟩ .initial = .ok c.program t := by
  unfold Component.parse at parsed
  dsimp only at parsed
  split at parsed
  · next program t read =>
    cases parsed
    exact ⟨TokenStream.toList_ofList_tokenize source, t, read⟩
  · cases parsed

theorem Component.exists_parse {source : String} {options : Options} {α : Type}
    {f : Component → Option α} {a : α}
    (h : (Component.parse source options).toOption.bind f = some a) :
    ∃ c, Component.parse source options = .ok c ∧ f c = some a := by
  cases parsed : Component.parse source options with
  | error e =>
    rw [parsed] at h
    cases h
  | ok c =>
    rw [parsed] at h
    exact ⟨c, rfl, h⟩

/-- The rules of a style block are read at least up to its closing brace, and they end there, are
    built from the tokens of the block alone, and stand within its braces, exactly where the brace
    that ends the block as its items are read is that one. -/
theorem Component.parse_style_extent {source : String} {options : Options} {c : Component}
    {block : StyleBlock} (parsed : Component.parse source options = .ok c)
    (has : c.program.style = some block) (read : block.parseError = none) :
    ∃ before word opening body close after s t,
      c.tokens = before ++ word :: opening :: (body ++ close :: after) ∧
      word.kind = .keyword .style ∧ opening.kind = .symbol .openBrace ∧
      close.kind = .symbol .closeBrace ∧ BracesMatch body ∧ s.cursor = before.length + 2 ∧
      Style.rulesParser (s.cursor + body.length) ⟨.ofList (tokenize source), options, none⟩ s =
        .ok block.rules t ∧
      s.cursor + body.length ≤ t.cursor ∧
      (t.cursor = s.cursor + body.length ↔
        Style.lengthAsRead? (body ++ close :: after) = some body.length) ∧
      ((∀ node ∈ block.rules, node.BuiltFrom (.ofList (tokenize source)) s.cursor
          (s.cursor + body.length)) ↔
        Style.lengthAsRead? (body ++ close :: after) = some body.length) ∧
      ((∀ node ∈ block.rules, node.LiesIn ⟨opening.span.stop, close.span.start⟩) ↔
        Style.lengthAsRead? (body ++ close :: after) = some body.length) := by
  let scope : Scope := ⟨.ofList (tokenize source), options, none⟩
  have ordered : scope.stream.Ordered := TokenStream.ordered_tokenize source
  obtain ⟨same, v, program_read⟩ := Component.parse_ok parsed
  obtain ⟨s, u, style_read⟩ := Program.parser_style program_read has
  obtain ⟨word, opening, body, close, after, t, tokens, hw, ho, hc, matched, rules⟩ :=
    StyleBlock.parser_ok style_read read
  have afterWord := Scope.remaining_ahead_one tokens
  have afterOpening : scope.remaining (s.ahead 2) = body ++ close :: after :=
    Scope.remaining_ahead_one afterWord
  have getWord : scope.stream.get s.cursor = word := Scope.get_of_remaining tokens
  have getOpening : scope.stream.get (s.cursor + 1) = opening := Scope.get_of_remaining afterWord
  have getClose : scope.stream.get (s.cursor + 2 + body.length) = close :=
    Scope.get_of_remaining (Scope.remaining_ahead afterOpening)
  have stop : (scope.stream.get (s.cursor + 2 + body.length)).kind = .symbol .closeBrace := by
    rw [getClose, hc]
  have inside : s.cursor + 2 + body.length < scope.stream.size :=
    Nat.lt_of_succ_lt (TokenStream.lt_size_of_kind_ne (by simp [stop]))
  obtain ⟨made, beyond⟩ := Style.rulesParser_ok stop (Nat.le_add_right _ _) rules
  have ends := made.length_iff stop (Nat.le_add_right _ _) beyond
  rw [ParserState.ahead_cursor, Nat.add_sub_cancel_left] at ends
  rw [show scope.stream.tokensFrom (s.cursor + 2) = _ from afterOpening] at ends
  have built : t.cursor = s.cursor + 2 + body.length →
      ∀ node ∈ block.rules, node.BuiltFrom scope.stream (s.cursor + 2)
        (s.cursor + 2 + body.length) := by
    intro here node member
    exact here ▸ made.built node member
  have lie (h : ∀ node ∈ block.rules, node.BuiltFrom scope.stream (s.cursor + 2)
      (s.cursor + 2 + body.length)) :
      ∀ node ∈ block.rules, node.LiesIn ⟨opening.span.stop, close.span.start⟩ := by
    intro node member
    have lies := (h node member).liesIn ordered inside
    rwa [getOpening, getClose] at lies
  have back (h : ∀ node ∈ block.rules, node.LiesIn ⟨opening.span.stop, close.span.start⟩) :
      t.cursor = s.cursor + 2 + body.length := by
    rw [← getOpening, ← getClose] at h
    exact made.eq_of_liesIn ordered stop beyond h
  refine ⟨scope.stream.toList.take s.cursor, word, opening, body, close, after, s.ahead 2, t, ?_, hw,
    ho, hc, matched, ?_, rules, beyond, ends.symm, ?_, ?_⟩
  · rw [Scope.remaining, TokenStream.tokensFrom_eq] at tokens
    rw [same, ← tokens, List.take_append_drop]
    exact (TokenStream.toList_ofList_tokenize source).symm
  · rw [ParserState.ahead_cursor, List.length_take, Nat.min_eq_left]
    exact Nat.le_of_lt (Nat.lt_of_le_of_lt (by omega) inside)
  · exact ⟨fun h => ends.mpr (back (lie h)), fun h => built (ends.mp h)⟩
  · exact ⟨fun h => ends.mpr (back h), fun h => lie (built (ends.mp h))⟩

/-- The prelude of an at-rule takes in the next declaration. -/
theorem Component.parse_style_extent_openParen :
    ∃ c block opening close,
      Component.parse "style { @import (x }\nstate { a: 1 }" .standard = .ok c ∧
      c.program.style = some block ∧ block.parseError = none ∧
      [opening, close].Sublist c.tokens ∧ opening.kind = .symbol .openBrace ∧
      close.kind = .symbol .closeBrace ∧
      ¬ ∀ node ∈ block.rules, node.LiesIn ⟨opening.span.stop, close.span.start⟩ := by
  generalize hs : "style { @import (x }\nstate { a: 1 }" = source
  have read : ((Component.parse source .standard).toOption.bind (·.program.style)).any
      (·.parseError.isNone) = true := by
    subst hs
    decide +kernel
  cases parsed : Component.parse source .standard with
  | error e =>
    rw [parsed] at read
    cases read
  | ok c =>
    rw [parsed] at read
    obtain ⟨block, has, fine⟩ := (Option.any_eq_true _ _).mp read
    rw [Option.isNone_iff_eq_none] at fine
    obtain ⟨before, word, opening, body, close, after, s, t, tokens, hw, ho, hc, -, -, -, -, -, -,
      lie⟩ := Component.parse_style_extent parsed has fine
    refine ⟨c, block, opening, close, rfl, has, fine, ?_, ho, hc, ?_⟩
    · rw [tokens]
      have own : [opening, close].Sublist (opening :: (body ++ close :: after)) :=
        (List.singleton_sublist.mpr (by simp)).cons_cons opening
      exact (own.trans (List.sublist_cons_self word _)).trans (List.sublist_append_right _ _)
    · rw [lie]
      have whole := (Component.parse_ok parsed).1
      have first : before.length = 0 := by
        have at_word : c.tokens[before.length]? = some word := by simp [tokens]
        have only : ∀ i < (tokenize source).length,
            (tokenize source)[i]?.map Token.kind = some (.keyword .style) → i = 0 := by
          subst hs
          decide +kernel
        apply only _ (by rw [← whole, tokens]; simp)
        rw [← whole, at_word, Option.map_some, hw]
      have rest : (tokenize source).drop 2 = body ++ close :: after := by
        rw [← whole, tokens, List.length_eq_zero_iff.mp first]
        rfl
      have none : Style.lengthAsRead? ((tokenize source).drop 2) = none := by
        subst hs
        decide +kernel
      rw [← rest, none]
      simp

end PulseSyntax
