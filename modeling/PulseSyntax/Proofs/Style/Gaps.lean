import PulseSyntax.Proofs.Style.Overrun
import PulseSyntax.Proofs.Token.Lossless
import PulseSyntax.Proofs.Token.Stream

namespace PulseSyntax

open PulseSyntax.Parser

theorem Token.StandsIn.line_lt_iff {source : List Char} {t u : Token} (h : t.StandsIn source)
    (h' : u.StandsIn source) (touch : t.span.stop = u.span.start) :
    t.line < u.line ↔ '\n' ∈ t.raw.toList := by
  have le : t.span.start ≤ t.span.stop := by
    obtain ⟨before, _, -, start, stop⟩ := Text.slice?_eq_some.mp h.raw
    rw [← start, ← stop, Text.byteSize_append]
    exact Nat.le_add_right _ _
  obtain ⟨before, taken, line, -⟩ := h.place
  obtain ⟨before', taken', line', -⟩ := h'.place
  obtain ⟨own, rfl, slice⟩ := Text.slice?_of_takeBytes? taken taken' (touch ▸ le)
  rw [← touch, h.raw] at slice
  obtain rfl := Option.some.inj slice
  rw [Token.line, Token.line, line, line', List.count_append, ← List.count_pos_iff]
  omega

namespace Style

/-- What stands between two tokens, the second with so many open braces before it: nothing, a space,
    or a line break and the indentation. It is a line break where the second token starts on a later
    line; and nothing where the two touch, but for a first one that holds a line feed. -/
structure Gap (depth : Nat) (t u : Token) (gap : List Char) : Prop where
  blank : gap = [] ∨ gap = [' '] ∨ gap = lineBreak (depthAt depth u)
  breaks : gap = lineBreak (depthAt depth u) ↔ t.line < u.line
  glued : t.span.stop = u.span.start → (gap = [] ↔ '\n' ∉ t.raw.toList)

/-- A text that has the tokens in their order, with so many open braces before the first. -/
inductive Spaced : Nat → List Token → List Char → Prop
  | nil {depth : Nat} : Spaced depth [] []
  | last {depth : Nat} (t : Token) : Spaced depth [t] t.raw.toList
  | cons {depth inner : Nat} {t u : Token} {later : List Token} {gap text : List Char} :
      openBraces? depth [t] = some inner → Gap inner t u gap → Spaced inner (u :: later) text →
      Spaced depth (t :: u :: later) (t.raw.toList ++ gap ++ text)

section

variable {depth inner : Nat} {t u : Token}

theorem depthAfter_depthAt (h : openBraces? depth [t] = some inner) :
    depthAfter (depthAt depth t) t = inner := by
  simp only [openBraces?] at h
  split at h
  · next kind =>
    cases h
    simp [depthAfter, depthAt, kind]
  · next kind =>
    split at h
    · cases h
    · cases h
      simp [depthAfter, depthAt, kind]
  · next opens closes =>
    cases h
    have noOpening : (t.kind == .symbol .openBrace) = false := beq_eq_false_iff_ne.mpr opens
    have noClosing : (t.kind == .symbol .closeBrace) = false := beq_eq_false_iff_ne.mpr closes
    simp [depthAfter, depthAt, noOpening, noClosing]

theorem lineBreak_ne (depth : Nat) : lineBreak depth ≠ [] ∧ lineBreak depth ≠ [' '] := by
  simp [lineBreak]

theorem gap_of_lines (depth : Nat)
    (lines : t.span.stop = u.span.start → (t.line < u.line ↔ '\n' ∈ t.raw.toList)) :
    Gap depth t u (if t.line < u.line then lineBreak (depthAt depth u)
      else if needsSpace .value t u then [' '] else []) := by
  have ⟨notEmpty, notSpace⟩ := lineBreak_ne (depthAt depth u)
  by_cases later : t.line < u.line
  · rw [if_pos later]
    refine ⟨.inr (.inr rfl), iff_of_true rfl later, fun touch => ?_⟩
    exact iff_of_false notEmpty (not_not_intro ((lines touch).mp later))
  · rw [if_neg later]
    refine ⟨?_, iff_of_false ?_ later, fun touch => ?_⟩
    · split
      · exact .inr (.inl rfl)
      · exact .inl rfl
    · split
      · exact notSpace.symm
      · exact notEmpty.symm
    · have together : needsSpace .value t u = false := by simp [needsSpace, touch]
      simp [together, ← lines touch, later]

theorem blockAfter_spaced {ts : List Token} {closed : Nat}
    (lines : ∀ t ∈ ts, ∀ u ∈ ts,
      t.span.stop = u.span.start → (t.line < u.line ↔ '\n' ∈ t.raw.toList))
    (braces : openBraces? depth ts = some closed) (own : ts = t :: later) :
    Spaced depth ts (t.raw.toList ++ blockAfter (depthAfter (depthAt depth t) t) t later) := by
  induction later generalizing depth t ts with
  | nil =>
    subst own
    simpa [blockAfter] using .last t
  | cons u later ih =>
    subst own
    rw [openBraces?_cons] at braces
    obtain ⟨inner, first, rest⟩ := Option.bind_eq_some_iff.mp braces
    rw [depthAfter_depthAt first, blockAfter, List.append_assoc, ← List.append_assoc]
    refine .cons first (gap_of_lines inner (lines t (by simp) u (by simp))) ?_
    refine ih (fun v member w member' => ?_) rest rfl
    exact lines v (List.mem_cons_of_mem t member) w (List.mem_cons_of_mem t member')

theorem block_spaced {ts : List Token}
    (lines : ∀ t ∈ ts, ∀ u ∈ ts,
      t.span.stop = u.span.start → (t.line < u.line ↔ '\n' ∈ t.raw.toList))
    (matched : BracesMatch ts) : Spaced 0 ts (block ts).toList := by
  cases ts with
  | nil => exact .nil
  | cons t later =>
    rw [block, String.toList_ofList]
    exact blockAfter_spaced lines matched rfl

end

end Style

theorem StyleBlock.parser_raw {scope : Scope} {s t : ParserState} {block : StyleBlock}
    (h : StyleBlock.parser scope s = .ok block t) :
    ∃ word opening body close rest,
      scope.remaining s = word :: opening :: (body ++ close :: rest) ∧
      word.kind = .keyword .style ∧ opening.kind = .symbol .openBrace ∧
      close.kind = .symbol .closeBrace ∧ BracesMatch body ∧
      block.raw = Style.block body ∧ block.span = word.span.cover close.span := by
  obtain ⟨word, opening, body, close, rest, tokens, hw, ho, hc, matched, inside⟩ :=
    StyleBlock.parser_tokens h
  rw [StyleBlock.parser_apply tokens hw ho hc matched inside] at h
  refine ⟨word, opening, body, close, rest, tokens, hw, ho, hc, matched, ?_⟩
  split at h
  · cases h
    exact ⟨rfl, rfl⟩
  · split at h
    · cases h
      exact ⟨rfl, rfl⟩
    · cases h

/-- The text of every style block has all its tokens in their order, with a line break and an
    indentation, a space or nothing between two of them; and nothing between two that touch exactly
    where the first of them holds no line feed. -/
theorem Component.parse_style_spaced {source : String} {options : Options} {c : Component}
    {block : StyleBlock} (parsed : Component.parse source options = .ok c)
    (has : c.program.style = some block) :
    ∃ before word opening body close after,
      c.tokens = before ++ word :: opening :: (body ++ close :: after) ∧
      word.kind = .keyword .style ∧ opening.kind = .symbol .openBrace ∧
      close.kind = .symbol .closeBrace ∧ BracesMatch body ∧
      block.span = word.span.cover close.span ∧ Style.Spaced 0 body block.raw.toList := by
  let scope : Scope := ⟨.ofList (tokenize source), options, none⟩
  obtain ⟨same, v, program_read⟩ := Component.parse_ok parsed
  obtain ⟨s, u, style_read⟩ := Program.parser_style program_read has
  obtain ⟨word, opening, body, close, after, tokens, hw, ho, hc, matched, raw, span⟩ :=
    StyleBlock.parser_raw style_read
  have whole : c.tokens =
      (tokenize source).take s.cursor ++ word :: opening :: (body ++ close :: after) := by
    rw [Scope.remaining, TokenStream.tokensFrom_eq, TokenStream.toList_ofList_tokenize] at tokens
    rw [same, ← tokens, List.take_append_drop]
  have own : ∀ t ∈ body, t ∈ tokenize source := fun t member => by
    rw [← same, whole]
    simp [member]
  have laid : Laid source.toList [] (tokenize source) := laid_tokens source.toList
  refine ⟨_, word, opening, body, close, after, whole, hw, ho, hc, matched, span, ?_⟩
  rw [raw]
  refine Style.block_spaced (fun t member u member' touch => ?_) matched
  exact (laid.standsIn t (own t member)).line_lt_iff (laid.standsIn u (own u member')) touch

/-- The semicolon after a string that runs over two lines is moved to a line of its own, though the
    two touch. -/
theorem Component.parse_style_spaced_string :
    ∃ c block body, Component.parse r#"style { .a { content: "x
y"; } }"# .standard = .ok c ∧
      c.program.style = some block ∧ body.Sublist c.tokens ∧ Style.Spaced 0 body block.raw.toList ∧
      block.raw = r#".a { content: "x
y"
  ; }"# ∧
      c.tokens[7]?.map (fun t => (t.raw, t.span.stop)) = some ("\"x\ny\"", 27) ∧
      c.tokens[8]?.map (fun u => (u.raw, u.span.start)) = some (";", 27) := by
  generalize hs : r#"style { .a { content: "x
y"; } }"# = source
  have read : ((Component.parse source .standard).toOption.bind (·.program.style)).map (·.raw) =
      some r#".a { content: "x
y"
  ; }"# := by
    subst hs
    decide +kernel
  have touch : (tokenize source)[7]?.map (fun t => (t.raw, t.span.stop)) = some ("\"x\ny\"", 27) ∧
      (tokenize source)[8]?.map (fun u => (u.raw, u.span.start)) = some (";", 27) := by
    subst hs
    decide +kernel
  cases parsed : Component.parse source .standard with
  | error e =>
    rw [parsed] at read
    cases read
  | ok c =>
    rw [parsed] at read
    obtain ⟨block, has, raw⟩ := Option.map_eq_some_iff.mp read
    obtain ⟨before, word, opening, body, close, after, tokens, -, -, -, -, -, spaced⟩ :=
      Component.parse_style_spaced parsed has
    refine ⟨c, block, body, rfl, has, ?_, spaced, raw, (Component.parse_ok parsed).1 ▸ touch⟩
    rw [tokens]
    have own : body.Sublist (body ++ close :: after) := List.sublist_append_left _ _
    exact ((own.cons opening).cons word).trans (List.sublist_append_right _ _)

end PulseSyntax
