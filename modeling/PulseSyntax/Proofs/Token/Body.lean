import PulseSyntax.Proofs.Source.Slice
import PulseSyntax.Proofs.Token.Split
import PulseSyntax.Token.Stream

namespace PulseSyntax

/-- What a token is, apart from where it stands. -/
def Token.content (t : Token) : TokenKind × TokenValue × String := (t.kind, t.value, t.raw)

theorem Token.kind_of_content {t u : Token} (h : t.content = u.content) : t.kind = u.kind :=
  congrArg Prod.fst h

theorem Token.value_of_content {t u : Token} (h : t.content = u.content) : t.value = u.value :=
  congrArg (·.2.1) h

theorem Token.raw_of_content {t u : Token} (h : t.content = u.content) : t.raw = u.raw :=
  congrArg (·.2.2) h

theorem Token.text_of_content {t u : Token} (h : t.content = u.content) : t.text = u.text := by
  rw [text, text, value_of_content h, raw_of_content h]

theorem Token.number?_of_content {t u : Token} (h : t.content = u.content) :
    t.number? = u.number? := by
  rw [number?, number?, value_of_content h]

namespace Context

/-- All open braces belong to one block. -/
def Uniform (ctx : Context) : Prop := ∃ n block, ctx.blocks = List.replicate n block

theorem uniform_initial : initial.Uniform := ⟨0, none, rfl⟩

theorem Uniform.afterKind {ctx : Context} (h : ctx.Uniform) (kind : TokenKind) :
    (ctx.afterKind kind).Uniform := by
  obtain ⟨n, block, blocks⟩ := h
  cases brace : kind.isBrace with
  | false => exact ⟨n, block, by rw [afterKind_blocks_of_plain _ brace, blocks]⟩
  | true =>
    rcases TokenKind.eq_of_isBrace brace with rfl | rfl
    · cases n with
      | zero => exact ⟨1, ctx.opened, by rw [afterKind_blocks_opening, blocks]; rfl⟩
      | succ n =>
        refine ⟨n + 2, block, ?_⟩
        rw [afterKind_blocks_opening, opened, blocks]
        rfl
    · exact ⟨n - 1, block, by rw [afterKind_blocks_closing, blocks, List.tail_replicate]⟩

theorem Uniform.after {ctx : Context} (h : ctx.Uniform) (piece : Piece) :
    (ctx.after piece).Uniform := by
  cases piece with
  | trivia => exact h
  | lexeme kind => exact h.afterKind kind

theorem Uniform.foldl {ctx : Context} (h : ctx.Uniform) (ps : List Piece) :
    (ps.foldl Context.after ctx).Uniform := by
  induction ps generalizing ctx with
  | nil => exact h
  | cons piece ps ih => exact ih (h.after piece)

theorem Uniform.block_of_mem {ctx : Context} (h : ctx.Uniform) {word : Keyword}
    (member : some word ∈ ctx.blocks) : ctx.block = some word := by
  obtain ⟨n, block, blocks⟩ := h
  rw [blocks] at member
  cases n with
  | zero => cases member
  | succ n => rw [Context.block, blocks, List.eq_of_mem_replicate member]; rfl

theorem Uniform.through_blocks {ctx : Context} (h : ctx.Uniform) (some : ctx.blocks ≠ [])
    {tokens : List Token} (braces : BracesMatch tokens) :
    (ctx.core.through tokens).blocks = ctx.blocks := by
  obtain ⟨n, block, blocks⟩ := h
  cases n with
  | zero => exact absurd blocks some
  | succ n =>
    have core : ctx.core.blocks = List.replicate (n + 1) block := blocks
    have deeper := openBraces?_add braces n
    rw [Nat.zero_add] at deeper
    rw [Context.through_blocks core deeper, blocks]

end Context

namespace Lexer

theorem map_content_place (p q : Position) (ps : List Piece) :
    (place p ps).map Token.content = (place q ps).map Token.content := by
  induction ps generalizing p q with
  | nil => rfl
  | cons piece ps ih =>
    rw [place, place, List.map_append, List.map_append, ih _ (q.after piece.text)]
    cases piece <;> rfl

theorem exists_piece {p : Position} {ps : List Piece} {i : Nat} {t : Token}
    (h : (place p ps)[i]? = some t) (inside : t.kind ≠ .endOfFile) :
    ∃ before value own rest, ps = before ++ .lexeme t.kind value own :: rest ∧
      (place p before).dropLast.length = i ∧ t.span.start = (p.after (textOf before)).byte := by
  induction ps generalizing p i with
  | nil =>
    cases i with
    | zero => cases h; exact absurd rfl inside
    | succ => cases h
  | cons piece ps ih =>
    have later {i : Nat} (h : (place (p.after piece.text) ps)[i]? = some t) :
        ∃ before value own rest, piece :: ps = piece :: before ++ .lexeme t.kind value own :: rest ∧
          (place p (piece :: before)).dropLast.length = (piece.token? p).toList.length + i ∧
          t.span.start = (p.after (textOf (piece :: before))).byte := by
      obtain ⟨before, value, own, rest, rfl, length, start⟩ := ih h
      refine ⟨before, value, own, rest, rfl, ?_, ?_⟩
      · rw [place, List.dropLast_append_of_ne_nil (place_ne_nil _ _), List.length_append, length]
      · rw [textOf_cons, Position.after_append]
        exact start
    cases piece with
    | trivia text =>
      obtain ⟨before, value, own, rest, whole, length, start⟩ := later h
      exact ⟨_, value, own, rest, whole, by rw [length]; exact Nat.zero_add i, start⟩
    | lexeme kind value text =>
      cases i with
      | zero =>
        cases h
        exact ⟨[], value, text, ps, rfl, rfl, rfl⟩
      | succ i =>
        obtain ⟨before, value', own, rest, whole, length, start⟩ := later h
        exact ⟨_, value', own, rest, whole, by rw [length]; exact Nat.add_comm 1 i, start⟩

theorem exists_brace {ctx : Context} {p : Position} {text : List Char} {i : Nat} {t : Token}
    {sign : Symbol} (h : (place p (pieces ctx 0 text))[i]? = some t) (kind : t.kind = .symbol sign)
    (brace : t.kind.isBrace) :
    ∃ before after, text = textOf before ++ (sign.spelling.toList ++ after) ∧
      pieces ctx 0 text = before ++ .symbol sign ::
        pieces ((before.foldl Context.after ctx).after (.symbol sign)) 0 after ∧
      (place p before).dropLast.length = i ∧ t.span.start = (p.after (textOf before)).byte := by
  obtain ⟨before, value, own, rest, whole, length, start⟩ := exists_piece h (by simp [kind])
  obtain ⟨sign', after, same, text_eq, rfl⟩ := pieces_brace whole brace
  obtain rfl : sign' = sign := by
    rw [kind] at same
    cases same
    rfl
  rw [same] at whole text_eq
  exact ⟨before, after, text_eq, whole, length, start⟩

theorem alike_after_closeBrace {ctx ctx' : Context} (uniform : ctx.Uniform)
    (blocks : ctx.blocks = ctx'.blocks)
    (parens : ctx.block = some .view → ctx.parens = ctx'.parens) :
    (ctx.after (.symbol .closeBrace)).Alike (ctx'.after (.symbol .closeBrace)) where
  blocks := congrArg List.tail blocks
  parens view := parens (uniform.block_of_mem (List.mem_of_mem_tail view))
  inside _ := ⟨rfl, rfl⟩

def inBrace (before : List Char) : Context := left .initial (before ++ ['{'])

/-- The tokens of a text that stands after an opening brace, and the end of the file. -/
def tokensIn (before text : List Char) : List Token :=
  place (Position.origin.after (before ++ ['{'])) (pieces (inBrace before) 0 text)

theorem uniform_inBrace (before : List Char) : (inBrace before).Uniform :=
  Context.uniform_initial.foldl _

theorem exists_openBrace {source : List Char} {i : Nat} {t : Token}
    (h : (tokens source)[i]? = some t) (kind : t.kind = .symbol .openBrace) :
    ∃ before text own, source = before ++ '{' :: text ∧
      t.span.start = Text.byteSize before ∧ own.length = i + 1 ∧
      (∀ text, tokens (before ++ '{' :: text) = own ++ tokensIn before text) ∧
      (inBrace before).blocks ≠ [] ∧ (inBrace before).core = Context.initial.through own := by
  obtain ⟨outer, text, whole, cut, length, start⟩ := exists_brace h kind (by simp [kind])
  rw [whole] at cut
  have context : inBrace (textOf outer) =
      (outer ++ [Piece.symbol .openBrace]).foldl Context.after .initial := by
    rw [inBrace, left, pieces_openBrace cut]
    rfl
  have after : Position.origin.after (textOf (outer ++ [.symbol .openBrace])) =
      Position.origin.after (textOf outer ++ ['{']) := by
    rw [textOf_append]
    rfl
  refine ⟨textOf outer, text, (place .origin (outer ++ [.symbol .openBrace])).dropLast, whole, ?_,
    ?_, fun text => ?_, ?_, ?_⟩
  · rw [start, Position.origin_after_byte]
  · rw [place_append, List.dropLast_append_of_ne_nil (place_ne_nil _ _), List.length_append, length]
    rfl
  · rw [tokens, pieces_openBrace cut, tokensIn, ← after, ← place_append, context,
      List.append_assoc, List.foldl_append]
    rfl
  · rw [context, List.foldl_append]
    exact List.cons_ne_nil _ _
  · rw [context, left_core]
    rfl

theorem exists_closeBrace {before text : List Char} {i : Nat} {t : Token}
    (h : (tokensIn before text)[i]? = some t) (kind : t.kind = .symbol .closeBrace) :
    ∃ (body after : List Char) (atClose : Context) (p : Position), text = body ++ '}' :: after ∧
      t.span.start = Text.byteSize (before ++ '{' :: body) ∧
      atClose.core = (inBrace before).core.through ((tokensIn before text).take i) ∧
      (tokensIn before text).drop i = place p (.symbol .closeBrace ::
        pieces (atClose.after (.symbol .closeBrace)) 0 after) := by
  obtain ⟨inner, after, whole, cut, length, start⟩ := exists_brace h kind (by simp [kind])
  have split := place_append (Position.origin.after (before ++ ['{'])) inner
    (.symbol .closeBrace :: pieces
      ((inner.foldl Context.after (inBrace before)).after (.symbol .closeBrace)) 0 after)
  rw [← cut] at split
  refine ⟨textOf inner, after, inner.foldl Context.after (inBrace before), _, whole, ?_, ?_,
    (congrArg (List.drop i) split).trans (List.drop_left' length)⟩
  · rw [start, ← Position.after_append, Position.origin_after_byte, List.append_assoc]
    rfl
  · rw [left_core, tokensIn, split, List.take_left' length]

/-- The texts before, in and after the braces around a range of tokens. -/
structure BodyAt (source : List Char) (r : TokenRange) (before body after : List Char) : Prop where
  whole : source = before ++ '{' :: (body ++ '}' :: after)
  opening : ∃ t, (tokens source)[r.start - 1]? = some t ∧ t.kind = .symbol .openBrace ∧
    t.span.start = Text.byteSize before
  closing : ∃ t, (tokens source)[r.stop]? = some t ∧ t.kind = .symbol .closeBrace ∧
    t.span.start = Text.byteSize (before ++ '{' :: body)

theorem BodyAt.bind_takeBytes? {source before body after : List Char} {r : TokenRange}
    (h : BodyAt source r before body after) :
    (tokens source)[r.start - 1]?.bind (Text.takeBytes? source ·.span.start) = some before := by
  obtain ⟨t, opening, -, start⟩ := h.opening
  rw [opening, Option.bind_some, start]
  nth_rewrite 1 [h.whole]
  exact Text.takeBytes?_append before _

/-- A text that may stand between the braces of a body instead: it ends its last line, its literals,
    comments and selectors are complete, its braces stand in pairs, and in markup it leaves as many
    parentheses open as the body does. -/
structure FitsBody (before : List Char) (atClose : Context) (text : List Char) : Prop where
  lineFeed : text.getLast? = some '\n'
  complete : Complete (inBrace before) (Position.origin.after (before ++ ['{'])) text
  braces : BracesMatch (tokensIn before text).dropLast
  parens : atClose.block = some .view → (left (inBrace before) text).parens = atClose.parens

theorem FitsBody.tokens {before text : List Char} {atClose : Context}
    (fits : FitsBody before atClose text) (some : (inBrace before).blocks ≠ [])
    (blocks : atClose.blocks = (inBrace before).blocks) (after : List Char) :
    ∃ p, tokensIn before (text ++ '}' :: after) = (tokensIn before text).dropLast ++
      place p (.symbol .closeBrace ::
        pieces (atClose.after (.symbol .closeBrace)) 0 after) := by
  obtain ⟨x, rfl⟩ := List.getLast?_eq_some_iff.mp fits.lineFeed
  -- Braces in pairs leave the block of the body, and in markup its parentheses are left as well.
  have core := left_core (inBrace before) (Position.origin.after (before ++ ['{']))
    (pieces (inBrace before) 0 (x ++ ['\n']))
  have same : (left (inBrace before) (x ++ ['\n'])).blocks = atClose.blocks := by
    rw [blocks, ← (uniform_inBrace before).through_blocks some fits.braces, ← Context.core_blocks]
    exact congrArg Context.blocks core
  have uniform : (left (inBrace before) (x ++ ['\n'])).Uniform := (uniform_inBrace before).foldl _
  have alike := alike_after_closeBrace uniform same fun view => fits.parens (by
    rw [Context.block, ← same]
    exact view)
  have closing : pieces (left (inBrace before) (x ++ ['\n'])) 0 ('}' :: after) =
      .symbol .closeBrace :: pieces (atClose.after (.symbol .closeBrace)) 0 after := by
    have first := @pieces_scan (left (inBrace before) (x ++ ['\n'])) '}' after after rfl
    rw [first, scan_closeBrace]
    exact congrArg _ (pieces_congr (p := .origin) alike
      (.inl (Context.opened_congr alike.blocks rfl)))
  -- The text ends its last line, so the brace after it starts anew.
  have whole := place_seam fits.complete ('}' :: after)
  rw [closing] at whole
  rw [tokensIn, List.append_assoc]
  exact ⟨_, whole⟩

/-- Where braces in pairs stand between two braces among the tokens, another text that fits there
    leaves what the tokens before and after it are. -/
theorem tokens_replaced {source : List Char} {r : TokenRange} {opening closing : Token}
    (pos : 0 < r.start) (le : r.start ≤ r.stop)
    (first : (tokens source)[r.start - 1]? = some opening)
    (openBrace : opening.kind = .symbol .openBrace)
    (last : (tokens source)[r.stop]? = some closing)
    (closeBrace : closing.kind = .symbol .closeBrace)
    (matched : BracesMatch (r.tokens (tokens source))) :
    ∃ before body after atClose, BodyAt source r before body after ∧
      (contexts source)[r.stop]? = some atClose ∧ ∀ text, FitsBody before atClose text →
        ∃ rest, tokens (before ++ '{' :: (text ++ '}' :: after)) =
            (tokens source).take r.start ++ (tokensIn before text).dropLast ++ rest ∧
          rest.map Token.content = ((tokens source).drop r.stop).map Token.content := by
  obtain ⟨before, inside, own, rfl, start, length, outside, open_, context⟩ :=
    exists_openBrace first openBrace
  rw [Nat.sub_add_cancel pos] at length
  obtain ⟨n, stop⟩ := Nat.exists_eq_add_of_le le
  have at_close : (tokensIn before inside)[n]? = some closing := by
    rwa [outside, stop, ← length, List.getElem?_append_right (Nat.le_add_right _ _),
      Nat.add_sub_cancel_left] at last
  have matched : BracesMatch ((tokensIn before inside).take n) := by
    rwa [TokenRange.tokens, outside, List.drop_left' length, TokenRange.length, stop,
      Nat.add_sub_cancel_left] at matched
  obtain ⟨body, after, atBrace, p, rfl, start', core, rest⟩ := exists_closeBrace at_close closeBrace
  -- The lexer's context at the closing brace is the one after the pieces of the body, but perhaps
  -- for the character before it, which no brace depends on.
  obtain ⟨atClose, here⟩ := exists_context last
  have same : atClose.core = atBrace.core := by
    rw [core_of_contexts here, outside, stop, ← length, List.take_length_add_append,
      Context.through_append, core, context]
  have blocks : atBrace.blocks = (inBrace before).blocks := by
    rw [← (uniform_inBrace before).through_blocks open_ matched, ← core, Context.core_blocks]
  refine ⟨before, body, after, atClose, ⟨rfl, ⟨_, first, openBrace, start⟩,
    ⟨_, last, closeBrace, start'⟩⟩, here, fun text fits => ?_⟩
  have parens (view : atBrace.block = some .view) :
      (left (inBrace before) text).parens = atBrace.parens := by
    rw [← Context.core_block, ← same, Context.core_block] at view
    rw [fits.parens view, ← Context.core_parens, same, Context.core_parens]
  obtain ⟨q, replaced⟩ := FitsBody.tokens { fits with parens } open_ blocks after
  refine ⟨place q (.symbol .closeBrace :: pieces (atBrace.after (.symbol .closeBrace)) 0 after),
    ?_, ?_⟩
  · rw [outside, outside, replaced, List.take_left' length, List.append_assoc]
  · rw [outside, stop, ← length, List.drop_length_add_append, rest, map_content_place q p]

end Lexer

end PulseSyntax
