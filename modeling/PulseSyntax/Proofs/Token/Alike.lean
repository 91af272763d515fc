import PulseSyntax.Proofs.Token.Context
import PulseSyntax.Proofs.Token.Scan

namespace PulseSyntax

namespace Context

end Context

theorem Lexer.scan_congr {ctx ctx' : Context} (style : ctx.inStyle = ctx'.inStyle)
    (markup : ctx.inMarkup = ctx'.inMarkup)
    (comment : ctx.allowsLineComment = ctx'.allowsLineComment) (c : Char) (cs : List Char) :
    scan ctx c cs = scan ctx' c cs := by
  have word : Word.scan ctx c cs = Word.scan ctx' c cs := by
    simp only [Word.scan, style, markup]
  have name : Word.scanAt ctx cs = Word.scanAt ctx' cs := by
    simp only [Word.scanAt, style]
  have hash : scanHash ctx cs = scanHash ctx' cs := by
    rw [scanHash, scanHash, style, startsSelector, startsSelector, markup]
  have dot : scanDot ctx cs = scanDot ctx' cs := by
    rw [scanDot, scanDot, startsSelector, startsSelector, markup]
  simp only [scan, scanToken, word, name, hash, dot, style, comment]

namespace Context

/-- The same blocks are open, and what else decides how the next character reads is the same. -/
structure Alike (ctx ctx' : Context) : Prop where
  blocks : ctx.blocks = ctx'.blocks
  parens : some .view ∈ ctx.blocks → ctx.parens = ctx'.parens
  inside : ctx.blocks ≠ [] → ctx.lastKind = ctx'.lastKind ∧ ctx.lastChar = ctx'.lastChar

theorem mem_of_block {ctx : Context} {word : Keyword} (h : ctx.block = some word) :
    some word ∈ ctx.blocks := by
  unfold block at h
  cases blocks : ctx.blocks with
  | nil => rw [blocks] at h; cases h
  | cons first rest =>
    rw [blocks] at h
    obtain rfl : first = some word := h
    exact List.mem_cons_self

theorem opened_congr {ctx ctx' : Context} (blocks : ctx.blocks = ctx'.blocks)
    (last : ctx.lastKind = ctx'.lastKind) : ctx.opened = ctx'.opened := by
  rw [opened, opened, blocks, last]

namespace Alike

variable {ctx ctx' : Context}

theorem block (h : Alike ctx ctx') : ctx.block = ctx'.block := by
  rw [Context.block, Context.block, h.blocks]

theorem inStyle (h : Alike ctx ctx') : ctx.inStyle = ctx'.inStyle := by
  rw [Context.inStyle, Context.inStyle, h.block]

theorem inMarkup (h : Alike ctx ctx') : ctx.inMarkup = ctx'.inMarkup := by
  rw [Context.inMarkup, Context.inMarkup, ← h.block]
  by_cases view : ctx.block = some .view
  · have member := mem_of_block view
    rw [h.parens member, (h.inside (List.ne_nil_of_mem member)).1]
  · rw [beq_eq_false_iff_ne.mpr view]
    rfl

theorem allowsLineComment (h : Alike ctx ctx') :
    ctx.allowsLineComment = ctx'.allowsLineComment := by
  rw [Context.allowsLineComment, Context.allowsLineComment, ← h.inStyle]
  cases style : ctx.inStyle with
  | false => rfl
  | true =>
    have member := mem_of_block (beq_iff_eq.mp style)
    rw [(h.inside (List.ne_nil_of_mem member)).2]

theorem scan (h : Alike ctx ctx') (c : Char) (cs : List Char) :
    Lexer.scan ctx c cs = Lexer.scan ctx' c cs :=
  Lexer.scan_congr h.inStyle h.inMarkup h.allowsLineComment c cs

theorem after_trivia (h : Alike ctx ctx') (text : List Char) :
    Alike (ctx.after (.trivia text)) (ctx'.after (.trivia text)) where
  blocks := h.blocks
  parens := h.parens
  inside some := by
    refine ⟨(h.inside some).1, ?_⟩
    simp only [Context.after, (h.inside some).2]

theorem afterKind_blocks (h : Alike ctx ctx') {kind : TokenKind}
    (opened : kind = .symbol .openBrace → ctx.opened = ctx'.opened) :
    (ctx.afterKind kind).blocks = (ctx'.afterKind kind).blocks := by
  cases brace : kind.isBrace with
  | false => rw [afterKind_blocks_of_plain _ brace, afterKind_blocks_of_plain _ brace, h.blocks]
  | true =>
    rcases TokenKind.eq_of_isBrace brace with rfl | rfl
    · rw [afterKind_blocks_opening, afterKind_blocks_opening, opened rfl, h.blocks]
    · rw [afterKind_blocks_closing, afterKind_blocks_closing, h.blocks]

theorem afterKind_parens (h : Alike ctx ctx') {kind : TokenKind}
    (opened : kind = .symbol .openBrace → ctx.opened = ctx'.opened)
    (view : some .view ∈ (ctx.afterKind kind).blocks) :
    (ctx.afterKind kind).parens = (ctx'.afterKind kind).parens := by
  cases kind with
  | symbol sign =>
    cases sign with
    | openBrace =>
      change (if _ then 0 else ctx.parens) = if _ then 0 else ctx'.parens
      rw [← opened rfl, ← h.blocks]
      cases blocks : ctx.blocks with
      | nil =>
        -- The block that opens is the view block, from which on parentheses count anew.
        have top : ctx.opened = some .view := by
          rw [afterKind_blocks_opening, blocks, List.mem_singleton] at view
          exact view.symm
        simp [top]
      | cons block rest =>
        have inner : some .view ∈ ctx.blocks := by
          rw [afterKind_blocks_opening, List.mem_cons] at view
          rcases view with same | inner
          · rw [same, Context.opened, blocks]
            exact List.mem_cons_self
          · exact inner
        exact h.parens inner
    | closeBrace => exact h.parens (List.mem_of_mem_tail view)
    | openParen => exact congrArg (· + 1) (h.parens view)
    | closeParen => exact congrArg (· - 1) (h.parens view)
    | _ => exact h.parens view
  | _ => exact h.parens view

theorem after_lexeme (h : Alike ctx ctx') {kind : TokenKind} (value : TokenValue)
    {text : List Char} (nonempty : text ≠ [])
    (opened : kind = .symbol .openBrace → ctx.opened = ctx'.opened) :
    Alike (ctx.after (.lexeme kind value text)) (ctx'.after (.lexeme kind value text)) ∧
      (ctx.after (.lexeme kind value text)).opened =
        (ctx'.after (.lexeme kind value text)).opened := by
  have blocks := h.afterKind_blocks opened
  have last : (ctx.afterKind kind).lastKind = (ctx'.afterKind kind).lastKind := by
    rw [afterKind_lastKind, afterKind_lastKind]
  refine ⟨⟨blocks, h.afterKind_parens opened, fun _ => ⟨last, ?_⟩⟩, opened_congr blocks last⟩
  change text.getLast?.or _ = text.getLast?.or _
  rw [List.getLast?_eq_some_getLast nonempty]
  rfl

end Alike

end Context

namespace Lexer

/-- What decides the block of the next brace is the same, or the next token is no opening brace. -/
def SameOpening (ctx ctx' : Context) (p : Position) (ps : List Piece) : Prop :=
  ctx.opened = ctx'.opened ∨ firstKind (place p ps) ≠ .symbol .openBrace

variable {ctx ctx' : Context}

theorem alike_after {p : Position} {ps : List Piece} (h : ctx.Alike ctx')
    (proper : ∀ kind value, .lexeme kind value [] ∉ ps) {rest : List Piece}
    (first : SameOpening ctx ctx' p (ps ++ rest)) :
    (ps.foldl Context.after ctx).Alike (ps.foldl Context.after ctx') ∧
      SameOpening (ps.foldl Context.after ctx) (ps.foldl Context.after ctx')
        (p.after (textOf ps)) rest := by
  induction ps generalizing ctx ctx' p with
  | nil => exact ⟨h, first⟩
  | cons piece ps ih =>
    have rest : ∀ kind value, .lexeme kind value [] ∉ ps :=
      fun kind value member => proper kind value (List.mem_cons_of_mem _ member)
    rw [List.foldl_cons, List.foldl_cons, textOf_cons, Position.after_append]
    cases piece with
    | trivia text => exact ih (h.after_trivia text) rest first
    | lexeme kind value text =>
      have nonempty : text ≠ [] := by
        rintro rfl
        exact proper kind value List.mem_cons_self
      have opened (opening : kind = .symbol .openBrace) : ctx.opened = ctx'.opened :=
        first.resolve_right fun other => other opening
      obtain ⟨alike, same⟩ := h.after_lexeme value nonempty opened
      exact ih alike rest (.inl same)

theorem pieces_congr {p : Position} {text : List Char} (h : ctx.Alike ctx')
    (first : SameOpening ctx ctx' p (pieces ctx 0 text)) :
    pieces ctx 0 text = pieces ctx' 0 text := by
  induction length : text.length using Nat.strongRecOn generalizing ctx ctx' p text with
  | ind n ih =>
    cases text with
    | nil => rfl
    | cons c cs =>
      obtain ⟨nonempty, rest, cut⟩ := scans_scan ctx c cs
      have whole := cut.text_eq
      have whole' := whole
      rw [h.scan] at whole'
      have shorter : rest.length < n := by
        rw [← length, whole, List.length_append]
        exact Nat.lt_add_of_pos_left (List.length_pos_iff.mpr nonempty)
      rw [pieces_scan whole] at first ⊢
      obtain ⟨alike, same⟩ := alike_after h (fun _ _ => cut.nil_notMem) first
      rw [pieces_scan whole', ← h.scan, ih rest.length shorter alike same rfl]

end Lexer

end PulseSyntax
