import PulseSyntax.Proofs.Token.Alike
import PulseSyntax.Proofs.Token.Body
import PulseSyntax.Proofs.Token.Lossless
import PulseSyntax.Proofs.Token.Spelled

namespace PulseSyntax

def Symbol.isClosing : Symbol → Bool
  | closeParen | closeBracket | closeBrace => true
  | _ => false

/-- The brackets that are due to close after a token, the innermost first. One that closes has to be
    the first of those that are due. -/
def TokenKind.due? (due : List Symbol) : TokenKind → Option (List Symbol)
  | .symbol sign =>
    match sign.closing? with
    | some close => some (close :: due)
    | none =>
      if !sign.isClosing then some due
      else if due.head? = some sign then some due.tail
      else none
  | _ => some due

/-- The brackets that are due to close after tokens, given those that are due before. -/
def due? (due : List Symbol) (tokens : List Token) : Option (List Symbol) :=
  tokens.foldlM (fun due t => t.kind.due? due) due

def WellNested (tokens : List Token) : Prop := due? [] tokens = some []

instance (tokens : List Token) : Decidable (WellNested tokens) :=
  inferInstanceAs (Decidable (due? [] tokens = some []))

theorem due?_append (due : List Symbol) (xs ys : List Token) :
    due? due (xs ++ ys) = (due? due xs).bind (due? · ys) := List.foldlM_append

theorem due?_cons (due : List Symbol) (t : Token) (tokens : List Token) :
    due? due (t :: tokens) = (t.kind.due? due).bind (due? · tokens) := List.foldlM_cons

theorem TokenKind.due?_of_closing {sign : Symbol} {due due' : List Symbol}
    (closes : sign.isClosing = true) (step : (TokenKind.symbol sign).due? due = some due') :
    due = sign :: due' := by
  have other : sign.closing? = none := by cases sign <;> first | rfl | cases closes
  simp only [TokenKind.due?, other, closes, Bool.not_true, Bool.false_eq_true, if_false,
    Option.ite_none_right_eq_some, Option.some.injEq] at step
  obtain ⟨first, rfl⟩ := step
  obtain ⟨rest, rfl⟩ := List.head?_eq_some_iff.mp first
  rfl

namespace Context

/-- In a block, inside a parenthesis since which some brackets are due to close. -/
structure Sheltered (block : Option Keyword) (due : List Symbol) (ctx : Context) : Prop where
  blocks : ctx.blocks = List.replicate (due.count .closeBrace + 1) block
  parens : ctx.parens = due.count .closeParen + 1

namespace Sheltered

variable {block : Option Keyword} {due due' : List Symbol} {ctx : Context}

theorem block_eq (h : ctx.Sheltered block due) : ctx.block = block := by
  rw [Context.block, h.blocks]
  rfl

theorem inMarkup (h : ctx.Sheltered block due) : ctx.inMarkup = false := by
  simp [Context.inMarkup, h.parens]

theorem inStyle (h : ctx.Sheltered block due) (noStyle : block ≠ some .style) :
    ctx.inStyle = false := by
  rw [Context.inStyle, h.block_eq]
  exact beq_eq_false_iff_ne.mpr noStyle

theorem allowsLineComment (h : ctx.Sheltered block due) (noStyle : block ≠ some .style) :
    ctx.allowsLineComment = true := by
  rw [Context.allowsLineComment, h.inStyle noStyle]
  rfl

theorem opened (h : ctx.Sheltered block due) : ctx.opened = block := by
  rw [Context.opened, h.blocks]
  rfl

theorem afterKind (h : ctx.Sheltered block due) {kind : TokenKind}
    (step : kind.due? due = some due') : (ctx.afterKind kind).Sheltered block due' := by
  cases kind with
  | symbol sign =>
    cases sign with
    | openParen =>
      cases step
      exact ⟨by simpa [Context.afterKind] using h.blocks, by simpa [Context.afterKind] using h.parens⟩
    | openBracket =>
      cases step
      exact ⟨by simpa [Context.afterKind] using h.blocks, by simpa [Context.afterKind] using h.parens⟩
    | openBrace =>
      cases step
      refine ⟨?_, ?_⟩
      · rw [afterKind_blocks_opening, h.opened, h.blocks, List.count_cons_self]
        rfl
      · simpa [Context.afterKind, h.blocks] using h.parens
    | closeParen =>
      obtain rfl := TokenKind.due?_of_closing rfl step
      exact ⟨by simpa [Context.afterKind] using h.blocks, by simp [Context.afterKind, h.parens]⟩
    | closeBracket =>
      obtain rfl := TokenKind.due?_of_closing rfl step
      exact ⟨by simpa [Context.afterKind] using h.blocks, by simpa [Context.afterKind] using h.parens⟩
    | closeBrace =>
      obtain rfl := TokenKind.due?_of_closing rfl step
      refine ⟨?_, by simpa [Context.afterKind] using h.parens⟩
      rw [afterKind_blocks_closing, h.blocks, List.count_cons_self]
      rfl
    | _ =>
      cases step
      exact ⟨h.blocks, h.parens⟩
  | _ =>
    cases step
    exact ⟨h.blocks, h.parens⟩

theorem foldl_after (h : ctx.Sheltered block due) {p : Position} {ps : List Piece}
    (run : due? due (Lexer.placed p ps) = some due') :
    (ps.foldl Context.after ctx).Sheltered block due' := by
  induction ps generalizing ctx p due with
  | nil =>
    cases run
    exact h
  | cons piece ps ih =>
    cases piece with
    | trivia text =>
      have next : (ctx.after (.trivia text)).Sheltered block due := ⟨h.blocks, h.parens⟩
      exact ih next run
    | lexeme kind value text =>
      rw [Lexer.placed, Piece.token?, Option.toList_some, List.singleton_append, due?_cons] at run
      obtain ⟨middle, step, rest⟩ := Option.bind_eq_some_iff.mp run
      have kept := h.afterKind step
      have next : (ctx.after (.lexeme kind value text)).Sheltered block middle :=
        ⟨kept.blocks, kept.parens⟩
      exact ih next rest

end Sheltered

end Context

namespace Lexer

def SelectorFree (ps : List Piece) : Prop :=
  ∀ piece ∈ ps, ∀ value text, piece ≠ .lexeme .selector value text

section

variable {ctx : Context} {ps qs : List Piece}

theorem selectorFree_append : SelectorFree (ps ++ qs) ↔ SelectorFree ps ∧ SelectorFree qs :=
  List.forall_mem_append

theorem selectorFree_cons {piece : Piece} : SelectorFree (piece :: ps) ↔
    (∀ value text, piece ≠ .lexeme .selector value text) ∧ SelectorFree ps :=
  List.forall_mem_cons

theorem SelectorFree.lexeme {kind : TokenKind} (other : kind ≠ .selector) (value : TokenValue)
    (text : List Char) : SelectorFree [.lexeme kind value text] := by
  simp [SelectorFree, other]

theorem SelectorFree.symbol (sign : Symbol) : SelectorFree [.symbol sign] :=
  .lexeme (by simp) _ _

theorem SelectorFree.trivia (text : List Char) : SelectorFree [.trivia text] := by
  simp [SelectorFree]

theorem Common.selectorFree (h : Common ps) : SelectorFree ps := by
  rintro piece member value text rfl
  exact absurd (h _ member) Bool.false_ne_true

theorem selectorFree_word (markup : ctx.inMarkup = false) (c : Char) (cs : List Char) :
    SelectorFree (Word.scan ctx c cs) := by
  simp only [Word.scan, markup, Bool.false_and, Bool.false_eq_true, if_false]
  split
  · exact selectorFree_append.mpr ⟨.lexeme (by simp) _ _, (common_urlArgument _).selectorFree⟩
  · split
    · exact .lexeme (by simp) _ _
    · split <;> exact .lexeme (by simp) _ _

theorem selectorFree_at (ctx : Context) (cs : List Char) : SelectorFree (Word.scanAt ctx cs) := by
  unfold Word.scanAt
  split
  · exact .symbol _
  · refine selectorFree_append.mpr ⟨.symbol .atSign, selectorFree_cons.mpr ⟨?_, ?_⟩⟩
    · split
      · simp [Piece.word]
      · cases Keyword.ofSpelling? (String.ofList (Word.directiveTail cs)) <;> simp [Piece.word]
    · split
      · simp [SelectorFree]
      · simp [SelectorFree, Word.modifiers]

theorem selectorFree_hash (markup : ctx.inMarkup = false) (cs : List Char) :
    SelectorFree (scanHash ctx cs) := by
  simp only [scanHash, startsSelector, markup, Bool.and_false, Bool.false_and,
    Bool.false_eq_true, if_false]
  split <;> exact .lexeme (by simp) _ _

theorem selectorFree_dot (markup : ctx.inMarkup = false) (cs : List Char) :
    SelectorFree (scanDot ctx cs) := by
  simp only [scanDot, startsSelector, markup, Bool.and_false, Bool.false_and,
    Bool.false_eq_true, if_false]
  split <;> exact .symbol _

theorem selectorFree_token (markup : ctx.inMarkup = false) (c : Char) (cs : List Char) :
    SelectorFree (scanToken ctx c cs) := by
  unfold scanToken
  split
  · exact selectorFree_word markup c cs
  · split
    · exact (common_number c cs).selectorFree
    · split
      · exact (common_string c cs).selectorFree
      · split
        · exact (common_template cs).selectorFree
        · split
          · exact selectorFree_at ctx cs
          · split
            · exact selectorFree_hash markup cs
            · split
              · exact selectorFree_dot markup cs
              · split
                · exact selectorFree_word markup c cs
                · exact (common_symbol c cs).selectorFree

theorem selectorFree_scan (markup : ctx.inMarkup = false) (c : Char) (cs : List Char) :
    SelectorFree (scan ctx c cs) := by
  unfold scan
  split
  · exact .trivia _
  · split
    · exact .trivia _
    · split
      · exact (common_comment _).selectorFree
      · exact selectorFree_token markup c cs

end

variable {block block' : Option Keyword} {due due' : List Symbol} {ctx ctx' : Context}

theorem scan_sheltered (h : ctx.Sheltered block due) (h' : ctx'.Sheltered block' due)
    (noStyle : block ≠ some .style) (noStyle' : block' ≠ some .style) (c : Char) (cs : List Char) :
    scan ctx c cs = scan ctx' c cs := by
  apply scan_congr
  · rw [h.inStyle noStyle, h'.inStyle noStyle']
  · rw [h.inMarkup, h'.inMarkup]
  · rw [h.allowsLineComment noStyle, h'.allowsLineComment noStyle']

/-- A text inside a parenthesis that closes no bracket from outside reads the same in both blocks,
    and no selector is found in it. -/
theorem pieces_sheltered (h : ctx.Sheltered block due) (h' : ctx'.Sheltered block' due)
    (noStyle : block ≠ some .style) (noStyle' : block' ≠ some .style) {p : Position}
    {text : List Char} (run : due? due (placed p (pieces ctx 0 text)) = some due') :
    pieces ctx 0 text = pieces ctx' 0 text ∧ SelectorFree (pieces ctx 0 text) := by
  induction length : text.length using Nat.strongRecOn generalizing ctx ctx' p text due with
  | ind n ih =>
    cases text with
    | nil => exact ⟨rfl, List.forall_mem_nil _⟩
    | cons c cs =>
      obtain ⟨nonempty, rest, cut⟩ := scans_scan ctx c cs
      have same := scan_sheltered h h' noStyle noStyle' c cs
      have whole := cut.text_eq
      have whole' := whole
      rw [same] at whole'
      have shorter : rest.length < n := by
        rw [← length, whole, List.length_append]
        exact Nat.lt_add_of_pos_left (List.length_pos_iff.mpr nonempty)
      rw [pieces_scan whole, placed_append, due?_append] at run
      obtain ⟨middle, first, later⟩ := Option.bind_eq_some_iff.mp run
      have next := h.foldl_after first
      have next' := h'.foldl_after first
      obtain ⟨alike, free⟩ := ih rest.length shorter next next' later rfl
      rw [pieces_scan whole, pieces_scan whole', ← same, alike]
      exact ⟨rfl, selectorFree_append.mpr ⟨selectorFree_scan h.inMarkup c cs, alike ▸ free⟩⟩

end Lexer

end PulseSyntax
