import PulseSyntax.Proofs.Token.Head
import PulseSyntax.Proofs.Token.Sheltered

namespace PulseSyntax

def Keyword.isStyleName : Keyword → Bool
  | style | in_ | from_ | if_ | else_ | for_ | as | of | true_ | false_ | null
  | export_ | import_ => true
  | _ => false

theorem Keyword.isStyleName_eq (word : Keyword) :
    word.isStyleName = Word.styleNames.contains word.spelling := by
  cases word <;> decide

namespace Token

/-- Nothing stands between two tokens in the source. -/
def Touches (t next : Token) : Prop := t.span.stop = next.span.start

/-- An `@`, the name of a directive and modifiers, each right after the token before it. -/
inductive DirectiveRun : List Token → Prop where
  | run {sign name : Token} {modifiers : List Token} (at_ : sign.kind = .symbol .atSign)
      (names : name.kind = .identifier ∨ name.kind.isKeyword)
      (modify : ∀ t ∈ modifiers, t.kind = .modifier)
      (touch : (sign :: name :: modifiers).IsChain Touches) :
      DirectiveRun (sign :: name :: modifiers)

theorem DirectiveRun.not_isBrace {tokens : List Token} (h : DirectiveRun tokens) :
    ∀ t ∈ tokens, t.kind.isBrace = false := by
  obtain ⟨at_, names, modify, -⟩ := h
  refine List.forall_mem_cons.mpr ⟨by rw [at_]; rfl, ?_⟩
  refine List.forall_mem_cons.mpr ⟨?_, fun t member => ?_⟩
  · rcases names with kind | kind
    · rw [kind]
      rfl
    · exact TokenKind.not_isBrace_of_isKeyword kind
  · rw [modify t member]
    rfl

/-- The context after these tokens is one in which the lexer may cut off the token. -/
structure Belongs (before : List Token) (t : Token) : Prop where
  selector : t.kind = .selector →
    (Context.initial.through before).block = some .view ∧
      (Context.initial.through before).parens = 0 ∧
      ∀ last ∈ before.getLast?, last.kind ≠ .symbol .atSign
  hexColor : t.kind = .hexColor → (Context.initial.through before).block = some .style
  modifier : t.kind = .modifier →
    (Context.initial.through before).block ≠ some .style ∧
      ∃ run, run <:+ before ∧ DirectiveRun (run ++ [t])
  keyword : (Context.initial.through before).block = some .style →
    ∀ word, t.kind = .keyword word → word.isStyleName = false

theorem belongs_of_isCommon {t : Token} (common : t.kind.isCommon) (before : List Token) :
    t.Belongs before where
  selector kind := absurd common (by simp [kind])
  hexColor kind := absurd common (by simp [kind])
  modifier kind := absurd common (by simp [kind])
  keyword _ word kind := absurd common (by simp [kind])

end Token

namespace Lexer

/-- Each of the tokens belongs where it stands after these. -/
def Confined (earlier tokens : List Token) : Prop :=
  ∀ before t after, tokens = before ++ t :: after → t.Belongs (earlier ++ before)

section

variable {earlier xs ys : List Token} {ctx : Context} {p : Position} {ps : List Piece}

theorem confined_nil : Confined earlier [] := by
  intro before t after h
  exact absurd h (by simp)

theorem confined_singleton {t : Token} (h : t.Belongs earlier) : Confined earlier [t] := by
  intro before u after whole
  cases before with
  | nil =>
    obtain ⟨rfl, -⟩ := List.cons.inj whole
    simpa using h
  | cons => simp at whole

theorem Confined.append (hx : Confined earlier xs) (hy : Confined (earlier ++ xs) ys) :
    Confined earlier (xs ++ ys) := by
  intro before t after whole
  rcases List.append_eq_append_iff.mp whole with ⟨middle, rfl, rest⟩ | ⟨middle, rfl, rest⟩
  · rw [← List.append_assoc]
    exact hy middle t after rest
  · cases middle with
    | nil => simpa using hy [] t after rest.symm
    | cons u middle =>
      obtain ⟨rfl, -⟩ := List.cons.inj rest
      exact hx before t middle rfl

theorem Common.confined (h : Common ps) (earlier : List Token) (p : Position) :
    Confined earlier (placed p ps) := by
  intro before t after whole
  have member : t ∈ placed p ps := by rw [whole]; simp
  obtain ⟨text, found⟩ := exists_of_mem_placed member
  exact Token.belongs_of_isCommon (h _ found) _

theorem isChain_placed (noGap : ∀ piece ∈ ps, ∃ l : Lexeme, piece = l.piece) (p : Position) :
    (placed p ps).IsChain Token.Touches := by
  induction ps generalizing p with
  | nil => exact .nil
  | cons piece ps ih =>
    obtain ⟨l, rfl⟩ := noGap piece List.mem_cons_self
    have others := ih fun q member => noGap q (List.mem_cons_of_mem _ member)
    rw [placed, Lexeme.token?_piece, Option.toList_some, List.singleton_append]
    refine List.isChain_cons.mpr ⟨fun next first => ?_, others _⟩
    cases ps with
    | nil => cases first
    | cons q ps =>
      obtain ⟨m, rfl⟩ := noGap q (by simp)
      rw [placed, Lexeme.token?_piece] at first
      obtain rfl := Option.some.inj first
      rw [Lexeme.text_piece]
      simp [Token.Touches, Token.span, Lexeme.token, Position.place, Position.after_byte]

theorem placed_map_piece (p : Position) (l : Lexeme) (ls : List Lexeme) :
    placed p ((l :: ls).map Lexeme.piece) =
      l.token p :: placed (p.after l.raw.toList) (ls.map Lexeme.piece) := by
  rw [List.map_cons, placed, Lexeme.token?_piece]
  rfl

theorem directiveRun_head (name : List Char) (modifiers : List (List Char)) (p : Position) :
    Token.DirectiveRun (placed p ((Lexeme.head name modifiers).map Lexeme.piece)) := by
  have noGap : ∀ piece ∈ (Lexeme.head name modifiers).map Lexeme.piece,
      ∃ l : Lexeme, piece = l.piece := by
    intro piece member
    obtain ⟨l, -, same⟩ := List.mem_map.mp member
    exact ⟨l, same.symm⟩
  have touch := isChain_placed noGap p
  rw [Lexeme.head, placed_map_piece, placed_map_piece] at touch ⊢
  refine .run rfl ?_ (fun t member => ?_) touch
  · rcases Lexeme.kind_word (String.ofList name) with kind | ⟨k, kind⟩
    · exact .inl kind
    · exact .inr (congrArg TokenKind.isKeyword kind)
  · obtain ⟨text, found⟩ := exists_of_mem_placed member
    simp only [List.map_map, List.mem_map, Function.comp_apply] at found
    obtain ⟨own, -, same⟩ := found
    exact (Piece.lexeme.inj same).1.symm

theorem confined_run (run : Token.DirectiveRun xs)
    (noStyle : (Context.initial.through earlier).block ≠ some .style) : Confined earlier xs := by
  rintro before t after rfl
  have kept : (Context.initial.through (earlier ++ before)).block ≠ some .style := by
    rw [Context.through_append, Context.block, Context.through_blocks_of_plain _ fun u member =>
      run.not_isBrace u (List.mem_append_left _ member)]
    exact noStyle
  generalize whole : before ++ t :: after = tokens at run
  obtain @⟨sign, name, modifiers, at_, names, modify, touch⟩ := run
  cases before with
  | nil =>
    obtain ⟨rfl, -⟩ := List.cons.inj whole
    exact Token.belongs_of_isCommon (by rw [at_]; rfl) _
  | cons first before =>
    cases before with
    | nil =>
      simp only [List.cons_append, List.nil_append, List.cons.injEq] at whole
      obtain ⟨rfl, rfl, rfl⟩ := whole
      refine ⟨?_, ?_, ?_, fun style => absurd style kept⟩ <;>
        rcases names with kind | kind <;> intro other <;> simp [other, TokenKind.isKeyword] at kind
    | cons second before =>
      simp only [List.cons_append, List.cons.injEq] at whole
      obtain ⟨rfl, rfl, rfl⟩ := whole
      have kind := modify t (by simp)
      have upTo : first :: second :: (before ++ t :: after) =
          (first :: second :: (before ++ [t])) ++ after := by simp
      rw [upTo] at touch
      refine ⟨by simp [kind], by simp [kind],
        fun _ => ⟨kept, first :: second :: before, ?_, ?_⟩, fun style => absurd style kept⟩
      · exact List.suffix_append _ _
      · refine .run at_ names (fun u member => modify u ?_) touch.left_of_append
        rw [List.append_cons]
        exact List.mem_append_left _ member

variable (here : ctx.core = Context.initial.through earlier)

include here

theorem confined_selector (markup : ctx.inMarkup) (start rest : List Char) (p : Position) :
    Confined earlier (placed p (Word.selector start rest)) := by
  simp only [Context.inMarkup, Bool.and_eq_true, beq_iff_eq, bne_iff_ne] at markup
  obtain ⟨⟨block, parens⟩, noSign⟩ := markup
  refine confined_singleton ⟨fun _ => ⟨?_, ?_, ?_⟩, by simp, by simp, by simp⟩
  · rw [← here]
    exact block
  · rw [← here]
    exact parens
  · intro last member kind
    have lastKind := congrArg Context.lastKind here
    rw [Context.core_lastKind, Context.through_lastKind, Option.mem_def.mp member] at lastKind
    exact noSign (lastKind.trans (congrArg some kind))

theorem confined_word (c : Char) (cs : List Char) (p : Position) :
    Confined earlier (placed p (Word.scan ctx c cs)) := by
  unfold Word.scan
  extract_lets isTail word rest spelling
  split
  · exact Common.confined (common_cons.mpr ⟨rfl, common_urlArgument rest⟩) earlier p
  · split
    · exact Common.confined (by simp) earlier p
    · next plain =>
      split
      · next k found =>
        refine confined_singleton ⟨by simp, by simp, by simp, fun style word same => ?_⟩
        obtain rfl := TokenKind.keyword.inj same
        rw [← here] at style
        have inStyle : ctx.inStyle = true := beq_iff_eq.mpr style
        rw [Keyword.isStyleName_eq, Keyword.spelling_of_ofSpelling? found]
        simpa [inStyle] using plain
      · split
        · next markup =>
          exact confined_selector here (Bool.and_eq_true_iff.mp markup).1 word rest p
        · exact Common.confined (by simp) earlier p

theorem confined_at (cs : List Char) (p : Position) :
    Confined earlier (placed p (Word.scanAt ctx cs)) := by
  cases start : cs.head?.any Word.isStart with
  | false =>
    rw [Word.scanAt, start]
    exact Common.confined (by simp) earlier p
  | true =>
    cases style : ctx.inStyle with
    | true =>
      rw [Word.scanAt, start, style]
      exact Common.confined (by simp) earlier p
    | false =>
      obtain ⟨names, run, words⟩ := Word.exists_modifiers cs
      rw [scanAt_eq style start words run]
      refine confined_run (directiveRun_head _ _ p) ?_
      rw [← here]
      exact beq_eq_false_iff_ne.mp style

theorem confined_hash (cs : List Char) (p : Position) :
    Confined earlier (placed p (scanHash ctx cs)) := by
  unfold scanHash
  split
  · next digits color =>
    have style : ctx.inStyle = true := by
      by_contra other
      rw [if_neg other] at color
      cases color
    refine confined_singleton ⟨by simp, fun _ => ?_, by simp, by simp⟩
    rw [← here]
    exact beq_iff_eq.mp style
  · split
    · next starts =>
      simp only [startsSelector, Bool.and_eq_true] at starts
      exact confined_selector here starts.1.2 _ _ p
    · exact Common.confined (by simp) earlier p

theorem confined_dot (cs : List Char) (p : Position) :
    Confined earlier (placed p (scanDot ctx cs)) := by
  unfold scanDot
  split
  · exact Common.confined (by simp) earlier p
  · split
    · next starts =>
      simp only [startsSelector, Bool.and_eq_true] at starts
      exact confined_selector here starts.1.2 _ _ p
    · exact Common.confined (by simp) earlier p

theorem confined_token (c : Char) (cs : List Char) (p : Position) :
    Confined earlier (placed p (scanToken ctx c cs)) := by
  unfold scanToken
  split
  · exact confined_word here c cs p
  · split
    · exact (common_number c cs).confined earlier p
    · split
      · exact (common_string c cs).confined earlier p
      · split
        · exact (common_template cs).confined earlier p
        · split
          · exact confined_at here cs p
          · split
            · exact confined_hash here cs p
            · split
              · exact confined_dot here cs p
              · split
                · exact confined_word here c cs p
                · exact (common_symbol c cs).confined earlier p

theorem confined_scan (c : Char) (cs : List Char) (p : Position) :
    Confined earlier (placed p (scan ctx c cs)) := by
  unfold scan
  split
  · exact Common.confined (by simp) earlier p
  · split
    · exact Common.confined (by simp) earlier p
    · split
      · exact (common_comment _).confined earlier p
      · exact confined_token here c cs p

theorem confined_pieces (text : List Char) (p : Position) :
    Confined earlier (placed p (pieces ctx 0 text)) := by
  induction length : text.length using Nat.strongRecOn generalizing ctx earlier text p with
  | ind n ih =>
    cases text with
    | nil => exact confined_nil
    | cons c cs =>
      obtain ⟨nonempty, rest, cut⟩ := scans_scan ctx c cs
      have whole := cut.text_eq
      have shorter : rest.length < n := by
        rw [← length, whole, List.length_append]
        exact Nat.lt_add_of_pos_left (List.length_pos_iff.mpr nonempty)
      have next : ((scan ctx c cs).foldl Context.after ctx).core =
          Context.initial.through (earlier ++ placed p (scan ctx c cs)) := by
        rw [left_core ctx p, place_eq_placed, List.dropLast_concat, here, Context.through_append]
      rw [pieces_scan whole, placed_append]
      exact (confined_scan here c cs p).append (ih rest.length shorter next rest _ rfl)

end

end Lexer

/-- A token of a kind that the lexer cuts off in some contexts only stands in such a context: a
    selector in a view block, outside parentheses and not after an `@`; a color in a style block; a
    modifier outside style blocks, in one run with an `@` and a name; and a reserved word that is a
    plain name in a style block outside of them. -/
theorem tokenize_confined {source : String} {before after : List Token} {t : Token}
    (h : tokenize source = before ++ t :: after) : t.Belongs before := by
  have inner : Lexer.Confined [] (Lexer.placed .origin (Lexer.pieces .initial 0 source.toList)) :=
    Lexer.confined_pieces rfl source.toList .origin
  have atEnd (p : Position) (earlier : List Token) : Lexer.Confined earlier [.endOfFile p] :=
    Lexer.confined_singleton (Token.belongs_of_isCommon rfl earlier)
  rw [tokenize, Lexer.tokens, Lexer.place_eq_placed] at h
  exact inner.append (atEnd _ _) before t after h

theorem tokenize_confined_modifier :
    ∃ before t after,
      tokenize "view { p(a) @click.stop.once(f) }" = before ++ t :: after ∧
      t.kind = .modifier ∧ t.Belongs before := by
  generalize hs : tokenize "view { p(a) @click.stop.once(f) }" = tokens
  generalize ht : tokens.getD 9 (.endOfFile .origin) = t
  have kind : t.kind = .modifier := by
    subst hs ht
    decide +kernel
  have inside : 9 < tokens.length := by
    subst hs
    decide +kernel
  have split : tokens = tokens.take 9 ++ t :: tokens.drop 10 := by
    rw [← ht, List.getD_eq_getElem?_getD, List.getElem?_eq_getElem inside, Option.getD_some,
      List.getElem_cons_drop, List.take_append_drop]
  exact ⟨_, t, _, split, kind, tokenize_confined (hs.trans split)⟩

end PulseSyntax
