import PulseSyntax.Proofs.Expr.Complete
import PulseSyntax.Proofs.Markup.Course
import PulseSyntax.Proofs.Markup.Printed

namespace PulseSyntax

open PulseSyntax.Parser PulseSyntax.Piece Lexeme

variable {scope : Scope} {depth levels : Nat}

theorem map_eq_map_of_forall₂ {α β γ : Type} {f : α → γ} {g : β → γ} {as : List α} {bs : List β}
    (h : List.Forall₂ (fun a b => g b = f a) as bs) : bs.map g = as.map f := by
  rw [← List.forall₂_eq_eq_eq, List.forall₂_map_left_iff, List.forall₂_map_right_iff]
  exact h.flip

def EndsItem (rest : List Token) : Prop :=
  firstKind rest = .symbol .comma ∨ firstKind rest = .symbol .closeParen

theorem ne_of_endsItem {rest : List Token} {kind : TokenKind} (h : EndsItem rest)
    (comma : kind ≠ .symbol .comma) (close : kind ≠ .symbol .closeParen) : firstKind rest ≠ kind := by
  rintro rfl
  exact h.elim comma close

namespace Lexeme

theorem lexemes_inParens (ps : List Piece) : lexemes (inParens ps) =
    Lexeme.symbol .openParen :: (lexemes ps ++ [Lexeme.symbol .closeParen]) := by
  rw [inParens, lexemes_append, lexemes_append, lexemes_spaced, lexemes_spaced, List.singleton_append]

theorem lexemes_inBraces (ps : List Piece) : lexemes (inBraces ps) =
    Lexeme.symbol .openBrace :: (lexemes ps ++ [Lexeme.symbol .closeBrace]) := by
  rw [inBraces, lexemes_append, lexemes_append, lexemes_spaced, lexemes_spaced, List.singleton_append]

variable (ps : List Piece) {qs : List Piece} (pos : Position) (rest : List Token)

theorem firstKind_spaced (l : Lexeme) (ls : List Lexeme) :
    firstKind (Lexer.placed pos (spaced (l :: ls) ++ qs) ++ rest) = l.kind :=
  firstKind_placed (by rw [lexemes_append, lexemes_spaced, List.cons_append]) pos rest

theorem firstKind_inParens :
    firstKind (Lexer.placed pos (inParens ps ++ qs) ++ rest) = .symbol .openParen := by
  have first := congrArg (· ++ lexemes qs) (lexemes_inParens ps)
  exact firstKind_placed (lexemes_append.trans first) pos rest

end Lexeme

namespace Expr

variable {e : Expr} {es : List Expr}

/-- No expression goes on with these tokens. -/
def Stops (rest : List Token) : Prop := 10 < (firstKind rest).goesOnAt

theorem stops_of_close {rest : List Token} {sign : Symbol}
    (closes : bracketStep (.symbol sign) = some false) (h : firstKind rest = .symbol sign) :
    Stops rest := (Ends.closing h (.inl closes)).tighter

theorem stops_of_item {rest : List Token} (h : EndsItem rest) : Stops rest :=
  (@Ends.ofItem rest .closeParen rfl h).tighter

theorem Spells.exists_first {phrase : Phrase} {text : List Lexeme} (h : Spells levels phrase text) :
    ∃ (phrase' : Phrase) (tokens : List Token), phrase'.Alike phrase ∧ phrase'.Starts tokens ∧
      tokens.map Token.own = text := by
  obtain ⟨phrase', alike, derives⟩ := h.derives .origin
  exact ⟨phrase', _, alike, derives.starts,
    (placed_map_own _ _).trans (filterMap_spaced text)⟩

theorem exists_printed (h : e.IsWritable) :
    ∃ l ls, lexemes e.printed = l :: ls ∧ mayStart l.kind := by
  obtain ⟨_, tokens, alike, starts, own⟩ := (h.readsBack.alone (Nat.le_refl _)).exists_first
  cases alike with
  | part =>
    obtain ⟨t, rest, rfl, first, -⟩ := starts
    exact ⟨t.own, rest.map Token.own, by rw [printed, lexemes_spaced, ← own]; rfl, first⟩

theorem exists_printed_item (h : e.unspread.IsWritable) :
    ∃ l ls, lexemes e.printed = l :: ls ∧ l.kind ≠ .symbol .closeParen := by
  cases e with
  | spread e span => exact ⟨_, _, by rw [printed, spell, lexemes_spaced], by decide⟩
  | _ =>
    obtain ⟨l, ls, same, first⟩ := exists_printed h
    refine ⟨l, ls, same, fun close => ?_⟩
    rw [close] at first
    cases first

theorem restores (h : e.IsWritableIn (scope.options.maxDepth - depth)) :
    Restores scope depth e.printed Stops parser (·.erased id = e.erased id) := by
  intro pos s rest here tokens stops
  obtain ⟨levels, left⟩ := Nat.exists_eq_add_of_lt h.2
  obtain ⟨e', same, derives⟩ :=
    (h.1.readsBack.alone (Nat.le_add_right (e.room false true) levels)).part pos
  exact ⟨e', derives.parser tokens stops (by rw [here]; exact left), same⟩

theorem restores_spreadable (h : e.ItemIsWritableIn (scope.options.maxDepth - depth)) :
    Restores scope depth e.printed EndsItem (spreadable parser) (·.erased id = e.erased id) := by
  have alone (e : Expr) (writable : e.IsWritableIn (scope.options.maxDepth - depth)) :=
    (restores writable).before fun _ ends => stops_of_item ends
  have whole (plain : e.unspread = e) : Restores scope depth e.printed EndsItem (spreadable parser)
      (·.erased id = e.erased id) := by
    have writable : e.IsWritable := plain ▸ h.1
    obtain ⟨l, ls, same, first⟩ := exists_printed writable
    simp only [mayStart, Bool.and_eq_true, bne_iff_ne] at first
    refine .isSymbol same ?_
    rw [beq_eq_false_iff_ne.mpr first.2]
    exact alone e ⟨writable, h.2⟩
  cases e with
  | spread e span =>
    refine .isSymbol (lexemes_spaced.trans (by rw [spell])) ?_
    refine .head (.advance lexemes_spaced (by decide)) fun start _ => ?_
    exact (alone e ⟨h.1, h.2⟩).returns fun e' same => congrArg (Expr.spread · default) same
  | _ => exact whole rfl

theorem restores_arguments (h : ∀ e ∈ es, e.ItemIsWritableIn (scope.options.maxDepth - depth)) :
    Restores scope depth (printedArguments es) (fun _ => True) (arguments parser)
      fun a => a.1.map (erased id) = es.map (erased id) := by
  refine .andThen (.expectSymbol .openParen) fun _ _ => ?_
  have items := Restores.commaSeparated (show Symbol.closeParen ≠ .comma by decide)
    (fun e member => restores_spreadable (h e member))
    fun e member => exists_printed_item (h e member).1
  refine items.bind (fun _ _ _ => firstKind_placed lexemes_spaced _ _) fun es' same => ?_
  exact (Restores.expectSymbol .closeParen).returns fun _ _ => map_eq_map_of_forall₂ same

end Expr

section

variable {inner : MarkupInner} {e : Expr} {follow : List Token → Prop}

theorem MarkupInner.restores_condition (reads : inner.expr = Expr.parser)
    (h : e.IsWritableIn (scope.options.maxDepth - depth)) :
    Restores scope depth (inParens e.printed) follow inner.condition (·.erased id = e.erased id) := by
  refine .andThen (.expectSymbol .openParen) fun _ _ => ?_
  rw [reads]
  refine (Expr.restores h).bind (fun _ _ _ => ?_) fun e' same => ?_
  · exact Expr.stops_of_close rfl (firstKind_placed lexemes_spaced _ _)
  · exact (Restores.expectSymbol .closeParen).returns fun _ _ => same

end

section

variable {name : String} {others : List (List Char)}

def hyphenTail (others : List (List Char)) : List Piece :=
  others.flatMap fun text => [(Lexeme.symbol .minus).piece, (word (String.ofList text)).piece]

theorem glued_hyphenated (first : List Char) (others : List (List Char)) :
    glued (hyphenated (first :: others)) =
      (word (String.ofList first)).piece :: (hyphenTail others ++ [.space]) := by
  induction others generalizing first with
  | nil => rfl
  | cons next others ih => rw [Lexer.ReadsBack.hyphenated_cons, ih]; rfl

theorem rounds_hyphenPart (name : String) (words : ∀ text ∈ others, Word.IsWord text) {pos : Position}
    {s : ParserState} {rest : List Token} {span : Span}
    (tokens : scope.remaining s = Lexer.placed pos (hyphenTail others) ++ rest)
    (touches : span.stop = pos.byte) :
    ∃ span', Rounds (chainRound hyphenPart) scope (name, span) s
      (name ++ String.ofList (others.map ('-' :: ·)).flatten, span')
      (s.past (Lexer.placed pos (hyphenTail others))) := by
  induction others generalizing name pos s span with
  | nil => exact ⟨span, by simpa [hyphenTail] using Rounds.refl (name, span) s⟩
  | cons text others ih =>
    obtain ⟨isWord, words⟩ := List.forall_mem_cons.mp words
    let hyphen := (Lexeme.symbol .minus).token pos
    let next := (word (String.ofList text)).token (pos.after ['-'])
    have raw : (word (String.ofList text)).raw.toList = text := by
      rw [raw_word, String.toList_ofList]
    have placed : Lexer.placed pos (hyphenTail (text :: others)) = hyphen :: next ::
        Lexer.placed ((pos.after ['-']).after text) (hyphenTail others) := by
      rw [hyphenTail, List.flatMap_cons, List.cons_append, List.cons_append, List.nil_append,
        Lexer.placed, Lexer.placed, token?_piece, token?_piece, text_piece, text_piece, raw]
      rfl
    rw [placed] at tokens ⊢
    have atNext := Scope.remaining_ahead_one tokens
    have here := Scope.get_of_remaining tokens
    have there : scope.stream.get (s.cursor + 1) = next := Scope.get_of_remaining atNext
    have more : scope.Hyphenates span.stop s.cursor := by
      rw [Scope.Hyphenates, here, there]
      refine ⟨rfl, touches.symm, ?_, ?_⟩
      · exact Position.after_byte pos ['-']
      · rcases kind_word (String.ofList text) with kind | ⟨k, kind⟩
        · exact .inl kind
        · exact .inr (by rw [show next.kind = _ from kind]; rfl)
    have stop : (span.cover next.span).stop = ((pos.after ['-']).after text).byte := by
      have own : next.span.stop = ((pos.after ['-']).after text).byte := by
        rw [Position.after_byte (pos.after ['-']), ← raw]
        rfl
      have le : span.stop ≤ next.span.stop := by
        rw [own, touches, Position.after_byte, Position.after_byte]
        omega
      exact (Nat.max_eq_right le).trans own
    obtain ⟨span', rounds⟩ := ih (name ++ "-" ++ next.raw) words
      (Scope.remaining_ahead_one atNext) stop
    refine ⟨span', ?_⟩
    have first := chainRound_of_some (@hyphenPart_of scope s (name, span) more)
    rw [there] at first
    have text_eq : name ++ "-" ++ next.raw ++ String.ofList (others.map ('-' :: ·)).flatten =
        name ++ String.ofList ((text :: others).map ('-' :: ·)).flatten := by
      have own : next.raw.toList = text := raw
      rw [← String.toList_inj]
      simp [own]
    rw [← text_eq, ParserState.past_cons, ParserState.past_cons]
    exact .head first (Scope.lt_size_of_remaining tokens) (by simp) rounds

theorem restores_attributeName (h : IsAttributeName name) :
    Restores scope depth (printedName name) (firstKind · ≠ .symbol .minus) attributeName
      (·.1 = name) := by
  obtain ⟨first, others, same, isWord, isName, words⟩ := h
  intro pos s rest _ tokens ends
  rw [printedName_eq same (List.forall_mem_cons.mpr ⟨isWord, words⟩), glued_hyphenated] at *
  let t := (word (String.ofList first)).token pos
  have raw : (word (String.ofList first)).raw.toList = first := by
    rw [raw_word, String.toList_ofList]
  have placed :
      Lexer.placed pos ((word (String.ofList first)).piece :: (hyphenTail others ++ [.space])) =
        t :: Lexer.placed (pos.after first) (hyphenTail others) := by
    rw [Lexer.placed, Lexer.placed_append, token?_piece, text_piece, raw]
    exact congrArg (t :: ·) (List.append_nil _)
  rw [placed] at tokens ⊢
  have here := Scope.get_of_remaining tokens
  have touches : t.span.stop = (pos.after first).byte := by
    rw [Position.after_byte, ← raw]
    rfl
  obtain ⟨span, rounds⟩ := rounds_hyphenPart t.raw words (Scope.remaining_ahead_one tokens)
    touches
  have read : expectName scope s = .ok t (s.ahead 1) := by
    have named : Parser.isName scope s = .ok true s := by
      change Reply.ok (scope.stream.get s.cursor).kind.isName s = _
      rw [here]
      exact congrArg (Reply.ok · s) isName
    rw [expectName, bind_of_ok named]
    refine advance_cons tokens fun atEnd => ?_
    rw [show t.kind = (word (String.ofList first)).kind from rfl] at atEnd
    rw [atEnd] at isName
    cases isName
  have last : ¬scope.Hyphenates span.stop ((s.ahead 1).past
      (Lexer.placed (pos.after first) (hyphenTail others))).cursor := fun more =>
    ends ((Scope.kind_of_remaining
      (Scope.remaining_past (Scope.remaining_ahead_one tokens))).symm.trans more.1)
  refine ⟨(t.raw ++ String.ofList (others.map ('-' :: ·)).flatten, span), ?_, ?_⟩
  · rw [attributeName_eq, bind_of_ok read, ParserState.past_cons]
    exact rounds.chain (hyphenPart_of_not last)
  · have own : t.raw.toList = first := raw
    refine String.toList_inj.mp ?_
    simp [own, same]

theorem exists_printedName (h : IsAttributeName name) :
    ∃ l ls, lexemes (printedName name) = l :: ls ∧ l.kind.isName := by
  obtain ⟨first, others, same, isWord, isName, words⟩ := h
  refine ⟨word (String.ofList first), lexemes (hyphenTail others ++ [.space]), ?_, isName⟩
  rw [printedName_eq same (List.forall_mem_cons.mpr ⟨isWord, words⟩), glued_hyphenated, lexemes,
    List.filterMap_cons_some (lexeme?_piece _)]
  rfl

theorem ne_symbol_of_isName {kind : TokenKind} (h : kind.isName) (sign : Symbol) :
    kind ≠ .symbol sign := by
  rintro rfl
  cases h

end

namespace Parser.Restores

variable {β : Type} {ps : List Piece} {follow : List Token → Prop} {f : Bool → Parser β}
  {Q : β → Prop} {kind : TokenKind}

theorem is_false (other : ∀ pos rest, follow rest → firstKind (Lexer.placed pos ps ++ rest) ≠ kind)
    (h : Restores scope depth ps follow (f false) Q) :
    Restores scope depth ps follow (Parser.is kind >>= f) Q := by
  refine .look (R := (· = false)) (fun pos s rest tokens follows => ⟨_, is_apply, ?_⟩)
    (by rintro _ rfl; exact h)
  rw [Scope.kind_of_remaining tokens]
  exact beq_eq_false_iff_ne.mpr (other pos rest follows)

end Parser.Restores

namespace ElementProp

variable {p : ElementProp} {ps : List ElementProp}

theorem restores_named {name : String} {value : Expr} {shorthand : Bool} {span : Span}
    (h : (named name value shorthand span).IsWritable (scope.options.maxDepth - depth)) :
    Restores scope depth (named name value shorthand span).printed EndsItem (namedParser Expr.parser)
      (·.unplaced id = (named name value shorthand span).unplaced id) := by
  cases shorthand with
  | true =>
    obtain ⟨isName, s, rfl⟩ := h
    refine (restores_attributeName isName).bind (fun _ _ ends => ?_) ?_
    · exact ne_of_endsItem ends (by decide) (by decide)
    rintro ⟨name, s⟩ rfl
    refine .eat_false (by simp) (fun _ _ ends => ?_) (.pure rfl)
    exact ne_of_endsItem ends (by decide) (by decide)
  | false =>
    obtain ⟨isName, writable⟩ := h
    refine (restores_attributeName isName).bind (fun pos rest _ => ?_) ?_
    · rw [if_neg (by decide), firstKind_spaced]
      decide
    rintro ⟨name, s⟩ rfl
    refine .eat_true lexemes_spaced rfl (by simp) (.eat_true lexemes_spaced rfl (by simp) ?_)
    refine (Expr.restores writable).bind (fun _ _ _ => ?_) fun value' same => ?_
    · exact Expr.stops_of_close rfl (firstKind_placed lexemes_spaced _ _)
    refine (Restores.expectSymbol .closeBrace).returns fun _ _ => ?_
    exact congrArg (named name · false default) same

theorem exists_printed (h : p.IsWritable levels) :
    ∃ l ls, lexemes p.printed = l :: ls ∧ l.kind ≠ .symbol .closeParen := by
  cases p with
  | spread argument span =>
    exact ⟨_, _, by rw [printed, lexemes_append, lexemes_spaced, List.singleton_append], by decide⟩
  | named name value shorthand span =>
    have isName : IsAttributeName name := by cases shorthand <;> exact h.1
    obtain ⟨l, ls, same, named⟩ := exists_printedName isName
    exact ⟨l, _, by rw [printed, lexemes_append, same, List.cons_append],
      ne_symbol_of_isName named _⟩

theorem restores (h : p.IsWritable (scope.options.maxDepth - depth)) :
    Restores scope depth p.printed EndsItem (parser Expr.parser) (·.unplaced id = p.unplaced id) := by
  cases p with
  | spread argument span =>
    refine .isSymbol (by rw [printed, lexemes_append, lexemes_spaced, List.singleton_append]) ?_
    refine .andThen (.advance lexemes_spaced (by decide)) fun _ _ => ?_
    refine ((Expr.restores h).before fun _ ends => Expr.stops_of_item ends).returns ?_
    exact fun _ same => congrArg (spread · default) same
  | named name value shorthand span =>
    have isName : IsAttributeName name := by cases shorthand <;> exact h.1
    obtain ⟨l, ls, same, first⟩ := exists_printedName isName
    refine .isSymbol (by rw [printed, lexemes_append, same, List.cons_append]) ?_
    rw [beq_eq_false_iff_ne.mpr (ne_symbol_of_isName first _)]
    exact restores_named h

theorem restores_listParser (h : ∀ p ∈ ps, p.IsWritable (scope.options.maxDepth - depth)) :
    Restores scope depth (inParens (Parser.separated (ps.map printed))) (fun _ => True)
      (listParser Expr.parser) (·.map (unplaced id) = ps.map (unplaced id)) := by
  refine .andThen (.expectSymbol .openParen) fun _ _ => ?_
  have items := Restores.commaSeparated (show Symbol.closeParen ≠ .comma by decide)
    (fun p member => restores (h p member)) fun p member => exists_printed (h p member)
  refine items.bind (fun _ _ _ => firstKind_placed lexemes_spaced _ _) fun es' same => ?_
  exact (Restores.expectSymbol .closeParen).returns fun _ _ => map_eq_map_of_forall₂ same

end ElementProp

def Directive.name : Directive → String
  | event handler _ => handler.event
  | model .. => "model"
  | a11y .. => "a11y"
  | live .. => "live"
  | focusTrap .. => "focusTrap"
  | srOnly _ => "srOnly"
  | boundary target _ => target.name

section

variable {name : List Char} {modifiers : List (List Char)} {rest : List Token}

theorem lexemes_piece (l : Lexeme) : lexemes [l.piece] = [l] :=
  List.filterMap_cons_some (lexeme?_piece l)

theorem text_of_own {t : Token} {l : Lexeme} (h : t.own = l) : t.text = (l.token .origin).text := by
  subst h
  rfl

def EndsHead (rest : List Token) : Prop :=
  firstKind rest ≠ .modifier ∧ firstKind rest ≠ .symbol .openParen

theorem restoresRounds_modifierPart (t : Token) (before : Array Token) (span : Span) :
    RestoresRounds scope depth (glued (modifiers.map modifier)) (firstKind · ≠ .modifier)
      (chainRound (modifierPart true t)) (before, span)
      fun a => a.1.toList.map Token.text =
        before.toList.map Token.text ++ modifiers.map String.ofList := by
  induction modifiers generalizing before span with
  | nil => exact .nil (List.append_nil _).symm
  | cons name names ih =>
    have round : Restores scope depth [(modifier name).piece] (fun _ => True)
        (modifierPart true t (before, span)) fun next => ∃ b, next = some b ∧
          b.1.toList.map Token.text = before.toList.map Token.text ++ [String.ofList name] := by
      refine .current (lexemes_piece _) fun u own => ?_
      have kind : u.kind = .modifier := congrArg Lexeme.kind own
      rw [if_neg (by simp [kind])]
      refine (Restores.advance (lexemes_piece _) (by simp [modifier])).returns fun _ _ => ⟨_, rfl, ?_⟩
      have text : u.text = String.ofList name := text_of_own own
      simp [text]
    change RestoresRounds scope depth
      ([(modifier name).piece] ++ glued (names.map modifier)) _ _ _ _
    refine .cons (by simp [lexemes_piece]) round.chainRound
      (fun _ _ _ => trivial) ?_
    rintro ⟨tokens, span⟩ same
    refine (ih tokens span).mono fun a texts => ?_
    rw [texts, same, List.append_assoc]
    rfl

theorem restores_directiveHead (allowed : Bool) (plain : allowed = false → modifiers = []) :
    Restores scope depth (glued (head name modifiers)) (firstKind · ≠ .modifier)
      (directiveHead allowed) (·.1.map Token.text = modifiers.map String.ofList) := by
  rw [directiveHead_eq]
  change Restores scope depth ([(Lexeme.symbol .atSign).piece] ++ ([(directive name).piece] ++
    glued (modifiers.map modifier))) _ _ _
  refine .andThen (.expect (lexemes_piece _) rfl (by simp)) fun _ _ => ?_
  have noEnd : (directive name).kind ≠ .endOfFile := by
    rcases kind_word (String.ofList name) with kind | ⟨k, kind⟩ <;> simp [directive, kind]
  refine .andThen (.advance (lexemes_piece _) noEnd) fun t _ => ?_
  have rounds (start : Span) : RestoresRounds scope depth (glued (modifiers.map modifier))
      (firstKind · ≠ .modifier) (chainRound (modifierPart allowed t)) (#[], start)
      fun a => a.1.toList.map Token.text = modifiers.map String.ofList := by
    cases allowed with
    | true => exact restoresRounds_modifierPart t #[] start
    | false =>
      obtain rfl := plain rfl
      exact .nil rfl
  refine ((rounds _).chain fun b _ => ?_).returns fun a texts => texts
  intro pos s rest _ tokens ends
  refine ⟨none, ?_, rfl⟩
  have here : _ = firstKind rest := Scope.kind_of_remaining tokens
  rw [modifierPart, bind_of_ok current_apply, if_pos (by rw [here]; simpa using ends)]
  rfl

end

section

variable {name : String} {modifiers : List String} {handler : EventHandler} {inner : MarkupInner}
  {e : Expr}

theorem lexemes_printedHead (name : String) (modifiers : List String) :
    lexemes (printedHead name modifiers) = Lexeme.symbol .atSign :: directive name.toList ::
      modifiers.map fun name => modifier name.toList := by
  rw [printedHead, lexemes_glued, head, List.map_map]
  rfl

theorem lexemes_headed (name : String) (modifiers : List String) (ps : List Piece) :
    lexemes (printedHead name modifiers ++ ps) = Lexeme.symbol .atSign :: directive name.toList ::
      (modifiers.map (fun name => modifier name.toList) ++ lexemes ps) := by
  rw [lexemes_append, lexemes_printedHead, List.cons_append, List.cons_append]

theorem text_directive {t : Token} (h : t.own = directive name.toList) : t.text = name :=
  (text_of_own h).trans String.ofList_toList

theorem restores_printedHead (name : String) (modifiers : List String) :
    Restores scope depth (printedHead name modifiers) (firstKind · ≠ .modifier) (directiveHead true)
      (·.1.map Token.text = modifiers) := by
  refine (restores_directiveHead true nofun).mono fun a texts => ?_
  have own : String.ofList ∘ String.toList = id := funext fun _ => String.ofList_toList
  rwa [List.map_map, own, List.map_id] at texts

theorem restores_plainHead (name : String) :
    Restores scope depth (printedHead name []) (firstKind · ≠ .modifier) plainHead fun _ => True :=
  (restores_directiveHead false fun _ => rfl).returns fun _ _ => trivial

theorem EventHandler.restores (h : handler.IsWritable (scope.options.maxDepth - depth)) :
    Restores scope depth handler.printed EndsHead (parser Expr.parser)
      (·.1.unplaced id = handler.unplaced id) := by
  refine .peek (lexemes_headed ..) fun name own => ?_
  rw [text_directive own]
  have same {names : List String} {e : Option Expr} (texts : names = handler.modifiers)
      (argument : e.map (Expr.erased id) = handler.handler.map (Expr.erased id)) :
      EventHandler.unplaced id ⟨handler.event, names, e⟩ = handler.unplaced id := by
    rw [EventHandler.unplaced, EventHandler.unplaced, texts, argument]
  rw [printed]
  cases own : handler.handler with
  | none =>
    rw [List.append_nil]
    refine (restores_printedHead _ _).last (fun _ ends => ends.1) fun a texts => ?_
    exact .is_false (fun _ _ ends => ends.2) (.pure (same texts (by rw [own])))
  | some e =>
    change Restores scope depth (_ ++ Expr.printedArguments [e]) _ _ _
    refine (restores_printedHead _ _).bind (fun pos rest _ => ?_) fun a texts => ?_
    · rw [Expr.printedArguments, firstKind_placed (lexemes_inParens _)]
      decide
    refine .isSymbol (lexemes_inParens _) ?_
    have writable : ∀ e' ∈ [e], e'.ItemIsWritableIn (scope.options.maxDepth - depth) := by
      simpa using h.handler e own
    refine ((Expr.restores_arguments writable).before fun _ _ => trivial).last (fun _ _ => trivial) ?_
    rintro ⟨arguments, close⟩ erased
    obtain ⟨e', rfl, argument⟩ := List.map_eq_singleton_iff.mp erased
    exact .pure (same texts (by rw [own]; exact congrArg some argument))

theorem BoundaryTarget.restores (target : BoundaryTarget) :
    Restores scope depth (printedHead target.name []) EndsHead parser (·.1 = target) := by
  refine .peek (lexemes_printedHead ..) fun name own => ?_
  rw [text_directive own]
  refine (restores_plainHead target.name).last (fun _ ends => ends.1) fun _ _ => ?_
  refine .is_false (fun _ _ ends => ends.2) (.pure ?_)
  cases target <;> rfl

namespace Directive

theorem modelModifiers_eq {ts : List Token} {modifiers : List ModelModifier}
    (h : ts.map Token.text = modifiers.map ModelModifier.name) :
    modelModifiers ts = pure modifiers := by
  induction ts generalizing modifiers with
  | nil =>
    obtain rfl := List.map_eq_nil_iff.mp h.symm
    rfl
  | cons t ts ih =>
    obtain ⟨m, modifiers, rfl, first, others⟩ := List.map_eq_cons_iff.mp h.symm
    have found : ModelModifier.ofName? m.name = some m := by cases m <;> rfl
    rw [modelModifiers, ← first, found, ih others.symm]
    rfl

theorem restores_modelParser {modifiers : List ModelModifier} {binding : Expr} {span : Span}
    (h : (model modifiers binding span).IsWritable (scope.options.maxDepth - depth))
    (node : Parser MarkupNode) :
    Restores scope depth (model modifiers binding span).printed (fun _ => True)
      (modelParser ⟨Expr.parser, node⟩)
      (·.unplaced id = (model modifiers binding span).unplaced id) := by
  refine (restores_printedHead _ _).bind (fun pos rest _ => ?_) ?_
  · rw [firstKind_placed (lexemes_inParens _)]
    decide
  rintro ⟨tokens, start⟩ same
  change Restores scope depth _ _ (modelModifiers tokens >>= _) _
  rw [modelModifiers_eq same]
  refine (MarkupInner.restores_condition rfl h.2).last (fun _ _ => trivial) fun e erased => ?_
  refine .previous fun close => ?_
  have assignable : e.isAssignable := by
    rw [← Expr.isAssignable_unplaced (ArrowBody.kept id), ← Expr.erased, erased, Expr.erased,
      Expr.isAssignable_unplaced]
    exact h.1
  rw [assignable]
  exact .pure (congrArg (model modifiers · default) erased)

theorem restores_attributeParser {a : A11yAttribute}
    (h : IsAttributeName a.name ∧ a.value.IsWritableIn (scope.options.maxDepth - depth)) :
    Restores scope depth a.printed EndsItem (attributeParser Expr.parser)
      (·.unplaced id = a.unplaced id) := by
  refine (restores_attributeName h.1).bind (fun pos rest _ => ?_) ?_
  · rw [firstKind_spaced]
    decide
  rintro ⟨name, span⟩ same
  refine .andThen (.expectSymbol .eq) fun _ _ => ?_
  refine ((Expr.restores h.2).before fun _ ends => Expr.stops_of_item ends).returns ?_
  intro e erased
  rw [A11yAttribute.unplaced, A11yAttribute.unplaced, erased, show name = a.name from same]

theorem restores_a11yParser {attributes : List A11yAttribute}
    (h : ∀ a ∈ attributes, IsAttributeName a.name ∧
      a.value.IsWritableIn (scope.options.maxDepth - depth)) (span : Span) :
    Restores scope depth (a11y attributes span).printed (fun _ => True) (a11yParser Expr.parser)
      (·.unplaced id = (a11y attributes span).unplaced id) := by
  refine (restores_plainHead _).bind (fun pos rest _ => ?_) fun _ _ => ?_
  · rw [firstKind_placed (lexemes_inParens _)]
    decide
  refine .andThen (.expectSymbol .openParen) fun _ _ => ?_
  have starts (a : A11yAttribute) (member : a ∈ attributes) :
      ∃ l ls, lexemes a.printed = l :: ls ∧ l.kind ≠ .symbol .closeParen := by
    obtain ⟨l, ls, same, named⟩ := exists_printedName (h a member).1
    exact ⟨l, _, by rw [A11yAttribute.printed, lexemes_append, same, List.cons_append],
      ne_symbol_of_isName named _⟩
  have items := Restores.commaSeparated (show Symbol.closeParen ≠ .comma by decide)
    (fun a member => restores_attributeParser (h a member)) starts
  refine items.bind (fun _ _ _ => firstKind_placed lexemes_spaced _ _) fun as same => ?_
  refine (Restores.expectSymbol .closeParen).returns fun _ _ => ?_
  exact congrArg (a11y · default) (map_eq_map_of_forall₂ same)

theorem restores_optionalArgument {α : Type} {ps : List Piece} {item : Parser α} {P : α → Prop}
    (first : ∃ l ls, lexemes ps = l :: ls ∧ l.kind ≠ .symbol .closeParen)
    (h : Restores scope depth ps (firstKind · = .symbol .closeParen) item P) (span : Span) :
    Restores scope depth (inParens ps) (fun _ => True) (optionalArgument item span)
      fun a => ∃ b, a.1 = some b ∧ P b := by
  obtain ⟨l, ls, same, open_⟩ := first
  refine .eat_true lexemes_spaced rfl (by simp) ?_
  refine .isSymbol (l := l) (by rw [lexemes_append, same, List.cons_append]) ?_
  rw [beq_eq_false_iff_ne.mpr open_]
  have some : Restores scope depth ps (firstKind · = .symbol .closeParen) (some <$> item)
      fun a => ∃ b, a = some b ∧ P b := h.map fun b holds => ⟨b, rfl, holds⟩
  refine some.bind (fun _ _ _ => firstKind_placed lexemes_spaced _ _) ?_
  rintro _ ⟨b, rfl, holds⟩
  exact (Restores.expectSymbol .closeParen).returns fun _ _ => ⟨b, rfl, holds⟩

theorem restores_noArgument {α : Type} {item : Parser α} (span : Span) :
    Restores scope depth [] (firstKind · ≠ .symbol .openParen) (optionalArgument item span)
      (·.1 = none) := .eat_false (by simp) (fun _ _ other => other) (.pure rfl)

theorem restores_liveParser (priority : String) (span : Span) :
    Restores scope depth (live priority span).printed (fun _ => True) liveParser
      (·.unplaced id = (live priority span).unplaced id) := by
  refine (restores_plainHead _).bind (fun pos rest _ => ?_) fun head _ => ?_
  · rw [firstKind_placed (lexemes_inParens _)]
    decide
  have string : Restores scope depth (spaced [quoted priority])
      (firstKind · = .symbol .closeParen) (expectStringOr .identifier) (·.text = priority) := by
    refine .is lexemes_spaced ?_
    exact (Restores.advance lexemes_spaced (by simp [quoted])).mono fun t own => text_of_own own
  refine (restores_optionalArgument ⟨_, _, lexemes_spaced, by simp [quoted]⟩ string _).returns ?_
  rintro ⟨_, span⟩ ⟨t, rfl, rfl⟩
  rfl

theorem restores_focusTrapParser {options : Option Expr} {span : Span}
    (h : (focusTrap options span).IsWritable (scope.options.maxDepth - depth)) :
    Restores scope depth (focusTrap options span).printed EndsHead (focusTrapParser Expr.parser)
      (·.unplaced id = (focusTrap options span).unplaced id) := by
  cases options with
  | none =>
    refine (restores_plainHead _).last (fun _ ends => ends.1) fun head _ => ?_
    refine ((restores_noArgument head).before fun _ ends => ends.2).returns ?_
    rintro ⟨_, span⟩ rfl
    rfl
  | some e =>
    refine (restores_plainHead _).bind (fun pos rest _ => ?_) fun head _ => ?_
    · rw [firstKind_placed (lexemes_inParens _)]
      decide
    have writable := h e rfl
    obtain ⟨l, ls, same, first⟩ := Expr.exists_printed writable.1
    have value := (Expr.restores writable).before fun rest
      (close : firstKind rest = .symbol .closeParen) => Expr.stops_of_close rfl close
    have open_ : l.kind ≠ .symbol .closeParen := by
      intro close
      rw [close] at first
      cases first
    refine ((restores_optionalArgument ⟨l, ls, same, open_⟩ value _).before
      fun _ _ => trivial).returns ?_
    rintro ⟨_, span⟩ ⟨e', rfl, erased⟩
    exact congrArg (focusTrap · default) (congrArg some erased)

theorem exists_lexemes_printed (d : Directive) :
    ∃ ls, lexemes d.printed = Lexeme.symbol .atSign :: directive d.name.toList :: ls := by
  cases d with
  | event handler span => exact ⟨_, lexemes_headed ..⟩
  | focusTrap options span =>
    cases options with
    | none => exact ⟨_, lexemes_printedHead ..⟩
    | some e => exact ⟨_, lexemes_headed ..⟩
  | model | a11y | live => exact ⟨_, lexemes_headed ..⟩
  | srOnly | boundary => exact ⟨_, lexemes_printedHead ..⟩

theorem restores {d : Directive} (h : d.IsWritable (scope.options.maxDepth - depth))
    (node : Parser MarkupNode) :
    Restores scope depth d.printed EndsHead (parser ⟨Expr.parser, node⟩)
      (·.unplaced id = d.unplaced id) := by
  obtain ⟨ls, first⟩ := d.exists_lexemes_printed
  refine .peek first fun t own => ?_
  rw [text_directive own]
  cases d with
  | model modifiers binding span =>
    rw [name, if_pos (by decide)]
    exact (restores_modelParser h node).before fun _ _ => trivial
  | a11y attributes span =>
    rw [name, if_neg (by decide), if_pos (by decide)]
    exact (restores_a11yParser h span).before fun _ _ => trivial
  | live priority span =>
    rw [name, if_neg (by decide), if_neg (by decide), if_pos (by decide)]
    exact (restores_liveParser priority span).before fun _ _ => trivial
  | focusTrap options span =>
    rw [name, if_neg (by decide), if_neg (by decide), if_neg (by decide), if_pos (by decide)]
    exact restores_focusTrapParser h
  | srOnly span =>
    rw [name, if_neg (by decide), if_neg (by decide), if_neg (by decide), if_neg (by decide),
      if_pos (by decide)]
    exact ((restores_plainHead _).before fun _ ends => ends.1).returns fun _ _ => rfl
  | boundary target span =>
    have other : ∀ text ∈ ["model", "a11y", "live", "focusTrap", "srOnly"],
        ¬(target.name == text) = true := by cases target <;> decide
    have own : (target.name == "client" || target.name == "server") = true := by
      cases target <;> decide
    rw [name, if_neg (other _ (by decide)), if_neg (other _ (by decide)),
      if_neg (other _ (by decide)), if_neg (other _ (by decide)), if_neg (other _ (by decide)),
      if_pos own]
    refine (BoundaryTarget.restores target).returns ?_
    rintro ⟨_, start⟩ rfl
    rfl
  | event handler span =>
    have other (text : String) (reserved : text ∈ EventHandler.reserved) :
        (handler.event == text) = false :=
      beq_eq_false_iff_ne.mpr fun same => h.free (same ▸ reserved)
    have more (text : String) (reserved : text ∈ EventHandler.reserved) :
        ¬(handler.event == text) = true := Bool.eq_false_iff.mp (other text reserved)
    have noBoundary : ¬(handler.event == "client" || handler.event == "server") = true := by
      rw [other _ (by decide), other _ (by decide)]
      decide
    rw [name, if_neg (more _ (by decide)), if_neg (more _ (by decide)),
      if_neg (more _ (by decide)), if_neg (more _ (by decide)), if_neg (more _ (by decide)),
      if_neg noBoundary]
    exact (EventHandler.restores h).returns fun _ same => congrArg (event · default) same

def joins : List Token → Bool
  | _ :: name :: rest =>
    name.kind == .identifier && name.text != "else-if" &&
      !((name.text == "client" || name.text == "server") && firstKind rest == .symbol .openBrace)
  | _ => false

theorem attaches_joins (scope : Scope) (s : ParserState) :
    attaches scope s = .ok (joins (scope.remaining s)) s := by
  rw [attaches, bind_of_ok peek_apply]
  have next : (scope.stream.get (s.cursor + 1)).kind = firstKind (scope.remaining s).tail := by
    rw [← TokenStream.firstKind_tokensFrom, TokenStream.tokensFrom_add, List.drop_one]
    rfl
  cases tokens : scope.remaining s with
  | nil =>
    rw [tokens] at next
    rw [if_pos (by rw [next]; rfl)]
    rfl
  | cons t rest =>
    cases rest with
    | nil =>
      rw [tokens] at next
      rw [if_pos (by rw [next]; rfl)]
      rfl
    | cons u rest =>
      have atNext := Scope.remaining_ahead_one tokens
      have own : scope.stream.get (s.cursor + 1) = u := Scope.get_of_remaining atNext
      have third : (scope.stream.get (s.cursor + 2)).kind = firstKind rest :=
        Scope.kind_of_remaining (Scope.remaining_ahead_one atNext)
      rw [own, joins]
      split
      · next other =>
        have none : (u.kind == .identifier && u.text != "else-if") = false := by
          rcases Bool.or_eq_true_iff.mp other with kind | text
          · rw [show (u.kind == .identifier) = false by simpa using kind, Bool.false_and]
          · rw [show (u.text != "else-if") = false by simpa using text, Bool.and_false]
        rw [none, Bool.false_and]
        rfl
      · next other =>
        have named : (u.kind == .identifier && u.text != "else-if") = true := by
          simpa using other
        rw [named, Bool.true_and]
        split
        · next boundary =>
          rw [bind_of_ok (peekAt_apply 2), third, boundary, Bool.true_and]
          rfl
        · next plain =>
          rw [Bool.eq_false_iff.mpr plain, Bool.false_and]
          rfl

end Directive

end

namespace TextNode

open TextSegment TextPart

variable {t : TextNode} {token : Token} {follow : List Token → Prop}

theorem content_of_parts {t' : TextNode} (h : t'.parts = t.parts) : t'.content = t.content := by
  simp only [content, unplaced, h]

theorem IsPlain.ofToken (h : t.IsPlain) (options : Options) (own : token.own = t.quoted) :
    ∃ node, ofToken options token = .ok node ∧ node.content = t.content := by
  have writable := h.writable options
  have kind : token.kind = .string := congrArg Lexeme.kind own
  have text : token.text.toList = (t.parts.flatMap segments).flatMap value := by
    rw [text_of_own own]
    exact String.toList_ofList
  have chain : t.parts.IsChain TextPart.Apart := by
    rcases h with parts | ⟨text, -, parts⟩
    all_goals simp [parts]
  have same : (cut (token.kind == .template) 0 0 token.text.toList).map (.mapSource id) =
      t.parts.flatMap segments := by
    rw [kind, text]
    exact ((cut_value_iff id 0 writable.isClosed).mpr
      (writable.isChain_segments.mpr chain)).trans (map_mapSource_segments t.parts)
  obtain ⟨node, read, back⟩ := ofToken_readsBack writable.toAreProper same
  refine ⟨node, read, content_of_parts ?_⟩
  rcases h with parts | ⟨text, -, parts⟩
  · rw [parts] at back ⊢
    exact List.forall₂_nil_left_iff.mp back
  · rw [parts] at back ⊢
    obtain ⟨part, rest, first, others, whole⟩ := List.forall₂_cons_left_iff.mp back
    cases first
    rw [whole, List.forall₂_nil_left_iff.mp others]

theorem IsPlain.restores (h : t.IsPlain) (own : token.own = t.quoted) :
    Restores scope depth [] follow (parser token) (·.content = t.content) := by
  intro pos s rest _ _ _
  obtain ⟨node, read, same⟩ := h.ofToken scope.options own
  refine ⟨node, ?_, same⟩
  rw [parser, bind_of_ok scope_apply, read]
  rfl

theorem IsPlain.restores_quoted (h : t.IsPlain) :
    Restores scope depth (spaced [t.quoted]) follow (advance >>= parser)
      (·.content = t.content) :=
  (Restores.advance lexemes_spaced (by simp [quoted])).last (fun _ _ => trivial)
    fun _ own => h.restores own

theorem IsPlain.content_ofLiteral (h : t.IsPlain) (own : token.own = t.alone)
    (other : token.kind ≠ .string) : (ofLiteral token).content = t.content := by
  rcases h.alone_cases with same | ⟨text, parts, bare⟩
  · rw [same] at own
    exact absurd (congrArg Lexeme.kind own) other
  · have raw : token.raw = text := (congrArg Lexeme.raw own).trans (bare?_stable bare).2.1
    exact content_of_parts (by rw [ofLiteral, raw, parts])

end TextNode

namespace LoopHead

open MarkupNode

variable {head : LoopHead}

theorem restores_iterationKind (kind : IterationKind) :
    Restores scope depth (spaced [word kind.name]) (fun _ => True) iterationKind (· = kind) := by
  refine .current lexemes_spaced fun t own => ?_
  have same : t.kind = (word kind.name).kind := congrArg Lexeme.kind own
  cases kind with
  | in_ =>
    have word : t.kind = .keyword .in_ := same
    rw [word]
    exact (Restores.advance lexemes_spaced (by decide)).returns fun _ _ => rfl
  | of =>
    have word : t.kind = .keyword .of := same
    rw [word]
    exact (Restores.expect lexemes_spaced rfl (by decide)).returns fun _ _ => rfl

theorem keyFollows_apply (scope : Scope) (s : ParserState) :
    let t := scope.stream.get s.cursor
    keyFollows scope s = .ok ((t.kind == .identifier || t.kind == .selector) && t.text == "key" &&
      (scope.stream.get (s.cursor + 1)).kind == .symbol .openParen) s := rfl

theorem restores (h : head.IsWritable (scope.options.maxDepth - depth)) (node : Parser MarkupNode) :
    Restores scope depth (inParens (spaced [word head.item] ++ (head.printedIndex ++
        (spaced [word head.iteration.name] ++ head.iterable.printed))) ++ head.printedKey)
      (firstKind · = .symbol .openBrace) (loopHead ⟨Expr.parser, node⟩ head.keyword)
      (·.unplaced id = head.unplaced id) := by
  simp only [inParens, List.append_assoc]
  refine .andThen (.expectSymbol .openParen) fun _ _ => ?_
  refine .andThen (.expect lexemes_spaced h.item.2 (by simp)) fun item own => ?_
  extract_lets rest
  have text : item.raw = head.item := (congrArg Lexeme.raw own).trans (raw_word _)
  have tail (index : Option String) (same : index = head.index) :
      Restores scope depth (spaced [word head.iteration.name] ++ (head.iterable.printed ++
        (spaced [Lexeme.symbol .closeParen] ++ head.printedKey))) (firstKind · = .symbol .openBrace)
        (rest index) (·.unplaced id = head.unplaced id) := by
    refine (restores_iterationKind _).andThen ?_
    rintro kind rfl
    refine (Expr.restores h.iterable).bind (fun _ _ _ => ?_) fun iterable erased => ?_
    · exact Expr.stops_of_close rfl (firstKind_spaced ..)
    refine .andThen (.expectSymbol .closeParen) fun _ _ => ?_
    extract_lets last
    have done (key : Option Expr) (own : key.map (Expr.erased id) = head.key.map (Expr.erased id)) :
        Restores scope depth [] (firstKind · = .symbol .openBrace) (last key)
          (·.unplaced id = head.unplaced id) := by
      refine .pure ?_
      simp only [LoopHead.unplaced, own, erased, same, text]
    clear_value last
    unfold printedKey
    cases own : head.key with
    | none =>
      rw [own] at done
      refine .look (R := (· = false)) (fun pos s rest tokens opens => ⟨_, keyFollows_apply _ _, ?_⟩) ?_
      · have here : _ = firstKind rest := Scope.kind_of_remaining tokens
        rw [here, opens]
        rfl
      · rintro _ rfl
        exact done none rfl
    | some key =>
      rw [own] at done
      have first : lexemes (spaced [Lexeme.selector "key".toList] ++ inParens key.printed) =
          Lexeme.selector "key".toList :: Lexeme.symbol .openParen ::
            (lexemes key.printed ++ [Lexeme.symbol .closeParen]) := by
        rw [lexemes_append, lexemes_spaced, lexemes_inParens, List.singleton_append]
      refine .look (R := (· = true)) (fun pos s rest tokens _ => ⟨_, keyFollows_apply _ _, ?_⟩) ?_
      · obtain ⟨t, ts, placed, word, others⟩ := exists_placed first pos
        obtain ⟨u, us, rfl, paren, -⟩ := List.map_eq_cons_iff.mp others
        dsimp only at tokens
        rw [placed] at tokens
        have second : scope.stream.get (s.cursor + 1) = u :=
          Scope.get_of_remaining (Scope.remaining_ahead_one tokens)
        have kind : t.kind = .selector := congrArg Lexeme.kind word
        have opens : u.kind = .symbol .openParen := congrArg Lexeme.kind paren
        rw [Scope.get_of_remaining tokens, second, kind, opens, text_of_own word]
        decide
      · rintro _ rfl
        refine .andThen (.advance lexemes_spaced (by simp [Lexeme.selector])) fun _ _ => ?_
        have value : Restores scope depth (inParens key.printed) (firstKind · = .symbol .openBrace)
            (some <$> MarkupInner.condition ⟨Expr.parser, node⟩)
            fun e => e.map (Expr.erased id) = some (key.erased id) :=
          (MarkupInner.restores_condition rfl (h.key key own)).map fun e same => congrArg some same
        exact value.last (fun _ opens => opens) done
  clear_value rest
  unfold printedIndex
  cases own : head.index with
  | none =>
    rw [own] at tail
    refine .eat_false (by simp) (fun pos rest _ => ?_) (tail none rfl)
    rw [List.nil_append, firstKind_spaced]
    cases head.iteration <;> decide
  | some index =>
    rw [own] at tail
    change Restores scope depth (spaced [Lexeme.symbol .comma] ++ (spaced [word index] ++ _)) _ _ _
    refine .eat_true lexemes_spaced rfl (by simp) ?_
    refine .andThen (.expect lexemes_spaced (h.index index own).2 (by simp)) fun t same => ?_
    exact tail _ (congrArg some ((congrArg Lexeme.raw same).trans (raw_word _)))

end LoopHead

end PulseSyntax
