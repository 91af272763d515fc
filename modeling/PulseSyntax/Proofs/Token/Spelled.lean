import PulseSyntax.Proofs.Number.Exact
import PulseSyntax.Proofs.Token.Head
import PulseSyntax.Proofs.Token.Kinds
import PulseSyntax.Proofs.Token.Selector
import PulseSyntax.Proofs.Token.Quoted

namespace PulseSyntax

namespace Lexer

open Word

variable {ctx : Context} {c : Char} {cs after : List Char}

theorem toNat_of_isDigit {c : Char} (digit : c.isDigit) : 48 ≤ c.toNat ∧ c.toNat ≤ 57 := by
  simp only [Char.isDigit, Bool.and_eq_true, decide_eq_true_eq, ge_iff_le,
    UInt32.le_iff_toNat_le] at digit
  exact digit

theorem not_isStart_of_isDigit {c : Char} (digit : c.isDigit) : Word.isStart c = false := by
  obtain ⟨low, high⟩ := toNat_of_isDigit digit
  have noLetter : Text.isAlphabetic c = false :=
    Text.CodePoints.contains_eq_false_of_lt (Nat.lt_of_le_of_lt high (by decide))
  have other (d : Char) (apart : d.toNat < 48 ∨ 57 < d.toNat) : c ≠ d := by
    rintro rfl
    omega
  simp [Word.isStart, noLetter, other '_' (by decide), other '$' (by decide)]

theorem not_isBlank_of_isDigit {c : Char} (digit : c.isDigit) : Text.isBlank c = false := by
  obtain ⟨low, high⟩ := toNat_of_isDigit digit
  refine Bool.eq_false_iff.mpr fun blank => ?_
  have apart : ∀ n ∈ Text.blanks, n < 48 ∨ 57 < n := by decide
  have := apart _ (Text.mem_blanks blank)
  omega

theorem scan_number {ctx : Context} (starts : Numeral.startsHere c cs) :
    scan ctx c cs = Numeral.scan c cs := by
  have first : Text.isBlank c = false ∧ Word.isStart c = false ∧ c ≠ '/' := by
    simp only [Numeral.startsHere, Bool.or_eq_true, Bool.and_eq_true, beq_iff_eq] at starts
    rcases starts with digit | ⟨rfl, -⟩
    · refine ⟨not_isBlank_of_isDigit digit, not_isStart_of_isDigit digit, ?_⟩
      rintro rfl
      cases digit
    · exact ⟨by decide, by decide, by decide⟩
  simp [scan, scanToken, first, starts]

theorem stable_number {kind : TokenKind} {value : TokenValue} {own : List Char}
    (starts : Numeral.startsHere c cs) (h : Numeral.scan c cs = [.lexeme kind value (c :: own)]) :
    (⟨kind, value, String.ofList (c :: own)⟩ : Lexeme).IsStable fun _ => True := by
  refine ⟨c, own, by simp, fun ctx rest _ => ?_⟩
  have again := Numeral.scan_again starts h rest
  have starts' : Numeral.startsHere c (own ++ ' ' :: rest) := by
    obtain ⟨-, after, cut⟩ := Numeral.scans_number starts
    rw [h] at cut
    obtain rfl : cs = own ++ after := by simpa using cut.text_eq
    simp only [Numeral.startsHere, Bool.or_eq_true, Bool.and_eq_true] at starts ⊢
    refine starts.imp_right fun both => ?_
    obtain ⟨point, digit⟩ := both
    refine ⟨point, ?_⟩
    cases own with
    | cons => exact digit
    | nil =>
      -- a point alone is no number
      obtain rfl : c = '.' := by simpa using point
      have alone : Numeral.scan '.' (' ' :: rest) =
          [.lexeme .number (.number (Numeral.DecimalText.read ('.' :: ' ' :: rest)).value) []] := rfl
      rw [List.nil_append, alone] at again
      simp at again
  rw [scan_number starts', again]
  simp [Lexeme.piece]

theorem stable_string {quote : Char} (delimiter : quote = '"' ∨ quote = '\'')
    {text value : List Char} (h : Quoted.stringBody? quote 0 cs = some (text, value)) :
    (⟨.string, .text (String.ofList value), String.ofList (quote :: text)⟩ : Lexeme).IsStable
      fun _ => True := by
  refine ⟨quote, text, by simp, fun ctx rest _ => ?_⟩
  have visible : quote ≠ '\n' := by rcases delimiter with rfl | rfl <;> decide
  have again := (Quoted.delimited_string visible).again h (' ' :: rest)
  rw [scan_quote ctx delimiter, Quoted.scanString, again]
  simp [Lexeme.piece]

theorem stable_template {text : List Char} (h : Quoted.templateBody? 0 cs = some text) :
    (⟨.template, .text (String.ofList text), String.ofList ('`' :: text ++ ['`'])⟩ : Lexeme).IsStable
      fun _ => True := by
  refine ⟨'`', text ++ ['`'], by simp, fun ctx rest _ => ?_⟩
  have again := Quoted.delimited_template.again h (' ' :: rest)
  have quoted : scan ctx '`' (text ++ ['`'] ++ ' ' :: rest) =
      Quoted.scanTemplate (text ++ ['`'] ++ ' ' :: rest) := rfl
  rw [quoted, Quoted.scanTemplate, again]
  simp [Lexeme.piece]

end Lexer

namespace Lexeme

open Word

/-- What an identifier or a reserved word is, after an `@` or not. -/
def IsName (afterAt : Bool) (l : Lexeme) : Prop :=
  ∃ name, IsDirective name ∧ l.raw = String.ofList name ∧ l.kind = (directive name).kind ∧
    (l.kind = .identifier → l = directive name) ∧
    (afterAt = false → IsWord name ∧ l = word (String.ofList name))

/-- What a lexeme is outside of style blocks, after an `@` or not. -/
def IsSpelled (afterAt : Bool) (l : Lexeme) : Prop :=
  match l.kind with
  | .identifier | .keyword _ => l.IsName afterAt
  | .modifier => ∃ name, IsWord name ∧ l = modifier name
  | .selector => ∃ text, l = selector text ∧ l.IsStable (·.inMarkup)
  | .string | .template => (∃ text, l.value = .text text) ∧ l.IsStable fun _ => True
  | .number => (∃ n : Binary64, l.value = .number n ∧ n.IsCanonical) ∧ l.IsStable fun _ => True
  | .bigInt => (∃ digits, l.value = .bigInt digits) ∧ l.IsStable fun _ => True
  | _ => True

variable {afterAt : Bool} {l : Lexeme} {name : List Char}

theorem IsName.isSpelled (h : l.IsName afterAt)
    (kind : l.kind = .identifier ∨ ∃ k, l.kind = .keyword k) : l.IsSpelled afterAt := by
  rcases kind with kind | ⟨k, kind⟩ <;> rwa [IsSpelled, kind]

theorem isSpelled_word (h : IsWord name) (afterAt : Bool) :
    (word (String.ofList name)).IsSpelled afterAt := by
  have named : (word (String.ofList name)).IsName afterAt := by
    refine ⟨name, h.isDirective, raw_word _, rfl, fun kind => ?_, fun _ => ⟨h, rfl⟩⟩
    rw [directive, kind]
    unfold word at kind ⊢
    split at kind
    · cases kind
    · rfl
  exact named.isSpelled (kind_word _)

theorem isSpelled_directive (h : IsDirective name) : (directive name).IsSpelled true :=
  IsName.isSpelled ⟨name, h, rfl, rfl, fun _ => rfl, fun other => nomatch other⟩ (kind_word _)

end Lexeme

namespace Lexer

open Word

/-- The pieces are spelled, where they are read in a context and other pieces stand after them. -/
def AreSpelled (after : List Piece) : Context → List Piece → Prop
  | _, [] => True
  | ctx, piece :: ps =>
    (∀ l ∈ piece.lexeme?, ctx.inStyle = false → ps ++ after ≠ [] →
      l.IsSpelled (ctx.lastKind == some (.symbol .atSign))) ∧
    AreSpelled after (ctx.after piece) ps

theorem areSpelled_append {after : List Piece} {ctx : Context} {ps qs : List Piece} :
    AreSpelled after ctx (ps ++ qs) ↔
      AreSpelled (qs ++ after) ctx ps ∧ AreSpelled after (ps.foldl Context.after ctx) qs := by
  induction ps generalizing ctx with
  | nil => simp [AreSpelled]
  | cons piece ps ih => simp [AreSpelled, ih, and_assoc]

theorem areSpelled_singleton {after : List Piece} {ctx : Context} {kind : TokenKind}
    {value : TokenValue} {text : List Char}
    (h : ctx.inStyle = false → after ≠ [] →
      (⟨kind, value, String.ofList text⟩ : Lexeme).IsSpelled
        (ctx.lastKind == some (.symbol .atSign))) :
    AreSpelled after ctx [.lexeme kind value text] := by
  simpa [AreSpelled, Piece.lexeme?] using h

theorem areSpelled_trivia (after : List Piece) (ctx : Context) (text : List Char) :
    AreSpelled after ctx [.trivia text] := by
  simp [AreSpelled, Piece.lexeme?]

theorem areSpelled_symbol (after : List Piece) (ctx : Context) (sign : Symbol) :
    AreSpelled after ctx [.symbol sign] := areSpelled_singleton fun _ _ => trivial

theorem areSpelled_word (noStyle : ctx.inStyle = false) (start : isStart c) {qs : List Piece}
    (whole : textOf (Word.scan ctx c cs) ++ after = c :: cs) (more : qs ≠ [] → after ≠ []) :
    AreSpelled qs ctx (Word.scan ctx c cs) := by
  have parts : ∀ d ∈ cs.takeWhile isPart, isPart d := fun d member => List.mem_takeWhile_imp member
  have noPart : ∀ d ∈ (cs.dropWhile isPart).head?, isPart d = false := by
    intro d member
    have first := List.head?_dropWhile_not isPart cs
    rwa [Option.mem_def.mp member] at first
  have word : IsWord (c :: cs.takeWhile isPart) := ⟨c, _, rfl, start, parts⟩
  have split : cs = cs.takeWhile isPart ++ cs.dropWhile isPart := List.takeWhile_append_dropWhile.symm
  rw [scan_noStyle noStyle] at whole ⊢
  generalize cs.takeWhile isPart = own at *
  generalize cs.dropWhile isPart = rest at *
  have spelled := Lexeme.isSpelled_word word
  cases found : Keyword.ofSpelling? (String.ofList (c :: own)) with
  | some k =>
    refine areSpelled_singleton fun _ _ => ?_
    have := spelled (ctx.lastKind == some (.symbol .atSign))
    rwa [Lexeme.word, found] at this
  | none =>
    rw [found] at whole
    dsimp only at whole ⊢
    split
    · next continues =>
      rw [if_pos continues] at whole
      rw [Bool.and_eq_true] at continues
      refine areSpelled_singleton fun _ some => ?_
      refine ⟨_, rfl, stable_name start parts found noPart continues.2 ?_ (more some)⟩
      subst split
      simpa [Word.selector] using whole
    · refine areSpelled_singleton fun _ _ => ?_
      have := spelled (ctx.lastKind == some (.symbol .atSign))
      rwa [Lexeme.word, found] at this

theorem areSpelled_mark {e : Char} (mark : c = '#' ∨ c = '.') (first : isSelectorStart e)
    {qs : List Piece}
    (whole : textOf (Word.selector [c] (e :: cs)) ++ after = c :: e :: cs)
    (more : qs ≠ [] → after ≠ []) : AreSpelled qs ctx (Word.selector [c] (e :: cs)) := by
  refine areSpelled_singleton fun _ some => ⟨_, rfl, ?_⟩
  refine stable_mark mark first ?_ (more some)
  simpa [Word.selector, selectorTail_start first] using whole

theorem areSpelled_modifiers {names : List (List Char)} (words : ∀ name ∈ names, IsWord name)
    (qs : List Piece) (ctx : Context) :
    AreSpelled qs ctx (names.map fun name => (Lexeme.modifier name).piece) := by
  induction names generalizing ctx with
  | nil => trivial
  | cons name names ih =>
    obtain ⟨word, others⟩ := List.forall_mem_cons.mp words
    refine ⟨fun l same _ _ => ?_, ih others _⟩
    obtain rfl := Option.some.inj ((Lexeme.lexeme?_piece _).symm.trans same)
    exact ⟨name, word, rfl⟩

theorem areSpelled_at (noStyle : ctx.inStyle = false) (qs : List Piece) :
    AreSpelled qs ctx (scanAt ctx cs) := by
  by_cases start : cs.head?.any isStart
  · obtain ⟨names, run, words⟩ := exists_modifiers cs
    have named := isDirective_directiveTail start
    rw [scanAt_eq noStyle start words run, Lexeme.head, List.map_cons, List.map_cons, List.map_map]
    refine ⟨fun l same _ _ => ?_, fun l same _ _ => ?_, areSpelled_modifiers words qs _⟩
    · obtain rfl := Option.some.inj ((Lexeme.lexeme?_piece _).symm.trans same)
      trivial
    · obtain rfl := Option.some.inj ((Lexeme.lexeme?_piece _).symm.trans same)
      exact Lexeme.isSpelled_directive named
  · rw [scanAt, if_pos (by simpa using start)]
    exact areSpelled_symbol qs ctx .atSign

theorem areSpelled_bare (style : ctx.inStyle) {ps : List Piece} (bare : Bare ps) (qs : List Piece) :
    AreSpelled qs ctx ps := by
  induction ps generalizing ctx with
  | nil => trivial
  | cons piece ps ih =>
    obtain ⟨first, others⟩ := bare_cons.mp bare
    refine ⟨fun l _ noStyle => ?_, ih ?_ others⟩
    · rw [style] at noStyle
      cases noStyle
    · cases piece with
      | trivia => exact style
      | lexeme kind value text =>
        have noBrace : kind.isBrace = false := by
          simp only [Piece.isBare_lexeme, TokenKind.isBare, Bool.and_eq_true,
            Bool.not_eq_true'] at first
          exact first.1.1
        have blocks := ctx.afterKind_blocks_of_plain noBrace
        exact (congrArg (fun blocks => blocks.head?.join == some Keyword.style) blocks).trans style

theorem areSpelled_string {quote : Char} (delimiter : quote = '"' ∨ quote = '\'')
    (qs : List Piece) : AreSpelled qs ctx (Quoted.scanString quote cs) := by
  unfold Quoted.scanString
  split
  · next text value found =>
    exact areSpelled_singleton fun _ _ => ⟨⟨_, rfl⟩, stable_string delimiter found⟩
  · exact areSpelled_singleton fun _ _ => trivial

theorem areSpelled_template (qs : List Piece) :
    AreSpelled qs ctx (Quoted.scanTemplate cs) := by
  unfold Quoted.scanTemplate
  split
  · next text found => exact areSpelled_singleton fun _ _ => ⟨⟨_, rfl⟩, stable_template found⟩
  · exact areSpelled_singleton fun _ _ => trivial

theorem exists_stable_number (starts : Numeral.startsHere c cs) :
    ∃ kind value own, Numeral.scan c cs = [.lexeme kind value own] ∧ Counts kind value ∧
      (⟨kind, value, String.ofList own⟩ : Lexeme).IsStable fun _ => True := by
  obtain ⟨kind, value, own, scanned, counts⟩ := counts_number c cs
  obtain ⟨own, rfl⟩ : ∃ text, own = c :: text := by
    obtain ⟨some, rest, cut⟩ := Numeral.scans_number starts
    rw [scanned] at some cut
    have split := cut.text_eq
    cases own with
    | nil => exact absurd rfl some
    | cons d own =>
      obtain rfl : c = d := by simpa using (List.cons.inj split).1
      exact ⟨own, rfl⟩
  exact ⟨kind, value, c :: own, scanned, counts, stable_number starts scanned⟩

theorem areSpelled_number (starts : Numeral.startsHere c cs) (qs : List Piece) :
    AreSpelled qs ctx (Numeral.scan c cs) := by
  obtain ⟨kind, value, own, scanned, counts, stable⟩ := exists_stable_number starts
  rw [scanned]
  refine areSpelled_singleton fun _ _ => ?_
  cases counts with
  | number canonical => exact ⟨⟨_, rfl, canonical⟩, stable⟩
  | bigInt digits => exact ⟨⟨_, rfl⟩, stable⟩
  | invalid => trivial

theorem areSpelled_comment (qs : List Piece) : AreSpelled qs ctx [scanComment cs] := by
  unfold scanComment
  split
  · exact areSpelled_trivia qs ctx _
  · exact areSpelled_singleton fun _ _ => trivial

theorem areSpelled_scanSymbol (qs : List Piece) : AreSpelled qs ctx (scanSymbol c cs) := by
  unfold scanSymbol
  split
  · exact areSpelled_symbol qs ctx _
  · exact areSpelled_singleton fun _ _ => trivial

theorem exists_of_startsSelector (h : startsSelector ctx c cs) :
    ∃ e rest, cs = e :: rest ∧ isSelectorStart e := by
  simp only [startsSelector, Bool.and_eq_true] at h
  cases cs with
  | nil => simp at h
  | cons e rest => exact ⟨e, rest, rfl, by simpa using h.2⟩

theorem scanHash_eq (noStyle : ctx.inStyle = false) : scanHash ctx cs =
    if startsSelector ctx '#' cs then Word.selector ['#'] cs else [.symbol .hash] := by
  rw [scanHash, noStyle]
  rfl

theorem areSpelled_token (noStyle : ctx.inStyle = false) {qs : List Piece}
    (whole : textOf (scanToken ctx c cs) ++ after = c :: cs) (more : qs ≠ [] → after ≠ []) :
    AreSpelled qs ctx (scanToken ctx c cs) := by
  unfold scanToken at whole ⊢
  split
  · next start =>
    rw [if_pos start] at whole
    exact areSpelled_word noStyle start whole more
  next noStart =>
  rw [if_neg noStart] at whole
  split
  · next number => exact areSpelled_number number qs
  next noNumber =>
  rw [if_neg noNumber] at whole
  split
  · next quote => exact areSpelled_string (by simpa using quote) qs
  next noQuote =>
  rw [if_neg noQuote] at whole
  split
  · exact areSpelled_template qs
  next noTick =>
  rw [if_neg noTick] at whole
  split
  · exact areSpelled_at noStyle qs
  next noAt =>
  rw [if_neg noAt] at whole
  split
  · next hash =>
    obtain rfl : c = '#' := by simpa using hash
    rw [scanHash_eq noStyle] at whole ⊢
    split
    · next selects =>
      rw [if_pos hash, if_pos selects] at whole
      obtain ⟨e, rest, rfl, first⟩ := exists_of_startsSelector selects
      exact areSpelled_mark (.inl rfl) first whole more
    · exact areSpelled_symbol qs ctx _
  next noHash =>
  rw [if_neg noHash] at whole
  split
  · next point =>
    obtain rfl : c = '.' := by simpa using point
    rw [if_pos point] at whole
    unfold scanDot at whole ⊢
    split
    · exact areSpelled_symbol qs ctx _
    next noSpread =>
    rw [if_neg noSpread] at whole
    split
    · next selects =>
      rw [if_pos selects] at whole
      obtain ⟨e, rest, rfl, first⟩ := exists_of_startsSelector selects
      exact areSpelled_mark (.inr rfl) first whole more
    · exact areSpelled_symbol qs ctx _
  · split
    · next hyphen => simp [noStyle] at hyphen
    · exact areSpelled_scanSymbol qs

theorem areSpelled_scan {qs : List Piece} (whole : textOf (scan ctx c cs) ++ after = c :: cs)
    (more : qs ≠ [] → after ≠ []) : AreSpelled qs ctx (scan ctx c cs) := by
  cases style : ctx.inStyle with
  | true =>
    have scanned := scanned_scan ctx c cs
    generalize scan ctx c cs = ps at scanned
    cases scanned with
    | bare h => exact areSpelled_bare style h qs
    | symbol => exact areSpelled_scanSymbol qs
    | number starts => exact areSpelled_number starts qs
    | string quote => exact areSpelled_string quote qs
    | template tick => exact areSpelled_template qs
  | false =>
    unfold scan at whole ⊢
    split
    · exact areSpelled_trivia qs ctx _
    next noBlank =>
    rw [if_neg noBlank] at whole
    split
    · exact areSpelled_trivia qs ctx _
    next noLine =>
    rw [if_neg noLine] at whole
    split
    · exact areSpelled_comment qs
    next noComment =>
    rw [if_neg noComment] at whole
    exact areSpelled_token style whole more

theorem areSpelled_pieces (ctx : Context) (text : List Char) :
    AreSpelled [] ctx (pieces ctx 0 text) := by
  induction h : text.length using Nat.strongRecOn generalizing ctx text with
  | ind n ih =>
    cases text with
    | nil => trivial
    | cons c cs =>
      obtain ⟨nonempty, rest, cut⟩ := scans_scan ctx c cs
      have whole := cut.text_eq
      have shorter : rest.length < n := by
        rw [← h, whole, List.length_append]
        exact Nat.lt_add_of_pos_left (List.length_pos_iff.mpr nonempty)
      rw [pieces_scan whole]
      refine areSpelled_append.mpr ⟨areSpelled_scan whole.symm ?_, ih _ shorter _ rest rfl⟩
      rintro some rfl
      exact some (by simp [pieces])

theorem isSpelled_of_areSpelled {ctx : Context} {ps : List Piece} (h : AreSpelled [] ctx ps)
    {p : Position} {i : Nat} {t : Token} {here : Context} (ht : (place p ps)[i]? = some t)
    (hc : (contextsFrom ctx ps)[i]? = some here) (noStyle : here.inStyle = false)
    (more : i + 2 < (place p ps).length) :
    t.own.IsSpelled (here.lastKind == some (.symbol .atSign)) := by
  induction ps generalizing ctx p i with
  | nil => simp [place] at more
  | cons piece ps ih =>
    obtain ⟨first, others⟩ := h
    cases piece with
    | trivia text => exact ih others ht hc more
    | lexeme kind value text =>
      cases i with
      | succ i => exact ih others ht hc (Nat.lt_of_succ_lt_succ more)
      | zero =>
        cases ht
        cases hc
        refine first _ rfl noStyle ?_
        rw [List.append_nil]
        rintro rfl
        simp [place, Piece.token?] at more

theorem isSpelled_tokens {source : List Char} {i : Nat} {t : Token} {ctx : Context}
    (ht : (tokens source)[i]? = some t) (hc : (contexts source)[i]? = some ctx)
    (noStyle : ctx.inStyle = false) (more : i + 2 < (tokens source).length) :
    t.own.IsSpelled (ctx.lastKind == some (.symbol .atSign)) :=
  isSpelled_of_areSpelled (areSpelled_pieces .initial source) ht hc noStyle more

end Lexer

end PulseSyntax
