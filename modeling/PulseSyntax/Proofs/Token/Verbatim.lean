import PulseSyntax.Proofs.Token.Stable
import PulseSyntax.Style.Spacing

namespace PulseSyntax

namespace Style

def opens (c : Char) : Bool := c == '(' || c == '['

def closes (c : Char) : Bool := c == ')' || c == ']' || c == ',' || c == ';'

def separates (c : Char) : Bool := Text.isBlank c || opens c || closes c

def separators : List Char := Text.blanks.map Char.ofNat ++ ['(', '[', ')', ']', ',', ';']

theorem mem_separators {c : Char} (h : separates c) : c ∈ separators := by
  simp only [separates, opens, closes, Bool.or_eq_true, beq_iff_eq] at h
  rcases h with (blank | opening) | closing
  · refine List.mem_append_left _ (List.mem_map.mpr ⟨c.toNat, Text.mem_blanks blank, ?_⟩)
    exact Char.ofNat_toNat c
  · exact List.mem_append_right _ (by rcases opening with rfl | rfl <;> simp)
  · exact List.mem_append_right _ (by rcases closing with ((rfl | rfl) | rfl) | rfl <;> simp)

/-- Nothing in the text separates. -/
def Solid (text : List Char) : Prop := ∀ c ∈ text, separates c = false

theorem Solid.of {p : Char → Bool} (none : separators.all (fun c => !p c) = true)
    {text : List Char} (h : ∀ c ∈ text, p c) : Solid text := by
  intro c member
  by_contra separating
  have other := List.all_eq_true.mp none c (mem_separators (Bool.not_eq_false _ ▸ separating))
  simp [h c member] at other

section

variable {text own : List Char} {c : Char}

@[simp] theorem solid_nil : Solid [] := List.forall_mem_nil _

@[simp] theorem solid_cons : Solid (c :: text) ↔ separates c = false ∧ Solid text :=
  List.forall_mem_cons

@[simp] theorem solid_append : Solid (own ++ text) ↔ Solid own ∧ Solid text := List.forall_mem_append

theorem Solid.bigInt (h : Solid text) : Solid (text ++ ['n']) :=
  solid_append.mpr ⟨h, solid_cons.mpr ⟨by decide, solid_nil⟩⟩

theorem solid_name (h : ∀ c ∈ text, Word.isPart c || c == '-' || c == '.') : Solid text :=
  .of (p := fun c => Word.isPart c || c == '-' || c == '.') (by decide +kernel) h

theorem solid_digits (h : ∀ c ∈ text, Numeral.isDigit 16 c || c == '_') : Solid text :=
  .of (p := fun c => Numeral.isDigit 16 c || c == '_') (by decide +kernel) h

end

end Style

/-- A token of the kind keeps a part of the source as it stands, whatever that holds. -/
def TokenKind.keepsText : TokenKind → Bool
  | string | template | invalid | selector => true
  | _ => false

/-- A symbol, or a text in which nothing separates, unless the kind is one that keeps any text. -/
def Piece.IsNeat : Piece → Prop
  | .lexeme kind _ text => kind.keepsText ∨ Style.Solid text ∨
    ∃ sign, kind = .symbol sign ∧ text = sign.spelling.toList
  | .trivia _ => True

namespace Lexer

open Style

def Neat (ps : List Piece) : Prop := ∀ piece ∈ ps, piece.IsNeat

theorem solid_digitRun (text : List Char) : Solid (Numeral.digitRun text) :=
  .of (p := fun c => c.isDigit || c == '_') (by decide +kernel) fun _ => List.mem_takeWhile_imp

theorem solid_fractionPart (text : List Char) : Solid (Numeral.fractionPart text) := by
  unfold Numeral.fractionPart
  split
  · split
    · exact solid_cons.mpr ⟨by decide, solid_digitRun _⟩
    · exact solid_nil
  · exact solid_nil

theorem solid_exponentPart (text : List Char) : Solid (Numeral.exponentPart text) := by
  have mark {e : Char} (h : (e == 'e' || e == 'E') = true) : separates e = false := by
    simp only [Bool.or_eq_true, beq_iff_eq] at h
    rcases h with rfl | rfl <;> decide
  unfold Numeral.exponentPart
  split
  · split
    · next letter =>
      split
      · split
        · exact solid_cons.mpr ⟨mark letter, solid_digitRun _⟩
        · split
          · next sign =>
            simp only [Bool.and_eq_true, Bool.or_eq_true, beq_iff_eq] at sign
            refine solid_cons.mpr ⟨mark letter, solid_cons.mpr ⟨?_, solid_digitRun _⟩⟩
            rcases sign.1 with rfl | rfl <;> decide
          · exact solid_nil
      · exact solid_nil
    · exact solid_nil
  · exact solid_nil

theorem solid_decimal (text : List Char) : Solid (Numeral.DecimalText.read text).text :=
  solid_append.mpr
    ⟨solid_append.mpr ⟨solid_digitRun _, solid_fractionPart _⟩, solid_exponentPart _⟩

theorem solid_directiveTail (text : List Char) : Solid (Word.directiveTail text) := by
  refine solid_name fun c member => ?_
  induction text with
  | nil => cases member
  | cons d text ih =>
    rw [Word.directiveTail] at member
    split at member
    · next part =>
      rcases List.mem_cons.mp member with rfl | later
      · simp only [Bool.or_eq_true, Bool.and_eq_true] at part ⊢
        exact .inl (part.imp_right And.left)
      · exact ih later
    · cases member

theorem solid_modifierRun (text : List Char) : Solid (Word.modifierRun text) := by
  refine solid_name fun c member => ?_
  induction text with
  | nil => cases member
  | cons d text ih =>
    rw [Word.modifierRun] at member
    split at member
    · next part =>
      rcases List.mem_cons.mp member with rfl | later
      · simp only [Bool.or_eq_true, Bool.and_eq_true] at part ⊢
        exact part.imp .inl And.left
      · exact ih later
    · cases member

section

variable {ps qs : List Piece} {piece : Piece}

@[simp] theorem neat_nil : Neat [] := List.forall_mem_nil _

@[simp] theorem neat_cons : Neat (piece :: ps) ↔ piece.IsNeat ∧ Neat ps := List.forall_mem_cons

@[simp] theorem neat_append : Neat (ps ++ qs) ↔ Neat ps ∧ Neat qs := List.forall_mem_append

@[simp] theorem isNeat_symbol (sign : Symbol) : (Piece.symbol sign).IsNeat :=
  .inr (.inr ⟨sign, rfl, rfl⟩)

@[simp] theorem isNeat_trivia (text : List Char) : (Piece.trivia text).IsNeat := trivial

theorem neat_lexeme {kind : TokenKind} {value : TokenValue} {text : List Char} (h : Solid text) :
    Neat [.lexeme kind value text] :=
  neat_cons.mpr ⟨.inr (.inl h), neat_nil⟩

theorem neat_kept {kind : TokenKind} {value : TokenValue} {text : List Char} (h : kind.keepsText) :
    Neat [.lexeme kind value text] :=
  neat_cons.mpr ⟨.inl h, neat_nil⟩

end

theorem neat_decimal (text : List Char) : Neat (Numeral.scanDecimal text) := by
  unfold Numeral.scanDecimal
  extract_lets d whole
  have own : Solid d.text := solid_decimal text
  split
  · exact neat_lexeme own.bigInt
  · exact neat_lexeme own

theorem neat_radix {radix : Nat} (small : radix ≤ 16) {r : Char} (mark : separates r = false)
    (rest : List Char) : Neat (Numeral.scanRadix radix ['0', r] rest) := by
  unfold Numeral.scanRadix
  extract_lets run digits text decimal
  have own : Solid text := by
    refine solid_append.mpr ⟨solid_cons.mpr ⟨by decide, solid_cons.mpr ⟨mark, solid_nil⟩⟩, ?_⟩
    refine solid_digits fun d member => ?_
    have digit := List.mem_takeWhile_imp member
    simp only [Numeral.isDigit, Option.any_eq_true, Bool.or_eq_true, decide_eq_true_eq] at digit ⊢
    refine digit.imp_left ?_
    rintro ⟨n, value, less⟩
    exact ⟨n, value, by omega⟩
  split
  · exact neat_lexeme own.bigInt
  · split
    · exact neat_lexeme own
    · exact neat_kept rfl

theorem solid_radixMark {r : Char} {radix : Nat} (h : Numeral.radixOf? r = some radix) :
    radix ≤ 16 ∧ separates r = false := by
  unfold Numeral.radixOf? at h
  simp only [Bool.or_eq_true, beq_iff_eq] at h
  split at h
  · next hex => rcases hex with rfl | rfl <;> cases h <;> decide
  split at h
  · next binary => rcases binary with rfl | rfl <;> cases h <;> decide
  split at h
  · next octal => rcases octal with rfl | rfl <;> cases h <;> decide
  · cases h

theorem neat_number (c : Char) (cs : List Char) : Neat (Numeral.scan c cs) := by
  unfold Numeral.scan
  split
  · split
    · next found =>
      obtain ⟨small, mark⟩ := solid_radixMark found
      exact neat_radix small mark _
    · exact neat_decimal _
  · exact neat_decimal _

theorem neat_selector (start rest : List Char) : Neat (Word.selector start rest) :=
  neat_kept rfl

theorem neat_at (ctx : Context) (cs : List Char) : Neat (Word.scanAt ctx cs) := by
  unfold Word.scanAt
  split
  · exact neat_cons.mpr ⟨isNeat_symbol _, neat_nil⟩
  · refine neat_cons.mpr ⟨isNeat_symbol _, neat_cons.mpr ⟨.inr (.inl ?_), ?_⟩⟩
    · exact solid_directiveTail cs
    · split
      · exact neat_nil
      · intro piece member
        obtain ⟨text, part, rfl⟩ := List.mem_map.mp member
        have run := solid_modifierRun (cs.drop (Word.directiveTail cs).length)
        rw [← List.flatten_splitBy (fun _ next => next != '.') (Word.modifierRun _)] at run
        exact .inr (.inl fun c inside => run c (List.mem_flatten.mpr ⟨text, part, inside⟩))

theorem neat_hash (ctx : Context) (cs : List Char) : Neat (scanHash ctx cs) := by
  unfold scanHash
  split
  · next digits color =>
    refine neat_lexeme (solid_cons.mpr ⟨by decide, solid_digits fun d member => ?_⟩)
    split at color
    · unfold colorDigits? at color
      dsimp only at color
      split at color
      · cases color
        simp [List.mem_takeWhile_imp member]
      · cases color
    · cases color
  · split
    · exact neat_selector _ _
    · exact neat_cons.mpr ⟨isNeat_symbol _, neat_nil⟩

theorem neat_dot (ctx : Context) (cs : List Char) : Neat (scanDot ctx cs) := by
  unfold scanDot
  split
  · exact neat_cons.mpr ⟨isNeat_symbol _, neat_nil⟩
  · split
    · exact neat_selector _ _
    · exact neat_cons.mpr ⟨isNeat_symbol _, neat_nil⟩

theorem neat_symbol (c : Char) (cs : List Char) : Neat (scanSymbol c cs) := by
  unfold scanSymbol
  split
  · exact neat_cons.mpr ⟨isNeat_symbol _, neat_nil⟩
  · exact neat_kept rfl

theorem neat_string (quote : Char) (cs : List Char) : Neat (Quoted.scanString quote cs) := by
  unfold Quoted.scanString
  split
  · exact neat_kept rfl
  · exact neat_kept rfl

theorem neat_template (cs : List Char) : Neat (Quoted.scanTemplate cs) := by
  unfold Quoted.scanTemplate
  split
  · exact neat_kept rfl
  · exact neat_kept rfl

theorem neat_comment (cs : List Char) : Neat [scanComment cs] := by
  unfold scanComment
  split
  · exact neat_cons.mpr ⟨isNeat_trivia _, neat_nil⟩
  · exact neat_kept rfl

end Lexer

namespace Token

/-- A name right after `url(`: the argument, unless it is quoted. -/
structure IsUrlArgument (tokens : List Token) (t : Token) : Prop where
  kind : t.kind = .identifier
  stands : ∃ word opening, [word, opening, t] <:+: tokens ∧ word.kind = .identifier ∧
    word.raw = "url" ∧ opening.kind = .symbol .openParen ∧ word.span.stop = opening.span.start

/-- Of these tokens the token keeps a part of the source as it stands. -/
def IsKept (tokens : List Token) (t : Token) : Prop :=
  t.kind.keepsText ∨ t.IsUrlArgument tokens

/-- The token holds no white space, and no bracket, comma or semicolon but as the symbol it is. -/
structure IsNeat (t : Token) : Prop where
  visible : ∀ c ∈ t.raw.toList, Text.isBlank c = false
  opener : ∀ c ∈ t.raw.toList, Style.opens c → Style.isOpener t.kind
  closer : ∀ c ∈ t.raw.toList, Style.closes c → Style.isCloser t.kind

theorem IsKept.mono {tokens all : List Token} {t : Token} (h : t.IsKept tokens)
    (part : tokens <:+: all) : t.IsKept all := by
  rcases h with keeps | argument
  · exact .inl keeps
  · obtain ⟨word, opening, stands, others⟩ := argument.stands
    exact .inr ⟨argument.kind, word, opening, stands.trans part, others⟩

theorem isNeat_symbol {t : Token} {sign : Symbol} (kind : t.kind = .symbol sign)
    (raw : t.raw.toList = sign.spelling.toList) : t.IsNeat := by
  have each : Symbol.all.all (fun sign => sign.spelling.toList.all fun c => !Text.isBlank c &&
      decide (Style.opens c → Style.isOpener (.symbol sign)) &&
      decide (Style.closes c → Style.isCloser (.symbol sign))) := by decide +kernel
  have own := List.all_eq_true.mp each sign (Symbol.mem_all sign)
  simp only [List.all_eq_true, Bool.and_eq_true, Bool.not_eq_true', decide_eq_true_eq] at own
  rw [← kind, ← raw] at own
  exact ⟨fun c member => (own c member).1.1, fun c member => (own c member).1.2,
    fun c member => (own c member).2⟩

theorem isNeat_of_piece {t : Token} (h : (Piece.lexeme t.kind t.value t.raw.toList).IsNeat) :
    t.kind.keepsText ∨ t.IsNeat := by
  rcases h with kept | solid | ⟨sign, kind, raw⟩
  · exact .inl kept
  · have apart (c : Char) (member : c ∈ t.raw.toList) :
        (Text.isBlank c = false ∧ Style.opens c = false) ∧ Style.closes c = false := by
      simpa [Style.separates] using solid c member
    refine .inr ⟨fun c member => (apart c member).1.1, fun c member opens => ?_,
      fun c member closes => ?_⟩
    · rw [(apart c member).1.2] at opens
      cases opens
    · rw [(apart c member).2] at closes
      cases closes
  · exact .inr (isNeat_symbol kind raw)

end Token

namespace Lexer

/-- Each of the tokens keeps its text as it stands or is neat. -/
def Kept (tokens : List Token) : Prop := ∀ t ∈ tokens, t.IsKept tokens ∨ t.IsNeat

theorem Kept.append {xs ys : List Token} (hx : Kept xs) (hy : Kept ys) : Kept (xs ++ ys) := by
  intro t member
  rcases List.mem_append.mp member with first | second
  · exact (hx t first).imp_left (·.mono (List.prefix_append xs ys).isInfix)
  · exact (hy t second).imp_left (·.mono (List.suffix_append xs ys).isInfix)

theorem Neat.kept {ps : List Piece} (h : Neat ps) (p : Position) : Kept (placed p ps) :=
  fun _ member => (Token.isNeat_of_piece (h _ (mem_of_mem_placed member))).imp_left .inl

def parenThen (space : List Char) : List Piece :=
  .symbol .openParen :: if space.isEmpty then [] else [.trivia space]

theorem neat_parenThen (space : List Char) : Neat (parenThen space) := by
  refine neat_cons.mpr ⟨isNeat_symbol _, ?_⟩
  split
  · exact neat_nil
  · exact neat_cons.mpr ⟨isNeat_trivia _, neat_nil⟩

theorem urlArgument_forms (rest : List Char) :
    Neat (Word.urlArgument rest) ∨ ∃ space value text,
      Word.urlArgument rest = parenThen space ++ [.lexeme .identifier value text] := by
  unfold Word.urlArgument
  dsimp only
  split
  · exact .inl (neat_parenThen _)
  · split
    · exact .inl (neat_parenThen _)
    · split
      · refine .inl (neat_append.mpr ⟨neat_parenThen _, ?_⟩)
        exact neat_cons.mpr ⟨isNeat_trivia _, neat_nil⟩
      · exact .inr ⟨_, _, _, rfl⟩

theorem placed_parenThen (p : Position) (word space : List Char) :
    ∃ name opening, placed p (.word .identifier word :: parenThen space) = [name, opening] ∧
      name.kind = .identifier ∧ name.raw = String.ofList word ∧
      opening.kind = .symbol .openParen ∧ name.span.stop = opening.span.start := by
  unfold parenThen
  split <;> exact ⟨_, _, rfl, rfl, rfl, rfl, (Position.after_byte p word).symm⟩

theorem kept_url {word : List Char} (solid : Style.Solid word) (url : String.ofList word = "url")
    (rest : List Char) (p : Position) :
    Kept (placed p (.word .identifier word :: Word.urlArgument rest)) := by
  have name : (Piece.word .identifier word).IsNeat := .inr (.inl solid)
  rcases urlArgument_forms rest with neat | ⟨space, value, text, forms⟩
  · exact Neat.kept (neat_cons.mpr ⟨name, neat⟩) p
  · rw [forms, ← List.cons_append, placed_append]
    have lead : Kept (placed p (.word .identifier word :: parenThen space)) :=
      Neat.kept (neat_cons.mpr ⟨name, neat_parenThen space⟩) p
    intro t member
    rcases List.mem_append.mp member with first | last
    · exact (lead t first).imp_left (·.mono (List.prefix_append _ _).isInfix)
    · obtain rfl := List.mem_singleton.mp last
      obtain ⟨name, opening, tokens, kind, raw, others⟩ := placed_parenThen p word space
      refine .inl (.inr ⟨rfl, name, opening, ?_, kind, raw.trans url, others⟩)
      rw [tokens]
      exact List.infix_rfl

theorem kept_word (ctx : Context) {c : Char} (first : Word.isStart c ∨ c = '-') (cs : List Char)
    (p : Position) : Kept (placed p (Word.scan ctx c cs)) := by
  unfold Word.scan
  extract_lets isTail word rest spelling
  have own : Style.Solid word := by
    refine Style.solid_name fun d member => ?_
    rcases List.mem_cons.mp member with rfl | tail
    · rcases first with start | rfl
      · simp [Word.isPart_of_isStart start]
      · rfl
    · have part := List.mem_takeWhile_imp tail
      simp only [isTail, Bool.or_eq_true, Bool.and_eq_true] at part ⊢
      exact .inl (part.imp_right And.right)
  split
  · next url =>
    simp only [Bool.and_eq_true, beq_iff_eq] at url
    exact kept_url own url.1.2 rest p
  · split
    · exact (neat_lexeme own).kept p
    · split
      · exact (neat_lexeme own).kept p
      · split
        · exact (neat_selector _ _).kept p
        · exact (neat_lexeme own).kept p

theorem kept_token (ctx : Context) (c : Char) (cs : List Char) (p : Position) :
    Kept (placed p (scanToken ctx c cs)) := by
  unfold scanToken
  split
  · next start => exact kept_word ctx (.inl start) cs p
  · split
    · exact (neat_number c cs).kept p
    · split
      · exact (neat_string c cs).kept p
      · split
        · exact (neat_template cs).kept p
        · split
          · exact (neat_at ctx cs).kept p
          · split
            · exact (neat_hash ctx cs).kept p
            · split
              · exact (neat_dot ctx cs).kept p
              · split
                · next hyphen =>
                  simp only [Bool.and_eq_true, beq_iff_eq] at hyphen
                  exact kept_word ctx (.inr hyphen.1.1) cs p
                · exact (neat_symbol c cs).kept p

theorem kept_scan (ctx : Context) (c : Char) (cs : List Char) (p : Position) :
    Kept (placed p (scan ctx c cs)) := by
  have gap (text : List Char) : Neat [.trivia text] := neat_cons.mpr ⟨isNeat_trivia _, neat_nil⟩
  unfold scan
  split
  · exact (gap _).kept p
  · split
    · exact (gap _).kept p
    · split
      · exact (neat_comment _).kept p
      · exact kept_token ctx c cs p

theorem kept_pieces (ctx : Context) (text : List Char) (p : Position) :
    Kept (placed p (pieces ctx 0 text)) := by
  induction length : text.length using Nat.strongRecOn generalizing ctx text p with
  | ind n ih =>
    cases text with
    | nil => exact fun _ member => absurd member List.not_mem_nil
    | cons c cs =>
      obtain ⟨nonempty, rest, cut⟩ := scans_scan ctx c cs
      have whole := cut.text_eq
      have shorter : rest.length < n := by
        rw [← length, whole, List.length_append]
        exact Nat.lt_add_of_pos_left (List.length_pos_iff.mpr nonempty)
      rw [pieces_scan whole, placed_append]
      exact (kept_scan ctx c cs p).append (ih rest.length shorter _ rest _ rfl)

end Lexer

/-- Every token keeps a part of the source as it stands, or it is written without white space, and
    without brackets, commas and semicolons but for those that are symbols. -/
theorem tokenize_kept (source : String) : Lexer.Kept (tokenize source) := by
  rw [tokenize, Lexer.tokens, Lexer.place_eq_placed]
  refine (Lexer.kept_pieces _ _ _).append fun t member => ?_
  obtain rfl := List.mem_singleton.mp member
  exact .inr ⟨by simp [Token.endOfFile], by simp [Token.endOfFile], by simp [Token.endOfFile]⟩

end PulseSyntax
