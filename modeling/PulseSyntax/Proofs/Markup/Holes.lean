import PulseSyntax.Markup.Text
import PulseSyntax.Proofs.Token.Body
import PulseSyntax.Proofs.Token.Lossless
import PulseSyntax.Proofs.Token.Quoted

namespace PulseSyntax

namespace Position

/-- Where a position of a text stands in one that holds the text from `base` on. The first line of
    the text goes on with the line of `base`. -/
def embed (base q : Position) : Position where
  byte := base.byte + q.byte
  line := base.line + (q.line - 1)
  column := if q.line = 1 then base.column + (q.column - 1) else q.column

/-- Lines and columns count from one. -/
def IsCounted (q : Position) : Prop := 1 ≤ q.line ∧ 1 ≤ q.column

theorem IsCounted.advance {q : Position} (h : q.IsCounted) (c : Char) :
    (q.advance c).IsCounted := by
  obtain ⟨line, column⟩ := h
  unfold Position.advance
  split
  · exact ⟨Nat.le_add_left _ _, Nat.le_refl _⟩
  · exact ⟨line, Nat.le_add_left _ _⟩

theorem IsCounted.after {q : Position} (h : q.IsCounted) (text : List Char) :
    (q.after text).IsCounted := by
  induction text generalizing q with
  | nil => exact h
  | cons c text ih => exact ih (h.advance c)

theorem embed_advance (base : Position) {q : Position} (h : q.IsCounted) (c : Char) :
    (base.embed q).advance c = base.embed (q.advance c) := by
  obtain ⟨line, column⟩ := h
  unfold advance
  by_cases lineFeed : c = '\n'
  · have later : q.line + 1 ≠ 1 := by omega
    simp only [lineFeed, ↓reduceIte, embed, later, mk.injEq, and_true]
    omega
  · by_cases first : q.line = 1
    · simp only [lineFeed, ↓reduceIte, embed, first, mk.injEq, true_and]
      omega
    · simp only [lineFeed, ↓reduceIte, embed, first, mk.injEq, and_true]
      omega

theorem embed_after (base : Position) {q : Position} (h : q.IsCounted) (text : List Char) :
    (base.embed q).after text = base.embed (q.after text) := by
  induction text generalizing q with
  | nil => rfl
  | cons c text ih => rw [after_cons, after_cons, embed_advance base h, ih (h.advance c)]

end Position

def Token.embed (base : Position) (t : Token) : Token :=
  let start := base.embed ⟨t.span.start, t.line, t.place.column⟩
  { t with place := ⟨start.line, start.column, ⟨start.byte, base.byte + t.span.stop⟩⟩ }

namespace Lexer

theorem place_embed (base : Position) {q : Position} (h : q.IsCounted) (ps : List Piece) :
    place (base.embed q) ps = (place q ps).map (·.embed base) := by
  have token (kind : TokenKind) (value : TokenValue) (own : List Char) (q : Position) :
      (⟨kind, value, String.ofList own, (base.embed q).place own⟩ : Token) =
        Token.embed base ⟨kind, value, String.ofList own, q.place own⟩ := by
    simp only [Position.place, Position.embed, Nat.add_assoc]
    rfl
  induction ps generalizing q with
  | nil => simpa [place, Token.endOfFile] using token .endOfFile .none [] q
  | cons piece ps ih =>
    rw [place, place, Position.embed_after base h, ih (h.after piece.text), List.map_append]
    cases piece with
    | trivia => rfl
    | lexeme kind value own =>
      simp only [Piece.token?, Option.toList_some, List.map_cons, List.map_nil, token]

theorem standsIn_place {source before after : List Char} {ps : List Piece}
    (whole : source = before ++ (textOf ps ++ after)) :
    ∀ t ∈ place (Position.origin.after before) ps, t.StandsIn source := by
  induction ps generalizing before with
  | nil =>
    intro t member
    rw [List.mem_singleton.mp member, whole]
    exact @Position.standsIn before [] after .endOfFile .none
  | cons piece ps ih =>
    intro t member
    rw [textOf_cons, List.append_assoc] at whole
    rcases List.mem_append.mp member with here | later
    · cases piece with
      | trivia => cases here
      | lexeme kind value own =>
        rw [List.mem_singleton.mp here, whole]
        exact Position.standsIn
    · rw [← Position.after_append] at later
      refine ih ?_ t later
      rw [whole, List.append_assoc]

end Lexer

namespace TextSegment

theorem holeSource?_eq {depth : Nat} {cs source : List Char}
    (h : holeSource? depth cs = some source) : ∃ rest, cs = source ++ '}' :: rest := by
  fun_induction holeSource? depth cs generalizing source with
  | case1 => cases h
  | case2 depth c cs _ ih | case4 c cs _ _ depth ih | case5 depth c cs _ _ ih =>
    obtain ⟨inner, found, rfl⟩ := Option.map_eq_some_iff.mp h
    obtain ⟨rest, rfl⟩ := ih found
    exact ⟨rest, rfl⟩
  | case3 c cs _ closing =>
    cases h
    rw [beq_iff_eq.mp closing]
    exact ⟨cs, rfl⟩

theorem openingLength_le (template : Bool) (c : Char) (cs : List Char) :
    openingLength template c cs ≤ cs.length + 1 := by
  unfold openingLength
  split
  · split
    · next opens =>
      cases cs with
      | nil => simp at opens
      | cons => exact Nat.succ_le_succ (Nat.succ_le_succ (Nat.zero_le _))
    · exact Nat.zero_le _
  · split
    · exact Nat.le_add_left _ _
    · exact Nat.zero_le _

theorem hole_of_mem_cut {template : Bool} {index skip start : Nat} {cs source : List Char}
    (member : .hole start source ∈ cut template index skip cs) :
    ∃ before after, cs = before ++ (source ++ after) ∧ start = index + before.length := by
  have further {index : Nat} {c : Char} {cs : List Char}
      (h : ∃ before after, cs = before ++ (source ++ after) ∧ start = index + 1 + before.length) :
      ∃ before after, c :: cs = before ++ (source ++ after) ∧ start = index + before.length := by
    obtain ⟨before, after, rfl, rfl⟩ := h
    exact ⟨c :: before, after, rfl, by simp only [List.length_cons]; omega⟩
  fun_induction cut template index skip cs with
  | case1 => cases member
  | case2 _ _ _ _ ih => exact further (ih member)
  | case3 _ _ _ _ _ ih | case4 _ _ _ _ _ _ ih =>
    rcases List.mem_cons.mp member with same | later
    · cases same
    · exact further (ih later)
  | case5 => simp at member
  | case6 index c cs noEscape opening opens inner found ih =>
    rcases List.mem_cons.mp member with same | later
    · cases same
      obtain ⟨rest, whole⟩ := holeSource?_eq found
      have some : opening ≠ 0 := by simpa using opens
      have inside : opening ≤ cs.length + 1 := openingLength_le template c cs
      refine ⟨c :: cs.take (opening - 1), '}' :: rest, ?_, ?_⟩
      · rw [List.cons_append, ← whole, List.take_append_drop]
      · rw [List.length_cons, List.length_take]
        omega
    · exact further (ih later)

end TextSegment

/-- The token is spelled as its value, between two delimiters. -/
def Token.IsVerbatim (t : Token) : Prop :=
  ∃ quote, t.raw.toList = quote :: t.text.toList ++ [quote]

/-- A quoted token of a source after `before`: its delimiter, and then its value and the delimiter
    again, or more than that. -/
structure Token.IsQuoted (source before : List Char) (t : Token) : Prop where
  start : ∃ quote body after, source = before ++ (quote :: body ++ after) ∧
    t.raw.toList = quote :: body ∧ quote ≠ '\n' ∧ quote.utf8Size = 1 ∧
    (body = t.text.toList ++ [quote] ∨
      Text.byteSize t.text.toList + 1 < Text.byteSize body)
  place : t.place = (Position.origin.after before).place t.raw.toList

theorem exists_text_of_mem {source : String} {t : Token} (member : t ∈ tokenize source)
    (inside : t.kind ≠ .endOfFile) :
    ∃ before after, source.toList = before ++ (t.raw.toList ++ after) ∧
      t.place = (Position.origin.after before).place t.raw.toList ∧
      .lexeme t.kind t.value t.raw.toList ∈ Lexer.pieces .initial 0 source.toList := by
  obtain ⟨before, own, rest, whole, raw, at_place⟩ := Lexer.exists_piece_of_mem member inside
  have rawText : t.raw.toList = own := by rw [raw, String.toList_ofList]
  refine ⟨Lexer.textOf before, Lexer.textOf rest, ?_, by rw [rawText, at_place], ?_⟩
  · have all := (Lexer.cut_pieces .initial source.toList).text_eq
    rw [List.append_nil] at all
    rw [all, whole, Lexer.textOf_append, Lexer.textOf_cons, rawText]
    rfl
  · rw [whole, rawText]
    exact List.mem_append_right _ List.mem_cons_self

theorem exists_parts_of_mem {source : String} {t : Token} (member : t ∈ tokenize source)
    (string : t.kind = .string) :
    ∃ quote parts, (quote = '"' ∨ quote = '\'') ∧ Quoted.AreRead quote parts ∧
      t.raw.toList = quote :: parts.flatMap Quoted.Part.text ++ [quote] ∧
      t.text.toList = parts.flatMap Quoted.Part.value := by
  obtain ⟨-, -, -, -, piece⟩ := exists_text_of_mem member (by rw [string]; simp)
  rw [string] at piece
  obtain ⟨quote, cs, body, content, delimiter, read, value, own⟩ := Lexer.string_of_mem piece
  obtain ⟨parts, areRead, whole, rfl⟩ := Quoted.stringBody?_parts read
  refine ⟨quote, parts, delimiter, areRead, ?_, by simp [Token.text, value]⟩
  rw [own, List.cons_append, ← whole, List.drop_zero]

theorem raw_template_of_mem {source : String} {t : Token} (member : t ∈ tokenize source)
    (template : t.kind = .template) : t.raw.toList = '`' :: t.text.toList ++ ['`'] := by
  obtain ⟨-, -, -, -, piece⟩ := exists_text_of_mem member (by rw [template]; simp)
  rw [template] at piece
  obtain ⟨cs, content, -, value, own⟩ := Lexer.template_of_mem piece
  rw [own, show t.text.toList = content by simp [Token.text, value]]

theorem exists_isQuoted {source : String} {t : Token} (member : t ∈ tokenize source)
    (quoted : t.kind = .string ∨ t.kind = .template) :
    ∃ before, t.IsQuoted source.toList before := by
  have inside : t.kind ≠ .endOfFile := by
    rcases quoted with kind | kind <;> rw [kind] <;> simp
  obtain ⟨before, after, whole, at_place, -⟩ := exists_text_of_mem member inside
  refine ⟨before, ?_, at_place⟩
  rcases quoted with kind | kind
  · obtain ⟨quote, parts, delimiter, areRead, raw, text⟩ := exists_parts_of_mem member kind
    have one : quote ≠ '\n' ∧ quote.utf8Size = 1 := by
      rcases delimiter with rfl | rfl <;> exact ⟨by decide, rfl⟩
    refine ⟨quote, parts.flatMap Quoted.Part.text ++ [quote], after, by rw [whole, raw]; rfl, raw,
      one.1, one.2, ?_⟩
    rw [text, Text.byteSize_append, Text.byteSize, Text.byteSize, one.2]
    exact areRead.size.imp (fun same => by rw [same]) fun less => by omega
  · have raw := raw_template_of_mem member kind
    exact ⟨'`', _, after, by rw [whole, raw]; rfl, raw, by decide, rfl, .inl rfl⟩

namespace TextNode

theorem isVerbatim_iff {source before : List Char} {t : Token} (h : t.IsQuoted source before) :
    isVerbatim t ↔ t.IsVerbatim := by
  obtain ⟨⟨quote, body, after, -, raw, -, one, spelled⟩, -⟩ := h
  unfold isVerbatim
  rw [beq_iff_eq, ← Text.byteSize_toList, ← Text.byteSize_toList, raw, Text.byteSize, one]
  constructor
  · intro size
    rcases spelled with rfl | more
    · exact ⟨quote, raw⟩
    · omega
  · rintro ⟨quote', spelling⟩
    rw [raw, List.cons_append, List.cons.injEq] at spelling
    obtain ⟨rfl, rfl⟩ := spelling
    rw [Text.byteSize_append, Text.byteSize, Text.byteSize, one]
    omega

theorem holeTokens_content (t : Token) (start : Nat) (source : List Char) :
    (holeTokens t start source).map Token.content = (Lexer.tokens source).map Token.content := by
  unfold holeTokens
  split
  · exact Lexer.map_content_place _ _ _
  · rw [List.map_map]
    rfl

theorem holeTokens_embed {t : Token} (h : isVerbatim t) (start : Nat) (source : List Char) :
    holeTokens t start source = (Lexer.tokens source).map (·.embed
      (Position.after ⟨t.span.start + 1, t.line, t.place.column + 1⟩
        (t.text.toList.take start))) := by
  unfold holeTokens
  rw [if_pos h]
  exact Lexer.place_embed _ (q := .origin) ⟨Nat.le_refl _, Nat.le_refl _⟩ _

theorem holeTokens_place {t : Token} (h : ¬isVerbatim t) {start : Nat} {source : List Char} :
    ∀ inner ∈ holeTokens t start source, inner.place = t.place := by
  intro inner here
  unfold holeTokens at here
  rw [if_neg h] at here
  obtain ⟨_, -, rfl⟩ := List.mem_map.mp here
  rfl

theorem holeTokens_standIn {source before : List Char} {t : Token} (h : t.IsQuoted source before)
    (verbatim : t.IsVerbatim) {template : Bool} {start : Nat} {expression : List Char}
    (hole : .hole start expression ∈ TextSegment.cut template 0 0 t.text.toList) :
    ∀ inner ∈ holeTokens t start expression, inner.StandsIn source := by
  obtain ⟨⟨quote, body, after, whole, raw, visible, one, spelled⟩, at_place⟩ := h
  obtain ⟨quote', spelling⟩ := verbatim
  rw [raw, List.cons_append, List.cons.injEq] at spelling
  obtain ⟨rfl, rfl⟩ := spelling
  obtain ⟨first, last, text, rfl⟩ := TextSegment.hole_of_mem_cut hole
  -- The value starts one character after the token does, on the same line.
  have content : (⟨t.span.start + 1, t.line, t.place.column + 1⟩ : Position) =
      Position.origin.after (before ++ [quote]) := by
    rw [Position.after_append, Position.after_cons, Position.after_nil, Position.advance,
      if_neg visible, one, Token.span, Token.line, at_place]
    rfl
  have own : Lexer.textOf (Lexer.pieces .initial 0 expression) = expression := by
    have all := (Lexer.cut_pieces .initial expression).text_eq
    rw [List.append_nil] at all
    exact all.symm
  have here : source = before ++ [quote] ++ first ++
      (Lexer.textOf (Lexer.pieces .initial 0 expression) ++ (last ++ [quote] ++ after)) := by
    rw [whole, text, own]
    simp
  have stand := Lexer.standsIn_place here
  rw [Position.after_append, ← content] at stand
  unfold holeTokens
  rw [if_pos ((isVerbatim_iff ⟨⟨quote, _, after, whole, raw, visible, one, spelled⟩,
    at_place⟩).mpr ⟨quote, raw⟩), text, Nat.zero_add, List.take_left]
  exact stand

/-- Every interpolation of a quoted token has the tokens of its source. Where the token is spelled
    as its value, each of them has the text of its span in the file, and the line and the column at
    which that text stands, on whatever line; else each stands where the quoted token does. -/
theorem holeTokens_places {source : String} {t : Token} (member : t ∈ tokenize source)
    (quoted : t.kind = .string ∨ t.kind = .template) {start : Nat} {expression : List Char}
    (hole : .hole start expression ∈ TextSegment.cut (t.kind == .template) 0 0 t.text.toList) :
    (holeTokens t start expression).map Token.content =
        (Lexer.tokens expression).map Token.content ∧
      (t.IsVerbatim → ∀ inner ∈ holeTokens t start expression, inner.StandsIn source.toList) ∧
      (¬t.IsVerbatim → ∀ inner ∈ holeTokens t start expression, inner.place = t.place) := by
  obtain ⟨before, isQuoted⟩ := exists_isQuoted member quoted
  refine ⟨holeTokens_content t start expression, fun verbatim => ?_, fun longer => ?_⟩
  · exact holeTokens_standIn isQuoted verbatim hole
  · rw [← isVerbatim_iff isQuoted] at longer
    exact holeTokens_place longer

/-- The second token of the expression stands on the second line, after characters of two bytes and
    an escaped brace on the first. -/
theorem holeTokens_places_lineFeed :
    ∃ t ∈ tokenize r#"view { p "é\{ ü {x
  + y}" }"#, t.kind = .string ∧
      .hole 7 ['x', '\n', ' ', ' ', '+', ' ', 'y'] ∈
        TextSegment.cut (t.kind == .template) 0 0 t.text.toList ∧
      t.IsVerbatim ∧
      (holeTokens t 7 ['x', '\n', ' ', ' ', '+', ' ', 'y'])[1]?.map Token.place =
        some ⟨2, 3, ⟨23, 24⟩⟩ ∧
      ∀ inner ∈ holeTokens t 7 ['x', '\n', ' ', ' ', '+', ' ', 'y'],
        inner.StandsIn r#"view { p "é\{ ü {x
  + y}" }"#.toList := by
  generalize hs : r#"view { p "é\{ ü {x
  + y}" }"# = source
  generalize ht : (tokenize source).getD 3 (.endOfFile .origin) = t
  have member : t ∈ tokenize source := by
    subst ht hs
    decide +kernel
  have kind : t.kind = .string := by
    subst ht hs
    decide +kernel
  have hole : .hole 7 ['x', '\n', ' ', ' ', '+', ' ', 'y'] ∈
      TextSegment.cut (t.kind == .template) 0 0 t.text.toList := by
    subst ht hs
    decide +kernel
  have verbatim : t.IsVerbatim := by
    subst ht hs
    exact ⟨'"', by decide +kernel⟩
  refine ⟨t, member, kind, hole, verbatim, ?_,
    (holeTokens_places member (.inl kind) hole).2.1 verbatim⟩
  subst ht hs
  decide +kernel

end TextNode

end PulseSyntax
