import PulseSyntax.Proofs.Expr.Primary
import PulseSyntax.Proofs.Markup.Segments
import PulseSyntax.Proofs.Token.Quoted

namespace PulseSyntax

namespace Text

/-- The text with a plain brace for every backslash and brace. -/
def plainBraces : List Char → List Char
  | [] => []
  | '\\' :: '{' :: cs => '{' :: plainBraces cs
  | '\\' :: '}' :: cs => '}' :: plainBraces cs
  | c :: cs => c :: plainBraces cs

/-- A backslash stands before a brace. -/
def EscapesBrace (text : List Char) : Prop :=
  ['\\', '{'] <:+: text ∨ ['\\', '}'] <:+: text

theorem length_plainBraces_le (text : List Char) : (plainBraces text).length ≤ text.length := by
  fun_induction plainBraces text with
  | case1 => exact Nat.le_refl _
  | case2 cs ih | case3 cs ih =>
    simp only [List.length_cons]
    omega
  | case4 c cs _ _ ih => exact Nat.succ_le_succ ih

theorem plainBraces_shorter (brace : Char) (cs : List Char) :
    brace :: plainBraces cs ≠ '\\' :: brace :: cs := by
  intro same
  have short := length_plainBraces_le cs
  have length := congrArg List.length same
  simp only [List.length_cons] at length
  omega

theorem plainBraces_eq_self_iff {text : List Char} :
    plainBraces text = text ↔ ¬EscapesBrace text := by
  fun_induction plainBraces text with
  | case1 => simp [EscapesBrace]
  | case2 cs =>
    exact iff_of_false (plainBraces_shorter '{' cs) (not_not.mpr (.inl ⟨[], cs, rfl⟩))
  | case3 cs =>
    exact iff_of_false (plainBraces_shorter '}' cs) (not_not.mpr (.inr ⟨[], cs, rfl⟩))
  | case4 c cs noOpen noClose ih =>
    have first {brace : Char} (none : ∀ more, c = '\\' → cs = brace :: more → False) :
        ¬['\\', brace] <+: c :: cs := by
      rintro ⟨more, same⟩
      obtain ⟨backslash, after⟩ := List.cons.inj same
      exact none more backslash.symm after.symm
    rw [List.cons.injEq, ih]
    simp only [true_and, EscapesBrace, List.infix_cons_iff, first noOpen, first noClose, false_or]

end Text

namespace TextPart

def characters : TextPart → List Char
  | literal text => text.toList
  | interpolation _ _ => []

theorem segments_of_plain {parts : List TextPart}
    (plain : ∀ part ∈ parts, part.isInterpolation = false) :
    parts.flatMap segments = (parts.flatMap characters).map .char := by
  rw [List.map_flatMap]
  refine List.flatMap_congr fun part member => ?_
  cases part with
  | literal text => rfl
  | interpolation source e => cases plain _ member

end TextPart

namespace TextSegment

theorem eq_plainBraces_of_cut {value text : List Char} {index : Nat}
    (h : cut false index 0 value = text.map char) : text = Text.plainBraces value := by
  fun_induction Text.plainBraces value generalizing index text with
  | case1 => exact List.map_eq_nil_iff.mp h.symm
  | case2 cs ih | case3 cs ih =>
    obtain ⟨c, rest, rfl, first, others⟩ := List.map_eq_cons_iff.mp h.symm
    cases first
    exact congrArg _ (ih others.symm)
  | case4 c cs noOpen noClose ih =>
    have plain : escapedBrace? false c cs = none := by
      cases cs with
      | nil => simp [escapedBrace?]
      | cons d cs =>
        by_cases backslash : c = '\\'
        · have noBrace : d ≠ '{' ∧ d ≠ '}' :=
            ⟨fun same => noOpen cs backslash (same ▸ rfl), fun same => noClose cs backslash (same ▸ rfl)⟩
          simp [escapedBrace?, noBrace]
        · simp [escapedBrace?, backslash]
    by_cases opens : c = '{'
    · -- An interpolation, or one that is not closed, is cut off here.
      have starts : openingLength false c cs = 1 := by simp [openingLength, opens]
      simp only [cut, plain, starts, Nat.one_ne_zero, beq_iff_eq, ↓reduceIte] at h
      split at h
      · obtain ⟨_, _, -, first, -⟩ := List.map_eq_cons_iff.mp h.symm
        cases first
      · obtain ⟨_, _, -, first, -⟩ := List.map_eq_cons_iff.mp h.symm
        cases first
    · rw [cut_char plain (by simp [openingLength, opens])] at h
      obtain ⟨c, rest, rfl, first, others⟩ := List.map_eq_cons_iff.mp h.symm
      cases first
      exact congrArg _ (ih others.symm)

end TextSegment

namespace TextNode

open TextPart TextSegment

variable {options : Options} {t : Token} {node : TextNode}

theorem characters_of_plain (string : t.kind = .string) (read : ofToken options t = .ok node)
    (plain : node.isInterpolated = false) :
    node.parts.flatMap characters = Text.plainBraces t.text.toList := by
  have noHole : ∀ part ∈ node.parts, part.isInterpolation = false := by
    simpa [isInterpolated] using plain
  have cut := segments_of_ofToken read
  rw [segments_of_plain noHole, string] at cut
  exact eq_plainBraces_of_cut (eq_chars_of_mapSource cut.symm)

/-- A string without interpolations is its value with plain braces as a text, and its value as an
    expression; these are the same if and only if no backslash stands before a brace in the value. -/
theorem ofToken_plain_iff (string : t.kind = .string) (read : ofToken options t = .ok node)
    (plain : node.isInterpolated = false) {scope : Scope} {s : ParserState}
    (here : scope.stream.get s.cursor = t) (nested : Expr.Nested) :
    Expr.primary nested scope s = .ok (.literal (.string t.text) t.raw t.span) (s.ahead 1) ∧
      node.parts.flatMap characters = Text.plainBraces t.text.toList ∧
      (node.parts.flatMap characters = t.text.toList ↔ ¬Text.EscapesBrace t.text.toList) := by
  have text := characters_of_plain string read plain
  refine ⟨?_, text, by rw [text, Text.plainBraces_eq_self_iff]⟩
  have literal : Expr.literalOf? t = some (.literal (.string t.text) t.raw t.span) := by
    rw [Expr.literalOf?, string]
    rfl
  have inside : (scope.stream.get s.cursor).kind ≠ .endOfFile := by
    rw [here, string]
    decide
  exact Expr.primary_literal literal (here ▸ scope.stream.tokensFrom_of_kind_ne inside)

/-- An escaped brace: plain in a text, with its backslash in an expression. -/
theorem ofToken_plain_iff_brace : ∃ t node,
    Lexer.tokens ['"', '\\', '{', '"'] = [t, .endOfFile ⟨4, 1, 5⟩] ∧ t.kind = .string ∧
      ofToken .standard t = .ok node ∧ node.isInterpolated = false ∧
      node.parts.flatMap characters = ['{'] ∧
      ∀ nested, Expr.primary nested ⟨.ofList [t, .endOfFile ⟨4, 1, 5⟩], .standard, none⟩ .initial =
        .ok (.literal (.string (String.ofList ['\\', '{'])) t.raw t.span) ⟨1, 0⟩ := by
  obtain ⟨t, node, tokens, string, value, read, plain, here⟩ : ∃ t node,
      Lexer.tokens ['"', '\\', '{', '"'] = [t, .endOfFile ⟨4, 1, 5⟩] ∧ t.kind = .string ∧
        t.text = String.ofList ['\\', '{'] ∧ ofToken .standard t = .ok node ∧
        node.isInterpolated = false ∧
        (TokenStream.ofList [t, .endOfFile ⟨4, 1, 5⟩]).get 0 = t :=
    ⟨_, _, rfl, rfl, rfl, rfl, rfl, rfl⟩
  refine ⟨t, node, tokens, string, read, plain, ?_, fun nested => ?_⟩
  · obtain ⟨-, text, -⟩ := @ofToken_plain_iff _ _ _ string read plain
      ⟨.ofList [t, .endOfFile ⟨4, 1, 5⟩], .standard, none⟩ .initial here ⟨Expr.parser, Expr.parser⟩
    rw [text, value]
    rfl
  · have literal := (@ofToken_plain_iff _ _ _ string read plain
      ⟨.ofList [t, .endOfFile ⟨4, 1, 5⟩], .standard, none⟩ .initial here nested).1
    rwa [value] at literal

end TextNode

namespace TextSegment

theorem cut_ne_nil (template : Bool) (index : Nat) (c : Char) (cs : List Char) :
    cut template index 0 (c :: cs) ≠ [] := by
  rw [cut]
  split
  · exact List.cons_ne_nil _ _
  · dsimp only
    split
    · exact List.cons_ne_nil _ _
    · split <;> exact List.cons_ne_nil _ _

theorem bracesMatch_of_cut {source inner : List Char} {start : Nat}
    (h : cut false 0 0 ('{' :: source ++ ['}']) = [.hole start inner]) :
    Text.BracesMatch source := by
  rw [List.cons_append] at h
  cases found : holeSource? 0 (source ++ ['}']) with
  | none => simp [cut, escapedBrace?, openingLength, found] at h
  | some inner =>
    obtain ⟨rest, whole⟩ := holeSource?_eq found
    have length : 0 + 1 + inner.length = (inner ++ ['}']).length := by
      rw [List.length_append, List.length_singleton]
      omega
    have split : inner ++ '}' :: rest = (inner ++ ['}']) ++ rest := by simp
    have here : cut false 0 0 ('{' :: (source ++ ['}'])) =
        .hole 1 inner :: cut false 1 (0 + 1 + inner.length) (source ++ ['}']) :=
      cut_hole 0 rfl rfl found
    rw [here, whole, split, length, cut_skip] at h
    cases rest with
    | cons c rest => exact absurd (List.cons.inj h).2 (cut_ne_nil _ _ _ _)
    | nil =>
      obtain rfl := List.append_cancel_right whole
      exact holeSource?_append_iff.mp found

end TextSegment

namespace TextNode

open TextSegment TextPart Quoted

/-- A string with nothing but braces around an expression is one token. It is read as the expression
    if the braces of the source are in pairs, and as no interpolation alone if they are not. -/
theorem ofToken_interpolation {options : Options} {e : Expr} {quote : Char} {source : List Char}
    (delimiter : quote = '"' ∨ quote = '\'') (alone : Expr.alone? options source = some e)
    (noQuote : quote ∉ source) (noBackslash : '\\' ∉ source) (ctx : Context) (p : Position) :
    ∃ t : Token, t.kind = .string ∧
      (∀ rest, Lexer.place p (Lexer.pieces ctx 0
          (enclose quote ('{' :: source ++ ['}']) ++ rest)) =
        t :: Lexer.place (p.after (enclose quote ('{' :: source ++ ['}'])))
          (Lexer.pieces { ctx with lastKind := some .string, lastChar := some quote } 0 rest)) ∧
      (Text.BracesMatch source → ∃ node e', ofToken options t = .ok node ∧
        node.parts = [.interpolation (String.ofList (Text.trim source)) e'] ∧
        Expr.Same (.of source) e e') ∧
      (∀ node inner e', ofToken options t = .ok node → node.parts = [.interpolation inner e'] →
        Text.BracesMatch source) := by
  have plain : Spells quote ('{' :: source ++ ['}']) ('{' :: source ++ ['}']) := by
    refine .plain ?_ ?_
    · rcases delimiter with rfl | rfl <;> simp [noQuote]
    · simp [noBackslash]
  generalize ht : Lexer.stringToken p quote ('{' :: source ++ ['}']) ('{' :: source ++ ['}']) = t
  have kind : t.kind = .string := by
    rw [← ht]
    rfl
  have text : t.text.toList = '{' :: source ++ ['}'] := by
    rw [← ht]
    exact String.toList_ofList
  refine ⟨t, kind, ht ▸ Lexer.place_string delimiter plain ctx p, fun pairs => ?_,
    fun node inner e' read single => ?_⟩
  · have proper : AreProper options [.interpolation (String.ofList source) e] := by
      refine ⟨fun member => by simp at member, .singleton _, fun member => ?_⟩
      obtain ⟨rfl, rfl⟩ := interpolation.inj (List.mem_singleton.mp member)
      rw [String.toList_ofList, alone]
    have whole : cut false 0 0 ('{' :: source ++ ['}']) = [.hole 1 source] := cut_opening pairs
    have same : (cut (t.kind == .template) 0 0 t.text.toList).map (.mapSource id) =
        [TextPart.interpolation (String.ofList source) e].flatMap segments := by
      rw [kind, text, show (TokenKind.string == .template) = false from rfl, whole]
      simp [mapSource, segments]
    obtain ⟨⟨parts, raw, span⟩, read, back⟩ := ofToken_readsBack proper same
    cases back with
    | cons first rest =>
      cases rest
      cases first with
      | interpolation same =>
        rw [String.toList_ofList] at same read
        exact ⟨_, _, read, rfl, same⟩
  · have same := segments_of_ofToken read
    rw [single, kind, text, show (TokenKind.string == .template) = false from rfl] at same
    obtain ⟨segment, whole, hole⟩ := List.map_eq_singleton_iff.mp same.symm
    cases segment with
    | hole => exact bracesMatch_of_cut whole
    | char | unclosed => cases hole

theorem ofToken_interpolation_object :
    ∃ (e e' : Expr) (t : Token) (node : TextNode),
      Expr.alone? .standard r"[{ a: '}{' }]".toList = some e ∧
      (Lexer.tokens
        (enclose '"' ('{' :: r"[{ a: '}{' }]".toList ++ ['}']))).head? = some t ∧
      ofToken .standard t = .ok node ∧
      node.parts = [.interpolation
        (String.ofList (Text.trim r"[{ a: '}{' }]".toList)) e'] ∧
      Expr.Same (.of r"[{ a: '}{' }]".toList) e e' := by
  generalize hs : r"[{ a: '}{' }]".toList = source
  have read : (Expr.alone? .standard source).isSome := by
    subst hs
    decide +kernel
  have noQuote : '"' ∉ source := by
    subst hs
    decide +kernel
  have noBackslash : '\\' ∉ source := by
    subst hs
    decide +kernel
  have pairs : Text.BracesMatch source := by
    subst hs
    decide +kernel
  obtain ⟨e, alone⟩ := Option.isSome_iff_exists.mp read
  obtain ⟨t, -, tokens, whole, -⟩ :=
    ofToken_interpolation (.inl rfl) alone noQuote noBackslash .initial .origin
  obtain ⟨node, e', found, parts, same⟩ := whole pairs
  have first := tokens []
  rw [List.append_nil] at first
  exact ⟨e, e', t, node, alone, by rw [Lexer.tokens, first]; rfl, found, parts, same⟩

/-- A brace in a string of the source counts. -/
example : ¬Text.BracesMatch ['\'', '}', '\''] := by decide

end TextNode

end PulseSyntax
