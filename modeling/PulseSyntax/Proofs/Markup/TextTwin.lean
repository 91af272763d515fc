import PulseSyntax.Proofs.Expr.Moved
import PulseSyntax.Proofs.Expr.Twin
import PulseSyntax.Proofs.Markup.Assemble
import PulseSyntax.Proofs.Markup.Holes
import PulseSyntax.Proofs.Markup.Alone

namespace PulseSyntax

open PulseSyntax.Parser

namespace Lexer

theorem lines_place (p q : Position) (ps : List Piece) :
    (place p ps).map (fun t => t.line + q.line) = (place q ps).map (fun t => t.line + p.line) := by
  induction ps generalizing p q with
  | nil => exact congrArg (fun n => [n]) (Nat.add_comm _ _)
  | cons piece ps ih =>
    have later := ih (p.after piece.text) (q.after piece.text)
    rw [Position.after_line, Position.after_line] at later
    have cancel (r : Position) (line : Nat) :
        (place r ps).map (fun t => t.line + (line + piece.text.count '\n')) =
          ((place r ps).map (fun t => t.line + line)).map (· + piece.text.count '\n') := by
      simp [Nat.add_assoc]
    rw [cancel, cancel] at later
    have rest := List.map_injective_iff.mpr (fun _ _ => Nat.add_right_cancel) later
    rw [place, place, List.map_append, List.map_append, rest]
    congr 1
    cases piece with
    | trivia => rfl
    | lexeme => exact congrArg (fun n => [n]) (Nat.add_comm _ _)

end Lexer

/-- Two runs over the same tokens, where the same update operators stand on later lines than the
    tokens before them. -/
def Scope.Track.ofContent {a b : Scope}
    (tokens : a.stream.toList.map Token.content = b.stream.toList.map Token.content)
    (lines : ∀ i, UpdateOp.ofKind? (a.stream.get i).kind ≠ none →
      ((a.stream.get i).line = (a.stream.get (i - 1)).line ↔
        (b.stream.get i).line = (b.stream.get (i - 1)).line))
    (options : a.options = b.options) (keep : TokenRange → TokenRange) : a.Track b where
  shift := 0
  limit := a.stream.size - 1
  Open _ _ := True
  keep := keep
  options := options
  keep_shift _ := rfl
  inside := Nat.sub_lt a.stream.nonempty Nat.one_pos
  fits := by
    rw [← TokenStream.size_congr tokens]
    exact Nat.sub_lt a.stream.nonempty Nat.one_pos
  near _ := .of_content (TokenStream.get_congr tokens _)
  exact_ _ _ := Token.kind_of_content (TokenStream.get_congr tokens _)
  name _ _ := Token.kind_of_content (TokenStream.get_congr tokens _)
  step _ _ := trivial
  body _ _ _ _ _ := trivial
  lines _ := lines _
  arrows _ _ := by
    refine Expr.closesBeforeArrow_of_content ?_
    rw [TokenStream.tokensFrom_eq, TokenStream.tokensFrom_eq, List.map_drop, List.map_drop, tokens]
    rfl

instance Scope.Track.walled_ofContent {a b : Scope}
    {tokens : a.stream.toList.map Token.content = b.stream.toList.map Token.content}
    {lines : ∀ i, UpdateOp.ofKind? (a.stream.get i).kind ≠ none →
      ((a.stream.get i).line = (a.stream.get (i - 1)).line ↔
        (b.stream.get i).line = (b.stream.get (i - 1)).line)}
    {options : a.options = b.options} {keep : TokenRange → TokenRange} :
    (Scope.Track.ofContent tokens lines options keep).Walled where
  last := .inr (TokenStream.get_kind_of_size_le (Nat.le_add_of_sub_le (Nat.le_refl _)))

namespace TextNode

open TextSegment

variable {options : Options} {t u : Token} (keep : TokenRange → TokenRange)

theorem isVerbatim_of_content (h : t.content = u.content) : isVerbatim t = isVerbatim u := by
  rw [isVerbatim, isVerbatim, Token.raw_of_content h, Token.text_of_content h]

theorem holeScope_content (t u : Token) (options : Options) (start : Nat) (source : List Char) :
    (holeScope options t start source).stream.toList.map Token.content =
      (holeScope options u start source).stream.toList.map Token.content := by
  have own (t : Token) : (TokenStream.ofList (holeTokens t start source)).toList =
      holeTokens t start source :=
    TokenStream.toList_ofList_of_content (holeTokens_content t start source)
  rw [holeScope, holeScope, own, own, holeTokens_content, holeTokens_content]

theorem holeScope_line (h : t.content = u.content) (options : Options) (start : Nat)
    (source : List Char) (i j : Nat) :
    ((holeScope options t start source).stream.get i).line =
        ((holeScope options t start source).stream.get j).line ↔
      ((holeScope options u start source).stream.get i).line =
        ((holeScope options u start source).stream.get j).line := by
  have own (t : Token) : (TokenStream.ofList (holeTokens t start source)).toList =
      holeTokens t start source :=
    TokenStream.toList_ofList_of_content (holeTokens_content t start source)
  dsimp only [holeScope]
  by_cases verbatim : isVerbatim t
  · have placed (t : Token) (verbatim : isVerbatim t) : ∃ p : Position,
        holeTokens t start source = Lexer.place p (Lexer.pieces .initial 0 source) :=
      ⟨_, if_pos verbatim⟩
    obtain ⟨p, first⟩ := placed t verbatim
    obtain ⟨q, second⟩ := placed u (isVerbatim_of_content h ▸ verbatim)
    have same := Lexer.lines_place p q (Lexer.pieces .initial 0 source)
    rw [← first, ← second, ← own t, ← own u] at same
    have line (i : Nat) : ((TokenStream.ofList (holeTokens t start source)).get i).line + q.line =
        ((TokenStream.ofList (holeTokens u start source)).get i).line + p.line :=
      TokenStream.get_congr same i
    have := line i
    have := line j
    omega
  · -- All tokens stand where the text does.
    have here (t : Token) (verbatim : ¬isVerbatim t) (i : Nat) :
        ((TokenStream.ofList (holeTokens t start source)).get i).place = t.place := by
      have member := TokenStream.get_mem (.ofList (holeTokens t start source)) i
      rw [own] at member
      exact holeTokens_place verbatim _ member
    simp [Token.line, here t verbatim, here u (isVerbatim_of_content h ▸ verbatim)]

def holeTrack (h : t.content = u.content) (options : Options) (start : Nat) (source : List Char) :
    (holeScope options t start source).Track (holeScope options u start source) :=
  .ofContent (holeScope_content t u options start source)
    (fun i _ => holeScope_line h options start source i (i - 1)) rfl keep

instance {h : t.content = u.content} {options : Options} {start : Nat} {source : List Char} :
    (holeTrack keep h options start source).Walled := Scope.Track.walled_ofContent

theorem readHole_moved (h : t.content = u.content) {start : Nat} {source : List Char} {e : Expr}
    (read : readHole options t start source = .ok e) :
    ∃ e', readHole options u start source = .ok e' ∧ e.erased keep = e'.erased keep := by
  obtain ⟨v, read, ends⟩ := readHole_eq_ok.mp read
  let T := holeTrack keep h options start source
  have reader : T.Reader (ArrowBody.kept keep) Expr.parser := Expr.parser_reader fun _ => rfl
  -- The end of the file, at which the reading stops, is the last token.
  have within : v.cursor ≤ T.limit := by
    have reaches := (reader.moving 0 .initial rfl).reaches read
    exact Nat.le_sub_one_of_lt (reaches.inside_of_inside (TokenStream.nonempty _))
  obtain ⟨-, e', second, same⟩ := (reader.twin 0 read).2 trivial within
  refine ⟨e', readHole_eq_ok.mpr ⟨v, second, ?_⟩, same⟩
  exact ((T.near within).kind_eq_iff rfl).mp ends

theorem unplaced_literalPart (before : List Char) :
    (literalPart before).map (TextPart.unplaced keep) = literalPart before := by
  unfold literalPart
  split <;> rfl

theorem assemble_moved {keep' : TokenRange → TokenRange}
    {read read' : Nat → List Char → Except ParseError Expr}
    (h : ∀ {start source e}, read start source = .ok e →
      ∃ e', read' start source = .ok e' ∧ e.erased keep = e'.erased keep')
    (place place' : Place) {segments : List TextSegment} {before : List Char}
    {parts : List TextPart} (ok : assemble read place before segments = .ok parts) :
    ∃ parts', assemble read' place' before segments = .ok parts' ∧
      parts.map (TextPart.unplaced keep) = parts'.map (TextPart.unplaced keep') := by
  induction segments generalizing before parts with
  | nil =>
    cases ok
    exact ⟨_, rfl, by rw [unplaced_literalPart, unplaced_literalPart]⟩
  | cons segment rest ih =>
    cases segment with
    | char c => exact ih ok
    | unclosed => cases ok
    | hole start source =>
      obtain ⟨some, e, more, first, tail, rfl⟩ := assemble_hole_eq_ok.mp ok
      obtain ⟨e', second, same⟩ := h first
      obtain ⟨more', later, alike⟩ := ih tail
      refine ⟨_, assemble_hole_eq_ok.mpr ⟨some, e', more', second, later, rfl⟩, ?_⟩
      simp [unplaced_literalPart, TextPart.unplaced, same, alike]

theorem ofToken_moved (h : t.content = u.content) {node : TextNode}
    (ok : ofToken options t = .ok node) :
    ∃ node', ofToken options u = .ok node' ∧ node.unplaced keep = node'.unplaced keep := by
  obtain ⟨parts, raw, -⟩ := ofToken_eq_ok.mp ok
  obtain ⟨parts', second, same⟩ :=
    assemble_moved keep (fun read => readHole_moved keep h read) t.place u.place parts
  rw [Token.kind_of_content h, Token.text_of_content h] at second
  refine ⟨⟨parts', u.text, u.span⟩, ofToken_eq_ok.mpr ⟨second, rfl, rfl⟩, ?_⟩
  rw [unplaced, unplaced, same, raw, Token.text_of_content h]

end TextNode

/-- Every update operator of a source stands on the line of the token before it. -/
def UpdatesInLine (source : List Char) : Prop :=
  (Lexer.tokens source).IsChain fun t u => UpdateOp.ofKind? u.kind ≠ none → u.line = t.line

instance (source : List Char) : Decidable (UpdatesInLine source) :=
  inferInstanceAs (Decidable (List.IsChain _ _))

namespace TextNode

variable {t : Token} {source : List Char}

theorem toList_alone (source : List Char) :
    (TokenStream.ofList (Lexer.tokens source)).toList = Lexer.tokens source :=
  TokenStream.toList_ofList_of_content rfl

theorem toList_hole (t : Token) (start : Nat) (source : List Char) :
    (TokenStream.ofList (holeTokens t start source)).toList = holeTokens t start source :=
  TokenStream.toList_ofList_of_content (holeTokens_content t start source)

theorem holeStream_content (t : Token) (start : Nat) (source : List Char) :
    (TokenStream.ofList (holeTokens t start source)).toList.map Token.content =
      (TokenStream.ofList (Lexer.tokens source)).toList.map Token.content := by
  rw [toList_hole, toList_alone, holeTokens_content]

theorem holeTokens_line (verbatim : isVerbatim t) (start : Nat) (source : List Char) :
    ∃ line, ∀ i, ((TokenStream.ofList (holeTokens t start source)).get i).line + 1 =
      ((TokenStream.ofList (Lexer.tokens source)).get i).line + line := by
  obtain ⟨p, placed⟩ : ∃ p : Position,
      holeTokens t start source = Lexer.place p (Lexer.pieces .initial 0 source) :=
    ⟨_, if_pos verbatim⟩
  have same := Lexer.lines_place p .origin (Lexer.pieces .initial 0 source)
  rw [← placed, ← Lexer.tokens, ← toList_hole, ← toList_alone] at same
  exact ⟨p.line, TokenStream.get_congr same⟩

theorem line_eq_of_updatesInLine (h : UpdatesInLine source) {i : Nat}
    (update : UpdateOp.ofKind? ((TokenStream.ofList (Lexer.tokens source)).get i).kind ≠ none) :
    ((TokenStream.ofList (Lexer.tokens source)).get i).line =
      ((TokenStream.ofList (Lexer.tokens source)).get (i - 1)).line := by
  cases i with
  | zero => rfl
  | succ i =>
    have real : ((TokenStream.ofList (Lexer.tokens source)).get (i + 1)).kind ≠ .endOfFile := by
      intro atEnd
      exact update (by rw [atEnd]; rfl)
    have inside : i + 1 < (Lexer.tokens source).length := by
      rw [← toList_alone]
      exact Nat.lt_of_succ_lt (TokenStream.lt_size_of_kind_ne real)
    have at_ (j : Nat) (bound : j < (Lexer.tokens source).length) :
        (TokenStream.ofList (Lexer.tokens source)).get j = (Lexer.tokens source)[j] := by
      rw [TokenStream.get_eq, toList_alone, List.getElem?_eq_getElem bound, Option.getD_some]
    rw [Nat.add_sub_cancel, at_ _ inside] at *
    rw [at_ i (Nat.lt_of_succ_lt inside)]
    exact List.isChain_iff_getElem.mp h i inside update

theorem holeTokens_oneLine (written : ¬isVerbatim t) (start : Nat) (source : List Char) (i j : Nat) :
    ((TokenStream.ofList (holeTokens t start source)).get i).line =
      ((TokenStream.ofList (holeTokens t start source)).get j).line := by
  have here (i : Nat) :
      ((TokenStream.ofList (holeTokens t start source)).get i).place = t.place := by
    have member := TokenStream.get_mem (.ofList (holeTokens t start source)) i
    rw [toList_hole] at member
    exact holeTokens_place written _ member
  rw [Token.line, Token.line, here, here]

theorem hole_line_iff (lines : isVerbatim t ∨ UpdatesInLine source) (start : Nat) {i : Nat}
    (update : UpdateOp.ofKind? ((TokenStream.ofList (holeTokens t start source)).get i).kind ≠ none) :
    ((TokenStream.ofList (holeTokens t start source)).get i).line =
        ((TokenStream.ofList (holeTokens t start source)).get (i - 1)).line ↔
      ((TokenStream.ofList (Lexer.tokens source)).get i).line =
        ((TokenStream.ofList (Lexer.tokens source)).get (i - 1)).line := by
  by_cases verbatim : isVerbatim t
  · obtain ⟨line, same⟩ := holeTokens_line verbatim start source
    have here := same i
    have before := same (i - 1)
    omega
  · rw [Token.kind_of_content (TokenStream.get_congr (holeStream_content t start source) i)] at update
    exact iff_of_true (holeTokens_oneLine verbatim start source _ _)
      (line_eq_of_updatesInLine (lines.resolve_left verbatim) update)

def aloneTrack (options : Options) (t : Token) (start : Nat) (source : List Char)
    (lines : isVerbatim t ∨ UpdatesInLine source) :
    (holeScope options t start source).Track ⟨.ofList (Lexer.tokens source), options, none⟩ :=
  .ofContent (holeStream_content t start source) (fun _ => hole_line_iff lines start) rfl id

instance {options : Options} {t : Token} {start : Nat} {source : List Char}
    {lines : isVerbatim t ∨ UpdatesInLine source} :
    (aloneTrack options t start source lines).Walled := Scope.Track.walled_ofContent

theorem aloneTrack_leaves (options : Options) (t : Token) (start : Nat) (source : List Char)
    (lines : isVerbatim t ∨ UpdatesInLine source) :
    (aloneTrack options t start source lines).Leaves (Quotation.of source).inline := fun _ => rfl

theorem alone?_of_readHole {options : Options} {start : Nat} {e : Expr}
    (lines : isVerbatim t ∨ UpdatesInLine source) (read : readHole options t start source = .ok e) :
    ∃ e', Expr.alone? options source = some e' := by
  obtain ⟨v, read, ends⟩ := readHole_eq_ok.mp read
  let T := aloneTrack options t start source lines
  have reader := Expr.parser_reader (aloneTrack_leaves options t start source lines)
  have within : v.cursor ≤ T.limit := by
    have reaches := (reader.moving 0 .initial rfl).reaches read
    exact Nat.le_sub_one_of_lt (reaches.inside_of_inside (TokenStream.nonempty _))
  obtain ⟨-, e', alone, -⟩ := (reader.twin 0 read).2 trivial within
  exact ⟨e', Expr.alone?_eq_some.mpr ⟨v, alone, ((T.near within).kind_eq_iff rfl).mp ends⟩⟩

/-- An interpolation depends on its own source only: it holds an expression if and only if the source
    is one on its own, and then the same one; unless an update operator starts a line of the source
    within a text that is not spelled as its value. -/
theorem readHole_iff_alone (options : Options) (t : Token) (start : Nat) (source : List Char)
    (lines : isVerbatim t ∨ UpdatesInLine source) :
    ((∃ e, readHole options t start source = .ok e) ↔ ∃ e, Expr.alone? options source = some e) ∧
      ∀ e e', Expr.alone? options source = some e → readHole options t start source = .ok e' →
        Expr.Same (.of source) e e' := by
  refine ⟨⟨fun ⟨_, read⟩ => alone?_of_readHole lines read, fun ⟨_, alone⟩ => ?_⟩, ?_⟩
  · obtain ⟨e', read, -⟩ := readHole_of_alone? alone t start
    exact ⟨e', read⟩
  · intro e e' alone read
    obtain ⟨_, again, same⟩ := readHole_of_alone? alone t start
    rw [read] at again
    exact Except.ok.inj again ▸ same

/-- After an escape, where the text is not spelled as its value. -/
theorem readHole_iff_alone_escaped :
    UpdatesInLine ['a', '+', '+', '\n', '+', 'b'] ∧
      ((∃ e, readHole .standard
          ⟨.string, .text r"A{a++
+b}", r"'\x41{a++
+b}'", default⟩ 2
          ['a', '+', '+', '\n', '+', 'b'] = .ok e) ↔
        ∃ e, Expr.alone? .standard ['a', '+', '+', '\n', '+', 'b'] = some e) :=
  have inLine : UpdatesInLine ['a', '+', '+', '\n', '+', 'b'] := by decide +kernel
  ⟨inLine, (readHole_iff_alone .standard _ 2 _ (.inr inLine)).1⟩

-- With the operator at the start of a line the text holds an expression that its source is not.
example :
    (readHole .standard ⟨.string, .text r"A{a
++}", r"'\x41{a
++}'", default⟩ 2 ['a', '\n', '+', '+']).toOption.isSome ∧
      (Expr.alone? .standard ['a', '\n', '+', '+']).isNone := by
  constructor <;> decide +kernel

end TextNode

end PulseSyntax
