import PulseSyntax.Proofs.Expr.Places
import PulseSyntax.Proofs.Markup.Assemble
import PulseSyntax.Proofs.Markup.Holes
import PulseSyntax.Proofs.Token.Order

namespace PulseSyntax

open PulseSyntax.Parser

namespace TokenStream

variable {stream : TokenStream}

theorem get_beyond_tokenize {source : String} {i : Nat}
    (beyond : (ofList (tokenize source)).size ≤ i + 1) :
    (ofList (tokenize source)).get i = .endOfFile (Position.origin.after source.toList) := by
  have laid : Laid source.toList [] (tokenize source) := laid_tokens source.toList
  have same := toList_ofList_tokenize source
  obtain ⟨init, whole, others⟩ := laid.ends
  have here := get_mem (ofList (tokenize source)) i
  rw [same, whole, List.mem_append, List.mem_singleton, ← whole] at here
  refine here.resolve_left fun inside => ?_
  exact (others _ inside).1 (get_kind_of_size_le beyond)

theorem get_tokenize_stop_le (source : String) (i : Nat) :
    ((ofList (tokenize source)).get i).span.stop ≤ source.utf8ByteSize := by
  have beyond := Nat.le_succ_of_le (Nat.le_add_left (ofList (tokenize source)).size i)
  have last := (ordered_tokenize source).stop_le_stop
    (Nat.le_add_right i (ofList (tokenize source)).size)
  rw [get_beyond_tokenize beyond] at last
  refine Nat.le_trans last (Nat.le_of_eq ?_)
  simp [Token.endOfFile, Token.span, Position.place, Position.after_byte, Position.origin,
    Text.byteSize, Text.byteSize_toList]

theorem ruled_tokenize (source : String) : (ofList (tokenize source)).Ruled false := by
  have ordered := ordered_tokenize source
  have apart {i j : Nat} (lt : i < j) : ((ofList (tokenize source)).get i).span.stop ≤
      ((ofList (tokenize source)).get j).span.start := by
    rcases Nat.lt_or_ge j (ofList (tokenize source)).size with inside | beyond
    · exact ordered.disjoint lt inside
    · have stop := ordered.stop_le_stop (Nat.le_of_lt lt)
      rw [get_beyond_tokenize (i := j) (Nat.le_succ_of_le beyond)] at stop ⊢
      exact stop
  refine ⟨⟨fun {i j} le => ?_, fun {i j} le => ordered.stop_le_stop le, ordered.proper⟩,
    fun _ _ _ => apart⟩
  rcases Nat.eq_or_lt_of_le le with rfl | lt
  · exact Nat.le_refl _
  · exact Nat.le_trans (ordered.proper i) (apart lt)

end TokenStream

theorem Token.IsQuoted.stop_eq {source before : List Char} {t : Token}
    (h : t.IsQuoted source before) :
    t.span.stop = t.span.start + Text.byteSize t.raw.toList := by
  rw [Token.span, h.place]
  rfl

namespace TextNode

theorem get_holeTokens {t : Token} (verbatim : isVerbatim t) (start : Nat) (source : List Char)
    (i : Nat) :
    (TokenStream.ofList (holeTokens t start source)).get i =
      ((TokenStream.ofList (Lexer.tokens source)).get i).embed
        (Position.after ⟨t.span.start + 1, t.line, t.place.column + 1⟩
          (t.text.toList.take start)) := by
  generalize hb : (Position.after ⟨t.span.start + 1, t.line, t.place.column + 1⟩
    (t.text.toList.take start)) = base
  have same := holeTokens_embed verbatim start source
  rw [hb] at same
  obtain ⟨init, whole, -⟩ := (laid_tokens source).ends
  refine TokenStream.get_congr (f := id) (g := Token.embed base) ?_ i
  rw [same, whole, List.map_append, List.map_singleton, TokenStream.toList_ofList rfl,
    TokenStream.toList_ofList (by rfl)]
  simp

theorem ruled_holeTokens {source before : List Char} {t : Token} (h : t.IsQuoted source before)
    {template : Bool} {start : Nat} {expression : List Char}
    (hole : .hole start expression ∈ TextSegment.cut template 0 0 t.text.toList) :
    (TokenStream.ofList (holeTokens t start expression)).Ruled true ∧
      ∀ i, ((TokenStream.ofList (holeTokens t start expression)).get i).span.LiesIn t.span := by
  have stop := h.stop_eq
  by_cases verbatim : isVerbatim t
  · have tokens : Lexer.tokens expression = tokenize (String.ofList expression) := by
      rw [tokenize, String.toList_ofList]
    have ruled := TokenStream.ruled_tokenize (String.ofList expression)
    have inside := TokenStream.get_tokenize_stop_le (String.ofList expression)
    rw [← tokens] at ruled inside
    generalize hb : (Position.after ⟨t.span.start + 1, t.line, t.place.column + 1⟩
      (t.text.toList.take start)) = base
    have span (i : Nat) : ((TokenStream.ofList (holeTokens t start expression)).get i).span =
        ⟨base.byte + ((TokenStream.ofList (Lexer.tokens expression)).get i).span.start,
          base.byte + ((TokenStream.ofList (Lexer.tokens expression)).get i).span.stop⟩ := by
      rw [get_holeTokens verbatim, hb]
      rfl
    refine ⟨⟨⟨fun le => ?_, fun le => ?_, fun i => ?_⟩, by simp⟩, fun i => ?_⟩
    · rw [span, span]
      exact Nat.add_le_add_left (ruled.starts le) _
    · rw [span, span]
      exact Nat.add_le_add_left (ruled.stops le) _
    · rw [span]
      exact Nat.add_le_add_left (ruled.proper i) _
    · obtain ⟨quote, raw⟩ := (isVerbatim_iff h).mp verbatim
      obtain ⟨first, last, text, rfl⟩ := TextSegment.hole_of_mem_cut hole
      have one := h.start
      have size := inside i
      have proper := ruled.proper i
      rw [← Text.byteSize_toList, String.toList_ofList] at size
      rw [text, Nat.zero_add, List.take_left] at hb
      rw [raw, text] at stop
      rw [span]
      have byte : base.byte = t.span.start + 1 + Text.byteSize first := by
        rw [← hb, Position.after_byte]
      simp only [List.cons_append, Text.byteSize, Text.byteSize_append] at stop
      have positive := quote.utf8Size_pos
      constructor <;> simp only <;> omega
  · have place (i : Nat) : ((TokenStream.ofList (holeTokens t start expression)).get i).span =
        t.span := by
      obtain ⟨init, whole, -⟩ := (laid_tokens expression).ends
      have tokens : holeTokens t start expression =
          (Lexer.tokens expression).map fun inner => { inner with place := t.place } := by
        rw [holeTokens, if_neg verbatim]
        rfl
      have toList : (TokenStream.ofList (holeTokens t start expression)).toList =
          holeTokens t start expression := by
        rw [tokens, whole, List.map_append]
        exact TokenStream.toList_ofList rfl
      have member := TokenStream.get_mem (.ofList (holeTokens t start expression)) i
      rw [toList] at member
      rw [Token.span, holeTokens_place verbatim _ member]
      rfl
    have proper : t.span.start ≤ t.span.stop := by omega
    refine ⟨⟨⟨fun _ => ?_, fun _ => ?_, fun i => ?_⟩, by simp⟩, fun i => ?_⟩
    · rw [place, place]
    · rw [place, place]
    · rw [place]
      exact proper
    · rw [place]
      exact .refl proper

theorem nested_ofToken {source : String} {t : Token} (member : t ∈ tokenize source)
    (quoted : t.kind = .string ∨ t.kind = .template) {options : Options} {node : TextNode}
    (read : ofToken options t = .ok node) :
    node.span = t.span ∧ node.spanTree.Nested false := by
  obtain ⟨cut, -, place⟩ := ofToken_eq_ok.mp read
  obtain ⟨before, isQuoted⟩ := exists_isQuoted member quoted
  have lies {e : SpanTree} (here : e ∈ node.parts.flatMap TextPart.spanTrees) :
      e.Nested true ∧ e.span.LiesIn t.span := by
    obtain ⟨part, inside, own⟩ := List.mem_flatMap.mp here
    cases part with
    | literal => cases own
    | interpolation text expression =>
      obtain rfl := List.mem_singleton.mp own
      obtain ⟨start, hole, cutHole, -, readHole⟩ := assemble_interpolation cut inside
      obtain ⟨u, parsed, -⟩ := readHole_eq_ok.mp readHole
      obtain ⟨ruled, inner⟩ := ruled_holeTokens isQuoted cutHole
      have places : Expr.IsPlaced (holeScope options t start hole) true Expr.parser :=
        Expr.parser_places ruled
      have placed := places parsed
      have bounds := placed.bounds
      exact ⟨placed.nested _ (List.mem_singleton_self _),
        ⟨Nat.le_trans (inner _).start bounds.start, bounds.proper,
          Nat.le_trans bounds.stop (inner _).stop⟩⟩
  have stop := isQuoted.stop_eq
  exact ⟨place, .text (by rw [place]; omega) (fun e here => (lies here).1)
    fun e here => place ▸ (lies here).2⟩

end TextNode

end PulseSyntax
