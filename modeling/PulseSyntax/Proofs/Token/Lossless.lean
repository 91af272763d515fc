import PulseSyntax.Component
import PulseSyntax.Proofs.Source.Slice
import PulseSyntax.Proofs.Token.Scan

namespace PulseSyntax

/-- The tokens of a source from the end of `before` on. -/
inductive Laid (source : List Char) : List Char → List Token → Prop where
  | endOfFile {before gap : List Char} (whole : source = before ++ gap) (trivia : Trivia [] gap) :
      Laid source before [.endOfFile (Position.origin.after source)]
  | token {before gap own rest : List Char} {kind : TokenKind} {value : TokenValue}
      {tokens : List Token} (whole : source = before ++ gap ++ (own ++ rest))
      (trivia : Trivia (own ++ rest) gap) (hk : kind ≠ .endOfFile) (nonempty : own ≠ [])
      (tail : Laid source (before ++ gap ++ own) tokens) :
      Laid source before
        (⟨kind, value, String.ofList own, (Position.origin.after (before ++ gap)).place own⟩ ::
          tokens)

theorem Cut.laid {text : List Char} {pieces : List Piece} (h : Cut text pieces [])
    {source before gap : List Char} (whole : source = before ++ gap ++ text)
    (trivia : Trivia text gap) :
    Laid source before (Lexer.place (Position.origin.after (before ++ gap)) pieces) := by
  generalize nothing : ([] : List Char) = after at h
  induction h generalizing before gap with
  | nil =>
    subst nothing
    rw [List.append_nil] at whole
    rw [← whole]
    exact .endOfFile whole trivia
  | @cons piece rest pieces after fits tail ih =>
    cases piece with
    | trivia own =>
      have longer : source = before ++ (gap ++ own) ++ rest := by rw [whole]; simp [Piece.text]
      have next := ih longer (trivia.append fits) nothing
      rw [← List.append_assoc, Position.after_append] at next
      exact next
    | lexeme kind value own =>
      have following : source = before ++ gap ++ own ++ [] ++ rest := by
        rw [whole]; simp [Piece.text]
      have next := ih following .nil nothing
      rw [List.append_nil, Position.after_append] at next
      exact .token whole trivia fits.1 fits.2 next

theorem laid_tokens (source : List Char) : Laid source [] (Lexer.tokens source) := by
  have whole : source = [] ++ [] ++ source := rfl
  exact (Lexer.cut_pieces .initial source).laid whole .nil

theorem Laid.length_le {source before : List Char} {tokens : List Token}
    (h : Laid source before tokens) : before.length + tokens.length ≤ source.length + 1 := by
  induction h with
  | endOfFile whole =>
    rw [whole]
    simp
  | @token _ _ own _ _ _ _ _ _ _ nonempty _ ih =>
    have some := List.length_pos_iff.mpr nonempty
    simp only [List.length_append, List.length_cons] at ih ⊢
    omega

/-- The token has the text of its span, and its line and column count the line feeds before it and
    the characters after the last of them. -/
structure Token.StandsIn (source : List Char) (t : Token) : Prop where
  raw : Text.slice? source t.span.start t.span.stop = some t.raw.toList
  place : ∃ before, Text.takeBytes? source t.span.start = some before ∧
    t.place.line = 1 + before.count '\n' ∧ t.place.column = 1 + (Text.lastLine before).length

/-- Nothing but trivia stands between two spans. -/
def TriviaBetween (source : List Char) (a b : Span) : Prop :=
  ∃ gap after, Text.slice? source a.stop b.start = some gap ∧
    Text.dropBytes? source b.start = some after ∧ Trivia after gap

theorem Position.standsIn {before own rest : List Char} {kind : TokenKind} {value : TokenValue} :
    Token.StandsIn (before ++ (own ++ rest))
      ⟨kind, value, String.ofList own, (origin.after before).place own⟩ where
  raw := by
    have middle := Text.slice?_middle before own rest
    rw [Text.byteSize_append] at middle
    simpa [Token.span, place, origin_after_byte] using middle
  place := by
    refine ⟨before, ?_, ?_, origin_after_column before⟩
    · simpa [Token.span, place, origin_after_byte] using Text.takeBytes?_append before (own ++ rest)
    · exact after_line origin before

namespace Laid

variable {source before : List Char} {tokens : List Token}

theorem standsIn (h : Laid source before tokens) : ∀ t ∈ tokens, t.StandsIn source := by
  induction h with
  | endOfFile =>
    intro t member
    rw [List.mem_singleton] at member
    have atEnd := @Position.standsIn source [] [] .endOfFile .none
    rw [List.append_nil, List.append_nil] at atEnd
    exact member ▸ atEnd
  | token whole _ _ _ _ ih =>
    intro t member
    rcases List.mem_cons.mp member with rfl | member
    · rw [whole]
      exact Position.standsIn
    · exact ih t member

theorem ends (h : Laid source before tokens) :
    ∃ init, tokens = init ++ [.endOfFile (Position.origin.after source)] ∧
      ∀ t ∈ init, t.kind ≠ .endOfFile ∧ t.span.start < t.span.stop := by
  induction h with
  | endOfFile => exact ⟨[], rfl, by simp⟩
  | token _ _ hk nonempty _ ih =>
    obtain ⟨init, rfl, others⟩ := ih
    refine ⟨_ :: init, rfl, ?_⟩
    intro t member
    rcases List.mem_cons.mp member with rfl | member
    · have size := Text.byteSize_pos nonempty
      refine ⟨hk, ?_⟩
      simp only [Token.span, Position.place]
      omega
    · exact others t member

theorem proper (h : Laid source before tokens) {i : Nat} (hi : i < tokens.length)
    (more : i + 1 < tokens.length) : tokens[i].span.start < tokens[i].span.stop := by
  obtain ⟨init, rfl, others⟩ := h.ends
  have inside : i < init.length := by
    rw [List.length_append, List.length_singleton] at more
    omega
  rw [List.getElem_append_left inside]
  exact (others _ (List.getElem_mem inside)).2

theorem triviaBetween (h : Laid source before tokens) {start : Nat} :
    List.IsChain (TriviaBetween source) (⟨start, Text.byteSize before⟩ :: tokens.map Token.span) := by
  induction h generalizing start with
  | @endOfFile before gap whole trivia =>
    refine List.isChain_pair.mpr ⟨gap, [], ?_, ?_, trivia⟩
    · have middle := Text.slice?_middle before gap []
      rw [List.append_nil, ← whole] at middle
      simpa [Token.span, Token.endOfFile, Position.place, Position.origin_after_byte] using middle
    · have rest := Text.dropBytes?_append source []
      rw [List.append_nil] at rest
      simpa [Token.span, Token.endOfFile, Position.place, Position.origin_after_byte] using rest
  | @token before gap own rest kind value tokens whole trivia _ _ tail ih =>
    refine List.isChain_cons_cons.mpr ⟨⟨gap, own ++ rest, ?_, ?_, trivia⟩, ?_⟩
    · have middle := Text.slice?_middle before gap (own ++ rest)
      rw [← List.append_assoc, ← whole] at middle
      simpa [Token.span, Position.place, Position.origin_after_byte] using middle
    · have following := Text.dropBytes?_append (before ++ gap) (own ++ rest)
      rw [← whole] at following
      simpa [Token.span, Position.place, Position.origin_after_byte] using following
    · have next := @ih (Text.byteSize (before ++ gap))
      rw [Text.byteSize_append (before ++ gap) own] at next
      simpa [Token.span, Position.place, Position.origin_after_byte] using next

theorem start_le (h : Laid source before tokens) :
    ∀ t ∈ tokens, Text.byteSize before ≤ t.span.start := by
  induction h with
  | endOfFile whole =>
    intro t member
    rw [List.mem_singleton.mp member, whole]
    simp [Token.span, Token.endOfFile, Position.place, Position.origin_after_byte,
      Text.byteSize_append]
  | @token before gap own rest kind value tokens whole trivia _ _ tail ih =>
    intro t member
    rcases List.mem_cons.mp member with rfl | member
    · simp [Token.span, Position.place, Position.origin_after_byte, Text.byteSize_append]
    · have later := ih t member
      simp only [Text.byteSize_append] at later
      omega

theorem ordered (h : Laid source before tokens) :
    tokens.Pairwise fun a b => a.span.stop ≤ b.span.start := by
  induction h with
  | endOfFile => exact List.pairwise_singleton _ _
  | @token before gap own rest kind value tokens whole trivia _ _ tail ih =>
    refine List.pairwise_cons.mpr ⟨?_, ih⟩
    intro t member
    have later := tail.start_le t member
    rw [Text.byteSize_append] at later
    simpa [Token.span, Position.place, Position.origin_after_byte] using later

end Laid

/-- Tokens lose nothing of their source. The end of the file closes them and stands at the end of
    the source; every other token has some text of its own, namely that of its span; spans follow
    one another; and what is left between them, before the first and after the last is trivia. -/
theorem tokenize_lossless (source : String) :
    ∃ init last, tokenize source = init ++ [last] ∧
      last.kind = .endOfFile ∧ last.span = ⟨source.utf8ByteSize, source.utf8ByteSize⟩ ∧
      (∀ t ∈ init, t.kind ≠ .endOfFile ∧ t.span.start < t.span.stop) ∧
      (∀ t ∈ tokenize source, t.StandsIn source.toList) ∧
      (tokenize source).Pairwise (fun a b => a.span.stop ≤ b.span.start) ∧
      List.IsChain (TriviaBetween source.toList) (⟨0, 0⟩ :: (tokenize source).map Token.span) := by
  have laid : Laid source.toList [] (tokenize source) := laid_tokens source.toList
  obtain ⟨init, whole, others⟩ := laid.ends
  refine ⟨init, _, whole, rfl, ?_, others, laid.standsIn, laid.ordered, laid.triviaBetween⟩
  simp [Token.span, Token.endOfFile, Position.place, Position.origin_after_byte,
    Text.byteSize_toList, Text.byteSize]

end PulseSyntax
