import PulseSyntax.Component
import PulseSyntax.Proofs.Source.Slice
import PulseSyntax.Proofs.Token.Alike
import PulseSyntax.Proofs.Token.Reach.Tail
import PulseSyntax.Proofs.Token.Seam
import PulseSyntax.Proofs.Token.Split

namespace PulseSyntax

def Position.shift (p : Position) (bytes lines : Nat) : Position :=
  ⟨p.byte + bytes, p.line + lines, p.column⟩

def Token.shift (t : Token) (bytes lines : Nat) : Token :=
  { t with place := ⟨t.place.line + lines, t.place.column,
      ⟨t.place.span.start + bytes, t.place.span.stop + bytes⟩⟩ }

namespace Position

variable (p : Position) (bytes lines : Nat)

theorem advance_shift (c : Char) :
    (p.shift bytes lines).advance c = (p.advance c).shift bytes lines := by
  unfold advance shift
  split
  · simp only [mk.injEq, and_true]
    omega
  · simp only [mk.injEq, and_true]
    omega

theorem after_shift (text : List Char) :
    (p.shift bytes lines).after text = (p.after text).shift bytes lines := by
  induction text generalizing p with
  | nil => rfl
  | cons c text ih => rw [after_cons, after_cons, advance_shift, ih]

theorem place_shift (text : List Char) : (p.shift bytes lines).place text =
    ⟨(p.place text).line + lines, (p.place text).column,
      ⟨(p.place text).span.start + bytes, (p.place text).span.stop + bytes⟩⟩ := by
  simp only [place, shift, Place.mk.injEq, Span.mk.injEq, true_and]
  omega

theorem origin_after_lineFeed (x : List Char) :
    origin.after (x ++ ['\n']) =
      origin.shift (Text.byteSize (x ++ ['\n'])) ((x ++ ['\n']).count '\n') := by
  have byte := origin_after_byte (x ++ ['\n'])
  have line := after_line origin (x ++ ['\n'])
  have column : (origin.after (x ++ ['\n'])).column = 1 := by
    rw [after_append]
    rfl
  cases at_end : origin.after (x ++ ['\n'])
  simp only [at_end] at byte line column
  simp [shift, origin, byte, line, column]

end Position

namespace Lexer

theorem place_shift (p : Position) (bytes lines : Nat) (ps : List Piece) :
    place (p.shift bytes lines) ps = (place p ps).map (·.shift bytes lines) := by
  induction ps generalizing p with
  | nil => simp [place, Token.endOfFile, Token.shift, Position.place_shift]
  | cons piece ps ih =>
    rw [place, place, Position.after_shift, ih, List.map_append]
    cases piece with
    | trivia => rfl
    | lexeme => simp [Piece.token?, Token.shift, Position.place_shift]

end Lexer

section

variable (bytes lines bytes' lines' : Nat)

theorem Token.shift_shift (t : Token) :
    (t.shift bytes lines).shift bytes' lines' = t.shift (bytes + bytes') (lines + lines') := by
  simp [Token.shift, Nat.add_assoc]

theorem map_shift_shift (ts : List Token) :
    (ts.map (·.shift bytes lines)).map (·.shift bytes' lines') =
      ts.map (·.shift (bytes + bytes') (lines + lines')) := by
  simp [Function.comp_def, Token.shift_shift]

theorem firstKind_shift (ts : List Token) : firstKind (ts.map (·.shift bytes lines)) = firstKind ts := by
  cases ts <;> rfl

end

/-- Tokens are local to a declaration. Where a text ends its last line and leaves no block, literal
    or comment open, what follows it has the tokens that it has alone, further on by the bytes and
    lines of that text; except that a brace right after the word of a block belongs to that word. -/
theorem tokenize_append {a b : String} (lineFeed : a.toList.getLast? = some '\n')
    (terminated : ∀ t ∈ tokenize a, ¬t.IsUnterminated)
    (closed : (Lexer.left .initial a.toList).blocks = [])
    (apart : ¬((tokenize a).dropLast.getLast?.any (·.kind.opensBlock) ∧
      firstKind (tokenize b) = .symbol .openBrace)) :
    tokenize (a ++ b) =
      (tokenize a).dropLast ++
        (tokenize b).map (·.shift a.utf8ByteSize (a.toList.count '\n')) := by
  obtain ⟨x, whole⟩ := List.getLast?_eq_some_iff.mp lineFeed
  have noBlock : (Lexer.left .initial a.toList).block = none := by
    rw [Context.block, closed]
    rfl
  have complete : Lexer.Complete .initial .origin (x ++ ['\n']) := by
    rw [← whole]
    refine ⟨terminated, fun view => ?_⟩
    rw [noBlock] at view
    cases view
  have alike : Context.initial.Alike (Lexer.left .initial a.toList) :=
    ⟨closed.symm, fun view => absurd view List.not_mem_nil, fun some => absurd rfl some⟩
  have opening : Lexer.SameOpening .initial (Lexer.left .initial a.toList) .origin
      (Lexer.pieces .initial 0 b.toList) := by
    by_cases word : (tokenize a).dropLast.getLast?.any (·.kind.opensBlock)
    · exact .inr fun brace => apart ⟨word, brace⟩
    · refine .inl (Context.opened_eq_none closed fun kind last => ?_).symm
      rw [Lexer.left_lastKind] at last
      obtain ⟨t, member, rfl⟩ := Option.map_eq_some_iff.mp last
      rw [tokenize, member] at word
      simpa using word
  have seam := Lexer.place_seam complete b.toList
  rw [← whole, ← Lexer.pieces_congr alike opening, whole, Position.origin_after_lineFeed, ← whole,
    Lexer.place_shift, Text.byteSize_toList] at seam
  have text : (a ++ b).toList = x ++ '\n' :: b.toList := by
    rw [String.toList_append, whole, List.append_assoc]
    rfl
  rw [tokenize, Lexer.tokens, text]
  exact seam

/-- A parenthesis that is left open does not keep the next block from being markup. -/
theorem tokenize_append_openParen :
    tokenize ("state { a: f( }\n" ++ "view { p.note }") =
      (tokenize "state { a: f( }\n").dropLast ++
        (tokenize "view { p.note }").map (·.shift 16 1) := by
  have size : "state { a: f( }\n".utf8ByteSize = 16 := by decide +kernel
  have lines : "state { a: f( }\n".toList.count '\n' = 1 := by decide +kernel
  have seam := @tokenize_append "state { a: f( }\n" "view { p.note }"
    (by decide +kernel) (by decide +kernel) (by decide +kernel) (by decide +kernel)
  rwa [size, lines] at seam

namespace Lexer

/-- A text that leaves no block open, nor a literal or a comment. -/
structure Closed (ctx : Context) (p : Position) (text : List Char) : Prop where
  blocks : (left ctx text).blocks = []
  terminated : ∀ t ∈ (place p (pieces ctx 0 text)).dropLast.getLast?, t.kind ≠ .invalid

variable {ctx : Context} {p : Position} {c : Char} {cs x rest : List Char} {ps : List Piece}

theorem Closed.blank (h : Closed ctx p (c :: cs)) (isBlank : Text.isBlank c) :
    Closed (ctx.after (.trivia [c])) (p.after [c]) cs where
  blocks := by
    rw [← left_blank isBlank]
    exact h.blocks
  terminated := by
    rw [← place_blank isBlank]
    exact h.terminated

theorem Closed.scan (h : Closed ctx p (c :: cs)) (whole : c :: cs = textOf (scan ctx c cs) ++ rest) :
    Closed ((Lexer.scan ctx c cs).foldl Context.after ctx)
      (p.after (textOf (Lexer.scan ctx c cs))) rest where
  blocks := by
    rw [← left_scan whole]
    exact h.blocks
  terminated t last := by
    refine h.terminated t ?_
    rw [pieces_scan whole, place_append, List.dropLast_append_of_ne_nil (place_ne_nil _ _),
      List.getLast?_append, last]
    rfl

theorem blocks_foldl_of_plain (plain : Plain ps) : (ps.foldl Context.after ctx).blocks = ctx.blocks := by
  induction ps generalizing ctx with
  | nil => rfl
  | cons piece ps ih =>
    rw [List.foldl_cons, ih fun q member => plain q (List.mem_cons_of_mem _ member)]
    cases piece with
    | trivia => rfl
    | lexeme kind value text =>
      exact Context.afterKind_blocks_of_plain ctx (plain _ List.mem_cons_self)

theorem left_of_all (all : textOf (Lexer.scan ctx c cs) = c :: cs) :
    pieces ctx 0 (c :: cs) = Lexer.scan ctx c cs := by
  have whole : c :: cs = textOf (Lexer.scan ctx c cs) ++ [] := by rw [all, List.append_nil]
  rw [pieces_scan whole]
  exact List.append_nil _

theorem Closed.blocks_of_plain (h : Closed ctx p (c :: cs)) (plain : Plain (Lexer.scan ctx c cs))
    (all : textOf (Lexer.scan ctx c cs) = c :: cs) : ctx.blocks = [] := by
  have blocks := h.blocks
  rwa [left, left_of_all all, blocks_foldl_of_plain plain] at blocks

theorem scanSymbol_single (c : Char) (cs : List Char) : ∃ piece, scanSymbol c cs = [piece] := by
  unfold scanSymbol
  split <;> exact ⟨_, rfl⟩

theorem plain_word {kind : TokenKind} {word : List Char} (plain : kind.isBrace = false) :
    Plain [.word kind word] := List.forall_mem_singleton.mpr plain

theorem Closed.not_unfinished (h : Closed ctx p (c :: cs))
    (all : textOf (Lexer.scan ctx c cs) = c :: cs) : ¬Unfinished ctx (Lexer.scan ctx c cs) := by
  intro unfinished
  have alone := left_of_all all
  have blocks := (h.blocks_of_plain · all)
  generalize Lexer.scan ctx c cs = ps at *
  cases unfinished with
  | @literal value text =>
    refine h.terminated ⟨.invalid, value, String.ofList text, p.place text⟩ ?_ rfl
    rw [alone]
    rfl
  | selector markup => simp [Context.inMarkup, Context.block, blocks (plain_word rfl)] at markup

theorem Closed.scan_append (h : Closed ctx p (c :: cs)) (visible : Text.isBlank c = false)
    (r : List Char) : Lexer.scan ctx c (cs ++ '\n' :: r) = Lexer.scan ctx c cs := by
  have lineFeed : Quiet ('\n' :: r) := fun d first => by cases first; decide
  obtain ⟨-, after, cut⟩ := scans_scan ctx c cs
  have size := congrArg List.length cut.text_eq
  rw [List.length_append, List.length_cons] at size
  have all (length : (textOf (Lexer.scan ctx c cs)).length = cs.length + 1) :
      textOf (Lexer.scan ctx c cs) = c :: cs := by
    have none : after = [] := List.length_eq_zero_iff.mp (by omega)
    rw [cut.text_eq, none, List.append_nil]
  have like : Like ctx (cs.length + 1) (Lexer.scan ctx c (cs ++ []))
      (Lexer.scan ctx c (cs ++ '\n' :: r)) := by
    refine like_scan visible quiet_nil lineFeed ?_ ?_ ?_ (.inl fun d first => by cases first; rfl)
    all_goals rw [List.append_nil]
    · omega
    · exact fun _ length => h.not_unfinished (all length)
    · intro style
      rcases Nat.lt_or_ge (textOf (Lexer.scan ctx c cs)).length (cs.length + 1) with less | more
      · exact .inr less
      · rcases scan_plain_or ctx c cs with plain | symbol
        · have blocks := h.blocks_of_plain plain (all (by omega))
          simp [Context.inStyle, Context.block, blocks] at style
        · exact .inl (symbol ▸ scanSymbol_single c cs)
  rw [List.append_nil] at like
  have blocks := (h.blocks_of_plain · <| all ·)
  generalize Lexer.scan ctx c cs = ps at *
  generalize Lexer.scan ctx c (cs ++ '\n' :: r) = qs at *
  cases like with
  | same => rfl
  | name markup whole head =>
    have plain := TokenKind.eq_of_isHead head
    have outside := blocks (plain_word (by rcases plain with rfl | rfl <;> rfl)) (by simpa using whole)
    simp [Context.inMarkup, Context.block, outside] at markup

theorem place_closed (h : Closed ctx p x) (r : List Char) :
    place p (pieces ctx 0 (x ++ '\n' :: r)) =
      (place p (pieces ctx 0 x)).dropLast ++ place (p.after (x ++ ['\n']))
        (pieces ((left ctx x).after (.trivia ['\n'])) 0 r) := by
  induction length : x.length using Nat.strongRecOn generalizing ctx p x with
  | ind n ih =>
    cases x with
    | nil => exact place_blank (by decide) p
    | cons c x =>
      by_cases blank : Text.isBlank c
      · rw [List.cons_append, place_blank blank, place_blank blank, left_blank blank,
          ih x.length (by simp [← length]) (h.blank blank) rfl]
        rfl
      · obtain ⟨nonempty, z, cut⟩ := scans_scan ctx c x
        have whole := cut.text_eq
        have same := h.scan_append (by simpa using blank) r
        have whole' : c :: (x ++ '\n' :: r) =
            textOf (Lexer.scan ctx c (x ++ '\n' :: r)) ++ (z ++ '\n' :: r) := by
          rw [same, ← List.append_assoc, ← whole]
          rfl
        have shorter : z.length < n := by
          rw [← length, whole, List.length_append]
          exact Nat.lt_add_of_pos_left (List.length_pos_iff.mpr nonempty)
        rw [List.cons_append, pieces_scan whole', same, pieces_scan whole, left_scan whole, place_append,
          place_append, ih z.length shorter (h.scan whole) rfl,
          List.dropLast_append_of_ne_nil (place_ne_nil _ _), List.append_assoc,
          ← Position.after_append, ← List.append_assoc (textOf _) z, ← whole]

end Lexer

theorem tokenize_nextLine {a b : String} (closed : Lexer.Closed .initial .origin a.toList)
    (first : firstKind (tokenize b) ≠ .symbol .openBrace) : ∃ bytes lines,
      tokenize (a ++ "\n" ++ b) = (tokenize a).dropLast ++ (tokenize b).map (·.shift bytes lines) := by
  have alike : Context.initial.Alike ((Lexer.left .initial a.toList).after (.trivia ['\n'])) :=
    ⟨closed.blocks.symm, fun view => absurd view List.not_mem_nil, fun some => absurd rfl some⟩
  have text : (a ++ "\n" ++ b).toList = a.toList ++ '\n' :: b.toList := by
    rw [String.toList_append, String.toList_append, List.append_assoc]
    rfl
  refine ⟨Text.byteSize (a.toList ++ ['\n']), (a.toList ++ ['\n']).count '\n', ?_⟩
  rw [tokenize, Lexer.tokens, text, Lexer.place_closed closed, ← Lexer.pieces_congr alike (.inr first),
    Position.origin_after_lineFeed, Lexer.place_shift]
  rfl

end PulseSyntax
