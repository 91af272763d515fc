import PulseSyntax.Proofs.Token.Scan

/-!
How far a scan looks. Before a line feed or an opening brace a token ends, unless it is a quoted
one, a comment or a selector with an open bracket; and what ends there does not depend on what
follows.
-/

namespace PulseSyntax

namespace Text

theorem blank_lt {n : Nat} (h : blank.contains n) : n < 0x3001 := by
  refine Nat.lt_of_not_le fun le => ?_
  have reached : ∀ bound ∈ blank, bound ≤ n := fun bound member =>
    Nat.le_trans ((by decide : ∀ bound ∈ blank, bound ≤ 0x3001) bound member) le
  simp only [blank, List.forall_mem_cons] at reached
  simp [blank, CodePoints.contains, reached] at h

def blanks : List Nat := [
  0x9, 0xA, 0xB, 0xC, 0xD, 0x20, 0x85, 0xA0, 0x1680, 0x2000, 0x2001, 0x2002, 0x2003, 0x2004, 0x2005,
  0x2006, 0x2007, 0x2008, 0x2009, 0x200A, 0x2028, 0x2029, 0x202F, 0x205F, 0x3000]

theorem mem_blanks {n : Nat} (h : blank.contains n) : n ∈ blanks := by
  have below := blank_lt h
  simp only [blank, CodePoints.contains, Bool.and_eq_true, Bool.not_eq_true',
    Bool.and_eq_false_iff, Bool.not_eq_false', ge_iff_le, decide_eq_true_eq,
    decide_eq_false_iff_not] at h
  simp only [blanks, List.mem_cons, List.not_mem_nil, or_false]
  omega

end Text

/-- The characters that end names and numbers, and that no symbol has after its first character. -/
inductive Stop : Char → Prop where
  | blank {d : Char} (h : Text.isBlank d) : Stop d
  | openBrace : Stop '{'

namespace Stop

variable {d : Char}

theorem lineFeed : Stop '\n' := .blank (by decide)

theorem all {p : Char → Bool} (h : Stop d) (brace : p '{')
    (blanks : Text.blanks.all fun n => p (Char.ofNat n)) : p d := by
  cases h with
  | blank isBlank =>
    have found := List.all_eq_true.mp blanks _ (Text.mem_blanks isBlank)
    rwa [Char.ofNat_toNat] at found
  | openBrace => exact brace

theorem fails {p : Char → Bool} (h : Stop d) (brace : (!p '{') = true)
    (blanks : (Text.blanks.all fun n => !p (Char.ofNat n)) = true) : p d = false :=
  Bool.not_eq_true' _ ▸ h.all (p := fun d => !p d) brace blanks

theorem ne (h : Stop d) {c : Char} (brace : (c != '{') = true)
    (visible : Text.isBlank c = false) : d ≠ c := by
  rintro rfl
  cases h with
  | blank isBlank =>
    rw [isBlank] at visible
    cases visible
  | openBrace => simp at brace

theorem ne_hyphen (h : Stop d) : d ≠ '-' := h.ne (by decide) (by decide)

theorem ne_mark (h : Stop d) : d ≠ '.' ∧ d ≠ '#' :=
  ⟨h.ne (by decide) (by decide), h.ne (by decide) (by decide)⟩

theorem ne_openBracket (h : Stop d) : d ≠ '[' := h.ne (by decide) (by decide)

theorem ne_quote (h : Stop d) : d ≠ '"' ∧ d ≠ '\'' :=
  ⟨h.ne (by decide) (by decide), h.ne (by decide) (by decide)⟩

theorem not_isPart (h : Stop d) : Word.isPart d = false :=
  h.fails (by decide) (by decide +kernel)

theorem not_isStart (h : Stop d) : Word.isStart d = false := by
  have part := h.not_isPart
  simp only [Word.isPart, Bool.or_eq_false_iff] at part
  simp only [Word.isStart, part, Bool.or_false]

theorem not_isAlphabetic (h : Stop d) : Text.isAlphabetic d = false := by
  have start := h.not_isStart
  simp only [Word.isStart, Bool.or_eq_false_iff] at start
  exact start.1.1

theorem not_isSelectorStart (h : Stop d) : Word.isSelectorStart d = false := by
  have start := h.not_isStart
  simp only [Word.isStart, Bool.or_eq_false_iff] at start
  simp [Word.isSelectorStart, start, h.ne_hyphen]

theorem not_isDigit (h : Stop d) : d.isDigit = false :=
  h.fails (by decide) (by decide)

theorem not_isRadixDigit (h : Stop d) (radix : Nat) : Numeral.isDigit radix d = false := by
  have none : Numeral.digitValue? d = Option.none := by
    simpa using h.fails (p := fun d => (Numeral.digitValue? d).isSome) (by decide) (by decide)
  rw [Numeral.isDigit, none]
  rfl

end Stop

section

variable {d : Char} {p : Char → Bool}

theorem takeWhile_stop (h : p d = false) (x r : List Char) :
    (x ++ d :: r).takeWhile p = x.takeWhile p := by
  rw [List.takeWhile_append]
  split
  · next whole =>
    rw [List.takeWhile_cons_of_neg (by simp [h]), List.append_nil]
    exact ((List.takeWhile_prefix p).eq_of_length whole).symm
  · rfl

theorem takeWhile_ends_or (p : Char → Bool) (d : Char) (x : List Char) :
    (∃ y z, x = y ++ z ∧ ∀ r, (x ++ d :: r).takeWhile p = y) ∨
      p d ∧ ∀ r, x.length < ((x ++ d :: r).takeWhile p).length := by
  cases stops : p d with
  | false =>
    exact .inl ⟨_, _, (List.takeWhile_append_dropWhile (p := p)).symm, takeWhile_stop stops x⟩
  | true =>
    by_cases whole : (x.takeWhile p).length = x.length
    · refine .inr ⟨rfl, fun r => ?_⟩
      rw [List.takeWhile_append, if_pos whole, List.takeWhile_cons_of_pos stops]
      simp
    · refine .inl ⟨_, _, (List.takeWhile_append_dropWhile (p := p)).symm, fun r => ?_⟩
      rw [List.takeWhile_append, if_neg whole]

theorem dropWhile_stop (h : p d = false) (x r : List Char) :
    (x ++ d :: r).dropWhile p = x.dropWhile p ++ d :: r := by
  rw [List.dropWhile_append]
  split
  · next whole =>
    rw [List.dropWhile_cons_of_neg (by simp [h]), List.isEmpty_iff.mp whole, List.nil_append]
  · rfl

theorem head?_any_stop (h : p d = false) (x r : List Char) :
    (x ++ d :: r).head?.any p = x.head?.any p := by
  cases x with
  | nil => simpa using h
  | cons => rfl

end

theorem eq_of_prefix_of_long {d : Char} {own x : List Char} (h : own <+: x ++ [d])
    (long : x.length < own.length) : own = x ++ [d] := by
  refine h.eq_of_length (Nat.le_antisymm h.length_le ?_)
  rw [List.length_append, List.length_singleton]
  exact long

def EndsBefore (d : Char) (f : List Char → List Char) : Prop :=
  ∀ x, ∃ y z, x = y ++ z ∧ f x = y ∧ ∀ r, f (x ++ d :: r) = y

theorem endsBefore_takeWhile {d : Char} {p : Char → Bool} (h : p d = false) :
    EndsBefore d (List.takeWhile p) := fun x =>
  ⟨x.takeWhile p, x.dropWhile p, List.takeWhile_append_dropWhile.symm, rfl, takeWhile_stop h x⟩

theorem drop_stop {x y z : List Char} (h : x = y ++ z) (d : Char) (r : List Char) :
    (x ++ d :: r).drop y.length = z ++ d :: r := by
  rw [h, List.append_assoc, List.drop_left]

/-- The values of the tokens that take in all that is left for want of their end. -/
def unterminated : List TokenValue := [
  .text "Unterminated string literal", .text "Unterminated template literal",
  .text "Unterminated block comment"]

/-- A single token that may take in all that is left: a literal or a comment without its end, or a
    selector, which may have an open bracket. -/
inductive Unfinished (ctx : Context) : List Piece → Prop where
  | literal {value : TokenValue} {text : List Char} (h : value ∈ unterminated) :
      Unfinished ctx [.lexeme .invalid value text]
  | selector {text : List Char} (h : ctx.inMarkup) : Unfinished ctx [.word .selector text]

/-- The pieces `f` that a scan finds, of which `n` characters stand before a stop `d`, given what
    follows. Either they end before it and depend on nothing beyond, or they go past it. -/
inductive Reach (ctx : Context) (d : Char) (n : Nat) (f : List Char → List Piece) : Prop where
  | within {ps : List Piece} (short : (Lexer.textOf ps).length ≤ n) (same : ∀ r, f r = ps)
  | beyond (long : ∀ r, n < (Lexer.textOf (f r)).length)
      (atLineFeed : d = '\n' → Unfinished ctx (f []))

namespace Reach

variable {ctx : Context} {d : Char} {n : Nat} {f g : List Char → List Piece}

theorem ite {p : Prop} [Decidable p] (hf : p → Reach ctx d n f) (hg : ¬p → Reach ctx d n g) :
    Reach ctx d n fun r => if p then f r else g r := by
  split
  · next h => exact hf h
  · next h => exact hg h

theorem of_same
    (same : ∀ r r', (Lexer.textOf (f r)).length ≤ n → f r' = f r)
    (atLineFeed : d = '\n' → n < (Lexer.textOf (f [])).length → Unfinished ctx (f [])) :
    Reach ctx d n f := by
  by_cases short : ∃ r, (Lexer.textOf (f r)).length ≤ n
  · obtain ⟨r, short⟩ := short
    exact .within short fun r' => same r r' short
  · have long (r : List Char) : n < (Lexer.textOf (f r)).length :=
      Nat.lt_of_not_le fun le => short ⟨r, le⟩
    exact .beyond long fun lineFeed => atLineFeed lineFeed (long [])

end Reach

/-- What `read` finds after the opening of a literal or a comment is a text up to its end, which
    alone decides it, and which does not end a line. -/
structure Delimited {α : Type} (read : List Char → Option α) (own : α → List Char) : Prop where
  starts : ∀ {cs a}, read cs = some a → own a <+: cs
  again : ∀ {cs a}, read cs = some a → ∀ z, read (own a ++ z) = some a
  last : ∀ {cs a}, read cs = some a → (own a).getLast? ≠ some '\n'

theorem Delimited.append {α : Type} {read : List Char → Option α} {own : α → List Char}
    (h : Delimited read own) {x rest : List Char} {a : α} (found : read (x ++ rest) = some a)
    (short : (own a).length ≤ x.length) (other : List Char) : read (x ++ other) = some a := by
  obtain ⟨z, rfl⟩ := List.prefix_of_prefix_length_le (h.starts found) (List.prefix_append x _) short
  rw [List.append_assoc]
  exact h.again found (z ++ other)

theorem Reach.delimited {ctx : Context} {d : Char} {f : List Char → List Piece} {α : Type}
    {read : List Char → Option α} {own : α → List Char} (h : Delimited read own)
    (opening x : List Char) (piece : α → Piece) (message : String)
    (known : .text message ∈ unterminated) (text : ∀ a, (piece a).text = opening ++ own a)
    (some : ∀ {r a}, read (x ++ d :: r) = some a → f r = [piece a])
    (none : ∀ {r}, read (x ++ d :: r) = none → f r = [.invalid message (opening ++ (x ++ d :: r))]) :
    Reach ctx d (opening.length + x.length) f := by
  have length {r : List Char} {a : α} (found : read (x ++ d :: r) = .some a) :
      (Lexer.textOf (f r)).length = opening.length + (own a).length := by
    rw [some found, Lexer.textOf_cons, Lexer.textOf_nil, List.append_nil, text, List.length_append]
  refine .of_same (fun r r' short => ?_) fun lineFeed long => ?_
  · cases found : read (x ++ d :: r) with
    | none =>
      rw [none found, Lexer.textOf_cons, Lexer.textOf_nil, List.append_nil, Piece.invalid,
        Piece.text, List.length_append, List.length_append, List.length_cons] at short
      omega
    | some a =>
      rw [length found] at short
      rw [some (h.append found (Nat.le_of_add_le_add_left short) _), some found]
  · cases found : read (x ++ [d]) with
    | none =>
      rw [none found]
      exact .literal known
    | some a =>
      rw [length found] at long
      have whole := eq_of_prefix_of_long (h.starts found) (Nat.lt_of_add_lt_add_left long)
      refine absurd ?_ (h.last found)
      rw [whole, List.getLast?_concat, lineFeed]

end PulseSyntax
