import PulseSyntax.Proofs.Token.Reach.Scan

namespace PulseSyntax

/-- White space comes first, or nothing does. -/
def Quiet (rest : List Char) : Prop := ∀ d ∈ rest.head?, Text.isBlank d

theorem quiet_nil : Quiet [] := nofun

theorem Quiet.stop {d : Char} {r : List Char} (h : Quiet (d :: r)) : Stop d := .blank (h d rfl)

section

variable {p : Char → Bool} {rest : List Char}

theorem Quiet.takeWhile (h : Quiet rest) (stops : ∀ {d}, Stop d → p d = false) (x : List Char) :
    (x ++ rest).takeWhile p = x.takeWhile p := by
  cases rest with
  | nil => rw [List.append_nil]
  | cons d r => exact takeWhile_stop (stops h.stop) x r

theorem Quiet.dropWhile (h : Quiet rest) (stops : ∀ {d}, Stop d → p d = false) (x : List Char) :
    (x ++ rest).dropWhile p = x.dropWhile p ++ rest := by
  cases rest with
  | nil => rw [List.append_nil, List.append_nil]
  | cons d r => exact dropWhile_stop (stops h.stop) x r

theorem Quiet.head?_any (h : Quiet rest) (stops : ∀ {d}, Stop d → p d = false) (x : List Char) :
    (x ++ rest).head?.any p = x.head?.any p := by
  cases rest with
  | nil => rw [List.append_nil]
  | cons d r => exact head?_any_stop (stops h.stop) x r

end

theorem exists_of_takeWhile {p : Char → Bool} {x rest : List Char}
    (short : ((x ++ rest).takeWhile p).length < x.length) :
    ∃ y e z, x = y ++ e :: z ∧ (∀ r, (y ++ e :: z ++ r).takeWhile p = y) ∧
      ∀ r, (y ++ e :: z ++ r).dropWhile p = e :: z ++ r := by
  have parts := List.takeWhile_append_dropWhile (p := p) (l := x)
  have run : ∀ c ∈ x.takeWhile p, p c := fun c member => List.mem_takeWhile_imp member
  cases after : x.dropWhile p with
  | nil =>
    rw [after, List.append_nil] at parts
    rw [← parts, List.takeWhile_append_of_pos run, List.length_append] at short
    exact absurd short (Nat.not_lt.mpr (Nat.le_add_right ..))
  | cons e z =>
    have ends : p e = false := by
      have last := List.head?_dropWhile_not p x
      rwa [after] at last
    rw [after] at parts
    refine ⟨x.takeWhile p, e, z, parts.symm, fun r => ?_, fun r => ?_⟩
    · rw [List.append_assoc, List.takeWhile_append_of_pos run, List.cons_append,
        List.takeWhile_cons_of_neg (by simp [ends]), List.append_nil]
    · rw [List.append_assoc, List.dropWhile_append_of_pos run, List.cons_append,
        List.dropWhile_cons_of_neg (by simp [ends])]

namespace Lexer

/-- The same pieces, or one name in markup that is all of a text of `n` characters. -/
inductive Like (ctx : Context) (n : Nat) : List Piece → List Piece → Prop where
  | same (ps : List Piece) : Like ctx n ps ps
  | name {word : List Char} {kind kind' : TokenKind} (markup : ctx.inMarkup) (whole : word.length = n)
      (head : kind.isHead) (head' : kind'.isHead) : Like ctx n [.word kind word] [.word kind' word]

/-- The pieces `f` that a scan finds, of which `n` characters stand before what follows. Those that
    end before it are the same before any white space, but for an argument of `url` that goes up to
    it. -/
def Settled (ctx : Context) (n : Nat) (f : List Char → List Piece) : Prop :=
  ∀ ⦃rest rest'⦄, Quiet rest → Quiet rest' → (textOf (f rest)).length ≤ n →
    (rest = [] → (textOf (f rest)).length = n → ¬Unfinished ctx (f rest)) →
    (ctx.inStyle → (∃ piece, f rest = [piece]) ∨ (textOf (f rest)).length < n) →
    Like ctx n (f rest) (f rest')

section

variable {ctx : Context} {n : Nat} {f g : List Char → List Piece} {x : List Char}

theorem Settled.ite {p : Prop} [Decidable p] (hf : p → Settled ctx n f)
    (hg : ¬p → Settled ctx n g) : Settled ctx n fun rest => if p then f rest else g rest := by
  split
  · next h => exact hf h
  · next h => exact hg h

theorem settled_of_same {ps : List Piece} (same : ∀ {rest}, Quiet rest → f rest = ps) :
    Settled ctx n f := by
  intro rest rest' quiet quiet' _ _ _
  rw [same quiet, same quiet']
  exact .same ps

theorem settled_of_stop {f : List Char → List Piece}
    (same : ∀ {d}, Stop d → ∀ r, f (x ++ d :: r) = f x) : Settled ctx n fun rest => f (x ++ rest) := by
  have alike {rest : List Char} (quiet : Quiet rest) : f (x ++ rest) = f x := by
    cases rest with
    | nil => rw [List.append_nil]
    | cons d r => exact same quiet.stop r
  exact settled_of_same alike

theorem settled_delimited {α : Type} {read : List Char → Option α} {own : α → List Char}
    (h : Delimited read own) (opening x : List Char) (piece : α → Piece) (message : String)
    (known : .text message ∈ unterminated) (text : ∀ a, (piece a).text = opening ++ own a)
    (some : ∀ {rest a}, read (x ++ rest) = some a → f rest = [piece a])
    (none : ∀ {rest}, read (x ++ rest) = none → f rest = [.invalid message (opening ++ (x ++ rest))]) :
    Settled ctx (opening.length + x.length) f := by
  intro rest rest' _ _ short finished _
  cases found : read (x ++ rest) with
  | some a =>
    rw [some found, textOf_cons, textOf_nil, List.append_nil, text, List.length_append] at short
    rw [some found, some (h.append found (Nat.le_of_add_le_add_left short) rest')]
    exact .same _
  | none =>
    rw [none found, textOf_cons, textOf_nil, List.append_nil, Piece.invalid, Piece.text,
      List.length_append, List.length_append] at short
    have ends : rest = [] := List.length_eq_zero_iff.mp (by omega)
    refine absurd ?_ (finished ends ?_)
    · rw [none found]
      exact .literal known
    · rw [none found, ends]
      simp [Piece.invalid, Piece.text]

end

end Lexer

namespace Word

open Lexer

variable {ctx : Context} {rest rest' : List Char}

theorem selectorTail_quiet (quiet : Quiet rest) : selectorTail .name rest = [] := by
  cases rest with
  | nil => rfl
  | cons d r =>
    have stop := quiet.stop
    simp [selectorTail, stop.not_isPart, stop.ne_hyphen, stop.ne_mark, stop.ne_openBracket]

theorem selectorTail_settled (quiet : Quiet rest) (quiet' : Quiet rest') {state : SelectorState}
    {x : List Char} (more : rest ≠ [] ∨ (selectorTail state (x ++ rest)).length < x.length)
    (short : (selectorTail state (x ++ rest)).length ≤ x.length) :
    selectorTail state (x ++ rest') = selectorTail state (x ++ rest) := by
  induction x generalizing state with
  | nil =>
    cases state with
    | name => rw [List.nil_append, List.nil_append, selectorTail_quiet quiet, selectorTail_quiet quiet']
    | bracket =>
      obtain ⟨d, r, rfl⟩ := List.exists_cons_of_ne_nil (more.resolve_right (Nat.not_lt_zero _))
      simp [selectorTail] at short
  | cons c x ih =>
    have next {state : SelectorState}
        (more : rest ≠ [] ∨ (c :: selectorTail state (x ++ rest)).length < (c :: x).length)
        (short : (c :: selectorTail state (x ++ rest)).length ≤ (c :: x).length) :
        c :: selectorTail state (x ++ rest') = c :: selectorTail state (x ++ rest) := by
      rw [ih (more.imp_right Nat.lt_of_succ_lt_succ) (Nat.le_of_succ_le_succ short)]
    cases state with
    | bracket quote => exact next more short
    | name =>
      have start := quiet.head?_any Stop.not_isSelectorStart x
      have start' := quiet'.head?_any Stop.not_isSelectorStart x
      simp only [List.cons_append, selectorTail, start, start'] at more short ⊢
      by_cases part : isPart c || c == '-'
      · simp only [part, ↓reduceIte] at more short ⊢
        exact next more short
      · simp only [part, ↓reduceIte, Bool.false_eq_true] at more short ⊢
        by_cases mark : (c == '.' || c == '#') && x.head?.any isSelectorStart
        · simp only [mark, ↓reduceIte] at more short ⊢
          exact next more short
        · simp only [mark, ↓reduceIte, Bool.false_eq_true] at more short ⊢
          by_cases bracket : c == '['
          · simp only [bracket, ↓reduceIte] at more short ⊢
            exact next more short
          · simp only [bracket, ↓reduceIte, Bool.false_eq_true]

theorem settled_selector (markup : ctx.inMarkup) (start x : List Char) :
    Settled ctx (start.length + x.length) fun rest => selector start (x ++ rest) := by
  intro rest rest' quiet quiet' short finished _
  simp only [selector, textOf, Piece.text, Piece.word, List.flatMap_cons, List.flatMap_nil,
    List.append_nil, List.length_append, Nat.add_le_add_iff_left, Nat.add_left_cancel_iff]
    at short finished ⊢
  have more : rest ≠ [] ∨ (selectorTail .name (x ++ rest)).length < x.length := by
    by_cases ends : rest = []
    · exact .inr (Nat.lt_of_le_of_ne short fun all => finished ends all (.selector markup))
    · exact .inl ends
  rw [selectorTail_settled quiet quiet' more short]
  exact .same _

theorem continuesSelector_quiet (quiet : Quiet rest) (c : Char) (x : List Char) :
    continuesSelector (c :: x ++ rest) = continuesSelector (c :: x) := by
  simp only [List.cons_append, continuesSelector, quiet.head?_any Stop.not_isSelectorStart x,
    quiet.head?_any Stop.not_isAlphabetic x]

theorem urlArgument_ne_nil (cs : List Char) : urlArgument cs ≠ [] := by
  dsimp only [urlArgument]
  split
  · exact List.cons_ne_nil _ _
  · split
    · exact List.cons_ne_nil _ _
    · split <;> exact List.cons_ne_nil _ _

theorem settled_urlArgument (style : ctx.inStyle) (word x : List Char) :
    Settled ctx (word.length + 1 + x.length) fun rest =>
      .word .identifier word :: urlArgument ('(' :: (x ++ rest)) := by
  intro rest rest' _ _ _ _ inside
  have inside := (inside style).resolve_left fun ⟨_, single⟩ =>
    urlArgument_ne_nil _ (List.cons.inj single).2
  simp only [urlArgument, List.drop_succ_cons, List.drop_zero, textOf_cons, Piece.text, Piece.word,
    List.length_append, Nat.add_assoc, Nat.add_lt_add_iff_left] at inside ⊢
  have lead := textOf_opening ((x ++ rest).takeWhile isInlineSpace)
  have spaces : ((x ++ rest).takeWhile isInlineSpace).length < x.length := by
    split at inside
    · rw [lead, List.length_cons] at inside
      omega
    · rw [textOf_argument, lead, List.length_append, List.length_cons] at inside
      omega
  obtain ⟨space, e, z, rfl, takes, leaves⟩ := exists_of_takeWhile spaces
  rw [takes] at lead
  simp only [takes, leaves] at inside ⊢
  generalize (.symbol .openParen :: if space.isEmpty then [] else [.trivia space] : List Piece) =
    opening at lead inside ⊢
  by_cases quoted : e = '"' ∨ e = '\''
  · simp [quoted, Like.same]
  · simp only [List.cons_append, List.head?_cons, Option.any_some, Bool.or_eq_true, beq_iff_eq,
      quoted, if_false] at inside ⊢
    have raw : ((e :: z ++ rest).takeWhile fun c => c != ')' && c != '\n').length < (e :: z).length := by
      rw [textOf_argument, lead, List.length_append, List.length_append, List.length_cons] at inside
      rw [List.cons_append]
      omega
    have same := Quoted.takeWhile_own raw rest'
    rw [List.cons_append, List.cons_append] at same
    rw [same]
    exact .same _

theorem settled_scan (ctx : Context) (c : Char) (x : List Char) :
    Settled ctx (x.length + 1) fun rest => scan ctx c (x ++ rest) := by
  intro rest rest' quiet quiet' short finished inside
  have stops : ∀ {d}, Stop d → (fun e => isPart e || (ctx.inStyle && e == '-')) d = false :=
    fun hd => by simp [hd.not_isPart, hd.ne_hyphen]
  have whole := List.takeWhile_append_dropWhile
    (p := fun e => isPart e || (ctx.inStyle && e == '-')) (l := x)
  simp only [scan, quiet.takeWhile stops, quiet'.takeWhile stops, quiet.dropWhile stops,
    quiet'.dropWhile stops] at short finished inside ⊢
  generalize x.takeWhile _ = word at *
  generalize x.dropWhile _ = after at *
  subst whole
  cases after with
  | nil =>
    have noArgument {rest : List Char} (quiet : Quiet rest) : rest.head? ≠ some '(' := fun paren =>
      absurd (quiet '(' paren) (by decide)
    simp only [List.nil_append, beq_eq_false_iff_ne.mpr (noArgument quiet),
      beq_eq_false_iff_ne.mpr (noArgument quiet'), Bool.and_false, Bool.false_eq_true, if_false]
    split
    · exact .same _
    · split
      · exact .same _
      · have name (rest : List Char) (quiet : Quiet rest) :
            ∃ kind : TokenKind, kind.isHead ∧ (ctx.inMarkup = false → kind = .identifier) ∧
              (if ctx.inMarkup && continuesSelector rest then selector (c :: word) rest
                else [.word .identifier (c :: word)]) = [.word kind (c :: word)] := by
          split
          · next markup =>
            rw [Bool.and_eq_true] at markup
            rw [selector, selectorTail_quiet quiet, List.append_nil]
            exact ⟨.selector, rfl, fun no => by simp [no] at markup, rfl⟩
          · exact ⟨.identifier, rfl, fun _ => rfl, rfl⟩
        obtain ⟨kind, head, plain, first⟩ := name rest quiet
        obtain ⟨kind', head', plain', second⟩ := name rest' quiet'
        rw [first, second]
        cases markup : ctx.inMarkup with
        | true => exact .name markup (by simp) head head'
        | false =>
          rw [plain markup, plain' markup]
          exact .same _
  | cons e z =>
    have argument {rest : List Char} : (e :: z ++ rest).head? = some e := rfl
    simp only [argument, continuesSelector_quiet quiet, continuesSelector_quiet quiet'] at *
    split
    · next url =>
      obtain rfl : e = '(' := by simpa using (Bool.and_eq_true_iff.mp url).2
      rw [if_pos url] at short finished inside
      have style := (Bool.and_eq_true_iff.mp (Bool.and_eq_true_iff.mp url).1).1
      have settled := settled_urlArgument style (c :: word) z
      have size : (word ++ '(' :: z).length + 1 = (c :: word).length + 1 + z.length := by
        simp only [List.length_append, List.length_cons]
        omega
      rw [size] at short finished inside ⊢
      exact settled quiet quiet' short finished inside
    · next noUrl =>
      rw [if_neg noUrl] at short finished inside
      split
      · exact .same _
      · next noName =>
        rw [if_neg noName] at short finished inside
        cases word' : Keyword.ofSpelling? (String.ofList (c :: word)) with
        | some k => exact .same _
        | none =>
          rw [word'] at short finished inside
          dsimp only at short finished inside ⊢
          split
          · next markup =>
            rw [if_pos markup] at short finished inside
            have size : (word ++ e :: z).length + 1 = (c :: word).length + (e :: z).length := by
              simp only [List.length_append, List.length_cons]
              omega
            rw [size] at short finished inside ⊢
            exact settled_selector (Bool.and_eq_true_iff.mp markup).1 (c :: word) (e :: z) quiet quiet'
              short finished inside
          · exact .same _

end Word

namespace Lexer

variable {ctx : Context}

theorem settled_hash (ctx : Context) (x : List Char) :
    Settled ctx (x.length + 1) fun rest => scanHash ctx (x ++ rest) := by
  have color {rest : List Char} (quiet : Quiet rest) :
      colorDigits? (x ++ rest) = colorDigits? x := by
    cases rest with
    | nil => rw [List.append_nil]
    | cons d r => exact colorDigits?_stop quiet.stop x r
  intro rest rest' quiet quiet' short finished inside
  simp only [scanHash, startsSelector, color quiet, color quiet',
    quiet.head?_any Stop.not_isSelectorStart, quiet'.head?_any Stop.not_isSelectorStart]
    at short finished inside ⊢
  split
  · exact .same _
  · next noColor =>
    rw [noColor] at short finished inside
    dsimp only at short finished inside
    split
    · next markup =>
      rw [if_pos markup] at short finished inside
      rw [Nat.add_comm x.length] at short finished inside ⊢
      exact Word.settled_selector (Bool.and_eq_true_iff.mp (Bool.and_eq_true_iff.mp markup).1).2 ['#'] x
        quiet quiet' short finished inside
    · exact .same _

theorem settled_dot (ctx : Context) (x : List Char) :
    Settled ctx (x.length + 1) fun rest => scanDot ctx (x ++ rest) := by
  have spread {rest : List Char} (quiet : Quiet rest) :
      Symbol.spread.startsText ('.' :: (x ++ rest)) = Symbol.spread.startsText ('.' :: x) := by
    cases rest with
    | nil => rw [List.append_nil]
    | cons d r => exact Symbol.startsText_stop quiet.stop _ _ x r
  intro rest rest' quiet quiet' short finished inside
  simp only [scanDot, startsSelector, spread quiet, spread quiet',
    quiet.head?_any Stop.not_isSelectorStart, quiet'.head?_any Stop.not_isSelectorStart]
    at short finished inside ⊢
  split
  · exact .same _
  · next noSpread =>
    rw [if_neg noSpread] at short finished inside
    split
    · next markup =>
      rw [if_pos markup] at short finished inside
      rw [Nat.add_comm x.length] at short finished inside ⊢
      exact Word.settled_selector (Bool.and_eq_true_iff.mp (Bool.and_eq_true_iff.mp markup).1).2 ['.'] x
        quiet quiet' short finished inside
    · exact .same _

theorem settled_token (ctx : Context) (c : Char) (x : List Char) :
    Settled ctx (x.length + 1) fun rest => scanToken ctx c (x ++ rest) := by
  have points {rest : List Char} (quiet : Quiet rest) :
      Numeral.startsHere c (x ++ rest) = Numeral.startsHere c x := by
    rw [Numeral.startsHere, quiet.head?_any Stop.not_isDigit, Numeral.startsHere]
  have hyphen {rest : List Char} (quiet : Quiet rest) :
      Word.startsAfterHyphen (x ++ rest) = Word.startsAfterHyphen x := by
    cases rest with
    | nil => rw [List.append_nil]
    | cons d r => exact startsAfterHyphen_stop quiet.stop x r
  let token (rest : List Char) : List Piece :=
    if Word.isStart c then Word.scan ctx c (x ++ rest)
    else if Numeral.startsHere c x then Numeral.scan c (x ++ rest)
    else if c == '"' || c == '\'' then Quoted.scanString c (x ++ rest)
    else if c == '`' then Quoted.scanTemplate (x ++ rest)
    else if c == '@' then Word.scanAt ctx (x ++ rest)
    else if c == '#' then scanHash ctx (x ++ rest)
    else if c == '.' then scanDot ctx (x ++ rest)
    else if c == '-' && ctx.inStyle && Word.startsAfterHyphen x then Word.scan ctx c (x ++ rest)
    else scanSymbol c (x ++ rest)
  have same {rest : List Char} (quiet : Quiet rest) : scanToken ctx c (x ++ rest) = token rest := by
    simp only [scanToken, token, points quiet, hyphen quiet]
  have settled : Settled ctx (x.length + 1) token := by
    refine .ite (fun _ => Word.settled_scan ctx c x) fun _ => ?_
    refine .ite (fun _ => settled_of_stop fun hd r => Numeral.scan_stop hd c x r) fun _ => ?_
    refine .ite (fun quote => ?_) fun _ => .ite (fun _ => ?_) fun _ => ?_
    · have visible : c ≠ '\n' := by
        rintro rfl
        cases quote
      rw [Nat.add_comm]
      refine settled_delimited (Quoted.delimited_string visible) [c] x
        (fun body => .lexeme .string (.text (String.ofList body.2)) (c :: body.1))
        "Unterminated string literal" (by decide) (fun _ => rfl) (fun found => ?_) fun found => ?_
      · simp only [Quoted.scanString, found]
      · simp only [Quoted.scanString, found, List.cons_append, List.nil_append]
    · rw [Nat.add_comm]
      refine settled_delimited Quoted.delimited_template ['`'] x
        (fun text => .lexeme .template (.text (String.ofList text)) ('`' :: text ++ ['`']))
        "Unterminated template literal" (by decide) (fun _ => rfl) (fun found => ?_) fun found => ?_
      · simp only [Quoted.scanTemplate, found]
      · simp only [Quoted.scanTemplate, found, List.cons_append, List.nil_append]
    · refine .ite (fun _ => settled_of_stop fun hd r => Word.scanAt_stop hd ctx x r) fun _ => ?_
      refine .ite (fun _ => settled_hash ctx x) fun _ => .ite (fun _ => settled_dot ctx x) fun _ => ?_
      refine .ite (fun _ => Word.settled_scan ctx c x) fun _ => settled_of_stop fun hd r => ?_
      simp only [scanSymbol, Symbol.longest?_stop hd]
  intro rest rest' quiet quiet'
  have run := settled quiet quiet'
  rwa [← same quiet, ← same quiet'] at run

theorem settled_comment (ctx : Context) (x : List Char) :
    Settled ctx (x.length + 2) fun rest => [scanComment (x ++ rest)] := by
  rw [Nat.add_comm]
  refine settled_delimited delimited_comment ['/', '*'] x (fun text => .trivia ('/' :: '*' :: text))
    "Unterminated block comment" (by decide) (fun _ => rfl) (fun found => ?_) fun found => ?_
  · simp only [scanComment, found]
  · simp only [scanComment, found, List.cons_append, List.nil_append]

/-- The text ends its line, or the file. -/
def EndsLine (rest : List Char) : Prop := ∀ d ∈ rest.head?, d = '\n'

/-- Except for white space, a scan that ends in a text finds the same before any other white space; a
    comment that runs to the end of its line does so if the line ends there. -/
theorem like_scan {ctx : Context} {c : Char} {x rest rest' : List Char}
    (visible : Text.isBlank c = false) (quiet : Quiet rest) (quiet' : Quiet rest')
    (short : (textOf (scan ctx c (x ++ rest))).length ≤ x.length + 1)
    (finished : rest = [] → (textOf (scan ctx c (x ++ rest))).length = x.length + 1 →
      ¬Unfinished ctx (scan ctx c (x ++ rest)))
    (inside : ctx.inStyle → (∃ piece, scan ctx c (x ++ rest) = [piece]) ∨
      (textOf (scan ctx c (x ++ rest))).length < x.length + 1)
    (line : EndsLine rest' ∨ ∀ text, scan ctx c (x ++ rest) = [.trivia text] →
      text.length < x.length + 1) :
    Like ctx (x.length + 1) (scan ctx c (x ++ rest)) (scan ctx c (x ++ rest')) := by
  have next {d : Char} (mark : d = '/' ∨ d = '*') {rest : List Char} (quiet : Quiet rest) :
      ((x ++ rest).head? == some d) = (x.head? == some d) := by
    cases x with
    | cons => rfl
    | nil =>
      refine (beq_eq_false_iff_ne.mpr fun found => ?_).trans rfl
      have blank := quiet d found
      rcases mark with rfl | rfl <;> exact absurd blank (by decide)
  simp only [scan, visible, next (.inl rfl) quiet, next (.inl rfl) quiet', next (.inr rfl) quiet,
    next (.inr rfl) quiet', Bool.false_eq_true, if_false] at short finished inside line ⊢
  split
  · next comment =>
    rw [if_pos comment] at short line
    rw [textOf_cons, textOf_nil, List.append_nil, Piece.text, List.length_cons] at short
    have same : (x ++ rest').takeWhile (· != '\n') = (x ++ rest).takeWhile (· != '\n') := by
      by_cases within : ((x ++ rest).takeWhile (· != '\n')).length < x.length
      · exact Quoted.takeWhile_own within rest'
      · -- No line ends in the text, so it ends with it.
        have ends : EndsLine rest' := line.resolve_right fun h => within (by simpa using h _ rfl)
        have run : ∀ d ∈ x, (d != '\n') = true := by
          have own : (x ++ rest).takeWhile (· != '\n') = x :=
            (List.prefix_of_prefix_length_le (List.takeWhile_prefix _) (List.prefix_append x rest)
              (by omega)).eq_of_length (by omega)
          intro d member
          rw [← own] at member
          exact List.mem_takeWhile_imp (p := (· != '\n')) member
        have stops {rest : List Char} (ends : EndsLine rest) : rest.takeWhile (· != '\n') = [] := by
          cases rest with
          | nil => rfl
          | cons d r => rw [List.takeWhile_cons_of_neg (by simp [ends d rfl])]
        rw [List.takeWhile_append_of_pos run, List.length_append] at short
        have none : rest.takeWhile (· != '\n') = [] := List.length_eq_zero_iff.mp (by omega)
        rw [List.takeWhile_append_of_pos run, stops ends, List.takeWhile_append_of_pos run, none]
    rw [same]
    exact .same _
  · next noComment =>
    rw [if_neg noComment] at short finished inside
    split
    · next block =>
      rw [if_pos block] at short finished inside
      obtain ⟨x, rfl⟩ : ∃ y, x = '*' :: y := by
        rw [Bool.and_eq_true, beq_iff_eq, beq_iff_eq] at block
        cases x with
        | nil => cases block.2
        | cons e x => exact ⟨x, by simpa using block.2⟩
      exact settled_comment ctx x quiet quiet' short finished inside
    · next noBlock =>
      rw [if_neg noBlock] at short finished inside
      exact settled_token ctx c x quiet quiet' short finished inside

end Lexer

end PulseSyntax
