import PulseSyntax.Proofs.Token.Reach.Basic
import PulseSyntax.Proofs.Token.Reach.Literal
import PulseSyntax.Proofs.Token.Scan

namespace PulseSyntax

section

namespace Word

variable {d : Char}

theorem selectorTail_stop (hd : Stop d) {state : SelectorState} {x r r' : List Char}
    (short : (selectorTail state (x ++ d :: r)).length ≤ x.length) :
    selectorTail state (x ++ d :: r') = selectorTail state (x ++ d :: r) := by
  have atStop (r : List Char) : selectorTail .name (d :: r) = [] := by
    simp [selectorTail, hd.not_isPart, hd.ne_hyphen, hd.ne_mark, hd.ne_openBracket]
  induction x generalizing state with
  | nil =>
    cases state with
    | bracket => simp [selectorTail] at short
    | name => rw [List.nil_append, List.nil_append, atStop, atStop]
  | cons c x ih =>
    have next {state : SelectorState}
        (short : (c :: selectorTail state (x ++ d :: r)).length ≤ (c :: x).length) :
        c :: selectorTail state (x ++ d :: r') = c :: selectorTail state (x ++ d :: r) := by
      rw [ih (Nat.le_of_succ_le_succ short)]
    cases state with
    | bracket quote => exact next short
    | name =>
      simp only [List.cons_append, selectorTail, head?_any_stop hd.not_isSelectorStart] at short ⊢
      split at short
      · next part => simpa only [part, ↓reduceIte] using next short
      · next notPart =>
        rw [if_neg notPart, if_neg notPart]
        split at short
        · next mark => simpa only [mark, ↓reduceIte] using next short
        · next noMark =>
          rw [if_neg noMark, if_neg noMark]
          split at short
          · next bracket => simpa only [bracket, ↓reduceIte] using next short
          · next other => rw [if_neg other, if_neg other]

theorem continuesSelector_stop (hd : Stop d) (x r : List Char) :
    continuesSelector (x ++ d :: r) = continuesSelector (x ++ [d]) := by
  cases x with
  | nil => simp [continuesSelector, hd.ne_mark, hd.ne_hyphen]
  | cons c x =>
    simp only [List.cons_append, continuesSelector, head?_any_stop hd.not_isSelectorStart,
      head?_any_stop hd.not_isAlphabetic]

theorem endsBefore_directiveTail (hd : Stop d) : EndsBefore d directiveTail := by
  intro x
  induction x with
  | nil =>
    refine ⟨[], [], rfl, rfl, fun r => ?_⟩
    simp [directiveTail, hd.not_isPart, hd.ne_hyphen]
  | cons c x ih =>
    obtain ⟨y, z, rfl, own, same⟩ := ih
    simp only [List.cons_append, directiveTail, head?_any_stop hd.not_isAlphabetic, own, same]
    split
    · exact ⟨c :: y, z, rfl, rfl, fun _ => rfl⟩
    · exact ⟨[], c :: (y ++ z), rfl, rfl, fun _ => rfl⟩

theorem endsBefore_modifierRun (hd : Stop d) : EndsBefore d modifierRun := by
  intro x
  induction x with
  | nil =>
    refine ⟨[], [], rfl, rfl, fun r => ?_⟩
    simp [modifierRun, hd.not_isPart, hd.ne_mark]
  | cons c x ih =>
    obtain ⟨y, z, rfl, own, same⟩ := ih
    simp only [List.cons_append, modifierRun, head?_any_stop hd.not_isStart, own, same]
    split
    · exact ⟨c :: y, z, rfl, rfl, fun _ => rfl⟩
    · exact ⟨[], c :: (y ++ z), rfl, rfl, fun _ => rfl⟩

theorem reach_selector (hd : Stop d) {ctx : Context} (markup : ctx.inMarkup)
    (start x : List Char) :
    Reach ctx d (start.length + x.length) fun r => selector start (x ++ d :: r) := by
  refine .of_same (fun r r' short => ?_) fun _ _ => .selector markup
  simp only [selector, Lexer.textOf, Piece.text, Piece.word, List.flatMap_cons, List.flatMap_nil,
    List.append_nil, List.length_append, Nat.add_le_add_iff_left] at short
  rw [selector, selector, selectorTail_stop hd short]

theorem textOf_opening (space : List Char) :
    Lexer.textOf (.symbol .openParen :: if space.isEmpty then [] else [.trivia space]) =
      '(' :: space := by
  cases space <;> simp [Symbol.spelling]

theorem textOf_argument (lead : List Piece) (raw : List Char) :
    Lexer.textOf
      (if raw.isEmpty then lead
        else if (Text.trimEnd raw).isEmpty then lead ++ [.trivia raw]
        else lead ++ [.lexeme .identifier (.text (String.ofList (Text.trimEnd raw))) raw]) =
      Lexer.textOf lead ++ raw := by
  split
  · next empty => rw [List.isEmpty_iff.mp empty, List.append_nil]
  · split <;> simp

theorem reach_urlArgument (hd : Stop d) (ctx : Context) (word x : List Char) :
    Reach ctx d (word.length + 1 + x.length) fun r =>
      .word .identifier word :: urlArgument ('(' :: (x ++ d :: r)) := by
  simp only [urlArgument, List.drop_succ_cons, List.drop_zero]
  rcases takeWhile_ends_or isInlineSpace d x with ⟨space, rest, whole, same⟩ | ⟨more, long⟩
  · have leaves (r : List Char) : (x ++ d :: r).dropWhile isInlineSpace = rest ++ d :: r := by
      have parts := List.takeWhile_append_dropWhile (p := isInlineSpace) (l := x ++ d :: r)
      rw [same] at parts
      rw [whole, List.append_assoc] at parts ⊢
      exact List.append_cancel_left parts
    have quotes : ∀ r : List Char, ((rest ++ d :: r).head?.any fun c => c == '"' || c == '\'') =
        rest.head?.any fun c => c == '"' || c == '\'' :=
      head?_any_stop (by simp [hd.ne_quote]) rest
    simp only [same, leaves, quotes]
    rw [whole, List.length_append]
    have lead := textOf_opening space
    generalize (.symbol .openParen :: if space.isEmpty then [] else [.trivia space] : List Piece) =
      opening at lead ⊢
    by_cases quoted : rest.head?.any fun c => c == '"' || c == '\''
    · simp only [quoted, ↓reduceIte]
      refine .within ?_ fun _ => rfl
      rw [Lexer.textOf_cons, lead]
      simp only [Piece.text, Piece.word, List.length_append, List.length_cons]
      omega
    · simp only [quoted, ↓reduceIte, Bool.false_eq_true]
      -- A brace belongs to the argument; the end of the line does not.
      rcases takeWhile_ends_or (fun c => c != ')' && c != '\n') d rest with
        ⟨raw, after, rfl, same⟩ | ⟨noLineFeed, long⟩
      · simp only [same]
        refine .within ?_ fun _ => rfl
        rw [Lexer.textOf_cons, textOf_argument, lead]
        simp only [Piece.text, Piece.word, List.length_append, List.length_cons]
        omega
      · refine .beyond (fun r => ?_) fun lineFeed => by simp [lineFeed] at noLineFeed
        have more := long r
        rw [Lexer.textOf_cons, textOf_argument, lead]
        simp only [Piece.text, Piece.word, List.length_append, List.length_cons]
        omega
  · refine .beyond (fun r => ?_) fun lineFeed => by simp [lineFeed, isInlineSpace] at more
    have long := long r
    have lead := textOf_opening ((x ++ d :: r).takeWhile isInlineSpace)
    generalize (.symbol .openParen :: if ((x ++ d :: r).takeWhile isInlineSpace).isEmpty then []
      else [.trivia ((x ++ d :: r).takeWhile isInlineSpace)] : List Piece) = opening at lead ⊢
    rw [Lexer.textOf_cons]
    split
    · rw [lead]
      simp only [Piece.text, Piece.word, List.length_append, List.length_cons]
      omega
    · rw [textOf_argument, lead]
      simp only [Piece.text, Piece.word, List.length_append, List.length_cons]
      omega

theorem reach_scan (hd : Stop d) (ctx : Context) (c : Char) (x : List Char) :
    Reach ctx d (x.length + 1) fun r => scan ctx c (x ++ d :: r) := by
  have tail : (fun e => isPart e || (ctx.inStyle && e == '-')) d = false := by
    simp [hd.not_isPart, hd.ne_hyphen]
  have takes := takeWhile_stop (p := fun e => isPart e || (ctx.inStyle && e == '-')) tail x
  have leaves := dropWhile_stop (p := fun e => isPart e || (ctx.inStyle && e == '-')) tail x
  have whole := List.takeWhile_append_dropWhile
    (p := fun e => isPart e || (ctx.inStyle && e == '-')) (l := x)
  simp only [scan, takes, leaves, continuesSelector_stop hd]
  generalize x.takeWhile _ = word at *
  generalize x.dropWhile _ = rest at *
  subst whole
  have ends {kind : TokenKind} {value : TokenValue} :
      Reach ctx d ((word ++ rest).length + 1) fun _ => [.lexeme kind value (c :: word)] :=
    .within (by simp) fun _ => rfl
  have opening (r : List Char) : (rest ++ d :: r).head? = rest.head?.or (some d) := by
    rw [List.head?_append, List.head?_cons]
  simp only [opening]
  refine .ite (fun url => ?_) fun _ => .ite (fun _ => ends) fun _ => ?_
  · obtain ⟨rest, rfl⟩ : ∃ y, rest = '(' :: y := by
      simp only [Bool.and_eq_true, beq_iff_eq] at url
      cases rest with
      | nil => simp [hd.ne (c := '(') (by decide) (by decide)] at url
      | cons e rest => exact ⟨rest, by simpa using url.2⟩
    have argument := reach_urlArgument hd ctx (c :: word) rest
    simp only [List.length_cons] at argument
    simpa [Nat.add_comm, Nat.add_left_comm, Nat.add_assoc] using argument
  · cases Keyword.ofSpelling? (String.ofList (c :: word)) with
    | some k => exact ends
    | none =>
      refine .ite (fun markup => ?_) fun _ => ends
      have select := reach_selector hd (Bool.and_eq_true_iff.mp markup).1 (c :: word) rest
      simpa [Nat.add_right_comm] using select

theorem scanAt_stop (hd : Stop d) (ctx : Context) (x r : List Char) :
    scanAt ctx (x ++ d :: r) = scanAt ctx x := by
  obtain ⟨name, rest, rfl, nameOwn, nameSame⟩ := endsBefore_directiveTail hd x
  obtain ⟨run, rest, rfl, runOwn, runSame⟩ := endsBefore_modifierRun hd rest
  simp only [scanAt, head?_any_stop hd.not_isStart, nameOwn, nameSame, drop_stop rfl, List.drop_left,
    runOwn, runSame]

theorem reach_at (hd : Stop d) (ctx : Context) (x : List Char) :
    Reach ctx d (x.length + 1) fun r => scanAt ctx (x ++ d :: r) := by
  simp only [scanAt, head?_any_stop hd.not_isStart]
  refine .ite (fun _ => ?_) fun _ => ?_
  · exact .within (by simp [Symbol.spelling]) fun _ => rfl
  · obtain ⟨name, rest, rfl, -, nameSame⟩ := endsBefore_directiveTail hd x
    obtain ⟨run, rest, rfl, -, runSame⟩ := endsBefore_modifierRun hd rest
    simp only [nameSame, drop_stop rfl, runSame]
    refine .within ?_ fun _ => rfl
    have text := (cut_modifiers run []).text_eq
    rw [List.append_nil, List.append_nil] at text
    rw [Lexer.textOf, List.flatMap_cons, List.flatMap_cons]
    split
    · simp [Symbol.spelling]
    · change (_ ++ (_ ++ Lexer.textOf (modifiers run))).length ≤ _
      rw [← text]
      simp [Symbol.spelling]

end Word

end

namespace Symbol

variable {d : Char}

theorem isPrefixOf_stop {text : List Char} (h : d ∉ text) (x r : List Char) :
    text.isPrefixOf (x ++ d :: r) = text.isPrefixOf x := by
  induction text generalizing x with
  | nil => rfl
  | cons c text ih =>
    rw [List.mem_cons, not_or] at h
    obtain ⟨other, rest⟩ := h
    cases x with
    | nil => simp [List.isPrefixOf, Ne.symm other]
    | cons e x => rw [List.cons_append, List.isPrefixOf, List.isPrefixOf, ih rest]

theorem stop_notMem_tail (hd : Stop d) (s : Symbol) : d ∉ s.spelling.toList.tail := by
  have visible : (s.spelling.toList.tail.all fun c => c != '{' && !Text.isBlank c) = true := by
    cases s <;> decide
  intro member
  have own := List.all_eq_true.mp visible d member
  rw [Bool.and_eq_true, Bool.not_eq_true'] at own
  exact hd.ne own.1 own.2 rfl

theorem startsText_stop (hd : Stop d) (s : Symbol) (c : Char) (x r : List Char) :
    s.startsText (c :: (x ++ d :: r)) = s.startsText (c :: x) := by
  have start : s.spelling.toList.isPrefixOf (c :: (x ++ d :: r)) =
      s.spelling.toList.isPrefixOf (c :: x) := by
    have tail := stop_notMem_tail hd s
    generalize s.spelling.toList = text at tail ⊢
    cases text with
    | nil => rfl
    | cons e text =>
      rw [List.tail_cons] at tail
      rw [List.isPrefixOf, List.isPrefixOf, isPrefixOf_stop tail]
  rw [startsText, startsText, start]
  -- Only after `?.` does one more character count.
  by_cases question : s = .questionDot
  · subst question
    cases x with
    | nil => simp [spelling, List.isPrefixOf]
    | cons e x =>
      rw [List.cons_append, List.drop_succ_cons, List.drop_succ_cons, List.drop_zero,
        head?_any_stop hd.not_isDigit]
      rfl
  · have other : (s == questionDot) = false := beq_eq_false_iff_ne.mpr question
    rw [other, Bool.false_and, Bool.false_and]

theorem longest?_stop (hd : Stop d) (c : Char) (x r : List Char) :
    longest? (c :: (x ++ d :: r)) = longest? (c :: x) := by
  simp only [longest?, startsText_stop hd]

end Symbol

namespace Lexer

variable {d : Char}

theorem commentBody?_own {cs text : List Char} (h : commentBody? cs = some text) (z : List Char) :
    commentBody? (text ++ z) = some text := by
  fun_induction commentBody? cs generalizing text with
  | case1 => cases h
  | case2 => cases h; rfl
  | case3 c cs notEnd ih =>
    obtain ⟨text, found, rfl⟩ := Option.map_eq_some_iff.mp h
    obtain ⟨body, after, rfl, rfl, -⟩ := commentBody?_first found
    -- The first two characters of the comment are those of the text, so it does not end here.
    have notEnd' (rest : List Char) (star : c = '*')
        (slash : body ++ ['*', '/'] ++ z = '/' :: rest) : False := by
      cases body with
      | nil => simp at slash
      | cons e body =>
        obtain rfl := (List.cons.inj slash).1
        exact notEnd _ star rfl
    rw [List.cons_append, commentBody?.eq_3 _ _ notEnd', ih found]
    rfl

theorem delimited_comment : Delimited commentBody? id where
  starts h := by
    obtain ⟨body, after, -, whole, -⟩ := commentBody?_first h
    exact ⟨after, whole.symm⟩
  again h := commentBody?_own h
  last h := by
    obtain ⟨body, after, rfl, -⟩ := commentBody?_first h
    rw [id, List.getLast?_append, List.getLast?_cons, Option.some_or]
    decide

theorem reach_comment (ctx : Context) (d : Char) (x : List Char) :
    Reach ctx d (x.length + 2) fun r => [scanComment (x ++ d :: r)] := by
  rw [Nat.add_comm]
  refine .delimited delimited_comment ['/', '*'] x (fun text => .trivia ('/' :: '*' :: text))
    "Unterminated block comment" (by decide) (fun _ => rfl) (fun found => ?_) fun found => ?_
  · simp only [scanComment, found]
  · simp only [scanComment, found, List.cons_append, List.nil_append]

theorem reach_symbol (hd : Stop d) (ctx : Context) (c : Char) (x : List Char) :
    Reach ctx d (x.length + 1) fun r => scanSymbol c (x ++ d :: r) := by
  simp only [scanSymbol, Symbol.longest?_stop hd]
  refine .within ?_ fun _ => rfl
  cases found : Symbol.longest? (c :: x) with
  | none => simp
  | some sign =>
    have starts := Symbol.startsText_of_longest? found
    simp only [Symbol.startsText, Bool.and_eq_true, List.isPrefixOf_iff_prefix] at starts
    simpa using starts.1.length_le

theorem colorDigits?_stop (hd : Stop d) (x r : List Char) :
    colorDigits? (x ++ d :: r) = colorDigits? x := by
  have digits := takeWhile_stop (hd.not_isRadixDigit 16) x r
  have next : (fun c => Word.isPart c || c == '-') d = false := by
    simp [hd.not_isPart, hd.ne_hyphen]
  have rest : (x ++ d :: r).drop (x.takeWhile (Numeral.isDigit 16)).length =
      x.drop (x.takeWhile (Numeral.isDigit 16)).length ++ d :: r :=
    List.drop_append_of_le_length (List.takeWhile_prefix _).length_le
  have after := head?_any_stop (p := fun c => Word.isPart c || c == '-') next
  simp only [colorDigits?, digits, rest, after]

theorem reach_hash (hd : Stop d) (ctx : Context) (x : List Char) :
    Reach ctx d (x.length + 1) fun r => scanHash ctx (x ++ d :: r) := by
  simp only [scanHash, colorDigits?_stop hd, startsSelector, head?_any_stop hd.not_isSelectorStart]
  cases color : if ctx.inStyle then colorDigits? x else none with
  | some digits =>
    refine .within ?_ fun _ => rfl
    split at color
    · have own := colorDigits?_starts color
      simpa using own.length_le
    · cases color
  | none =>
    refine .ite (fun markup => ?_) fun _ => ?_
    · have select := Word.reach_selector hd (Bool.and_eq_true_iff.mp markup).1 ['#'] x
      rwa [Nat.add_comm] at select
    · exact .within (by simp [Symbol.spelling]) fun _ => rfl

theorem reach_dot (hd : Stop d) (ctx : Context) (x : List Char) :
    Reach ctx d (x.length + 1) fun r => scanDot ctx (x ++ d :: r) := by
  simp only [scanDot, Symbol.startsText_stop hd, startsSelector,
    head?_any_stop hd.not_isSelectorStart]
  refine .ite (fun spread => .within ?_ fun _ => rfl) fun _ => .ite (fun markup => ?_) fun _ => ?_
  · simp only [Symbol.startsText, Bool.and_eq_true, List.isPrefixOf_iff_prefix] at spread
    simpa using spread.1.length_le
  · have select := Word.reach_selector hd (Bool.and_eq_true_iff.mp markup).1 ['.'] x
    rwa [Nat.add_comm] at select
  · exact .within (by simp [Symbol.spelling]) fun _ => rfl

theorem startsAfterHyphen_stop (hd : Stop d) (x r : List Char) :
    Word.startsAfterHyphen (x ++ d :: r) = Word.startsAfterHyphen x := by
  have next : (fun c => Word.isStart c || c == '-') d = false := by
    simp [hd.not_isStart, hd.ne_hyphen]
  fun_cases Word.startsAfterHyphen x with
  | case1 x => exact head?_any_stop next x r
  | case2 c x hyphen => exact Word.startsAfterHyphen.eq_2 _ _ hyphen
  | case3 =>
    rw [List.nil_append, Word.startsAfterHyphen.eq_2 _ _ hd.ne_hyphen, hd.not_isStart]

theorem reach_token (hd : Stop d) (ctx : Context) (c : Char) (x : List Char) :
    Reach ctx d (x.length + 1) fun r => scanToken ctx c (x ++ d :: r) := by
  have points (r : List Char) : Numeral.startsHere c (x ++ d :: r) = Numeral.startsHere c x := by
    rw [Numeral.startsHere, head?_any_stop hd.not_isDigit, Numeral.startsHere]
  simp only [scanToken, points, startsAfterHyphen_stop hd]
  refine .ite (fun _ => Word.reach_scan hd ctx c x) fun _ => ?_
  refine .ite (fun _ => Numeral.reach_scan hd ctx c x) fun _ => ?_
  refine .ite (fun quote => Quoted.reach_string ctx d ?_ x) fun _ => ?_
  · rintro rfl
    cases quote
  refine .ite (fun _ => Quoted.reach_template ctx d x) fun _ => ?_
  refine .ite (fun _ => Word.reach_at hd ctx x) fun _ => ?_
  refine .ite (fun _ => reach_hash hd ctx x) fun _ => ?_
  refine .ite (fun _ => reach_dot hd ctx x) fun _ => ?_
  exact .ite (fun _ => Word.reach_scan hd ctx c x) fun _ => reach_symbol hd ctx c x

theorem reach_scan (hd : Stop d) (ctx : Context) {c : Char} (text : Text.isBlank c → d ≠ '\n')
    (x : List Char) : Reach ctx d (x.length + 1) fun r => scan ctx c (x ++ d :: r) := by
  have next (r : List Char) : (x ++ d :: r).head? = x.head?.or (some d) := by
    rw [List.head?_append, List.head?_cons]
  simp only [scan, next]
  refine .ite (fun blank => ?_) fun _ => .ite (fun line => ?_) fun _ => .ite (fun block => ?_)
    fun _ => reach_token hd ctx c x
  · rcases takeWhile_ends_or Text.isBlank d x with ⟨run, rest, rfl, same⟩ | ⟨more, long⟩
    · simp only [same]
      exact .within (by simp) fun _ => rfl
    · refine .beyond (fun r => ?_) fun lineFeed => absurd lineFeed (text blank)
      simpa using long r
  · rcases takeWhile_ends_or (· != '\n') d x with ⟨run, rest, rfl, same⟩ | ⟨more, long⟩
    · simp only [same]
      exact .within (by simp) fun _ => rfl
    · refine .beyond (fun r => ?_) fun lineFeed => by simp [lineFeed] at more
      simpa using long r
  · obtain ⟨x, rfl⟩ : ∃ y, x = '*' :: y := by
      simp only [Bool.and_eq_true, beq_iff_eq] at block
      cases x with
      | nil => simp [hd.ne (c := '*') (by decide) (by decide)] at block
      | cons e x => exact ⟨x, by simpa using block.2⟩
    exact reach_comment ctx d x

end Lexer

end PulseSyntax
