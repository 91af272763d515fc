import PulseSyntax.Proofs.Program.Repeats
import PulseSyntax.Proofs.Token.Append

namespace PulseSyntax

open PulseSyntax.Parser

/-- A text that alone is a file with one declaration, and in which the brackets nest well. -/
structure Component.Single (options : Options) where
  text : String
  declaration : Declaration
  parses : ∃ c, Component.parse text options = .ok c ∧
    c.program.toDeclarations.toList = [declaration]
  nested : WellNested (tokenize text).dropLast

namespace Component.Single

variable {options : Options} (x : Single options)

def scope : Scope := ⟨.ofList (tokenize x.text), options, none⟩

def length : Nat := (tokenize x.text).dropLast.length

theorem toList_scope : x.scope.stream.toList = tokenize x.text :=
  TokenStream.toList_ofList_tokenize x.text

theorem size_scope : x.scope.stream.size = x.length + 1 := by
  have some : 0 < x.scope.stream.size := x.scope.stream.nonempty
  have size : x.scope.stream.size = (tokenize x.text).length := TokenStream.size_ofList_tokenize x.text
  rw [length, List.length_dropLast]
  omega

theorem exists_run : ∃ program t, Program.parser x.scope .initial = .ok program t ∧
    program.toDeclarations.toList = [x.declaration] ∧ t.cursor = x.length := by
  obtain ⟨c, parsed, only⟩ := x.parses
  obtain ⟨-, t, read⟩ := Component.parse_ok parsed
  have run : Program.parser x.scope .initial = .ok c.program t := read
  obtain ⟨reached, atEnd⟩ := Program.reached (rfl : x.scope.quotation = none) run
  have inside := reached.inside rfl
  have beyond : x.scope.stream.size ≤ t.cursor + 1 := TokenStream.size_le_of_endOfFile atEnd
  have size := x.size_scope
  exact ⟨c.program, t, run, only, by omega⟩

theorem declared : Declared x.scope .initial [x.declaration] ⟨x.length, 0⟩ := by
  obtain ⟨program, t, run, only, cursor⟩ := x.exists_run
  obtain ⟨-, es, declared, distinct, filled⟩ := Declared.of_program run
  obtain rfl := Declarations.eq_singleton_of_toList distinct (filled ▸ only)
  have depth : t.depth = 0 := declared.reaches.depth
  cases t
  subst cursor depth
  exact declared

theorem length_pos : 0 < x.length := by
  cases x.declared with
  | semicolon kind more => exact Nat.lt_of_lt_of_le Nat.one_pos more.le
  | declaration here read more =>
    exact Nat.lt_of_lt_of_le (Declared.reaches_of_bare here read).2 more.le

theorem start : (x.scope.stream.get 0).kind.StartsFile := x.declared.start (List.cons_ne_nil _ _)

theorem between_scope : x.scope.stream.between 0 x.length = (tokenize x.text).dropLast := by
  rw [TokenStream.between_eq, List.drop_zero, Nat.sub_zero, toList_scope, length, List.length_dropLast,
    ← List.dropLast_eq_take]

theorem get_eq {i : Nat} (lt : i < x.length) :
    (tokenize x.text).dropLast[i]? = some (x.scope.stream.get i) := by
  rw [length] at lt
  rw [TokenStream.get_eq, toList_scope, List.getElem?_eq_getElem lt, List.getElem_dropLast,
    List.getElem?_eq_getElem, Option.getD_some]

theorem closed : Lexer.Closed .initial .origin x.text.toList where
  blocks := by
    obtain ⟨program, t, run, -, cursor⟩ := x.exists_run
    have outside := ((Program.reached rfl run).1.followed rfl).outside
    rw [cursor, TokenStream.contextAt, between_scope] at outside
    have core := Lexer.left_core .initial .origin (Lexer.pieces .initial 0 x.text.toList)
    rw [← Context.core_blocks, Lexer.left, core]
    exact outside
  terminated t last := by
    have kind := x.declared.last rfl x.length_pos
    rw [List.getLast?_eq_getElem?] at last
    obtain rfl := Option.some.inj ((x.get_eq (Nat.sub_lt x.length_pos Nat.one_pos)).symm.trans last)
    exact kind

section

variable {b : Scope} {before after : List Token} {bytes lines : Nat}

theorem get_shifted
    (whole : b.stream.toList = before ++ ((tokenize x.text).dropLast.map (·.shift bytes lines) ++ after))
    {i : Nat} (lt : i < x.length) :
    b.stream.get (i + before.length) = (x.scope.stream.get i).shift bytes lines := by
  have inside : i < ((tokenize x.text).dropLast.map (·.shift bytes lines)).length := by
    rwa [List.length_map]
  rw [TokenStream.get_eq, whole, List.getElem?_append_right (Nat.le_add_left _ _), Nat.add_sub_cancel,
    List.getElem?_append_left inside, List.getElem?_map, x.get_eq lt]
  rfl

variable (same : options = b.options) (inFile : b.quotation = none) (ordered : b.stream.Ordered)
  (whole : b.stream.toList = before ++ ((tokenize x.text).dropLast.map (·.shift bytes lines) ++ after))
  (some : after ≠ []) (quiet : firstKind after ≠ .symbol .arrow)

include same inFile ordered whole some quiet

theorem repeats : x.scope.Repeats b before.length x.length := by
  have shifted {i : Nat} (lt : i < x.length) := x.get_shifted whole lt
  have length : ((tokenize x.text).dropLast.map (·.shift bytes lines)).length = x.length := List.length_map _
  have size : x.length + before.length < b.stream.size := by
    change _ < b.stream.toList.length
    have pos := List.length_pos_iff.mpr some
    rw [whole, List.length_append, List.length_append, length]
    omega
  have last : (b.stream.get (x.length + before.length)).kind = firstKind after := by
    rw [← TokenStream.firstKind_tokensFrom, TokenStream.tokensFrom_eq, whole, Nat.add_comm,
      List.drop_length_add_append, ← length, List.drop_left]
  refine ⟨same, rfl, inFile, ?_, size, fun lt => ?_, fun lt _ => ?_, fun lt => ?_, ?_, ?_, ?_,
    TokenStream.ordered_tokenize _, ordered, fun lt => ?_, fun {i} lt update => ?_⟩
  · rw [size_scope]
    exact Nat.lt_succ_self _
  · rw [shifted lt]
    exact .of_content rfl
  · rw [shifted lt]
    rfl
  · exact x.declared.reaches.inside _ (Nat.zero_le _) lt
  · rw [between_scope]
    exact x.nested
  · rw [TokenStream.get_kind_of_size_le (Nat.le_of_eq x.size_scope)]
    simp
  · rwa [last]
  · rw [shifted lt, shifted (Nat.lt_of_succ_lt lt)]
    simp [Token.shift, Token.span]
  · -- The first token is no operator, and before another one stands a token of the text.
    cases i with
    | zero =>
      have start := x.start
      generalize (x.scope.stream.get 0).kind = kind at start update
      unfold UpdateOp.ofKind? at update
      split at update <;> trivial
    | succ i =>
      rw [shifted lt, Nat.add_right_comm, Nat.add_sub_cancel, Nat.add_sub_cancel,
        shifted (Nat.lt_of_succ_lt lt)]
      simp [Token.shift, Token.line]

theorem exists_declared :
    ∃ es, Declared b ⟨before.length, 0⟩ es ⟨before.length + x.length, 0⟩ ∧
      es.map (Declaration.unplaced TokenRange.unplaced) =
        [x.declaration].map (Declaration.unplaced TokenRange.unplaced) := by
  have repeats := x.repeats same inFile ordered whole some quiet
  have keeps (r : TokenRange) :
      r.unplaced = TokenRange.unplaced ⟨r.start + before.length, r.stop + before.length⟩ := by
    rw [TokenRange.unplaced, TokenRange.unplaced, Nat.add_sub_add_right]
  obtain ⟨es, declared, alike⟩ := x.declared.moved (Nat.le_refl _)
    (fun i lt => (repeats.kind_iff lt rfl).mp) fun {u v word e} here read le => by
      have shifted {i : Nat} (lt : i < v.cursor) := x.get_shifted whole (Nat.lt_of_lt_of_le lt le)
      refine repeats.exists_track_of_same keeps here read le (fun _ lt => ?_) fun _ _ _ lt => ?_
      · rw [shifted lt]
        rfl
      · rw [shifted lt, shifted (Nat.lt_of_succ_lt lt)]
        simp [Token.shift, Token.line]
  refine ⟨es, ?_, alike.symm⟩
  simpa [ParserState.initial, Nat.add_comm] using declared

end

end Component.Single

namespace Component

open Single

variable {options : Options}

/-- The texts, each on lines of its own. -/
def joined (xs : List (Single options)) : String := "\n".intercalate (xs.map (·.text))

theorem joined_cons (x y : Single options) (xs : List (Single options)) :
    joined (x :: y :: xs) = x.text ++ "\n" ++ joined (y :: xs) := String.intercalate_cons_cons

theorem Single.firstKind_append (x : Single options) (rest : List Token) :
    firstKind ((tokenize x.text).dropLast ++ rest) = (x.scope.stream.get 0).kind := by
  have first := x.get_eq x.length_pos
  cases tokens : (tokenize x.text).dropLast with
  | nil => simp [tokens] at first
  | cons t ts =>
    rw [tokens] at first
    obtain rfl := Option.some.inj first
    rfl

theorem Single.tokens_eq (x : Single options) : ∃ last : Token, last.kind = .endOfFile ∧
    tokenize x.text = (tokenize x.text).dropLast ++ [last] := by
  have laid : Laid x.text.toList [] (tokenize x.text) := laid_tokens x.text.toList
  obtain ⟨init, whole, -⟩ := laid.ends
  exact ⟨_, rfl, by rw [whole, List.dropLast_concat]⟩

theorem firstKind_joined (x : Single options) (xs : List (Single options)) :
    firstKind (tokenize (joined (x :: xs))) = (x.scope.stream.get 0).kind := by
  induction xs generalizing x with
  | nil =>
    obtain ⟨last, -, whole⟩ := x.tokens_eq
    rw [← x.firstKind_append [last], ← whole]
    rfl
  | cons y xs ih =>
    have first : firstKind (tokenize (joined (y :: xs))) ≠ .symbol .openBrace := by
      rw [ih]
      exact y.start.ne_symbol.1
    obtain ⟨bytes, lines, tokens⟩ := tokenize_nextLine x.closed first
    rw [joined_cons, tokens, x.firstKind_append]

theorem tokenize_joined (x y : Single options) (xs : List (Single options)) : ∃ bytes lines,
    tokenize (joined (x :: y :: xs)) =
      (tokenize x.text).dropLast ++ (tokenize (joined (y :: xs))).map (·.shift bytes lines) := by
  rw [joined_cons]
  refine tokenize_nextLine x.closed ?_
  rw [firstKind_joined]
  exact y.start.ne_symbol.1

theorem declared_joined (xs : List (Single options)) {b : Scope} {before : List Token}
    {bytes lines : Nat} (same : options = b.options) (inFile : b.quotation = none)
    (ordered : b.stream.Ordered)
    (whole : b.stream.toList = before ++ (tokenize (joined xs)).map (·.shift bytes lines)) :
    ∃ es, Declared b ⟨before.length, 0⟩ es ⟨b.stream.size - 1, 0⟩ ∧
      es.map (Declaration.unplaced TokenRange.unplaced) =
        (xs.map (·.declaration)).map (Declaration.unplaced TokenRange.unplaced) := by
  have size : b.stream.size = b.stream.toList.length := rfl
  induction xs generalizing before bytes lines with
  | nil =>
    have last : b.stream.size - 1 = before.length := by
      rw [size, whole, List.length_append]
      rfl
    exact ⟨[], last ▸ .nil _, rfl⟩
  | cons x xs ih =>
    cases xs with
    | nil =>
      obtain ⟨last, kind, tokens⟩ := x.tokens_eq
      have alone : joined [x] = x.text := String.intercalate_singleton
      rw [alone, tokens, List.map_append] at whole
      obtain ⟨es, declared, alike⟩ := x.exists_declared same inFile ordered whole (by simp)
        (by simp [firstKind, Token.shift, kind])
      have stop : b.stream.size - 1 = before.length + x.length := by
        rw [size, whole]
        simp [length]
      exact ⟨es, stop ▸ declared, alike⟩
    | cons y xs =>
      obtain ⟨bytes', lines', tokens⟩ := tokenize_joined x y xs
      rw [tokens, List.map_append, map_shift_shift] at whole
      have some : (tokenize (joined (y :: xs))).map (·.shift (bytes' + bytes) (lines' + lines)) ≠ [] :=
        fun none => Lexer.place_ne_nil _ _ (List.map_eq_nil_iff.mp none)
      obtain ⟨es, declared, alike⟩ := x.exists_declared same inFile ordered whole some (by
        rw [firstKind_shift, firstKind_joined]
        exact y.start.ne_symbol.2)
      obtain ⟨es', later, alike'⟩ := ih (whole.trans (List.append_assoc _ _ _).symm)
      rw [List.length_append, List.length_map] at later
      exact ⟨es ++ es', declared.trans later, by rw [List.map_append, alike, alike']; rfl⟩

theorem parse_joined (xs : List (Single options))
    (distinct : Declarations.filling.Distinct (xs.map (·.declaration))) :
    ∃ c, Component.parse (joined xs) options = .ok c ∧
      c.program.toDeclarations.unplaced TokenRange.unplaced =
        (Declarations.filling.fill (xs.map (·.declaration))).unplaced TokenRange.unplaced := by
  let b : Scope := ⟨.ofList (tokenize (joined xs)), options, none⟩
  have tokens : b.stream.toList = tokenize (joined xs) := TokenStream.toList_ofList_tokenize _
  have whole : b.stream.toList = [] ++ (tokenize (joined xs)).map (·.shift 0 0) :=
    tokens.trans (List.map_id _).symm
  obtain ⟨es, declared, alike⟩ := declared_joined xs rfl rfl (TokenStream.ordered_tokenize _) whole
  have atEnd : (b.stream.get (b.stream.size - 1)).kind = .endOfFile :=
    TokenStream.get_kind_of_size_le (Nat.le_add_of_sub_le (Nat.le_refl _))
  rw [← Declarations.distinct_unplaced TokenRange.unplaced, ← alike, Declarations.distinct_unplaced]
    at distinct
  obtain ⟨program, run, filled⟩ := declared.parser_ok atEnd distinct
  have run : Program.parser b .initial = .ok program ⟨b.stream.size - 1, 0⟩ := run
  refine ⟨⟨program, b.stream.toList, joined xs⟩, ?_, ?_⟩
  · unfold Component.parse Parser.run
    dsimp only
    rw [run]
  · rw [filled, Declarations.fill_unplaced, alike, Declarations.fill_unplaced]

/-- Declarations may stand in any order, but for the imports among them: the file declares the same, and
    the bodies of the functions in it have as many tokens. Their brackets nest well, since what is read
    to tell the parameters of a function from parentheses counts the brackets in function bodies too. -/
theorem parse_perm {xs ys : List (Single options)} (perm : xs.Perm ys)
    (single : xs.Pairwise fun x y =>
      x.declaration.word = y.declaration.word → x.declaration.word = .import_)
    (imports : xs.filter (·.declaration.word = .import_) = ys.filter (·.declaration.word = .import_)) :
    ∃ c c', Component.parse (joined xs) options = .ok c ∧ Component.parse (joined ys) options = .ok c' ∧
      c.program.unplaced TokenRange.unplaced = c'.program.unplaced TokenRange.unplaced := by
  have distinct {zs : List (Single options)} (single : zs.Pairwise fun x y =>
      x.declaration.word = y.declaration.word → x.declaration.word = .import_) :
      Declarations.filling.Distinct (zs.map (·.declaration)) :=
    List.pairwise_map.mpr (single.imp fun one same => beq_iff_eq.mpr (one same))
  have single' := (perm.pairwise_iff fun {x y} one same => same ▸ one same.symm).mp single
  obtain ⟨c, parsed, declares⟩ := parse_joined xs (distinct single)
  obtain ⟨c', parsed', declares'⟩ := parse_joined ys (distinct single')
  have same : Declarations.filling.fill (xs.map (·.declaration)) =
      Declarations.filling.fill (ys.map (·.declaration)) := by
    refine Declarations.fill_perm (perm.map _) (distinct single) ?_
    rw [List.filter_map, List.filter_map]
    exact congrArg (List.map _) imports
  refine ⟨c, c', parsed, parsed', ?_⟩
  rw [Program.unplaced, Program.unplaced, declares, declares', same]

theorem exists_single {text : String} {word : Keyword}
    (words : (Component.parse text options).toOption.map (·.program.toDeclarations.toList.map (·.word)) =
      some [word]) (nested : WellNested (tokenize text).dropLast) :
    ∃ x : Single options, x.text = text ∧ x.declaration.word = word := by
  obtain ⟨c, parsed, one⟩ := Component.exists_parse (Option.map_eq_bind.symm.trans words)
  obtain ⟨e, alone, kind⟩ := List.map_eq_singleton_iff.mp (Option.some.inj one)
  exact ⟨⟨text, e, ⟨c, parsed, alone⟩, nested⟩, rfl, kind⟩

/-- A file in which the markup stands last, and one in which it stands first. -/
theorem parse_perm_view : ∃ c c',
    Component.parse "import \"m\"\nstate { n: (x) => { x } }\nview { p.note }"
      .standard = .ok c ∧
    Component.parse "view { p.note }\nimport \"m\"\nstate { n: (x) => { x } }"
      .standard = .ok c' ∧
    c.program.unplaced TokenRange.unplaced = c'.program.unplaced TokenRange.unplaced := by
  obtain ⟨i, import_, first⟩ : ∃ i : Single .standard, i.text = "import \"m\"" ∧
      i.declaration.word = .import_ := exists_single (by decide +kernel) (by decide +kernel)
  obtain ⟨s, state, second⟩ : ∃ s : Single .standard, s.text = "state { n: (x) => { x } }" ∧
      s.declaration.word = .state := exists_single (by decide +kernel) (by decide +kernel)
  obtain ⟨v, view, third⟩ : ∃ v : Single .standard, v.text = "view { p.note }" ∧
      v.declaration.word = .view := exists_single (by decide +kernel) (by decide +kernel)
  have perm : [i, s, v].Perm [v, i, s] := @List.perm_append_comm _ [i, s] [v]
  obtain ⟨c, c', parsed, parsed', same⟩ := parse_perm perm (by simp [first, second, third])
    (by simp [first, second, third])
  simp only [joined, List.map_cons, List.map_nil, import_, state, view] at parsed parsed'
  exact ⟨c, c', parsed, parsed', same⟩

end Component

end PulseSyntax
