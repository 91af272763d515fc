import PulseSyntax.Proofs.Block.Twin
import PulseSyntax.Proofs.Markup.Twin
import PulseSyntax.Proofs.Outline.Bodies
import PulseSyntax.Proofs.Program.Declared
import PulseSyntax.Proofs.Style.Block
import PulseSyntax.Proofs.Style.Echo
import PulseSyntax.Proofs.Style.Inside

namespace PulseSyntax

open PulseSyntax.Parser Scope.Track

section

theorem withoutPlace_append {words place : String} (inside : ']' ∉ place.toList) :
    withoutPlace (words ++ "]" ++ place) = words ++ "]" := by
  rw [withoutPlace, String.toList_append, List.reverse_append, List.dropWhile_append_of_pos,
    String.toList_append, List.reverse_append]
  · rw [← String.toList_inj]
    simp
  · intro c member
    exact bne_iff_ne.mpr fun same => inside (same ▸ List.mem_reverse.mp member)

theorem not_mem_toString (n : Nat) {c : Char} (other : c.isDigit = false) :
    c ∉ (toString n).toList := fun member => by
  have digit := Nat.isDigit_of_mem_toDigits (b := 10) (by decide) (by decide) (c := c) (n := n)
    (by simpa using member)
  rw [digit] at other
  cases other

theorem Cause.Alike.withoutPlace {e f : ParseError} (alike : e.cause.Alike f.cause) :
    withoutPlace e.display = PulseSyntax.withoutPlace f.display := by
  have shown (e : ParseError) : PulseSyntax.withoutPlace e.display =
      e.cause.message ++ " [" ++ e.cause.kind.code ++ "]" := by
    have parts : e.display = e.cause.message ++ " [" ++ e.cause.kind.code ++ "]" ++
        (" at " ++ toString e.place.line ++ ":" ++ toString e.place.column) := by
      rw [ParseError.display, Diagnostic.display, ← String.toList_inj]
      simp [ParseError.toDiagnostic]
    rw [parts, withoutPlace_append]
    simp only [String.toList_append, List.mem_append, not_or]
    exact ⟨⟨⟨by decide, not_mem_toString _ rfl⟩, by decide⟩, not_mem_toString _ rfl⟩
  rw [shown, shown, alike.message, alike.kind]

theorem Scope.remaining_eq {scope : Scope} {s : ParserState} {stop : Nat} (le : s.cursor + 2 ≤ stop)
    (lt : stop < scope.stream.size) :
    scope.remaining s = scope.stream.get s.cursor :: scope.stream.get (s.cursor + 1) ::
      (scope.stream.between (s.cursor + 2) stop ++
        scope.stream.get stop :: scope.stream.tokensFrom (stop + 1)) := by
  have parts {i : Nat} (lt : i < scope.stream.size) :
      scope.stream.tokensFrom i = scope.stream.get i :: scope.stream.tokensFrom (i + 1) := by
    obtain ⟨rest, whole⟩ := TokenStream.exists_tokensFrom lt
    rw [TokenStream.tokensFrom_succ whole, whole]
  rw [Scope.remaining, parts (by omega), parts (by omega),
    ← scope.stream.between_append_tokensFrom le, parts lt]

namespace StyleBlock

structure Stands (scope : Scope) (start stop : Nat) : Prop where
  le : start + 2 ≤ stop
  lt : stop < scope.stream.size
  word : (scope.stream.get start).kind = .keyword .style
  opening : (scope.stream.get (start + 1)).kind = .symbol .openBrace
  close : (scope.stream.get stop).kind = .symbol .closeBrace
  matched : BracesMatch (scope.stream.between (start + 2) stop)
  inside : ∀ t ∈ scope.stream.between (start + 2) stop, t.kind ≠ .endOfFile

variable {scope a b : Scope} {T : a.Track b} {s t : ParserState} {stop : Nat} {block : StyleBlock}

theorem Stands.parser_apply (h : Stands scope s.cursor stop) : StyleBlock.parser scope s =
    match Style.rulesParser stop scope (s.ahead 2) with
    | .ok rules _ => .ok ⟨Style.block (scope.stream.between (s.cursor + 2) stop), rules, none,
        (scope.stream.get s.cursor).span.cover (scope.stream.get stop).span⟩ ⟨stop + 1, s.depth⟩
    | .error e t =>
      if scope.options.styleFallback then
        .ok ⟨Style.block (scope.stream.between (s.cursor + 2) stop), [], some e.display,
          (scope.stream.get s.cursor).span.cover (scope.stream.get stop).span⟩ ⟨stop + 1, s.depth⟩
      else .error e t := by
  have length : (scope.stream.between (s.cursor + 2) stop).length = stop - (s.cursor + 2) :=
    TokenStream.length_between (Nat.le_of_lt h.lt)
  have le := h.le
  have first := StyleBlock.parser_apply (scope.remaining_eq h.le h.lt) h.word h.opening h.close
    h.matched h.inside
  have after : s.ahead (2 + (stop - (s.cursor + 2)) + 1) = ⟨stop + 1, s.depth⟩ := by
    rw [ParserState.ahead]
    congr 1
    omega
  rwa [length, after, show s.cursor + 2 + (stop - (s.cursor + 2)) = stop by omega] at first

theorem Stands.of_ok (ok : StyleBlock.parser scope s = .ok block t) :
    ∃ stop, Stands scope s.cursor stop ∧ t.cursor = stop + 1 := by
  obtain ⟨word, opening, body, close, rest, tokens, hw, ho, hc, matched, inside⟩ :=
    StyleBlock.parser_tokens ok
  have afterWord := Scope.remaining_ahead_one tokens
  have afterOpening : scope.remaining (s.ahead 2) = body ++ close :: rest :=
    Scope.remaining_ahead_one afterWord
  have own : scope.stream.between (s.cursor + 2) (s.cursor + 2 + body.length) = body :=
    TokenStream.between_of_tokensFrom afterOpening
  have afterBody := TokenStream.tokensFrom_append afterOpening
  rw [ParserState.ahead_cursor] at afterBody
  refine ⟨s.cursor + 2 + body.length, ?_, ?_⟩
  · have last := TokenStream.get_of_tokensFrom afterBody
    refine ⟨Nat.le_add_right .., Nat.lt_of_succ_lt (TokenStream.lt_size_of_kind_ne ?_), ?_, ?_, ?_,
      ?_, ?_⟩
    · rw [last, hc]
      simp
    · rw [Scope.get_of_remaining tokens, hw]
    · rw [← ho]
      exact congrArg Token.kind (Scope.get_of_remaining afterWord)
    · rw [last, hc]
    · rwa [own]
    · rwa [own]
  · rw [StyleBlock.parser_apply tokens hw ho hc matched inside] at ok
    have cursor : (s.ahead (2 + body.length + 1)).cursor = s.cursor + 2 + body.length + 1 := by
      rw [ParserState.ahead_cursor]
      omega
    split at ok
    · cases ok
      exact cursor
    · split at ok
      · cases ok
        exact cursor
      · cases ok

theorem Stands.form (h : Stands a s.cursor T.limit) (laid : T.Laid (s.cursor + 2)) :
    Style.form (a.stream.between (s.cursor + 2) T.limit) =
      Style.form (b.stream.between ((T.moved s).cursor + 2) (T.limit + T.shift)) := by
  obtain ⟨n, stop⟩ := Nat.exists_eq_add_of_le h.le
  have same := Style.form_between laid (Nat.le_refl _) n (by omega)
  rwa [← stop, Nat.add_right_comm _ T.shift, ← stop, Nat.add_right_comm] at same

theorem Stands.moved (h : Stands a s.cursor T.limit) (laid : T.Laid (s.cursor + 2)) :
    Stands b (T.moved s).cursor (T.limit + T.shift) := by
  have le := h.le
  have kinds : (a.stream.between (s.cursor + 2) T.limit).map Token.kind =
      (b.stream.between ((T.moved s).cursor + 2) (T.limit + T.shift)).map Token.kind := by
    simpa [Style.form, Function.comp_def, Token.content] using
      congrArg (List.map Prod.fst ∘ Prod.fst) (h.form laid)
  refine ⟨by rw [moved_cursor]; omega, T.fits, ?_, ?_, ?_, ?_, fun t member => ?_⟩
  · exact ((T.near (by omega)).kind_eq_iff rfl).mp h.word
  · rw [moved_cursor, Nat.add_right_comm]
    exact ((T.near (by omega)).kind_eq_iff rfl).mp h.opening
  · exact ((T.near (Nat.le_refl _)).kind_eq_iff rfl).mp h.close
  · exact (openBraces?_congr kinds 0).symm.trans h.matched
  · have shown := List.mem_map_of_mem (f := Token.kind) member
    rw [← kinds] at shown
    obtain ⟨u, found, same⟩ := List.mem_map.mp shown
    exact same ▸ h.inside u found

/-- Both runs read the block alike, or fail alike, where its last token is the one at the limit and its
    brackets nest well. -/
theorem parser_replied (laid : T.Laid (s.cursor + 2)) (stands : Stands a s.cursor T.limit)
    (nested : WellNested (a.stream.between (s.cursor + 2) T.limit))
    (file : ∀ i, i < T.limit → (a.stream.get i).kind ≠ .endOfFile) :
    T.Replied StyleBlock.unplaced (StyleBlock.parser a s) (StyleBlock.parser b (T.moved s)) := by
  have nests : a.stream.Nests T.limit := ⟨T.inside, stands.close, file⟩
  have halts : Halts a T.limit (Style.rulesParser T.limit) (s.ahead 2) fun _ t => t.cursor ≤ T.limit :=
    Style.halts_rulesParser nests ⟨[], ⟨stands.le, nested⟩, Nat.le_refl _⟩
  have within : (Style.rulesParser T.limit a (s.ahead 2)).state.cursor ≤ T.limit := by
    unfold Halts at halts
    generalize Style.rulesParser T.limit a (s.ahead 2) = reply at halts
    cases reply <;> exact halts
  have replied := (Style.echo_rulesParser laid T.limit).replied (s.ahead 2) (Nat.le_refl _) within
  have raw := Style.block_congr (stands.form laid)
  have after : (⟨T.limit + T.shift + 1, (T.moved s).depth⟩ : ParserState) =
      T.moved ⟨T.limit + 1, s.depth⟩ :=
    congrArg (ParserState.mk · s.depth) (Nat.add_right_comm ..)
  rw [stands.parser_apply, (stands.moved laid).parser_apply, ← moved_ahead, ← raw, ← T.options, after]
  generalize Style.rulesParser (T.limit + T.shift) b (T.moved (s.ahead 2)) = second at replied
  generalize Style.rulesParser T.limit a (s.ahead 2) = first at replied
  cases replied with
  | ok same => exact .ok (by simp only [StyleBlock.unplaced, same])
  | error alike =>
    dsimp only
    split
    · exact .ok (by simp only [StyleBlock.unplaced, Option.map_some, alike.withoutPlace])
    · exact .error alike

theorem parser_moved (laid : T.Laid (s.cursor + 2)) (ok : StyleBlock.parser a s = .ok block t)
    (ends : t.cursor = T.limit + 1)
    (nested : WellNested (a.stream.between (s.cursor + 2) T.limit))
    (file : ∀ i, i < T.limit → (a.stream.get i).kind ≠ .endOfFile) :
    ∃ block', StyleBlock.parser b (T.moved s) = .ok block' (T.moved t) ∧
      block.unplaced = block'.unplaced := by
  obtain ⟨stop, stands, last⟩ := Stands.of_ok ok
  obtain rfl : stop = T.limit := Nat.succ.inj (last.symm.trans ends)
  have replied := parser_replied laid stands nested file
  rw [ok] at replied
  generalize StyleBlock.parser b (T.moved s) = second at replied
  cases replied with
  | ok same => exact ⟨_, rfl, same⟩

end StyleBlock

end

namespace Scope.Track

variable {a b : Scope} {T : a.Track b} {α ε : Type} {I : Nat → Prop} {e : α → ε} {kind : TokenKind}
variable {parens : Nat}

theorem is_advance {α : Type} {kind : TokenKind} (real : kind ≠ .endOfFile) (f : Token → Parser α)
    (p : Parser α) :
    (is kind >>= fun found => if found then advance >>= f else p) =
      is kind >>= fun found => if found then expect kind >>= f else p := by
  funext scope s
  rw [bind_of_ok is_apply, bind_of_ok is_apply]
  by_cases here : (scope.stream.get s.cursor).kind = kind
  · rw [if_pos (beq_iff_eq.mpr here), if_pos (beq_iff_eq.mpr here),
      bind_of_ok (advance_apply (here ▸ real)), bind_of_ok (expect_apply here real)]
  · rw [if_neg (by simpa using here), if_neg (by simpa using here)]

theorem closing_isNext {f g : Token → Parser α} {p q : Parser α} (real : kind ≠ .endOfFile)
    (sees : T.Sees I kind)
    (yes : T.Closing I e (expect kind >>= f) (expect kind >>= g)) (no : T.Closing I e p q) :
    T.Closing I e (is kind >>= fun found => if found then advance >>= f else p)
      (is kind >>= fun found => if found then advance >>= g else q) := by
  rw [is_advance real, is_advance real]
  refine closing_is sees (fun s x t ok => ?_) no
  exact ⟨(yes ok).1, fun here within => (yes ok).2 here.1 within⟩

end Scope.Track

variable {a b : Scope} {T : a.Track b}

namespace Import

theorem closing_bareSource {start start' : Span} {specifiers specifiers' : List ImportSpecifier}
    (same : specifiers.map (·.unplaced) = specifiers'.map (·.unplaced)) :
    T.Closing (T.Open 1) Import.unplaced (bareSource start specifiers)
      (bareSource start' specifiers') := by
  refine (twin_expectKeyword .from_).close fun _ _ _ => ?_
  refine (closing_expect (by simp) (sees_of_plain rfl)).map fun _ _ source => ?_
  simp [unplaced, same, Token.text_of_content source]

theorem twin_namedParser :
    T.Twin (T.Open 1) (T.Open 1) ImportSpecifier.unplaced namedParser namedParser := by
  refine twin_expectName.bind fun t u imported => ?_
  refine twin_eat (by simp) (exact_at rfl) (sees_of_plain rfl) ?_ ?_
  · refine (twin_expect (by simp) exact_open.sees).bind fun _ _ given => twin_pure ?_
    simp [ImportSpecifier.unplaced, Token.text_of_content imported, Token.text_of_content given]
  · refine twin_pure ?_
    simp [ImportSpecifier.unplaced, Token.text_of_content imported]

theorem twin_namespaceParser {kind : TokenKind} (real : kind ≠ .endOfFile)
    (plain : kind.parensAfter 1 = 1) :
    T.Twin (a.At (T.Open 1) kind) (T.Open 1) ImportSpecifier.unplaced namespaceParser
      namespaceParser := by
  refine (twin_pass real plain).bind fun _ _ _ => (twin_expectKeyword .as).bind fun _ _ _ => ?_
  refine (twin_expect (by simp) exact_open.sees).bind fun _ _ name => twin_pure ?_
  simp [ImportSpecifier.unplaced, Token.text_of_content name]

theorem twin_bindingsParser :
    T.Twin (T.Open 1) (T.Open 1) (List.map (·.unplaced)) bindingsParser bindingsParser := by
  refine twin_current exact_open fun t u content => ?_
  rw [← Token.kind_of_content content]
  refine .ite (fun star => ?_) fun _ => .ite (fun brace => ?_) fun _ => twin_of_fails fail_ne_ok
  · rw [beq_iff_eq.mp star]
    exact (twin_namespaceParser (by simp) rfl).bind fun _ _ same => twin_pure (by simp [same])
  · rw [beq_iff_eq.mp brace]
    refine (twin_pass (by simp) rfl).bind fun _ _ _ => ?_
    refine (Twin.commaSeparated (fun _ => steady_namedParser) twin_namedParser).bind
      fun _ _ same => ?_
    exact (twin_expectSymbol .closeBrace).bind fun _ _ _ => twin_pure same

theorem closing_bare : T.Closing (T.Open 1) Import.unplaced bare bare := by
  refine (twin_expectKeyword .import_).close fun _ _ _ => ?_
  refine closing_isNext (by simp) (sees_of_plain rfl) ?_ (closing_is exact_open.sees ?_ ?_)
  · refine (closing_expect (by simp) (sees_of_plain rfl)).map fun _ _ source => ?_
    simp [unplaced, Token.text_of_content source]
  · refine (twin_pass (by simp) rfl).close fun _ _ name => ?_
    rw [eatSymbol, eat_bind (by simp), eat_bind (by simp)]
    have first : ∀ t u : Token, t.content = u.content →
        ImportSpecifier.unplaced ⟨.default, "default", t.text, t.span⟩ =
          ImportSpecifier.unplaced ⟨.default, "default", u.text, u.span⟩ := fun t u same => by
      simp [ImportSpecifier.unplaced, Token.text_of_content same]
    refine closing_is (sees_of_plain rfl) ?_ (closing_bareSource (by simp [first _ _ name]))
    refine (twin_pass (by simp) rfl).close fun _ _ _ => twin_bindingsParser.close fun _ _ same => ?_
    exact closing_bareSource (by simp [first _ _ name, same])
  · exact twin_bindingsParser.close fun _ _ same => closing_bareSource same

end Import

theorem PageDecl.parser_closing : T.Closing (T.Open 1) PageDecl.unplaced parser parser := by
  refine (twin_expectSymbol .atSign).close fun _ _ _ => (twin_expectKeyword .page).close
    fun _ _ _ => ?_
  have name : T.Closing (T.Open 1) Token.content (expectStringOr .identifier)
      (expectStringOr .identifier) := by
    rw [expectStringOr, ← bind_pure advance]
    refine closing_isNext (by simp) (sees_of_plain rfl) ?_ (closing_expect (by simp) exact_open.sees)
    exact (closing_expect (by simp) (sees_of_plain rfl)).map fun _ _ same => same
  exact name.map fun _ _ same => by simp [unplaced, Token.text_of_content same]

theorem RouteDecl.parser_closing : T.Closing (T.Open 1) RouteDecl.unplaced parser parser := by
  refine (twin_expectSymbol .atSign).close fun _ _ _ => (twin_expectKeyword .route).close
    fun _ _ _ => ?_
  exact (closing_expect (by simp) (sees_of_plain rfl)).map fun _ _ same => by
    simp [unplaced, Token.text_of_content same]

/-- What the second run has to keep of the tokens from an index on, so that it meets the same
    declaration there. -/
def Scope.Track.Carries (T : a.Track b) (start : Nat) : Keyword → Prop
  | .import_ | .page | .route => T.Open 1 start
  | .view => T.Plain ∧ T.Touching ∧ T.Open 0 start
  | .style => T.Laid (start + 2) ∧ WellNested (a.stream.between (start + 2) T.limit) ∧
      ∀ i, i < T.limit → (a.stream.get i).kind ≠ .endOfFile
  | _ => T.Plain ∧ T.Open 1 start ∧ ∃ first, T.Free first

namespace Declaration

variable {s t : ParserState} {word : Keyword} {e : Declaration}

theorem map_moved {α : Type} {p : Parser α} {f : α → Declaration} {g : α → α}
    (moved : ∀ {x : α}, p a s = .ok x t →
      ∃ y, p b (T.moved s) = .ok y (T.moved t) ∧ g x = g y)
    (hf : ∀ x, (f x).unplaced T.keep = f (g x)) (ok : (f <$> p) a s = .ok e t) :
    ∃ e', (f <$> p) b (T.moved s) = .ok e' (T.moved t) ∧
      e.unplaced T.keep = e'.unplaced T.keep := by
  obtain ⟨x, read, rfl⟩ := map_eq_ok.mp ok
  obtain ⟨y, second, same⟩ := moved read
  exact ⟨f y, map_eq_ok.mpr ⟨y, second, rfl⟩, by rw [hf, hf, same]⟩

theorem bare_moved (carries : T.Carries s.cursor word) (ends : t.cursor = T.limit + 1)
    (ok : bare word a s = .ok e t) :
    ∃ e', bare word b (T.moved s) = .ok e' (T.moved t) ∧
      e.unplaced T.keep = e'.unplaced T.keep := by
  have closed {α : Type} {p : Parser α} {g : α → α} {I : Nat → Prop} (h : T.Closing I g p p)
      (here : I s.cursor) {x : α} (read : p a s = .ok x t) :
      ∃ y, p b (T.moved s) = .ok y (T.moved t) ∧ g x = g y := (h read).2 here (Nat.le_of_eq ends)
  cases word
  case import_ => exact map_moved (closed Import.closing_bare carries) (fun _ => rfl) ok
  case page => exact map_moved (closed PageDecl.parser_closing carries) (fun _ => rfl) ok
  case route => exact map_moved (closed RouteDecl.parser_closing carries) (fun _ => rfl) ok
  case props =>
    obtain ⟨plain, here, -⟩ := carries
    exact map_moved (closed (PropertyBlock.parser_closing .props) here) (fun _ => rfl) ok
  case state =>
    obtain ⟨plain, here, -⟩ := carries
    exact map_moved (closed (PropertyBlock.parser_closing .state) here) (fun _ => rfl) ok
  case view =>
    obtain ⟨plain, touching, here⟩ := carries
    exact map_moved (closed (ViewBlock.parser_closing touching) here) (fun _ => rfl) ok
  case actions =>
    obtain ⟨plain, here, first, free⟩ := carries
    exact map_moved (closed (ActionsBlock.parser_closing free) here) (fun _ => rfl) ok
  case style =>
    obtain ⟨laid, nested, file⟩ := carries
    exact map_moved (fun read => StyleBlock.parser_moved laid read ends nested file)
      (fun _ => rfl) ok
  case router =>
    obtain ⟨plain, here, first, free⟩ := carries
    exact map_moved (closed (RouterBlock.parser_closing free) here) (fun _ => rfl) ok
  case store =>
    obtain ⟨plain, here, first, free⟩ := carries
    exact map_moved (closed (StoreBlock.parser_closing free) here) (fun _ => rfl) ok
  all_goals exact absurd ok Declarations.failUnknown_ne_ok

theorem two_le_of_atSign (sign : (a.stream.get s.cursor).kind = .symbol .atSign)
    (here : Declarations.reader.fieldAt? a s = some word) (ok : bare word a s = .ok e t) :
    s.cursor + 2 ≤ t.cursor := by
  have onward {α : Type} {first : Keyword} {rest : Token → Token → Parser α} {x : α}
      (steady : ∀ c : Course, ∀ t u, c.Steady (rest t u))
      (ok : (expectSymbol .atSign >>= fun t => expectKeyword first >>= rest t) a s = .ok x t) :
      s.cursor + 2 ≤ t.cursor := by
    obtain ⟨_, u, sign, ok⟩ := bind_eq_ok.mp ok
    obtain ⟨-, -, rfl⟩ := (expect_eq_ok (by simp)).mp sign
    obtain ⟨_, v, keyword, ok⟩ := bind_eq_ok.mp ok
    obtain ⟨-, -, rfl⟩ := (expect_eq_ok (by simp)).mp keyword
    exact ((steady (a.course _) _ _ _ rfl).reaches ok).cursor
  change ofKinds? _ _ = some word at here
  rw [sign] at here
  unfold ofKinds? at here
  split at here
  case h_2 =>
    cases here
    obtain ⟨_, ok, -⟩ := map_eq_ok.mp ok
    exact onward (fun _ _ _ => (Course.starting_expectStringOr (by simp)).steady.bind fun _ =>
      Course.steady_pure _) ok
  case h_3 =>
    cases here
    obtain ⟨_, ok, -⟩ := map_eq_ok.mp ok
    exact onward (fun _ _ _ => (Course.starting_expect (by simp)).steady.bind fun _ =>
      Course.steady_pure _) ok
  all_goals simp_all

theorem fieldAt?_moved (ends : t.cursor = T.limit + 1) (ok : bare word a s = .ok e t)
    (here : Declarations.reader.fieldAt? a s = some word) :
    Declarations.reader.fieldAt? b (T.moved s) = some word := by
  have lt : s.cursor < t.cursor := (Declared.reaches_of_bare here ok).2
  have le : s.cursor ≤ T.limit := by omega
  have name (sign : (a.stream.get s.cursor).kind = .symbol .atSign) :
      (a.stream.get (s.cursor + 1)).kind = (b.stream.get ((T.moved s).cursor + 1)).kind := by
    rw [moved_cursor, Nat.add_right_comm]
    have more := two_le_of_atSign sign here ok
    exact T.name (by omega) sign
  have head {kind : TokenKind} (plain : kind.isHead = false)
      (found : (a.stream.get s.cursor).kind = kind) :
      (b.stream.get (T.moved s).cursor).kind = kind := ((T.near le).kind_eq_iff plain).mp found
  change ofKinds? _ _ = some word at here
  change ofKinds? _ _ = some word
  generalize first : (a.stream.get s.cursor).kind = kind at here
  generalize second : (a.stream.get (s.cursor + 1)).kind = next at here
  unfold ofKinds? at here
  split at here
  case h_2 | h_3 =>
    rw [head rfl first, ← name first, second]
    exact here
  case h_11 => cases here
  all_goals
    rw [head rfl first]
    exact here

end Declaration

theorem Declared.moved {shift stop : Nat} {keep : TokenRange → TokenRange} {s t : ParserState}
    {es : List Declaration} (h : Declared a s es t) (le : t.cursor ≤ stop)
    (semicolons : ∀ i, i < stop → (a.stream.get i).kind = .symbol .semicolon →
      (b.stream.get (i + shift)).kind = .symbol .semicolon)
    (tracks : ∀ {u v : ParserState} {word : Keyword} {e : Declaration},
      Declarations.reader.fieldAt? a u = some word → Declaration.bare word a u = .ok e v →
      v.cursor ≤ stop → ∃ T : a.Track b, T.shift = shift ∧ T.keep = keep ∧
        v.cursor = T.limit + 1 ∧ T.Carries u.cursor word) :
    ∃ es', Declared b ⟨s.cursor + shift, s.depth⟩ es' ⟨t.cursor + shift, t.depth⟩ ∧
      es.map (Declaration.unplaced keep) = es'.map (Declaration.unplaced keep) := by
  induction h with
  | nil s => exact ⟨[], .nil _, rfl⟩
  | @semicolon s t es kind more ih =>
    obtain ⟨es', rest, same⟩ := ih le
    refine ⟨es', .semicolon (semicolons _ ?_ kind) ?_, same⟩
    · exact Nat.lt_of_lt_of_le more.le le
    · rwa [ParserState.ahead, Nat.add_right_comm]
  | @declaration s t u word e es here read more ih =>
    obtain ⟨es', rest, same⟩ := ih le
    obtain ⟨T, rfl, rfl, ends, carries⟩ := tracks here read (Nat.le_trans more.le le)
    obtain ⟨e', second, alike⟩ := Declaration.bare_moved carries ends read
    exact ⟨e' :: es', .declaration (Declaration.fieldAt?_moved ends read here) second rest,
      List.cons_eq_cons.mpr ⟨alike, same⟩⟩

end PulseSyntax
