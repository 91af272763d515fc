import PulseSyntax.Proofs.Expr.Complete
import PulseSyntax.Proofs.Expr.Stands
import PulseSyntax.Proofs.Parser.Entries
import PulseSyntax.Proofs.Token.Due

namespace PulseSyntax

open PulseSyntax.Parser

/-- The parenthesis at one index closes at the other, and the brackets between them nest well. -/
structure TokenStream.Parens (stream : TokenStream) (i j : Nat) : Prop where
  lt : i < j
  opening : (stream.get i).kind = .symbol .openParen
  closing : (stream.get j).kind = .symbol .closeParen
  nested : WellNested (stream.between (i + 1) j)

/-- What follows such a parenthesis makes parameters of what stands in it. -/
structure TokenStream.BeforeArrow (stream : TokenStream) (i j : Nat) : Prop where
  noEnd : ∀ u ∈ stream.between (i + 1) j, u.kind ≠ .endOfFile
  arrow : (stream.get (j + 1)).kind = .symbol .arrow

namespace Expr

variable {scope : Scope} {s t : ParserState} {i j stop : Nat} {due : List Symbol}

theorem bracketStep_of_isName {kind : TokenKind} (h : kind.isName) : bracketStep kind = none := by
  rcases kind_of_isName h with rfl | ⟨word, rfl, -⟩ <;> rfl

theorem bracketStep_of_isWord {kind : TokenKind} (h : kind = .identifier ∨ kind.isKeyword) :
    bracketStep kind = none := by
  rcases h with rfl | word
  · rfl
  · cases kind with
    | keyword => rfl
    | _ => cases word

theorem bracketStep_of_literalOf? {u : Token} {e : Expr} (h : literalOf? u = some e) :
    bracketStep u.kind = none := by
  have plain : ∀ kind ∈ literalKinds, bracketStep kind = none := by decide
  exact plain _ (kind_of_literalOf? h)

theorem Stands.keepsDue {piece : Piece} (h : Stands scope piece i j)
    (ends : bracketStep (scope.stream.get stop).kind = some false)
    (before : scope.stream.Due stop due i) : scope.stream.Due stop due j := by
  have size := TokenStream.Due.lt_size_of_ends ends
  have symbol {i : Nat} {due : List Symbol} {sign : Symbol} (h : scope.stream.Due stop due i)
      (hk : (scope.stream.get i).kind = .symbol sign)
      (plain : bracketStep (.symbol sign) = none) : scope.stream.Due stop due (i + 1) :=
    h.plain ends (by rw [hk, plain])
  induction h generalizing due with
  | name hk => exact before.plain ends (bracketStep_of_isName hk)
  | importName hk | bareParam hk | shorthand hk => exact before.plain ends (by rw [hk]; rfl)
  | literal h => exact before.plain ends (bracketStep_of_literalOf? h)
  | plainKey h => exact before.plain ends (plain_of_keyOf? h).2.1
  | group ho _ hc ih | array ho _ hc ih | object ho _ hc ih | paramList ho _ hc ih
  | computedKey ho _ hc ih => exact (ih (before.opening ends ho rfl)).closing hc rfl size
  | arrow _ _ ha _ list body => exact body (symbol (list before) ha rfl)
  | asyncArrow hw _ _ _ ha _ list body =>
    exact body (symbol (list (before.plain ends (by rw [hw]; rfl))) ha rfl)
  | parsedBody _ _ ih | item _ ih | lastItem _ ih | lastMember _ ih => exact ih before
  | block first delimits =>
    rename_i i r
    have matched := delimits.matched
    have opening := delimits.opening
    rw [first] at matched opening
    exact before.block ends opening matched delimits.closing
  | @property _ _ _ optional _ hd hk ih =>
    have dot := symbol (ih before) hd (by cases optional <;> rfl)
    exact dot.plain ends (bracketStep_of_isWord hk)
  | index _ dotted ho _ hc ih inner | call _ dotted ho _ hc ih inner =>
    cases dotted with
    | plain => exact (inner ((ih before).opening ends ho rfl)).closing hc rfl size
    | optional hd =>
      have dot := symbol (ih before) hd rfl
      exact (inner (dot.opening ends ho rfl)).closing hc rfl size
  | @updateAfter _ _ _ op _ _ ht ih => exact symbol (ih before) ht (by cases op <;> rfl)
  | @unary _ _ _ op ht _ ih => exact ih (symbol before ht (by cases op <;> rfl))
  | @updateBefore _ _ _ op ht _ _ ih => exact ih (symbol before ht (by cases op <;> rfl))
  | @binary _ _ _ _ _ op _ ht _ first second =>
    exact second (symbol (first before) ht (by cases op <;> rfl))
  | conditional _ hq _ hc _ test one other =>
    exact other (symbol (one (symbol (test before) hq rfl)) hc rfl)
  | @assignment _ _ _ _ _ op _ _ ht _ left right =>
    exact right (symbol (left before) ht (by cases op <;> rfl))
  | spreadItem hd _ ih | spreadMember hd _ ih => exact ih (symbol before hd rfl)
  | noItems | noMembers => exact before
  | moreItems _ hc _ first rest | moreMembers _ hc _ first rest | keyed _ hc _ first rest =>
    exact rest (symbol (first before) hc rfl)

/-- Where what is due closes before a parenthesis, the counter of brackets stops there, unless the
    file ends before it. -/
theorem closesBeforeArrow_iff {own rest : List Token} {close : Token}
    (closes : due? due own = some []) (hc : close.kind = .symbol .closeParen) :
    closesBeforeArrow (due.length + 1) (own ++ close :: rest) ↔
      (∀ u ∈ own, u.kind ≠ .endOfFile) ∧ firstKind rest = .symbol .arrow := by
  induction own generalizing due with
  | nil =>
    obtain rfl := Option.some.inj closes
    rw [List.nil_append, closesBeforeArrow, hc]
    cases rest <;> simp [bracketStep, firstKind]
  | cons u own ih =>
    rw [due?_cons, Option.bind_eq_some_iff] at closes
    obtain ⟨due', step, closes⟩ := closes
    have later := ih closes
    rw [List.cons_append, closesBeforeArrow, List.forall_mem_cons]
    by_cases atEnd : u.kind = .endOfFile
    · simp [atEnd]
    · simp only [beq_iff_eq, atEnd, if_false, ne_eq, not_false_eq_true, true_and]
      obtain ⟨sign, close, kind, opens, rfl⟩ | ⟨sign, kind, shuts, rfl⟩ | ⟨plain, rfl⟩ :=
        TokenKind.due?_cases step
      · have opening : bracketStep u.kind = some true := by
          obtain ⟨rfl, -⟩ | ⟨rfl, -⟩ | ⟨rfl, -⟩ := Symbol.eq_of_closing? opens <;> rw [kind] <;> rfl
        rw [opening]
        exact later
      · have closing : bracketStep u.kind = some false := by
          obtain rfl | rfl | rfl := Symbol.eq_of_isClosing shuts <;> rw [kind] <;> rfl
        rw [closing]
        simpa using later
      · rw [plain]
        exact later

theorem closesBeforeArrow_parens (h : scope.stream.Parens i j) :
    closesBeforeArrow 0 (scope.stream.tokensFrom i) ↔ scope.stream.BeforeArrow i j := by
  have fields : scope.stream.BeforeArrow i j ↔
      (∀ u ∈ scope.stream.between (i + 1) j, u.kind ≠ .endOfFile) ∧
        firstKind (scope.stream.tokensFrom (j + 1)) = .symbol .arrow := by
    rw [scope.stream.firstKind_tokensFrom]
    exact ⟨fun h => ⟨h.noEnd, h.arrow⟩, fun h => ⟨h.1, h.2⟩⟩
  rw [fields, TokenStream.tokensFrom_of_kind_ne (by simp [h.opening]), closesBeforeArrow, h.opening,
    ← scope.stream.between_append_tokensFrom h.lt,
    TokenStream.tokensFrom_of_kind_ne (i := j) (by simp [h.closing])]
  exact closesBeforeArrow_iff h.nested h.closing

theorem yields_arguments_parens {expr : Parser Expr} (sound : Sound scope expr)
    (h : scope.stream.Parens s.cursor j) :
    Yields (arguments expr) scope s fun _ t => t.cursor = j + 1 := by
  refine (yields_arguments_stands sound).mono ?_
  rintro answer t ⟨close, stop, -, -, own, closing⟩
  have ends : bracketStep (scope.stream.get j).kind = some false := by rw [h.closing]; rfl
  have before : scope.stream.Due j [] (s.cursor + 1) := ⟨h.lt, h.nested⟩
  have after := own.keepsDue ends before
  rcases Nat.eq_or_lt_of_le after.le with rfl | lt
  · exact stop
  · obtain ⟨due, step, -⟩ := after.step lt (TokenStream.Due.lt_size_of_ends ends)
    rw [closing] at step
    cases step

/-- What an arrow function starts with: its parameters in parentheses, or a name alone. -/
def arrowParams (nested : Nested) : Parser (List Expr) := do
  if ← isSymbol .openParen then
    let (params, _) ← arguments nested.assignment
    return params
  else
    let t ← expect .identifier
    return [.ofName t]

/-- An arrow function starts at an index, as far as a look ahead can tell: with a name before `=>`,
    or with a parenthesis that closes before `=>`. -/
inductive LooksLikeArrow (stream : TokenStream) (i : Nat) : Prop
  | name (hk : (stream.get i).kind = .identifier)
      (arrow : (stream.get (i + 1)).kind = .symbol .arrow)
  | list (hk : (stream.get i).kind = .symbol .openParen)
      (arrow : closesBeforeArrow 0 (stream.tokensFrom i))

theorem yields_startsAsyncArrow_looks (u : Token) :
    Yields (startsAsyncArrow u) scope s fun a _ =>
      a = true → u.kind = .identifier ∧ LooksLikeArrow scope.stream (s.cursor + 1) := by
  simp [startsAsyncArrow, asyncArrowFollows]
  intro name _
  split
  · next next => simpa [name] using .name next
  · next next => simpa [startsArrowAt, name] using .list next
  · simp

theorem yields_startsArrow_looks :
    Yields (startsArrow (scope.stream.get s.cursor) (scope.stream.get (s.cursor + 1))) scope s
      fun a _ => a = true → LooksLikeArrow scope.stream s.cursor := by
  simp [startsArrow, startsArrowAt]
  exact ⟨fun name => .name name, fun _ paren => .list paren⟩

/-- The reader of an operand has seen that an arrow function starts, and where its parameters do:
    after the word `async`, or at once. -/
inductive EntersArrow (scope : Scope) (s : ParserState) : Bool → ParserState → Prop
  | async (starts : startsAsyncArrow (scope.stream.get s.cursor) scope s = .ok true s) :
      EntersArrow scope s true (s.ahead 1)
  | direct (other : startsAsyncArrow (scope.stream.get s.cursor) scope s = .ok false s)
      (starts : startsArrow (scope.stream.get s.cursor) (scope.stream.get (s.cursor + 1)) scope s =
        .ok true s) : EntersArrow scope s false s

namespace EntersArrow

variable {nested : Nested} {isAsync : Bool} {u : ParserState}

theorem looksLikeArrow (h : EntersArrow scope s isAsync u) :
    LooksLikeArrow scope.stream u.cursor := by
  cases h with
  | async starts => exact (yields_startsAsyncArrow_looks _ starts rfl).2
  | direct _ starts => exact yields_startsArrow_looks starts rfl

theorem primary_eq (h : EntersArrow scope s isAsync u) (nested : Nested) :
    primary nested scope s =
      arrowFunction nested (scope.stream.get s.cursor).span isAsync scope u := by
  have start : (scope.stream.get s.cursor).kind = .identifier ∨
      (scope.stream.get s.cursor).kind = .symbol .openParen := by
    cases h with
    | async starts => exact .inl (yields_startsAsyncArrow_looks _ starts rfl).1
    | direct _ starts =>
      cases yields_startsArrow_looks starts rfl with
      | name hk => exact .inl hk
      | list hk => exact .inr hk
  have noLiteral : (scope.stream.get s.cursor).kind ∉ literalKinds := by
    rcases start with kind | kind <;> rw [kind] <;> decide
  have noEnd : (scope.stream.get s.cursor).kind ≠ .endOfFile := by
    rcases start with kind | kind <;> simp [kind]
  rw [primary, bind_of_ok current_apply, bind_of_ok peek_apply, literalOf?_eq_none noLiteral]
  dsimp only
  cases h with
  | async starts =>
    rw [bind_of_ok starts]
    exact bind_of_ok (advance_apply noEnd)
  | direct other starts =>
    rw [bind_of_ok other]
    simp only [Bool.false_eq_true, ↓reduceIte]
    rw [bind_of_ok starts]
    rfl

end EntersArrow

theorem arrowParams_stops {nested : Nested} {params : List Expr} (sound : nested.Sound scope)
    (looks : LooksLikeArrow scope.stream s.cursor)
    (paired : (scope.stream.get s.cursor).kind = .symbol .openParen →
      ∃ j, scope.stream.Parens s.cursor j)
    (read : arrowParams nested scope s = .ok params t) :
    (scope.stream.get t.cursor).kind = .symbol .arrow ∧
      ∀ j, scope.stream.Parens s.cursor j → t.cursor = j + 1 := by
  unfold arrowParams at read
  rw [bind_of_ok (isSymbol_apply _)] at read
  cases looks with
  | name hk arrow =>
    have noParen (j : Nat) (h : scope.stream.Parens s.cursor j) : False := by
      have paren := h.opening
      rw [hk] at paren
      cases paren
    rw [hk] at read
    obtain ⟨word, u, first, last⟩ := bind_eq_ok.mp read
    rw [expect_apply hk (by simp)] at first
    cases first
    cases last
    exact ⟨arrow, fun j h => (noParen j h).elim⟩
  | list hk arrow =>
    rw [hk] at read
    obtain ⟨answer, u, list, last⟩ := bind_eq_ok.mp read
    cases last
    have stops (j : Nat) (h : scope.stream.Parens s.cursor j) : t.cursor = j + 1 :=
      yields_arguments_parens sound.assignment h list
    obtain ⟨j, h⟩ := paired hk
    have follows := ((closesBeforeArrow_parens h).mp arrow).arrow
    rw [← stops j h] at follows
    exact ⟨follows, stops⟩

/-- Looking ahead tells arrow functions apart. At a parenthesis that closes with brackets that nest
    well between, the function is read if `=>` follows and the file does not end before, and what
    stands in parentheses is read otherwise. Once it has been seen that a function starts, `=>`
    follows its parameters, whatever they are, and a list of them ends where it closes. -/
theorem primary_lookahead (scope : Scope) (s : ParserState) (levels : Nat) :
    (∀ j, scope.stream.Parens s.cursor j →
      (scope.stream.BeforeArrow s.cursor j → primary (.within levels) scope s =
        arrowFunction (.within levels) (scope.stream.get s.cursor).span false scope s) ∧
      (¬scope.stream.BeforeArrow s.cursor j →
        primary (.within levels) scope s = grouped (.within levels) scope s)) ∧
    ∀ isAsync u, EntersArrow scope s isAsync u →
      primary (.within levels) scope s =
        arrowFunction (.within levels) (scope.stream.get s.cursor).span isAsync scope u ∧
      (((scope.stream.get u.cursor).kind = .symbol .openParen →
          ∃ j, scope.stream.Parens u.cursor j) →
        ∀ params t, arrowParams (.within levels) scope u = .ok params t →
          expectSymbol .arrow scope t = .ok (scope.stream.get t.cursor) (t.ahead 1) ∧
          ∀ j, scope.stream.Parens u.cursor j → t.cursor = j + 1) := by
  constructor
  · intro j h
    have tokens : scope.remaining s =
        scope.stream.get s.cursor :: scope.stream.tokensFrom (s.cursor + 1) :=
      TokenStream.tokensFrom_of_kind_ne (by simp [h.opening])
    have looks := closesBeforeArrow_parens h
    rw [← Scope.remaining, tokens] at looks
    rw [primary_symbol h.opening tokens]
    constructor
    · intro arrow
      rw [if_pos ⟨rfl, looks.mpr arrow⟩]
    · intro other
      rw [if_neg fun arrow => other (looks.mp arrow.2), nameOrBrackets_symbol h.opening]
  · intro isAsync u h
    refine ⟨h.primary_eq _, fun paired params t read => ?_⟩
    obtain ⟨arrow, stops⟩ :=
      arrowParams_stops (sound_within scope levels) h.looksLikeArrow paired read
    exact ⟨expect_apply arrow (by simp), stops⟩

theorem primary_lookahead_default :
    ∃ scope : Scope, scope.stream.toList = tokenize "(a, b = [(c)]) => a" ∧
      primary (.within 8) scope .initial =
        arrowFunction (.within 8) (scope.stream.get 0).span false scope .initial ∧
      ∃ params t, arrowParams (.within 8) scope .initial = .ok params t ∧ params.all isParam ∧
        params.length = 2 ∧ t.cursor = 11 ∧
        expectSymbol .arrow scope t = .ok (scope.stream.get t.cursor) (t.ahead 1) := by
  let scope : Scope := ⟨.ofList (tokenize "(a, b = [(c)]) => a"), ⟨true, 8⟩, none⟩
  have parens : scope.stream.Parens 0 10 :=
    ⟨by decide, by decide +kernel, by decide +kernel, by decide +kernel⟩
  have arrow : scope.stream.BeforeArrow 0 10 := ⟨by decide +kernel, by decide +kernel⟩
  have read : (match arrowParams (.within 8) scope .initial with
      | .ok params _ => params.all isParam && params.length == 2
      | .error _ _ => false) = true := by decide +kernel
  have looks : closesBeforeArrow 0 (scope.remaining .initial) :=
    (closesBeforeArrow_parens parens).mpr arrow
  have enters : EntersArrow scope .initial false .initial :=
    .direct (startsAsyncArrow_symbol parens.opening)
      ((startsArrow_parens parens.opening).trans (congrArg (Reply.ok · .initial) looks))
  obtain ⟨branch, entered⟩ := primary_lookahead scope .initial 8
  obtain ⟨-, stops⟩ := entered false .initial enters
  cases answer : arrowParams (.within 8) scope .initial with
  | ok params t =>
    rw [answer, Bool.and_eq_true, beq_iff_eq] at read
    obtain ⟨found, last⟩ := stops (fun _ => ⟨10, parens⟩) params t answer
    exact ⟨scope, by decide +kernel, (branch 10 parens).1 arrow, params, t, answer, read.1, read.2,
      last 10 parens, found⟩
  | error e t =>
    rw [answer] at read
    cases read

end Expr

end PulseSyntax
