import PulseSyntax.Proofs.Block.Linked
import PulseSyntax.Proofs.Markup.Linked
import PulseSyntax.Proofs.Parser.Splice
import PulseSyntax.Proofs.Program.Alone
import PulseSyntax.Proofs.Program.Progress

namespace PulseSyntax

open PulseSyntax.Parser

section

open Scope.Link

variable {a b : Scope} {T : a.Link b} {α ε : Type} {s t : ParserState}

namespace Import

theorem copies_bareSource {start start' : Span} {specifiers specifiers' : List ImportSpecifier}
    (same : specifiers.map (·.unplaced) = specifiers'.map (·.unplaced)) :
    T.Copies 3 (fun _ => unplaced) (bareSource start specifiers) (bareSource start' specifiers') s :=
  copies_expectKeyword (copies_expect (by simp) (by simp) fun _ => copies_pure (by simp [unplaced, same]))

theorem copies_namedParser :
    T.Copies 3 (fun _ => ImportSpecifier.unplaced) namedParser namedParser s := by
  refine copies_expectName (copies_eat (by simp) (by simp) (fun _ => ?_) fun _ => copies_pure rfl)
  exact copies_expect (by simp) (by simp) fun _ => copies_pure rfl

theorem copies_namespaceParser (star : (a.stream.get s.cursor).kind = .symbol .star) :
    T.Copies 3 (fun _ => ImportSpecifier.unplaced) namespaceParser namespaceParser s :=
  copies_pass (by simp [star]) (by simp [star]) (copies_expectKeyword
    (copies_expect (by simp) (by simp) fun _ => copies_pure rfl))

theorem copies_bindingsParser :
    T.Copies 3 (each fun _ => ImportSpecifier.unplaced) bindingsParser bindingsParser s := by
  refine copies_current ?_
  refine .ite (fun star => ?_) fun _ => .ite (fun brace => ?_) fun _ => copies_of_fails fail_ne_ok
  · refine (copies_namespaceParser (beq_iff_eq.mp star)).bind fun _ _ _ _ same => copies_pure ?_
    exact congrArg ([·]) same
  · rw [beq_iff_eq] at brace
    refine copies_pass (by simp [brace]) (by simp [brace]) ?_
    have specifiers := copies_commaSeparated .closeBrace (T := T) (s := s.ahead 1) (n := 2)
      (fun _ _ => steady_namedParser) fun _ => copies_namedParser
    exact specifiers.bind fun _ _ _ _ same => copies_expectSymbol (by simp) (copies_pure same)

theorem copies_bare : T.Copies 3 (fun _ => unplaced) bare bare s := by
  refine copies_expectKeyword (copies_is (fun string => ?_) fun _ => copies_is (fun name => ?_) fun _ => ?_)
  · exact copies_pass (by rw [string]; simp) (by rw [string]; simp) (copies_pure rfl)
  · refine copies_pass (by rw [name]; simp) (by rw [name]; simp) ?_
    refine copies_eatSymbol (by simp) (fun _ => ?_) fun _ => copies_bareSource rfl
    exact copies_bindingsParser.bind fun _ _ _ _ same => copies_bareSource (congrArg (_ :: ·) same)
  · exact copies_bindingsParser.bind fun _ _ _ _ same => copies_bareSource same

end Import

theorem PageDecl.parser_copies (unforked : T.On s.cursor → ¬ T.Forks s.cursor) :
    T.Copies 3 (fun _ => PageDecl.unplaced) parser parser s :=
  copies_expectAny (by simp) (fun _ => unforked) fun _ => copies_expectKeyword
    (copies_expectStringOr (by simp) (by simp) (copies_pure rfl))

theorem RouteDecl.parser_copies (unforked : T.On s.cursor → ¬ T.Forks s.cursor) :
    T.Copies 3 (fun _ => RouteDecl.unplaced) parser parser s :=
  copies_expectAny (by simp) (fun _ => unforked) fun _ => copies_expectKeyword
    (copies_expect (by simp) (by simp) fun _ => copies_pure rfl)

namespace Declaration

variable {word : Keyword} {d : Declaration}

theorem unforked (here : Declarations.reader.fieldAt? a s = some word) (on : T.On s.cursor) :
    ¬ T.Forks s.cursor := by
  intro forks
  obtain ⟨_, _, branch, -⟩ := T.forks on forks
  change ofKinds? _ _ = some word at here
  rw [fork_sign on forks] at here
  obtain ⟨name, -⟩ | name := branch.name <;> rw [name] at here <;> cases here

theorem copies_bare (inFile : a.quotation = none)
    (here : Declarations.reader.fieldAt? a s = some word) (plain : word ≠ .style) :
    T.Copies 3 unplaced (bare word) (bare word) s := by
  have outer {α ε : Type} {e : (TokenRange → TokenRange) → α → ε} {p : Parser α}
      (h : T.Copies 0 e p p s) : T.Copies 3 e p p s := h.mono (Nat.zero_le 3)
  cases word
  case import_ => exact Import.copies_bare.map fun _ _ same => congrArg import_ same
  case page => exact (PageDecl.parser_copies (unforked here)).map fun _ _ same => congrArg page same
  case route => exact (RouteDecl.parser_copies (unforked here)).map fun _ _ same => congrArg route same
  case props => exact (outer (PropertyBlock.parser_copies _)).map fun _ _ same => congrArg props same
  case state => exact (outer (PropertyBlock.parser_copies _)).map fun _ _ same => congrArg state same
  case view => exact ViewBlock.parser_copies.map fun _ _ same => congrArg view same
  case actions => exact (outer (ActionsBlock.parser_copies inFile)).map fun _ _ same => congrArg actions same
  case router => exact (outer (RouterBlock.parser_copies inFile)).map fun _ _ same => congrArg router same
  case store => exact (outer (StoreBlock.parser_copies inFile)).map fun _ _ same => congrArg store same
  case style => exact absurd rfl plain
  all_goals exact copies_of_fails Declarations.failUnknown_ne_ok

end Declaration

/-- Where no token starts the head of a branch, the second run meets one after the other what the first
    one meets. -/
theorem Scope.Link.run {i n : Nat} (on : T.On i) (within : Within T.bound (i + n))
    (plain : ∀ k, k < n → ¬ T.Forks (i + k) ∧ (a.stream.get (i + k)).kind ≠ .endOfFile) :
    T.On (i + n) ∧ T.move (i + n) = T.move i + n := by
  induction n with
  | zero => exact ⟨on, rfl⟩
  | succ n ih =>
    obtain ⟨there, moved⟩ := ih (within.mono (by omega)) fun k lt => plain k (Nat.lt_succ_of_lt lt)
    obtain ⟨unforked, real⟩ := plain n (Nat.lt_succ_self n)
    obtain ⟨there, next⟩ := T.next there within unforked real
    exact ⟨there, by rw [← Nat.add_assoc, next, moved, Nat.add_assoc]⟩

theorem StyleBlock.parser_linked {block : StyleBlock} (ok : parser a s = .ok block t)
    (nested : WellNested (a.stream.between (s.cursor + 2) (t.cursor - 1))) (on : T.On s.cursor)
    (within : Within T.bound t.cursor)
    (unforked : ∀ i, s.cursor ≤ i → i < t.cursor → ¬ T.Forks i) :
    T.On t.cursor ∧ ∃ block', parser b (T.moved s) = .ok block' (T.moved t) ∧
      block.unplaced = block'.unplaced := by
  have reaches := (parser_starting (c := a.course s.depth) s rfl).reaches ok
  obtain ⟨stop, stands, ends⟩ := Stands.of_ok ok
  obtain ⟨n, rfl⟩ := Nat.exists_eq_add_of_le (Nat.le_trans (Nat.le_add_right _ 2) stands.le)
  obtain rfl : t = ⟨s.cursor + n + 1, s.depth⟩ := by
    cases t
    cases ends
    exact congrArg _ reaches.depth
  have run {k : Nat} (le : k ≤ n + 1) := Scope.Link.run on (within.mono (Nat.add_le_add_left le _))
    fun l lt => ⟨unforked _ (Nat.le_add_right _ l) (by simp only; omega),
      reaches.inside _ (Nat.le_add_right _ l) (by simp only; omega)⟩
  obtain ⟨there, moved⟩ := run (Nat.le_refl _)
  have same (k : Nat) (le : k ≤ n) :
      a.stream.get (s.cursor + k) = b.stream.get (T.move s.cursor + k) := by
    obtain ⟨here, move⟩ := run (Nat.le_succ_of_le le)
    rw [← move]
    exact T.token here (within.mono (by simp only; omega))
  have size : T.move s.cursor + n < b.stream.size := by
    rw [← (run (Nat.le_succ n)).2]
    exact (T.inside (run (Nat.le_succ n)).1).2
  obtain ⟨block', second, alike⟩ := parser_copied size same T.options ok nested
  refine ⟨there, block', ?_, alike⟩
  rw [Scope.Link.moved, Scope.Link.moved, Nat.add_assoc, moved]
  exact second

/-- A style block of the file is read from one state to another. -/
def Scope.DeclaresStyle (scope : Scope) (s t : ParserState) : Prop :=
  ∃ es block, Declared scope .initial es s ∧ Declarations.reader.fieldAt? scope s = some .style ∧
    StyleBlock.parser scope s = .ok block t

/-- The brackets in the style blocks of the file nest well. -/
def Scope.StylesNest (scope : Scope) : Prop :=
  ∀ s t, scope.DeclaresStyle s t →
    WellNested (scope.stream.between (s.cursor + 2) (t.cursor - 1))

theorem Declaration.fieldAt?_linked {word : Keyword}
    (here : Declarations.reader.fieldAt? a s = some word) (on : T.On s.cursor)
    (within : Within T.bound (s.cursor + 2)) :
    Declarations.reader.fieldAt? b (T.moved s) = some word := by
  have first := T.token on (within.mono (Nat.le_succ _))
  change ofKinds? _ _ = some word at here
  change ofKinds? (b.stream.get (T.move s.cursor)).kind (b.stream.get (T.move s.cursor + 1)).kind = _
  have real : (a.stream.get s.cursor).kind ≠ .endOfFile := fun kind => by
    rw [kind] at here
    cases here
  obtain ⟨there, next⟩ := T.next on (within.mono (Nat.le_succ _)) (unforked here on) real
  rw [← next, ← first, ← T.token there within]
  exact here

theorem Declared.linked (inFile : a.quotation = none) (nest : a.StylesNest)
    (apart : ∀ u v, a.DeclaresStyle u v → ∀ i, u.cursor ≤ i → i < v.cursor → ¬ T.Forks i)
    {prior es : List Declaration} (h : Declared a s es t) (before : Declared a .initial prior s)
    (on : T.On s.cursor) (within : Within T.bound (t.cursor + 3)) :
    T.On t.cursor ∧ ∃ es', Declared b (T.moved s) es' (T.moved t) ∧
      es.map (Declaration.unplaced T.left) = es'.map (Declaration.unplaced T.right) := by
  induction h generalizing prior with
  | nil s => exact ⟨on, [], .nil _, rfl⟩
  | @semicolon s t es kind more ih =>
    have here : Within T.bound (s.cursor + 1) := within.mono (Nat.le_add_right_of_le more.le)
    have real : (a.stream.get s.cursor).kind ≠ .endOfFile := by simp [kind]
    obtain ⟨there, next⟩ := moved_ahead on here (unforked (by simp [kind]) on) real
    obtain ⟨final, es', rest, same⟩ := ih (before.trans (.semicolon kind (.nil _))) there within
    rw [← next] at rest
    exact ⟨final, es', .semicolon (by rw [moved_cursor, ← T.token on here, kind]) rest, same⟩
  | @declaration s t u word e es here read more ih =>
    have onward := (Declared.reaches_of_bare here read).2
    have upTo : Within T.bound (t.cursor + 3) := within.mono (Nat.add_le_add_right more.le 3)
    have first : T.On t.cursor ∧ ∃ e', Declaration.bare word b (T.moved s) = .ok e' (T.moved t) ∧
        e.unplaced T.left = e'.unplaced T.right := by
      by_cases style : word = .style
      · subst style
        obtain ⟨block, parsed, rfl⟩ := map_eq_ok.mp read
        have declares : a.DeclaresStyle s t := ⟨prior, block, before, here, parsed⟩
        obtain ⟨there, block', second, alike⟩ := StyleBlock.parser_linked parsed (nest _ _ declares) on
          (upTo.mono (Nat.le_add_right _ 3)) (apart _ _ declares)
        exact ⟨there, .style block', map_eq_ok.mpr ⟨block', second, rfl⟩,
          congrArg Declaration.style alike⟩
      · exact ((Declaration.copies_bare inFile here style) read).2 on upTo
    obtain ⟨there, e', second, alike⟩ := first
    obtain ⟨final, es', rest, same⟩ := ih (before.trans (.declaration here read (.nil _))) there within
    refine ⟨final, e' :: es', .declaration ?_ second rest, List.cons_eq_cons.mpr ⟨alike, same⟩⟩
    exact Declaration.fieldAt?_linked here on (upTo.mono (by omega))

theorem Declared.parser_linked {left right : TokenRange → TokenRange} {program : Program}
    {es es' : List Declaration} {u : ParserState} (h : Declared b s es' u)
    (atEnd : (b.stream.get u.cursor).kind = .endOfFile) (distinct : Declarations.filling.Distinct es)
    (own : program.toDeclarations = Declarations.filling.fill es)
    (same : es.map (Declaration.unplaced left) = es'.map (Declaration.unplaced right)) :
    ∃ program', Program.parser b s = .ok program' u ∧
      program.unplaced left = program'.unplaced right := by
  rw [← Declarations.distinct_unplaced left, same, Declarations.distinct_unplaced] at distinct
  obtain ⟨program', read, filled⟩ := h.parser_ok atEnd distinct
  refine ⟨program', read, ?_⟩
  rw [Program.unplaced, Program.unplaced, own, filled, Declarations.fill_unplaced,
    Declarations.fill_unplaced, same]

end

/-- What the head of a branch with a condition is spelled with after its sign: `else-if`, `else @if` or
    `else if`. -/
inductive SpellsElseIf : List Token → Prop
  | one {name : Token} (identifier : name.kind = .identifier) (text : name.text = "else-if") :
    SpellsElseIf [name]
  | signed {first sign second : Token} (else_ : first.kind = .keyword .else_)
    (at_ : sign.kind = .symbol .atSign) (if_ : second.kind = .keyword .if_) :
    SpellsElseIf [first, sign, second]
  | two {first second : Token} (else_ : first.kind = .keyword .else_)
    (if_ : second.kind = .keyword .if_) : SpellsElseIf [first, second]

namespace SpellsElseIf

variable {name rest : List Token} {sign : Token} {scope : Scope} {i : Nat}

theorem loose (h : SpellsElseIf name) (at_ : sign.kind = .symbol .atSign) :
    ∀ t ∈ sign :: name, t.kind.Loose := by
  have loose {t : Token} {kind : TokenKind} (found : t.kind = kind) (loose : kind.Loose) :
      t.kind.Loose := found ▸ loose
  have first := loose at_ ⟨by simp, rfl, by simp⟩
  cases h with
  | one identifier =>
    simpa [first] using loose identifier ⟨by simp, rfl, by simp⟩
  | signed else_ at_ if_ =>
    simp [first, loose else_ ⟨by simp, rfl, by simp⟩, loose at_ ⟨by simp, rfl, by simp⟩,
      loose if_ ⟨by simp, rfl, by simp⟩]
  | two else_ if_ =>
    simp [first, loose else_ ⟨by simp, rfl, by simp⟩, loose if_ ⟨by simp, rfl, by simp⟩]

theorem branchAt (h : SpellsElseIf name) (at_ : sign.kind = .symbol .atSign)
    (tokens : scope.stream.tokensFrom i = sign :: name ++ rest) : scope.BranchAt i (sign :: name).length := by
  intro depth
  have get {j : Nat} {t : Token} {rest : List Token} (tokens : scope.stream.tokensFrom j = t :: rest) :
      scope.stream.get j = t ∧ scope.stream.tokensFrom (j + 1) = rest :=
    ⟨TokenStream.get_of_tokensFrom tokens, TokenStream.tokensFrom_succ tokens⟩
  have pass {j : Nat} {kind : TokenKind} (found : (scope.stream.get j).kind = kind)
      (real : kind ≠ .endOfFile) {α : Type} (f : Token → Parser α) :
      (advance >>= f) scope ⟨j, depth⟩ = f (scope.stream.get j) scope ⟨j + 1, depth⟩ :=
    bind_of_ok (advance_apply (found ▸ real))
  obtain ⟨rfl, later⟩ := get tokens
  rw [MarkupNode.branchHead, bind_of_ok peek_apply, bind_of_ok (isSymbol_apply _), if_neg (by simp [at_])]
  cases h with
  | one identifier text =>
    obtain ⟨rfl, -⟩ := get later
    rw [if_pos (by simp [identifier, text]), pass at_ (by simp), pass identifier (by simp)]
    rfl
  | signed else_ sign if_ =>
    obtain ⟨rfl, second⟩ := get later
    obtain ⟨rfl, third⟩ := get second
    obtain ⟨rfl, -⟩ := get third
    rw [if_neg (by simp [else_]), if_pos (by simp [else_]), pass at_ (by simp), pass else_ (by simp),
      bind_of_ok (isSymbol_apply _), bind_of_ok peek_apply, if_pos (by simp [sign, if_]),
      pass sign (by simp), pass if_ (by simp)]
    rfl
  | two else_ if_ =>
    obtain ⟨rfl, second⟩ := get later
    obtain ⟨rfl, -⟩ := get second
    rw [if_neg (by simp [else_]), if_pos (by simp [else_]), pass at_ (by simp), pass else_ (by simp),
      bind_of_ok (isSymbol_apply _), bind_of_ok peek_apply, if_neg (by simp [if_]),
      bind_of_ok ((eat_apply (by simp)).trans (if_pos if_))]
    rfl

end SpellsElseIf

theorem SpellsElseIf.of_branchHead {scope : Scope} {s t : ParserState}
    (ok : MarkupNode.branchHead scope s = .ok (some .elseIf) t) :
    ∃ sign name rest, scope.remaining s = sign :: name ++ rest ∧ sign.kind = .symbol .atSign ∧
      SpellsElseIf name ∧ t = s.ahead (sign :: name).length := by
  have next {j : Nat} {kind : TokenKind} (found : (scope.stream.get j).kind = kind)
      (real : kind ≠ .endOfFile) :
      scope.stream.tokensFrom j = scope.stream.get j :: scope.stream.tokensFrom (j + 1) :=
    TokenStream.tokensFrom_of_kind_ne (found ▸ real)
  have pass {α : Type} {s : ParserState} {kind : TokenKind} (found : (scope.stream.get s.cursor).kind = kind)
      (real : kind ≠ .endOfFile) (f : Token → Parser α) :
      (advance >>= f) scope s = f (scope.stream.get s.cursor) scope (s.ahead 1) :=
    bind_of_ok (advance_apply (found ▸ real))
  rw [MarkupNode.branchHead, bind_of_ok peek_apply, bind_of_ok (isSymbol_apply _)] at ok
  split at ok
  · cases ok
  next sign =>
  have at_ : (scope.stream.get s.cursor).kind = .symbol .atSign := by simpa using sign
  refine ⟨scope.stream.get s.cursor, ?_⟩
  rw [Scope.remaining, next at_ (by simp)]
  split at ok
  · next own =>
    rw [Bool.and_eq_true, beq_iff_eq, beq_iff_eq] at own
    rw [pass at_ (by simp), pass (s := s.ahead 1) own.1 (by simp)] at ok
    cases ok
    exact ⟨_, _, by rw [next own.1 (by simp)]; rfl, at_, .one own.1 own.2, rfl⟩
  split at ok
  · next own =>
    rw [beq_iff_eq] at own
    rw [pass at_ (by simp), pass (s := s.ahead 1) own (by simp), bind_of_ok (isSymbol_apply _),
      bind_of_ok peek_apply] at ok
    rw [next own (by simp)]
    split at ok
    · next second =>
      rw [Bool.and_eq_true, beq_iff_eq, beq_iff_eq] at second
      rw [pass second.1 (by simp), pass (s := ((s.ahead 1).ahead 1).ahead 1) second.2 (by simp)] at ok
      cases ok
      have third : scope.stream.tokensFrom (s.cursor + 1 + 1) = _ := next second.1 (by simp)
      have fourth : scope.stream.tokensFrom (s.cursor + 1 + 1 + 1) = _ := next second.2 (by simp)
      exact ⟨_, _, by rw [third, fourth]; rfl, at_, .signed own second.1 second.2, rfl⟩
    · have read := @eat_apply scope ((s.ahead 1).ahead 1) (.keyword .if_) (by simp)
      split at read
      · next if_ =>
        rw [bind_of_ok read] at ok
        cases ok
        have third : scope.stream.tokensFrom (s.cursor + 1 + 1) = _ := next if_ (by simp)
        exact ⟨_, _, by rw [third]; rfl, at_, .two own if_, rfl⟩
      · rw [bind_of_ok read] at ok
        cases ok
  · cases ok

namespace MarkupNode

/-- The branches of a conditional that are read from a state on, one after the other. One without a
    condition is the last. -/
inductive Branched (inner : MarkupInner) (scope : Scope) :
    ParserState → List Branch → Option (List MarkupNode) → ParserState → Prop
  | none {s t : ParserState} (head : branchHead scope s = .ok .none t) :
    Branched inner scope s [] .none t
  | last {s t u : ParserState} {nodes : List MarkupNode} {own : Span}
    (head : branchHead scope s = .ok (some .else_) t)
    (read : inner.children scope t = .ok (nodes, own) u) : Branched inner scope s [] (some nodes) u
  | more {s u v w : ParserState} {sign : Token} {name tokens : List Token} {condition : Expr}
    {nodes : List MarkupNode} {own : Span} {branches : List Branch}
    {alternate : Option (List MarkupNode)} (head : scope.remaining s = sign :: name ++ tokens)
    (at_ : sign.kind = .symbol .atSign) (spelled : SpellsElseIf name)
    (test : inner.condition scope (s.ahead (sign :: name).length) = .ok condition u)
    (read : inner.children scope u = .ok (nodes, own) v)
    (rest : Branched inner scope v branches alternate w) :
    Branched inner scope s (.mk condition nodes (sign.span.cover own) :: branches) alternate w

variable {scope : Scope} {s t : ParserState} {inner : MarkupInner} {node : MarkupNode}

theorem branchParser_ok {x : Branches} {next : ForInStep Branches}
    (ok : branchParser inner x scope s = .ok next t) :
    (next = .done x ∧ branchHead scope s = .ok .none t) ∨
    (∃ u nodes own, next = .done { x with alternate := some nodes, span := x.span.cover own } ∧
      branchHead scope s = .ok (some .else_) u ∧ inner.children scope u = .ok (nodes, own) t) ∨
    ∃ u v condition nodes own, branchHead scope s = .ok (some .elseIf) u ∧
      inner.condition scope u = .ok condition v ∧ inner.children scope v = .ok (nodes, own) t ∧
      next = .yield { x with
        more := x.more.push (.mk condition nodes ((scope.stream.get s.cursor).span.cover own))
        span := x.span.cover own } := by
  rw [branchParser, bind_of_ok current_apply] at ok
  obtain ⟨head, u, first, ok⟩ := bind_eq_ok.mp ok
  cases head with
  | none =>
    cases ok
    exact .inl ⟨rfl, first⟩
  | some head =>
    cases head with
    | elseIf =>
      obtain ⟨condition, v, test, ok⟩ := bind_eq_ok.mp ok
      obtain ⟨⟨nodes, own⟩, w, read, ok⟩ := bind_eq_ok.mp ok
      cases ok
      exact .inr (.inr ⟨u, v, condition, nodes, own, first, test, read, rfl⟩)
    | else_ =>
      obtain ⟨⟨nodes, own⟩, v, read, ok⟩ := bind_eq_ok.mp ok
      cases ok
      exact .inr (.inl ⟨u, nodes, own, rfl, first, read⟩)

theorem branched_of_loop (moving : ∀ depth, inner.Moving (scope.course depth)) {x z : Branches}
    (inside : s.cursor < scope.stream.size) (open_ : x.alternate = .none)
    (ok : Parser.loop (branchParser inner) x scope s = .ok z t) :
    ∃ branches, z.more.toList = x.more.toList ++ branches ∧
      Branched inner scope s branches z.alternate t := by
  have all : Repeats (branchParser inner) scope x s (Parser.loop (branchParser inner) x scope s) :=
    (turning_branchParser (moving s.depth)).repeats rfl inside
  rw [ok] at all
  clear ok inside
  generalize reply : Reply.ok z t = answer at all
  induction all with
  | failed => cases reply
  | done inside read =>
    cases reply
    obtain ⟨same, head⟩ | ⟨u, nodes, own, same, head, children⟩ | ⟨_, _, _, _, _, _, _, _, same⟩ :=
      branchParser_ok read
    · cases same
      exact ⟨[], (List.append_nil _).symm, open_ ▸ .none head⟩
    · cases same
      exact ⟨[], (List.append_nil _).symm, .last head children⟩
    · cases same
  | yield inside read rest ih =>
    obtain ⟨same, -⟩ | ⟨_, _, _, same, -⟩ | ⟨u, v, condition, nodes, own, head, test, children, same⟩ :=
      branchParser_ok read
    · cases same
    · cases same
    · cases same
      obtain ⟨branches, more, later⟩ := ih open_ reply
      obtain ⟨sign, name, tokens, parts, at_, spelled, rfl⟩ := SpellsElseIf.of_branchHead head
      refine ⟨_, ?_, .more parts at_ spelled test children later⟩
      rw [more, Array.toList_push, List.append_assoc, List.singleton_append,
        Scope.get_of_remaining parts]

/-- The readers of what stands inside a piece of markup with so many levels left. -/
def innerWithin (levels : Nat) : MarkupInner := ⟨Expr.parser, parserWithin levels⟩

theorem conditionalParser_ok {levels : Nat}
    (ok : conditionalParser (innerWithin levels) scope s = .ok node t) :
    ∃ condition consequent branches alternate own span u v,
      node = conditional condition consequent branches alternate span ∧
      (innerWithin levels).condition scope (s.ahead 2) = .ok condition u ∧
      (innerWithin levels).children scope u = .ok (consequent, own) v ∧
      Branched (innerWithin levels) scope v branches alternate t := by
  have moving (depth : Nat) : (innerWithin levels).Moving (scope.course depth) :=
    ⟨Expr.parser_moving, moving_parserWithin levels False.elim False.elim⟩
  obtain ⟨start, w, sign, ok⟩ := bind_eq_ok.mp ok
  obtain ⟨-, -, rfl⟩ := (expect_eq_ok (by simp)).mp sign
  obtain ⟨word, w, keyword, ok⟩ := bind_eq_ok.mp ok
  obtain ⟨-, -, rfl⟩ := (expect_eq_ok (by simp)).mp keyword
  obtain ⟨condition, u, test, ok⟩ := bind_eq_ok.mp ok
  obtain ⟨⟨consequent, own⟩, v, read, ok⟩ := bind_eq_ok.mp ok
  obtain ⟨branches, w, rounds, ok⟩ := bind_eq_ok.mp ok
  cases ok
  have proceeds := (MarkupInner.starting_children (moving u.depth)).moving u rfl
  have inside := (proceeds.reaches read).lt_size (proceeds.progress read trivial)
  obtain ⟨more, same, branched⟩ := branched_of_loop moving inside rfl rounds
  obtain rfl : branches.more.toList = more := same
  exact ⟨condition, consequent, _, branches.alternate, own, _, u, v, rfl, test, read, branched⟩

end MarkupNode

/-- Where a branch has its condition, its head may be spelled in another way: the file declares the same,
    and the functions in it have the same bodies, further on by as many tokens as the head takes more. A
    style block may not be around the place, and its brackets nest well. In every conditional the branches
    stand in the order in which they are read, and one without a condition is the last. -/
theorem Program.parser_elseIf {a b : Scope} {first name name' rest : List Token} {sign opening : Token}
    {program : Program} {t : ParserState} (options : a.options = b.options)
    (inFile : a.quotation = none) (inFile' : b.quotation = none)
    (tokens : a.stream.toList = first ++ sign :: name ++ opening :: rest)
    (tokens' : b.stream.toList = first ++ sign :: name' ++ opening :: rest)
    (at_ : sign.kind = .symbol .atSign) (paren : opening.kind = .symbol .openParen)
    (head : SpellsElseIf name) (head' : SpellsElseIf name') (nest : a.StylesNest)
    (apart : ∀ u v, a.DeclaresStyle u v → v.cursor ≤ first.length ∨ first.length < u.cursor)
    (ok : Program.parser a .initial = .ok program t) :
    (∃ program' t', Program.parser b .initial = .ok program' t' ∧
      program.unplaced (fun r =>
        let move := Scope.Splice.move first.length (first.length + (sign :: name).length)
          (first.length + (sign :: name').length)
        ⟨move r.start, move r.stop⟩) = program'.unplaced id) ∧
    ∀ levels s node u, MarkupNode.conditionalParser (MarkupNode.innerWithin levels) a s = .ok node u →
      ∃ condition consequent branches alternate own span v w,
        node = .conditional condition consequent branches alternate span ∧
        (MarkupNode.innerWithin levels).condition a (s.ahead 2) = .ok condition v ∧
        (MarkupNode.innerWithin levels).children a v = .ok (consequent, own) w ∧
        MarkupNode.Branched (MarkupNode.innerWithin levels) a w branches alternate u := by
  refine ⟨?_, fun levels s node u read => MarkupNode.conditionalParser_ok read⟩
  have splice := Scope.Splice.of_toList options inFile inFile' tokens tokens' (head.loose at_)
    (head'.loose at_) (by simp [paren]) (by rw [paren]; rfl)
  have branch {scope : Scope} {name : List Token} (head : SpellsElseIf name)
      (tokens : scope.stream.toList = first ++ sign :: name ++ opening :: rest) :
      scope.stream.get first.length = sign ∧ scope.BranchAt first.length (sign :: name).length := by
    have from_ : scope.stream.tokensFrom first.length = sign :: name ++ opening :: rest := by
      rw [TokenStream.tokensFrom_eq, tokens, List.append_assoc, List.drop_left]
    exact ⟨TokenStream.get_of_tokensFrom from_, head.branchAt at_ from_⟩
  obtain ⟨own, branch₁⟩ := branch head tokens
  obtain ⟨own', branch₂⟩ := branch head' tokens'
  let T : a.Link b := splice.linkAcross (by simp) (by simp) (own.trans own'.symm)
    (by rwa [Nat.add_sub_cancel_left]) (by rwa [Nat.add_sub_cancel_left])
  obtain ⟨atEnd, es, declared, distinct, filled⟩ := Declared.of_program ok
  have apart (u v : ParserState) (style : a.DeclaresStyle u v) (i : Nat) (start : u.cursor ≤ i)
      (stop : i < v.cursor) : ¬ T.Forks i := fun (here : i = first.length) => by
    have outside := apart u v style
    omega
  have free (i : Nat) : Within T.bound i := by rintro _ ⟨⟩
  obtain ⟨there, es', second, same⟩ :=
    declared.linked (T := T) inFile nest apart (.nil _) (.inl (Nat.zero_le _)) (free _)
  have last : (b.stream.get (T.moved t).cursor).kind = .endOfFile := by
    rw [Scope.Link.moved_cursor, ← T.token there (free _), atEnd]
  obtain ⟨program', read, alike⟩ := second.parser_linked last distinct filled same
  exact ⟨program', _, read, alike⟩

theorem Scope.DeclaresStyle.mem {scope : Scope} {s t : ParserState} (h : scope.DeclaresStyle s t) :
    ∃ token ∈ scope.stream.toList, token.kind = .keyword .style := by
  obtain ⟨_, _, -, -, ok⟩ := h
  obtain ⟨stop, stands, -⟩ := StyleBlock.Stands.of_ok ok
  exact ⟨_, TokenStream.get_mem _ _, stands.word⟩

def branchTokens (name : List Token) : List Token :=
  (tokenize "view { @if (a) { } @else-if (b) { } }").take 10 ++ name ++
    (tokenize "view { @if (a) { } @else-if (b) { } }").drop 11

/-- The second branch starts with `@else-if`, or else with `@else @if`. -/
theorem Program.parser_elseIf_signed : ∃ name name' program t program' t',
    Program.parser ⟨.ofList (branchTokens name), .standard, none⟩ .initial = .ok program t ∧
    Program.parser ⟨.ofList (branchTokens name'), .standard, none⟩ .initial = .ok program' t' ∧
    name.map Token.raw = ["else-if"] ∧ name'.map Token.raw = ["else", "@", "if"] ∧
    program.view ≠ none ∧ program.unplaced (fun r =>
      let move := Scope.Splice.move 9 11 13
      ⟨move r.start, move r.stop⟩) = program'.unplaced id := by
  let at_ (i : Nat) : Token := (branchTokens []).getD i default
  let name : Token := (tokenize r"view { @else-if (").getD 3 default
  let other (i : Nat) : Token := (tokenize r"view { @else @if").getD i default
  have kinds : (at_ 9).kind = .symbol .atSign ∧ (at_ 10).kind = .symbol .openParen ∧
      name.kind = .identifier ∧ name.text = "else-if" ∧ (other 3).kind = .keyword .else_ ∧
      (other 4).kind = .symbol .atSign ∧ (other 5).kind = .keyword .if_ := by decide +kernel
  obtain ⟨atSign, opening, identifier, text, else_, second, if_⟩ := kinds
  have tokens : (TokenStream.ofList (branchTokens [name])).toList =
      (branchTokens []).take 9 ++ at_ 9 :: [name] ++ at_ 10 :: (branchTokens []).drop 11 := by
    decide +kernel
  have tokens' : (TokenStream.ofList (branchTokens [other 3, other 4, other 5])).toList =
      (branchTokens []).take 9 ++ at_ 9 :: [other 3, other 4, other 5] ++
        at_ 10 :: (branchTokens []).drop 11 := by
    decide +kernel
  have plain (u v : ParserState) :
      ¬ (⟨.ofList (branchTokens [name]), .standard, none⟩ : Scope).DeclaresStyle u v := fun style => by
    obtain ⟨token, member, kind⟩ := style.mem
    have none : ∀ t ∈ (TokenStream.ofList (branchTokens [name])).toList, t.kind ≠ .keyword .style := by
      decide +kernel
    exact none token member kind
  have read : (Program.parser ⟨.ofList (branchTokens [name]), .standard, none⟩
      .initial).answer.toOption.any (·.view.isSome) = true := by
    decide +kernel
  cases ok : Program.parser ⟨.ofList (branchTokens [name]), .standard, none⟩ .initial with
  | error =>
    rw [ok] at read
    cases read
  | ok program t =>
    rw [ok] at read
    obtain ⟨⟨program', t', second, same⟩, -⟩ := Program.parser_elseIf
      (a := ⟨.ofList (branchTokens [name]), .standard, none⟩)
      (b := ⟨.ofList (branchTokens [other 3, other 4, other 5]), .standard, none⟩) rfl rfl rfl tokens
      tokens' atSign opening (.one identifier text) (.signed else_ second if_)
      (fun u v style => (plain u v style).elim) (fun u v style => (plain u v style).elim) ok
    have length : ((branchTokens []).take 9).length = 9 := by decide +kernel
    rw [length] at same
    exact ⟨_, _, program, t, program', t', ok, second, by decide +kernel, by decide +kernel,
      Option.isSome_iff_ne_none.mp read, same⟩

end PulseSyntax
