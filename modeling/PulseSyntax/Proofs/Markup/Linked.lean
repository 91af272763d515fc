import PulseSyntax.Proofs.Expr.Linked
import PulseSyntax.Proofs.Markup.Twin
import PulseSyntax.Proofs.Parser.Entries

namespace PulseSyntax

open PulseSyntax.Parser Scope.Link

namespace Scope.Link

def self (scope : Scope) (quoted : scope.quotation ≠ none) (left right : TokenRange → TokenRange) :
    scope.Link scope where
  move := id
  On i := i < scope.stream.size
  bound := none
  Forks _ := False
  left := left
  right := right
  same := absurd rfl
  options := rfl
  quotation := rfl
  inside on := ⟨on, on⟩
  token _ _ := rfl
  next _ _ _ real := ⟨TokenStream.lt_size_of_kind_ne real, rfl⟩
  forks _ := False.elim
  settles := nofun
  lines _ _ _ := Iff.rfl
  arrows _ _ _ := rfl
  body {s t r} ok on _ := by
    have onward := (Course.starting_rawBlock (c := scope.course s.depth) s rfl).reaches ok
    exact ⟨onward.inside_of_inside on, r, ok, by rw [if_neg quoted]⟩

end Scope.Link

namespace TextNode

variable {options : Options} {t : Token} {keep keep' : TokenRange → TokenRange}

theorem readHole_erased {start : Nat} {source : List Char} {e : Expr}
    (read : readHole options t start source = .ok e) : e.erased keep = e.erased keep' := by
  obtain ⟨v, read, -⟩ := readHole_eq_ok.mp read
  let T := self (holeScope options t start source) (by simp [holeScope]) keep keep'
  have run := (Expr.parser_copies (T := T) read).2 (TokenStream.nonempty _) (by rintro _ ⟨⟩)
  obtain ⟨-, e', second, same⟩ := run
  obtain ⟨rfl, -⟩ := Reply.ok.inj (read.symm.trans second)
  exact same

theorem ofToken_unplaced {node : TextNode} (ok : ofToken options t = .ok node) :
    node.unplaced keep = node.unplaced keep' := by
  obtain ⟨parts, -, -⟩ := ofToken_eq_ok.mp ok
  have read {start : Nat} {source : List Char} {e : Expr}
      (read : readHole options t start source = .ok e) :
      ∃ e', readHole options t start source = .ok e' ∧ e.erased keep = e'.erased keep' :=
    ⟨e, read, readHole_erased read⟩
  obtain ⟨parts', second, same⟩ := assemble_moved keep read t.place t.place parts
  rw [parts, Except.ok.injEq] at second
  rw [unplaced, unplaced, same, second]

end TextNode

theorem Scope.BranchAt.name {scope : Scope} {i length : Nat} (h : scope.BranchAt i length) :
    (scope.stream.get (i + 1)).kind = .identifier ∧ (scope.stream.get (i + 1)).text = "else-if" ∨
      (scope.stream.get (i + 1)).kind = .keyword .else_ := by
  have head := h 0
  rw [MarkupNode.branchHead, bind_of_ok peek_apply, bind_of_ok (isSymbol_apply _)] at head
  split at head
  · cases head
  · split at head
    · next own =>
      rw [Bool.and_eq_true, beq_iff_eq, beq_iff_eq] at own
      exact .inl own
    · split at head
      · next own => exact .inr (beq_iff_eq.mp own)
      · cases head

variable {a b : Scope} {T : a.Link b} {α ε : Type} {s : ParserState} {n : Nat}
variable {e : (TokenRange → TokenRange) → α → ε} {expr : Parser Expr} {inner : MarkupInner}

theorem copies_text (t : Token) :
    T.Copies n TextNode.unplaced (TextNode.parser t) (TextNode.parser t) s := by
  intro x u ok
  rw [TextNode.parser, bind_of_ok scope_apply] at ok
  cases read : TextNode.ofToken a.options t with
  | error e =>
    rw [read] at ok
    cases ok
  | ok node =>
    rw [read] at ok
    cases ok
    refine ⟨fun _ => Nat.le_refl _, fun on _ => ⟨on, x, ?_, TextNode.ofToken_unplaced read⟩⟩
    rw [TextNode.parser, bind_of_ok scope_apply, ← T.options, read]
    rfl

/-- The readers of what stands inside a node read alike in both runs. -/
structure MarkupInner.Linked (T : a.Link b) (inner : MarkupInner) : Prop where
  moving : ∀ scope depth, inner.Moving (Scope.course scope depth)
  expr : ∀ s, T.Copies 0 Expr.erased inner.expr inner.expr s
  node : ∀ s, T.Copies 3 MarkupNode.unplaced inner.node inner.node s

namespace MarkupInner

variable (h : inner.Linked T)

include h

theorem copies_expr : T.Copies 3 Expr.erased inner.expr inner.expr s := (h.expr s).mono (Nat.zero_le 3)

theorem copies_arguments : T.Copies 3 (fun keep x => each Expr.erased keep x.1)
    (Expr.arguments inner.expr) (Expr.arguments inner.expr) s :=
  (Expr.copies_arguments (fun scope depth => (h.moving scope depth).expr) h.expr).mono (Nat.zero_le 3)

theorem copies_children : T.Copies 3 (fun keep x => each MarkupNode.unplaced keep x.1) inner.children
    inner.children s :=
  (copies_braced (fun scope depth => (h.moving scope depth).node) h.node).mono (Nat.le_succ 2)

theorem copies_optionalChildren (span span' : Span) :
    T.Copies 3 (fun keep x => each MarkupNode.unplaced keep x.1) (inner.optionalChildren span)
      (inner.optionalChildren span') s :=
  copies_isSymbol (fun _ => (copies_children h).bind fun _ _ _ _ same => copies_pure same)
    fun _ => copies_pure rfl

theorem copies_condition : T.Copies 3 Expr.erased inner.condition inner.condition s :=
  copies_expectSymbol (by simp) ((copies_expr h).bind fun _ _ _ _ same =>
    copies_expectSymbol (by simp) (copies_pure same))

end MarkupInner

theorem copies_hyphenPart (part : String × Span) :
    T.Copies 3 (Scope.Link.optional fun _ => id) (hyphenPart part) (hyphenPart part) s := by
  obtain ⟨name, span⟩ := part
  refine copies_current ?_
  by_cases minus : (a.stream.get s.cursor).kind = .symbol .minus
  · refine copies_peek (unforked (by simp [minus])) (by simp [minus]) ?_
    refine .ite (fun more => ?_) fun _ => copies_pure rfl
    simp only [Bool.and_eq_true, Bool.or_eq_true, beq_iff_eq] at more
    refine copies_pass (by simp [minus]) (by simp [minus]) (copies_pass ?_ ?_ (copies_pure rfl))
    all_goals
      rcases more.2 with kind | kind
      · simp [kind]
      · intro other
        rw [show (a.stream.get (s.cursor + 1)).kind = _ from other] at kind
        cases kind
  · refine copies_peekAny fun _ _ => ?_
    rw [if_neg (by simp [minus]), if_neg (by simp [minus])]
    exact copies_pure rfl

theorem copies_attributeName : T.Copies 3 (fun _ => id) attributeName attributeName s := by
  rw [attributeName_eq]
  refine copies_expectName (copies_chain (fun _ _ => extending_hyphenPart) (fun x y s same => ?_) rfl)
  obtain rfl : x = y := same
  exact copies_hyphenPart x

namespace ElementProp

theorem copies_namedParser (h : ∀ s, T.Copies 0 Expr.erased expr expr s) :
    T.Copies 3 ElementProp.unplaced (namedParser expr) (namedParser expr) s := by
  refine copies_attributeName.bind fun name name' _ _ same => ?_
  obtain rfl : name = name' := same
  refine copies_eatSymbol (by simp) (fun _ => ?_) fun _ => copies_pure rfl
  have value (s : ParserState) (x y : Expr) (alike : x.erased T.left = y.erased T.right) :
      T.Copies 3 ElementProp.unplaced (pure (named name.1 x false (name.2.cover x.span)))
        (pure (named name.1 y false (name.2.cover y.span))) s :=
    copies_pure (congrArg (named name.1 · false default) alike)
  refine copies_eatSymbol (by simp) (fun _ => ?_) fun _ => ?_
  · refine ((h _).mono (Nat.zero_le 3)).bind fun x y _ _ alike => ?_
    exact copies_expectSymbol (by simp) (value _ x y alike)
  · exact ((h _).mono (Nat.zero_le 3)).bind fun x y _ _ alike => value _ x y alike

theorem parser_copies (h : ∀ s, T.Copies 0 Expr.erased expr expr s) :
    T.Copies 3 ElementProp.unplaced (parser expr) (parser expr) s := by
  refine copies_isSymbol (fun found => ?_) fun _ => copies_namedParser h
  refine copies_pass (by simp [found]) (by simp [found]) ?_
  exact ((h _).mono (Nat.zero_le 3)).bind fun _ _ _ _ same =>
    copies_pure (congrArg (ElementProp.spread · default) same)

theorem copies_listParser (moving : ∀ scope depth, (Scope.course scope depth).Moving expr)
    (h : ∀ s, T.Copies 0 Expr.erased expr expr s) :
    T.Copies 3 (each ElementProp.unplaced) (listParser expr) (listParser expr) s := by
  refine copies_expectSymbol (by simp) ?_
  have props := copies_commaSeparated .closeParen (T := T) (s := s.ahead 1) (n := 2)
    (fun scope depth => parser_steady (moving scope depth).steady) fun _ => parser_copies h
  exact props.bind fun _ _ _ _ same => copies_expectSymbol (by simp) (copies_pure same)

end ElementProp

namespace Scope.Link

structure Directs (T : a.Link b) (s : ParserState) : Prop where
  sign : (a.stream.get s.cursor).kind = .symbol .atSign
  unforked : T.On s.cursor → ¬ T.Forks s.cursor
  real : (a.stream.get (s.cursor + 1)).kind ≠ .endOfFile
  plain : (a.stream.get (s.cursor + 1)).kind ≠ .symbol .atSign

end Scope.Link

theorem copies_modifierPart (allowModifiers : Bool) (name : Token) (x : Array Token × Span) :
    T.Copies 3 (Scope.Link.optional fun _ => id) (modifierPart allowModifiers name x)
      (modifierPart allowModifiers name x) s := by
  obtain ⟨modifiers, span⟩ := x
  refine copies_current (.ite (fun _ => copies_pure rfl) fun found => ?_)
  rw [bne_iff_ne, not_not] at found
  refine .ite (fun _ => copies_of_fails fail_ne_ok) fun _ => ?_
  exact copies_pass (by simp [found]) (by simp [found]) (copies_pure rfl)

section

variable (d : T.Directs s)

include d

theorem copies_peekName {f g : Token → Parser α}
    (h : T.Copies 3 e (f (a.stream.get (s.cursor + 1))) (g (a.stream.get (s.cursor + 1))) s) :
    T.Copies 3 e (peek >>= f) (peek >>= g) s := copies_peek d.unforked (by simp [d.sign]) h

theorem copies_directiveHead (allowModifiers : Bool) :
    T.Copies 3 (fun _ => id) (directiveHead allowModifiers) (directiveHead allowModifiers) s := by
  rw [directiveHead_eq]
  refine copies_expectAny (by simp) (fun _ => d.unforked) fun _ => copies_pass d.real d.plain ?_
  refine Copies.bind (e := fun _ => id) ?_ fun x y _ _ same => ?_
  · refine copies_chain (fun _ _ => extending_modifierPart allowModifiers _) (fun x y _ same => ?_) rfl
    obtain rfl : x = y := same
    exact copies_modifierPart allowModifiers _ x
  · obtain rfl : x = y := same
    exact copies_pure rfl

theorem copies_plainHead : T.Copies 3 (fun _ => id) plainHead plainHead s := by
  refine (copies_directiveHead d false).bind fun x y _ _ same => ?_
  obtain rfl : x = y := same
  exact copies_pure rfl

theorem EventHandler.parser_copies (h : inner.Linked T) :
    T.Copies 3 (fun keep x => x.1.unplaced keep) (parser inner.expr) (parser inner.expr) s := by
  refine copies_peekName d ((copies_directiveHead d true).bind fun head head' _ _ same => ?_)
  obtain rfl : head = head' := same
  refine copies_isSymbol (fun _ => ?_) fun _ => copies_pure rfl
  refine (MarkupInner.copies_arguments h).bind ?_
  rintro ⟨arguments, close⟩ ⟨arguments', close'⟩ _ _ alike
  dsimp only [each] at alike ⊢
  rcases arguments with _ | ⟨x, _ | ⟨y, rest⟩⟩
  · rw [List.map_eq_nil_iff.mp alike.symm]
    exact copies_pure rfl
  · obtain ⟨x', rest', rfl, first, rest⟩ := List.map_eq_cons_iff.mp alike.symm
    rw [List.map_eq_nil_iff.mp rest]
    exact copies_pure (by simp [unplaced, first])
  · exact copies_of_fails failAtPrevious_ne_ok

theorem BoundaryTarget.parser_copies :
    T.Copies 3 (fun _ x => x.1) BoundaryTarget.parser BoundaryTarget.parser s := by
  refine copies_peekName d ((copies_plainHead d).bind fun _ _ _ _ _ => ?_)
  refine copies_isSymbol (fun _ => copies_of_fails fun ok => ?_) fun _ => copies_pure rfl
  rw [if_pos rfl, bind_of_ok previous_apply] at ok
  exact fail_ne_ok ok

end

namespace Directive

theorem copies_modelModifiers (ts : List Token) :
    T.Copies n (fun _ => id) (modelModifiers ts) (modelModifiers ts) s := by
  induction ts with
  | nil => exact copies_pure rfl
  | cons t ts ih =>
    rw [modelModifiers]
    split
    · exact copies_of_fails failAt_ne_ok
    · exact ih.bind fun _ _ _ _ same => copies_pure (congrArg (List.cons _) same)

theorem copies_attributeParser (h : ∀ s, T.Copies 0 Expr.erased expr expr s) :
    T.Copies 3 A11yAttribute.unplaced (attributeParser expr) (attributeParser expr) s := by
  refine copies_attributeName.bind fun name name' _ _ same => copies_expectSymbol (by simp) ?_
  obtain rfl : name = name' := same
  exact ((h _).mono (Nat.zero_le 3)).bind fun _ _ _ _ value =>
    copies_pure (congrArg (A11yAttribute.mk name.1 · default) value)

theorem copies_optionalArgument {item : Parser α} (h : ∀ s, T.Copies 3 e item item s)
    (span span' : Span) :
    T.Copies 3 (fun keep x => Scope.Link.optional e keep x.1) (optionalArgument item span)
      (optionalArgument item span') s := by
  have close (s : ParserState) (x y : Option α)
      (same : Scope.Link.optional e T.left x = Scope.Link.optional e T.right y) :
      T.Copies 3 (fun keep x => Scope.Link.optional e keep x.1)
        (expectSymbol .closeParen >>= fun t => pure (x, span.cover t.span))
        (expectSymbol .closeParen >>= fun t => pure (y, span'.cover t.span)) s :=
    copies_expectSymbol (by simp) (copies_pure same)
  refine copies_eatSymbol (by simp) (fun _ => ?_) fun _ => copies_pure rfl
  refine copies_isSymbol (fun _ => close _ none none rfl) fun _ => ?_
  have value (s : ParserState) : T.Copies 3 (Scope.Link.optional e) (some <$> item) (some <$> item) s :=
    (h s).map fun _ _ same => congrArg some same
  exact (value _).bind fun x y _ _ same => close _ x y same

section

variable (d : T.Directs s)

include d

theorem copies_liveParser : T.Copies 3 Directive.unplaced liveParser liveParser s := by
  refine (copies_plainHead d).bind fun _ _ _ _ _ => ?_
  have word (s : ParserState) :
      T.Copies 3 (fun _ => id) (expectStringOr .identifier) (expectStringOr .identifier) s := by
    rw [← bind_pure (expectStringOr _)]
    exact copies_expectStringOr (by simp) (by simp) (copies_pure rfl)
  refine (copies_optionalArgument word _ _).bind ?_
  rintro ⟨priority, span⟩ ⟨priority', span'⟩ _ _ same
  obtain rfl : priority = priority' := by simpa [Scope.Link.optional] using same
  exact copies_pure rfl

variable (h : inner.Linked T)

include h

theorem copies_modelParser :
    T.Copies 3 Directive.unplaced (modelParser inner) (modelParser inner) s := by
  refine (copies_directiveHead d true).bind fun head head' _ _ same => ?_
  obtain rfl : head = head' := same
  refine (copies_modelModifiers _).bind fun modifiers modifiers' _ _ same => ?_
  obtain rfl : modifiers = modifiers' := same
  refine (MarkupInner.copies_condition h).bind fun _ _ _ _ binding => copies_previous fun _ _ => ?_
  rw [Expr.isAssignable_of_erased binding]
  refine .ite (fun _ => copies_of_fails failAt_ne_ok) fun _ => copies_pure ?_
  exact congrArg (model modifiers · default) binding

theorem copies_a11yParser :
    T.Copies 3 Directive.unplaced (a11yParser inner.expr) (a11yParser inner.expr) s := by
  refine (copies_plainHead d).bind fun _ _ t _ _ => copies_expectSymbol (by simp) ?_
  have attributes := copies_commaSeparated .closeParen (T := T) (s := t.ahead 1) (n := 2)
    (fun scope depth => (starting_attributeParser (h.moving scope depth).expr.steady).steady)
    fun _ => copies_attributeParser h.expr
  refine attributes.bind fun _ _ _ _ same => copies_expectSymbol (by simp) (copies_pure ?_)
  exact congrArg (a11y · default) same

theorem copies_focusTrapParser :
    T.Copies 3 Directive.unplaced (focusTrapParser inner.expr) (focusTrapParser inner.expr) s := by
  refine (copies_plainHead d).bind fun _ _ _ _ _ => ?_
  refine (copies_optionalArgument (fun _ => MarkupInner.copies_expr h) _ _).bind ?_
  exact fun _ _ _ _ same => copies_pure (congrArg (focusTrap · default) same)

theorem parser_copies : T.Copies 3 Directive.unplaced (parser inner) (parser inner) s := by
  refine copies_peekName d (.ite (fun _ => copies_modelParser d h) fun _ =>
    .ite (fun _ => copies_a11yParser d h) fun _ => .ite (fun _ => copies_liveParser d) fun _ =>
      .ite (fun _ => copies_focusTrapParser d h) fun _ => .ite (fun _ => ?_) fun _ =>
        .ite (fun _ => ?_) fun _ => ?_)
  · exact (copies_plainHead d).bind fun _ _ _ _ _ => copies_pure rfl
  · exact (BoundaryTarget.parser_copies d).bind fun _ _ _ _ same =>
      copies_pure (congrArg (boundary · default) same)
  · exact (EventHandler.parser_copies d h).bind fun _ _ _ _ same =>
      copies_pure (congrArg (event · default) same)

end

section

variable {scope : Scope}

/-- Whether a directive belongs to the element before it, by its name and the token after that. -/
def attachesBy (name next : Token) : Bool :=
  if name.kind != .identifier || name.text == "else-if" then false
  else if name.text == "client" || name.text == "server" then next.kind != .symbol .openBrace
  else true

theorem attaches_apply : attaches scope s = .ok (attachesBy (scope.stream.get (s.cursor + 1))
    (scope.stream.get (s.cursor + 2))) s := by
  rw [attaches, bind_of_ok peek_apply, attachesBy]
  split
  · rfl
  · split <;> rfl

theorem attachesBy_branch {length : Nat} {next : Token} (branch : scope.BranchAt s.cursor length) :
    attachesBy (scope.stream.get (s.cursor + 1)) next = false := by
  rw [attachesBy, if_pos]
  rcases branch.name with ⟨-, text⟩ | kind
  · simp [text]
  · simp [kind]

theorem kind_of_attachesBy {name next : Token} (own : attachesBy name next = true) :
    name.kind = .identifier := by
  by_contra other
  rw [attachesBy, if_pos (by simp [other])] at own
  cases own

theorem attaches_linked (sign : (a.stream.get s.cursor).kind = .symbol .atSign) (on : T.On s.cursor)
    (within : Within T.bound (s.cursor + 3)) (v : Bool) (own : attaches a s = .ok v s) :
    attaches b (T.moved s) = .ok v (T.moved s) := by
  rw [attaches_apply, Reply.ok.injEq] at own ⊢
  refine ⟨own.1 ▸ ?_, rfl⟩
  by_cases forks : T.Forks s.cursor
  · obtain ⟨_, _, first, second, -⟩ := T.forks on forks
    rw [attachesBy_branch first]
    exact attachesBy_branch second
  obtain ⟨there, next⟩ := T.next on (within.mono (by omega)) forks (by simp [sign])
  have name := T.token there (within.mono (by omega))
  rw [moved_cursor, ← next, ← name]
  by_cases kind : (a.stream.get (s.cursor + 1)).kind = .identifier
  · obtain ⟨further, after⟩ := T.next there (within.mono (by omega)) (unforked (by simp [kind]) there)
      (by simp [kind])
    have second := T.token further (within.mono (by omega))
    rw [after, next] at second
    rw [second]
  · rw [attachesBy, attachesBy, if_pos (by simp [kind]), if_pos (by simp [kind])]

end

end Directive

namespace MarkupNode

variable (h : inner.Linked T)

include h

theorem copies_elementPart {tail tail' : ElementTail}
    (same : tail.unplaced T.left = tail'.unplaced T.right) :
    T.Copies 3 (Scope.Link.optional ElementTail.unplaced) (elementPart inner tail)
      (elementPart inner tail') s := by
  obtain ⟨directives, texts⟩ := Prod.ext_iff.mp same
  dsimp only [ElementTail.unplaced] at directives texts
  have text (real : (a.stream.get s.cursor).kind ≠ .endOfFile)
      (plain : (a.stream.get s.cursor).kind ≠ .symbol .atSign) :
      T.Copies 3 (Scope.Link.optional ElementTail.unplaced)
        (advance >>= fun t => TextNode.parser t >>= fun x =>
          pure (some { tail with texts := tail.texts.push x, span := tail.span.cover x.span }))
        (advance >>= fun t => TextNode.parser t >>= fun x =>
          pure (some { tail' with texts := tail'.texts.push x, span := tail'.span.cover x.span }))
        s := by
    refine copies_pass real plain ((copies_text _).bind fun _ _ _ _ alike => copies_pure ?_)
    simp [Scope.Link.optional, ElementTail.unplaced, directives, texts, alike]
  refine copies_current ?_
  split
  · next sign =>
    refine copies_look (m := 3) (Nat.le_refl 3) ⟨_, Directive.attaches_apply⟩
      (fun on within v own => Directive.attaches_linked sign on within v own) fun v own => ?_
    cases v with
    | false => exact copies_pure rfl
    | true =>
      have d : T.Directs s := by
        rw [Directive.attaches_apply, Reply.ok.injEq] at own
        have name := Directive.kind_of_attachesBy own.1
        refine ⟨sign, fun on forks => ?_, by simp [name], by simp [name]⟩
        obtain ⟨_, _, first, -⟩ := T.forks on forks
        rw [Directive.attachesBy_branch first] at own
        cases own.1
      refine (Directive.parser_copies d h).bind fun _ _ _ _ alike => copies_pure ?_
      simp [Scope.Link.optional, ElementTail.unplaced, directives, texts, alike]
  · next kind => exact text (by simp [kind]) (by simp [kind])
  · next kind => exact text (by simp [kind]) (by simp [kind])
  · exact copies_pure rfl

theorem copies_elementParser (real : (a.stream.get s.cursor).kind ≠ .endOfFile)
    (plain : (a.stream.get s.cursor).kind ≠ .symbol .atSign) :
    T.Copies 3 MarkupNode.unplaced (elementParser inner) (elementParser inner) s := by
  refine copies_pass real plain ?_
  extract_lets rest
  have tail (s : ParserState) (x y : List ElementProp × Span)
      (props : each ElementProp.unplaced T.left x.1 = each ElementProp.unplaced T.right y.1) :
      T.Copies 3 MarkupNode.unplaced (rest x) (rest y) s := by
    refine Copies.bind (e := ElementTail.unplaced) (copies_chain
      (fun scope depth => extending_elementPart (h.moving scope depth) False.elim)
      (fun _ _ _ => copies_elementPart h) rfl) fun t u _ _ same => ?_
    refine (MarkupInner.copies_optionalChildren h _ _).bind fun _ _ _ _ children => copies_pure ?_
    obtain ⟨directives, texts⟩ := Prod.ext_iff.mp same
    dsimp only [ElementTail.unplaced, Scope.Track.items, each] at directives texts props children
    simp [unplaced, unplacedAll_eq, props, directives, texts, children]
  refine copies_isSymbol (fun _ => ?_) fun _ => tail _ ([], _) ([], _) rfl
  have props := ElementProp.copies_listParser (T := T) (s := s.ahead 1)
    (fun scope depth => (h.moving scope depth).expr) h.expr
  exact props.bind fun props props' _ _ same => copies_previous fun t u =>
    tail _ (props, _) (props', _) same

end MarkupNode

namespace MarkupNode

theorem branch_ne_if {scope : Scope} {i length : Nat} (branch : scope.BranchAt i length) :
    ((scope.stream.get (i + 1)).kind == .keyword .if_) = false := by
  rw [beq_eq_false_iff_ne]
  rcases branch.name with ⟨kind, -⟩ | kind <;> simp [kind]

theorem copies_ifFollows {f g : Bool → Parser α} (sign : (a.stream.get s.cursor).kind = .symbol .atSign)
    (h : ∀ found, (found = true → T.Directs s) → T.Copies 3 e (f found) (g found) s) :
    T.Copies 3 e (peek >>= fun next => f (next.kind == .keyword .if_))
      (peek >>= fun next => g (next.kind == .keyword .if_)) s := by
  let look : Parser Bool := peek >>= fun next => pure (next.kind == .keyword .if_)
  have regroup (f : Bool → Parser α) :
      (peek >>= fun next => f (next.kind == .keyword .if_)) = look >>= f := rfl
  rw [regroup, regroup]
  refine copies_look (m := 2) (by omega) ⟨_, rfl⟩ (fun on within v own => ?_) fun v own => h v fun yes => ?_
  · obtain ⟨rfl, -⟩ := Reply.ok.inj own
    refine congrArg (Reply.ok · _) ?_
    dsimp only [moved_cursor]
    by_cases forks : T.Forks s.cursor
    · obtain ⟨_, _, first, second, -⟩ := T.forks on forks
      rw [branch_ne_if first, branch_ne_if second]
    · obtain ⟨there, next⟩ := T.next on (within.mono (by omega)) forks (by simp [sign])
      rw [← next, ← T.token there within]
  · obtain ⟨rfl, -⟩ := Reply.ok.inj own
    have word : (a.stream.get (s.cursor + 1)).kind = .keyword .if_ := beq_iff_eq.mp yes
    refine ⟨sign, fun on forks => ?_, by simp [word], by simp [word]⟩
    obtain ⟨_, _, first, -⟩ := T.forks on forks
    rw [word] at yes
    have other := branch_ne_if first
    rw [word] at other
    cases other

theorem copies_skip {p q : Parser α} (d : T.Directs s)
    (h : T.Copies n e p q ((s.ahead 1).ahead 1)) :
    T.Copies n e (advance >>= fun _ => advance >>= fun _ => p)
      (advance >>= fun _ => advance >>= fun _ => q) s :=
  copies_advance (by simp [d.sign]) d.unforked (copies_pass d.real d.plain h)

theorem copies_branchHead : T.Copies 3 (fun _ => id) branchHead branchHead s := by
  by_cases fork : T.On s.cursor ∧ T.Forks s.cursor
  · intro x t ok
    refine ⟨fun _ => ((steady_branchHead (c := a.course s.depth)) s rfl).reaches ok |>.cursor, ?_⟩
    intro on _
    obtain ⟨n, n', first, second, there, next⟩ := T.forks on fork.2
    rw [first s.depth, Reply.ok.injEq] at ok
    obtain ⟨rfl, rfl⟩ := ok
    refine ⟨there, _, ?_, rfl⟩
    rw [moved, moved, next]
    exact second s.depth
  have unforked : T.On s.cursor → ¬ T.Forks s.cursor := fun on forks => fork ⟨on, forks⟩
  rw [branchHead_eq]
  refine copies_isSymbol (fun sign => ?_) fun _ => copies_pure rfl
  refine copies_peek unforked (by simp [sign]) (.ite (fun own => ?_) fun _ => .ite (fun own => ?_)
    fun _ => copies_pure rfl)
  · rw [Bool.and_eq_true, beq_iff_eq] at own
    exact copies_skip ⟨sign, unforked, by simp [own.1], by simp [own.1]⟩ (copies_pure rfl)
  · rw [beq_iff_eq] at own
    refine copies_skip ⟨sign, unforked, by simp [own], by simp [own]⟩ ?_
    let rest (found : Bool) : Parser (Option BranchHead) :=
      if found then advance >>= fun _ => advance >>= fun _ => pure (some .elseIf)
      else eat (.keyword .if_) >>= fun word => if word then pure (some .elseIf) else pure (some .else_)
    have word (s : ParserState) : T.Copies 3 (fun _ => id) (rest false) (rest false) s :=
      copies_eat (by simp) (by simp) (fun _ => copies_pure rfl) fun _ => copies_pure rfl
    refine copies_isSymbol (fun sign => ?_) fun _ => copies_peekAny fun _ _ => word _
    refine copies_ifFollows (f := rest) (g := rest) sign fun found d => ?_
    cases found with
    | true => exact copies_skip (d rfl) (copies_pure rfl)
    | false => exact word _

section

variable {scope : Scope}

theorem keyFollows_apply : keyFollows scope s = .ok ((scope.stream.get s.cursor).kind.isHead &&
    (scope.stream.get s.cursor).text == "key" &&
    (scope.stream.get (s.cursor + 1)).kind == .symbol .openParen) s := by
  have head (kind : TokenKind) : kind.isHead = (kind == .identifier || kind == .selector) := by
    cases kind <;> rfl
  rw [head]
  rfl

theorem kind_of_isHead {kind : TokenKind} (head : kind.isHead) :
    kind ≠ .endOfFile ∧ kind ≠ .symbol .atSign := by
  rcases TokenKind.eq_of_isHead head with rfl | rfl <;> simp

theorem keyFollows_linked (on : T.On s.cursor) (within : Within T.bound (s.cursor + 2)) (v : Bool)
    (own : keyFollows a s = .ok v s) : keyFollows b (T.moved s) = .ok v (T.moved s) := by
  rw [keyFollows_apply, Reply.ok.injEq] at own ⊢
  refine ⟨own.1 ▸ ?_, rfl⟩
  rw [moved_cursor, ← T.token on (within.mono (Nat.le_succ _))]
  cases head : (a.stream.get s.cursor).kind.isHead with
  | false => rfl
  | true =>
    obtain ⟨real, plain⟩ := kind_of_isHead head
    obtain ⟨there, next⟩ := T.next on (within.mono (Nat.le_succ _)) (unforked plain on) real
    rw [← next, ← T.token there within]

end

theorem copies_iterationKind : T.Copies 3 (fun _ => id) iterationKind iterationKind s := by
  refine copies_current ?_
  split
  · next kind => exact copies_pass (by simp [kind]) (by simp [kind]) (copies_pure rfl)
  · exact copies_expectKeyword (copies_pure rfl)

variable (h : inner.Linked T)

include h

theorem copies_branchParser {branches branches' : Branches}
    (same : branches.unplaced T.left = branches'.unplaced T.right) :
    T.Copies 3 (Scope.Link.round Branches.unplaced) (branchParser inner branches)
      (branchParser inner branches') s := by
  obtain ⟨more, alternate⟩ := Prod.ext_iff.mp same
  dsimp only [Branches.unplaced] at more alternate
  refine copies_current (copies_branchHead.bind fun head head' _ _ alike => ?_)
  obtain rfl : head = head' := alike
  match head with
  | none => exact copies_done same
  | some .elseIf =>
    refine (MarkupInner.copies_condition h).bind fun _ _ _ _ condition => ?_
    refine (MarkupInner.copies_children h).bind fun _ _ _ _ consequent => copies_yield ?_
    rw [each, each] at consequent
    simp [Branches.unplaced, unplacedBranch, unplacedAll_eq, more, alternate, condition, consequent]
  | some .else_ =>
    refine (MarkupInner.copies_children h).bind fun _ _ _ _ nodes => copies_done ?_
    rw [each, each] at nodes
    simp [Branches.unplaced, more, nodes]

theorem copies_conditionalParser (unforked : T.On s.cursor → ¬ T.Forks s.cursor) :
    T.Copies 3 MarkupNode.unplaced (conditionalParser inner) (conditionalParser inner) s := by
  refine copies_expectAny (by simp) (fun _ => unforked) fun _ => copies_expectKeyword ?_
  refine (MarkupInner.copies_condition h).bind fun _ _ _ _ condition => ?_
  refine (MarkupInner.copies_children h).bind fun x y _ _ consequent => ?_
  refine Copies.bind (e := Branches.unplaced) (copies_loop
    (fun scope depth => turning_branchParser (h.moving scope depth))
    (fun _ _ _ same => copies_branchParser h same) rfl) fun _ _ _ _ same => copies_pure ?_
  obtain ⟨more, alternate⟩ := Prod.ext_iff.mp same
  dsimp only [Branches.unplaced, Scope.Track.items, each] at more alternate consequent
  simp [unplaced, unplacedAll_eq, unplacedBranches_eq, unplacedAlternate_eq, condition, consequent,
    more, alternate]

theorem copies_loopHead (keyword : LoopKeyword) :
    T.Copies 3 LoopHead.unplaced (loopHead inner keyword) (loopHead inner keyword) s := by
  refine copies_expectSymbol (by simp) (copies_expect (by simp) (by simp) fun _ => ?_)
  extract_lets rest
  have tail (s : ParserState) (index : Option String) :
      T.Copies 3 LoopHead.unplaced (rest index) (rest index) s := by
    refine copies_iterationKind.bind fun iteration iteration' _ _ same => ?_
    obtain rfl : iteration = iteration' := same
    refine (MarkupInner.copies_expr h).bind fun iterable iterable' _ _ list => ?_
    refine copies_expectSymbol (by simp) ?_
    extract_lets last last'
    have close (s : ParserState) (key key' : Option Expr)
        (same : Scope.Link.optional Expr.erased T.left key =
          Scope.Link.optional Expr.erased T.right key') :
        T.Copies 3 LoopHead.unplaced (last key) (last' key') s := by
      rw [Scope.Link.optional, Scope.Link.optional] at same
      exact copies_pure (by simp [LoopHead.unplaced, list, same])
    refine copies_look (m := 2) (by omega) ⟨_, rfl⟩ keyFollows_linked fun v own => ?_
    cases v with
    | false => exact close _ none none rfl
    | true =>
      rw [keyFollows_apply, Reply.ok.injEq, Bool.and_eq_true, Bool.and_eq_true] at own
      obtain ⟨real, plain⟩ := kind_of_isHead own.1.1.1
      have condition (s : ParserState) : T.Copies 3 (Scope.Link.optional Expr.erased)
          (some <$> inner.condition) (some <$> inner.condition) s :=
        (MarkupInner.copies_condition h).map fun _ _ same => congrArg some same
      exact copies_pass real plain ((condition _).bind fun key key' _ _ same => close _ key key' same)
  refine copies_eatSymbol (by simp) (fun _ => ?_) fun _ => tail _ none
  exact copies_expect (by simp) (by simp) fun _ => tail _ (some _)

theorem copies_loopParser (d : T.Directs s) :
    T.Copies 3 MarkupNode.unplaced (loopParser inner) (loopParser inner) s := by
  refine copies_expectAny (by simp) (fun _ => d.unforked) fun _ => copies_pass d.real d.plain ?_
  refine (copies_loopHead h _).bind fun _ _ _ _ head => ?_
  refine (MarkupInner.copies_children h).bind fun _ _ _ _ body => copies_pure ?_
  rw [each, each] at body
  simp [unplaced, unplacedAll_eq, head, body]

theorem copies_slotParser : T.Copies 3 MarkupNode.unplaced (slotParser inner) (slotParser inner) s := by
  refine copies_expectKeyword ?_
  extract_lets rest
  have tail (s : ParserState) (name : Option String) (span : Span) :
      T.Copies 3 MarkupNode.unplaced (rest (name, span)) (rest (name, span)) s := by
    refine (MarkupInner.copies_optionalChildren h _ _).bind fun _ _ _ _ same => copies_pure ?_
    rw [each, each] at same
    simp [unplaced, unplacedAll_eq, same]
  refine copies_is (fun found => ?_) fun _ => tail _ none _
  exact copies_pass (by rw [found]; simp) (by rw [found]; simp) (tail _ (some _) _)

theorem copies_pathArguments (name : String) :
    T.Copies 3 (fun keep x => (x.1.erased keep, x.2.1.map (Expr.erased keep)))
      (pathArguments inner name) (pathArguments inner name) s := by
  refine (MarkupInner.copies_arguments h).bind ?_
  rintro ⟨arguments, close⟩ ⟨arguments', close'⟩ _ _ same
  dsimp only [each] at same ⊢
  rcases arguments with _ | ⟨path, _ | ⟨options, _ | ⟨third, rest⟩⟩⟩
  · exact copies_of_fails failAtPrevious_ne_ok
  · obtain ⟨path', rest', rfl, first, rest⟩ := List.map_eq_cons_iff.mp same.symm
    rw [List.map_eq_nil_iff.mp rest]
    exact copies_pure (by simp [first])
  · obtain ⟨path', rest', rfl, first, rest⟩ := List.map_eq_cons_iff.mp same.symm
    obtain ⟨options', rest', rfl, second, rest⟩ := List.map_eq_cons_iff.mp rest
    rw [List.map_eq_nil_iff.mp rest]
    exact copies_pure (by simp [first, second])
  · exact copies_of_fails failAtPrevious_ne_ok

theorem copies_linkParser (d : T.Directs s) :
    T.Copies 3 MarkupNode.unplaced (linkParser inner) (linkParser inner) s := by
  refine (copies_plainHead d).bind fun head head' _ _ _ => (copies_pathArguments h "link").bind ?_
  rintro ⟨path, options, close⟩ ⟨path', options', close'⟩ _ _ same
  obtain ⟨paths, settings⟩ := Prod.mk.inj same
  refine copies_current ?_
  extract_lets kind rest rest'
  have tail (s : ParserState) (caption caption' : Option TextNode) (span span' : Span)
      (same : Scope.Link.optional TextNode.unplaced T.left caption =
        Scope.Link.optional TextNode.unplaced T.right caption') :
      T.Copies 3 MarkupNode.unplaced (rest (caption, span)) (rest' (caption', span')) s := by
    refine (MarkupInner.copies_optionalChildren h _ _).bind fun _ _ _ _ children => copies_pure ?_
    dsimp only [Scope.Link.optional, each] at same children
    simp [unplaced, unplacedAll_eq, paths, settings, same, children]
  refine .ite (fun own => ?_) fun _ => tail _ none none _ _ rfl
  have quoted : kind ≠ .endOfFile ∧ kind ≠ .symbol .atSign := by
    rw [Bool.or_eq_true, beq_iff_eq, beq_iff_eq] at own
    rcases own with own | own <;> simp [own]
  refine copies_pass quoted.1 quoted.2 ((copies_text _).bind fun x y _ _ alike => ?_)
  exact tail _ (some x) (some y) _ _ (congrArg some alike)

theorem copies_outletParser (d : T.Directs s) :
    T.Copies 3 MarkupNode.unplaced (outletParser inner) (outletParser inner) s := by
  refine (copies_plainHead d).bind fun head head' _ _ _ => ?_
  refine copies_isSymbol (fun _ => ?_) fun _ => copies_pure rfl
  refine (MarkupInner.copies_arguments h).bind ?_
  rintro ⟨arguments, close⟩ ⟨arguments', close'⟩ _ _ same
  dsimp only [each] at same ⊢
  rcases arguments with _ | ⟨container, _ | ⟨second, rest⟩⟩
  · rw [List.map_eq_nil_iff.mp same.symm]
    exact copies_pure rfl
  · obtain ⟨container', rest', rfl, first, rest⟩ := List.map_eq_cons_iff.mp same.symm
    rw [List.map_eq_nil_iff.mp rest]
    exact copies_pure (by simp [unplaced, first])
  · exact copies_of_fails fail_ne_ok

theorem copies_navigateParser (d : T.Directs s) :
    T.Copies 3 MarkupNode.unplaced (navigateParser inner) (navigateParser inner) s := by
  refine (copies_plainHead d).bind fun head head' _ _ _ => ?_
  refine (copies_pathArguments h "navigate").bind fun x y _ _ same => copies_pure ?_
  obtain ⟨paths, settings⟩ := Prod.mk.inj same
  simp [unplaced, paths, settings]

omit h in
theorem copies_emptyArguments (d : T.Directs s) :
    T.Copies 3 (fun _ (_ : Span) => ()) emptyArguments emptyArguments s := by
  refine (copies_plainHead d).bind fun head head' _ _ _ => ?_
  exact copies_eatSymbol (by simp) (fun _ => copies_expectSymbol (by simp) (copies_pure rfl))
    fun _ => copies_pure rfl

theorem copies_namedDirective (d : T.Directs s) (name : String) :
    T.Copies 3 MarkupNode.unplaced (namedDirective inner name) (namedDirective inner name) s := by
  refine .ite (fun _ => copies_of_fails fail_ne_ok) fun _ => .ite (fun _ => ?_) fun _ =>
    .ite (fun _ => copies_of_fails fail_ne_ok) fun _ => ?_
  · refine (BoundaryTarget.parser_copies d).bind fun _ _ _ _ target => ?_
    refine (MarkupInner.copies_optionalChildren h _ _).bind fun _ _ _ _ children => copies_pure ?_
    rw [each, each] at children
    simp [unplaced, unplacedAll_eq, target, children]
  · refine (EventHandler.parser_copies d h).bind fun _ _ _ _ handler => ?_
    refine (MarkupInner.copies_optionalChildren h _ _).bind fun _ _ _ _ children => copies_pure ?_
    rw [each, each] at children
    simp [unplaced, unplacedAll_eq, handler, children]

theorem copies_directiveParser (sign : (a.stream.get s.cursor).kind = .symbol .atSign) :
    T.Copies 3 MarkupNode.unplaced (directiveParser inner) (directiveParser inner) s := by
  by_cases fork : T.On s.cursor ∧ T.Forks s.cursor
  · obtain ⟨_, _, branch, -⟩ := T.forks fork.1 fork.2
    refine copies_of_fails fun ok => ?_
    rw [directiveParser, bind_of_ok peek_apply] at ok
    rcases branch.name with ⟨kind, text⟩ | kind
    · rw [kind, text] at ok
      exact fail_ne_ok ok
    · rw [kind] at ok
      exact fail_ne_ok ok
  have unforked : T.On s.cursor → ¬ T.Forks s.cursor := fun on forks => fork ⟨on, forks⟩
  have directs (real : (a.stream.get (s.cursor + 1)).kind ≠ .endOfFile)
      (plain : (a.stream.get (s.cursor + 1)).kind ≠ .symbol .atSign) : T.Directs s :=
    ⟨sign, unforked, real, plain⟩
  refine copies_peek unforked (by simp [sign]) ?_
  split
  · exact copies_conditionalParser h unforked
  · next kind => exact copies_loopParser h (directs (by simp [kind]) (by simp [kind]))
  · next kind => exact copies_loopParser h (directs (by simp [kind]) (by simp [kind]))
  · next kind => exact copies_linkParser h (directs (by simp [kind]) (by simp [kind]))
  · next kind => exact copies_outletParser h (directs (by simp [kind]) (by simp [kind]))
  · next kind => exact copies_navigateParser h (directs (by simp [kind]) (by simp [kind]))
  · next kind =>
    exact (copies_emptyArguments (directs (by simp [kind]) (by simp [kind]))).bind
      fun _ _ _ _ _ => copies_pure rfl
  · next kind =>
    exact (copies_emptyArguments (directs (by simp [kind]) (by simp [kind]))).bind
      fun _ _ _ _ _ => copies_pure rfl
  · exact copies_of_fails fail_ne_ok
  · next kind => exact copies_namedDirective h (directs (by simp [kind]) (by simp [kind])) _
  · refine copies_of_fails fun ok => ?_
    obtain ⟨_, _, _, ok⟩ := bind_eq_ok.mp ok
    exact failAtToken_ne_ok ok

theorem copies_parserAt : T.Copies 3 MarkupNode.unplaced (parserAt inner) (parserAt inner) s := by
  have quoted (real : (a.stream.get s.cursor).kind ≠ .endOfFile)
      (plain : (a.stream.get s.cursor).kind ≠ .symbol .atSign) : T.Copies 3 MarkupNode.unplaced
      (advance >>= fun t => TextNode.parser t >>= fun x => pure (text x))
      (advance >>= fun t => TextNode.parser t >>= fun x => pure (text x)) s :=
    copies_pass real plain ((copies_text _).bind fun _ _ _ _ alike => copies_pure (congrArg text alike))
  have literal (real : (a.stream.get s.cursor).kind ≠ .endOfFile)
      (plain : (a.stream.get s.cursor).kind ≠ .symbol .atSign) : T.Copies 3 MarkupNode.unplaced
      (advance >>= fun t => pure (text (.ofLiteral t)))
      (advance >>= fun t => pure (text (.ofLiteral t))) s :=
    copies_pass real plain (copies_pure rfl)
  refine copies_current ?_
  split
  case h_10 => exact copies_slotParser h
  case h_11 sign => exact copies_directiveParser h sign
  case h_12 => exact copies_of_fails failAtToken_ne_ok
  all_goals
    next kind =>
      first
      | exact copies_elementParser h (by simp [kind]) (by simp [kind])
      | exact quoted (by simp [kind]) (by simp [kind])
      | exact literal (by simp [kind]) (by simp [kind])

omit h in
theorem copies_parserWithin (levels : Nat) :
    T.Copies 3 MarkupNode.unplaced (parserWithin levels) (parserWithin levels) s := by
  induction levels generalizing s with
  | zero => exact copies_of_fails fail_ne_ok
  | succ levels ih =>
    refine (copies_parserAt ⟨fun scope depth => ⟨Expr.parser_moving, ?_⟩,
      fun _ => Expr.parser_copies, fun _ => ih⟩).deeper
    exact moving_parserWithin levels False.elim False.elim

omit h in
theorem parser_copies : T.Copies 3 MarkupNode.unplaced parser parser s := .withLevels copies_parserWithin

end MarkupNode

theorem ViewBlock.parser_copies : T.Copies 3 ViewBlock.unplaced parser parser s := by
  refine copies_expectKeyword ?_
  have body := copies_braced (T := T) (s := s.ahead 1) (n := 2)
    (fun _ _ => MarkupNode.parser_moving False.elim) fun _ => MarkupNode.parser_copies
  exact (body.mono (Nat.le_succ 2)).bind fun _ _ _ _ same =>
    copies_pure (congrArg (ViewBlock.mk · default) same)

end PulseSyntax
