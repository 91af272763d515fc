import PulseSyntax.Proofs.Markup.Course
import PulseSyntax.Proofs.Markup.TextTwin

namespace PulseSyntax

open PulseSyntax.Parser Scope.Track

namespace Scope.Track

variable {a b : Scope} (T : a.Track b) {α ε : Type}

/-- The sign of a directive is the next token, and one of this kind the token after it. -/
def Directed (kind : TokenKind) : Nat → Prop :=
  a.At (fun i => T.Open 0 i ∧ (a.stream.get (i + 1)).kind = kind) (.symbol .atSign)

/-- A token of this kind is the next, after the sign of a directive. -/
def Named (kind : TokenKind) : Nat → Prop :=
  a.At (fun i => T.Open 0 i ∧ 0 < i ∧ (a.stream.get (i - 1)).kind = .symbol .atSign) kind

structure Touching : Prop where
  ordered : ∀ {i}, i < T.limit → (a.stream.get i).span.stop ≤ (a.stream.get (i + 1)).span.stop
  ordered' : ∀ {i}, i < T.limit →
    (b.stream.get (i + T.shift)).span.stop ≤ (b.stream.get (i + 1 + T.shift)).span.stop
  touches : ∀ {i}, i < T.limit →
    ((a.stream.get (i + 1)).span.start = (a.stream.get i).span.stop ↔
      (b.stream.get (i + 1 + T.shift)).span.start = (b.stream.get (i + T.shift)).span.stop)

variable {T} {J : Nat → Prop} {e : α → ε} {kind : TokenKind} {f g : Token → Parser α}

theorem exact_named : T.Exact (T.Named kind) := by
  rintro i ⟨⟨-, pos, before⟩, -⟩ le
  obtain ⟨j, rfl⟩ := Nat.exists_eq_succ_of_ne_zero (Nat.ne_of_gt pos)
  exact T.name le before

theorem content_name [T.Walled] {i : Nat} (sign : (a.stream.get i).kind = .symbol .atSign)
    (le : i ≤ T.limit) :
    (a.stream.get (i + 1)).content = (b.stream.get (i + T.shift + 1)).content := by
  have lt : i < T.limit := lt_limit le (by simp [sign]) (by simp [sign])
  rw [Nat.add_right_comm]
  exact (T.near lt).content_of_kind (T.name lt sign)

theorem twin_peekName [T.Walled] (h : ∀ t u, t.content = u.content → T.Twin (T.Directed t.kind) J e (f t) (g u)) :
    T.Twin (a.At (T.Open 0) (.symbol .atSign)) J e (peek >>= f) (peek >>= g) := by
  intro s x t ok
  rw [bind_of_ok peek_apply] at ok
  have onward := (h _ _ rfl ok).1
  refine ⟨onward, fun ⟨here, sign⟩ within => ?_⟩
  exact (h _ _ (content_name sign (Nat.le_trans onward within)) ok).2 ⟨⟨here, rfl⟩, sign⟩ within

theorem twin_peekDirected [T.Walled]
    (h : ∀ t u, t.content = u.content → T.Twin (T.Directed kind) J e (f t) (g u)) :
    T.Twin (T.Directed kind) J e (peek >>= f) (peek >>= g) := by
  intro s x t ok
  rw [bind_of_ok peek_apply] at ok
  have onward := (h _ _ rfl ok).1
  refine ⟨onward, fun here within => ?_⟩
  exact (h _ _ (content_name here.2 (Nat.le_trans onward within)) ok).2 here within

theorem twin_sign :
    T.Twin (T.Directed kind) (T.Named kind) Token.content (expectSymbol .atSign)
      (expectSymbol .atSign) :=
  twin_expect_of (by simp) (sees_symbol _) fun i here sign lt =>
    ⟨⟨open_succ here.1.1 sign lt, Nat.succ_pos i, sign⟩, here.1.2⟩

theorem twin_passSign :
    T.Twin (T.Directed kind) (T.Named kind) Token.text advance advance :=
  twin_advance_of (by simp) (fun i here lt => ⟨⟨⟨open_succ here.1.1 here.2 lt, Nat.succ_pos i,
    here.2⟩, here.1.2⟩, (T.near (Nat.le_of_lt lt)).text⟩) (sees_of_plain rfl)

theorem twin_name (real : kind ≠ .endOfFile) (plain : kind.parensAfter 0 = 0) :
    T.Twin (T.Named kind) (T.Open 0) Token.content advance advance := by
  have exact : T.Exact (T.Named kind) := exact_named
  refine twin_advance_of real (fun i here lt => ⟨?_, ?_⟩) exact.sees
  · have after := open_succ here.1.1 here.2 lt
    rwa [plain] at after
  · exact content exact_named here (Nat.le_of_lt lt)

theorem twin_text {I : Nat → Prop} {t u : Token} (same : t.content = u.content) :
    T.Twin I I (TextNode.unplaced T.keep) (TextNode.parser t) (TextNode.parser u) := by
  intro s x v ok
  rw [TextNode.parser, bind_of_ok scope_apply] at ok
  cases read : TextNode.ofToken a.options t with
  | error e =>
    rw [read] at ok
    cases ok
  | ok node =>
    rw [read] at ok
    cases ok
    obtain ⟨node', second, alike⟩ := TextNode.ofToken_moved T.keep same read
    refine ⟨Nat.le_refl _, fun here _ => ⟨here, node', ?_, alike⟩⟩
    rw [TextNode.parser, bind_of_ok scope_apply, ← T.options, second]
    rfl

end Scope.Track

variable {a b : Scope} {T : a.Track b} {α ε : Type} {expr : Parser Expr} {inner : MarkupInner}
variable {parens : Nat}

/-- The readers of what stands inside a node read alike in both runs. -/
structure MarkupInner.Twin (T : a.Track b) (inner : MarkupInner) : Prop where
  expr : T.Reader T.leave inner.expr
  node : ∀ depth, (a.course depth).Moving inner.node
  twin : T.Twin (T.Open 0) (T.Open 0) (MarkupNode.unplaced T.keep) inner.node inner.node

namespace MarkupInner

variable (h : inner.Twin T)

include h

theorem Twin.moving (depth : Nat) : inner.Moving (a.course depth) := ⟨h.expr.moving depth, h.node depth⟩

theorem twin_children :
    T.Twin (T.Open 0) (T.Open 0) (fun x => x.1.map (MarkupNode.unplaced T.keep)) inner.children
      inner.children := .braced h.node h.twin

theorem twin_optionalChildren (span span' : Span) :
    T.Twin (T.Open 0) (T.Open 0) (fun x => x.1.map (MarkupNode.unplaced T.keep))
      (inner.optionalChildren span) (inner.optionalChildren span') :=
  twin_isSymbol ((twin_children h).atKind.bind fun _ _ same => twin_pure same) (twin_pure rfl)

theorem twin_condition :
    T.Twin (T.Open 0) (T.Open 0) (Expr.unplaced T.leave) inner.condition inner.condition :=
  (twin_expectSymbol _).bind fun _ _ _ => (h.expr.twin 0).bind fun _ _ same =>
    (twin_expectSymbol _).bind fun _ _ _ => twin_pure same

end MarkupInner

theorem expectName_eq_ok {scope : Scope} {s t : ParserState} {x : Token}
    (ok : expectName scope s = .ok x t) : x = scope.stream.get s.cursor ∧ t = s.ahead 1 := by
  have reads : Yields expectName scope s fun x t => x = scope.stream.get s.cursor ∧ t = s.ahead 1 :=
    yields_expectName.mpr fun name => ⟨rfl, if_neg (Course.isName_ne name)⟩
  exact reads ok

section

variable {scope : Scope} {s t : ParserState} {part part' : String × Span}

/-- The last token of a name with hyphens so far is the one before, and ends where the name does. -/
structure NameSoFar (T : a.Track b) (i : Nat) (part part' : String × Span) : Prop where
  pos : 0 < i
  text : part.1 = part'.1
  stop : part.2.stop = (a.stream.get (i - 1)).span.stop
  stop' : part'.2.stop = (b.stream.get (i - 1 + T.shift)).span.stop

variable (touching : T.Touching)

include touching

theorem hyphenates_iff [T.Walled] (here : T.Open (parens + 1) s.cursor) (le : s.cursor ≤ T.limit)
    (related : NameSoFar T s.cursor part part') :
    a.Hyphenates part.2.stop s.cursor ↔ b.Hyphenates part'.2.stop (T.moved s).cursor := by
  have same : _ = TokenKind.symbol .minus ↔ _ := (T.near le).kind_eq_iff rfl
  refine (and_congr_right fun minus => ?_).trans (and_congr_left' same)
  have lt : s.cursor < T.limit := lt_limit le (by simp [minus]) (by simp [minus])
  have kind := T.exact_ (open_succ here minus lt) lt
  have before := touching.touches (i := s.cursor - 1) (by omega)
  rw [Nat.sub_add_cancel related.pos] at before
  rw [related.stop, related.stop', moved_cursor, Nat.add_right_comm, ← kind]
  exact and_congr before (and_congr_left' (touching.touches lt))

theorem hyphenRound_moved [T.Walled] {next : ForInStep (String × Span)}
    (ok : chainRound hyphenPart part a s = .ok next t) (here : T.Open (parens + 1) s.cursor)
    (within : t.cursor ≤ T.limit) (related : NameSoFar T s.cursor part part') :
    T.Open (parens + 1) t.cursor ∧
      ∃ next', chainRound hyphenPart part' b (T.moved s) = .ok next' (T.moved t) ∧
        Rounded (NameSoFar T) t.cursor next next' := by
  by_cases more : a.Hyphenates part.2.stop s.cursor
  · rw [chainRound, bind_of_ok (hyphenPart_of more)] at ok
    cases ok
    have lt : s.cursor < T.limit := Nat.lt_of_succ_lt within
    have other := (hyphenates_iff touching here (Nat.le_of_lt lt) related).mp more
    have named : T.Open (parens + 1) (s.cursor + 1) := open_succ here more.1 lt
    have plain : (a.stream.get (s.cursor + 1)).kind.parensAfter (parens + 1) = parens + 1 := by
      rcases more.2.2.2 with name | name
      · rw [name]
        rfl
      · cases kind : (a.stream.get (s.cursor + 1)).kind with
        | symbol sign => simp [kind, TokenKind.isKeyword] at name
        | _ => rfl
    have same := Token.raw_of_content (Scope.Track.content exact_open named lt)
    rw [Nat.add_right_comm] at same
    have order := touching.ordered lt
    have order' := touching.ordered' lt
    have previous := touching.ordered (i := s.cursor - 1) (by omega)
    have previous' := touching.ordered' (i := s.cursor - 1) (by omega)
    rw [Nat.sub_add_cancel related.pos] at previous previous'
    rw [chainRound, bind_of_ok (hyphenPart_of other), T.moved_ahead]
    refine ⟨plain ▸ T.step named within, _, rfl, .yield ⟨Nat.succ_pos _, ?_, ?_, ?_⟩⟩
    · rw [moved_cursor, related.text, same]
    · exact Nat.max_eq_right (related.stop.trans_le (Nat.le_trans previous order))
    · have index : (s.ahead 2).cursor - 1 + T.shift = (T.moved s).cursor + 1 := by
        rw [ParserState.ahead_cursor, moved_cursor]
        omega
      rw [Nat.add_right_comm] at order'
      rw [index]
      exact Nat.max_eq_right (related.stop'.trans_le (Nat.le_trans previous' order'))
  · rw [chainRound, bind_of_ok (hyphenPart_of_not more)] at ok
    cases ok
    have other := mt (hyphenates_iff touching here within related).mpr more
    exact ⟨here, _, by rw [chainRound, bind_of_ok (hyphenPart_of_not other)]; rfl, .done related⟩

theorem twin_attributeName [T.Walled] :
    T.Twin (T.Open (parens + 1)) (T.Open (parens + 1)) Prod.fst attributeName attributeName := by
  intro s x t ok
  have progress := (starting_attributeName (c := a.course s.depth) s rfl).progress ok trivial
  refine ⟨Nat.le_of_lt progress, fun here within => ?_⟩
  rw [attributeName_eq] at ok ⊢
  obtain ⟨first, u, read, rest⟩ := bind_eq_ok.mp ok
  have onward := ((extending_hyphenPart (c := a.course u.depth)).steady _ u rfl).reaches rest |>.cursor
  obtain ⟨there, first', second, same⟩ := (twin_expectName read).2 here (Nat.le_trans onward within)
  obtain ⟨rfl, rfl⟩ := expectName_eq_ok read
  obtain ⟨rfl, -⟩ := expectName_eq_ok second
  have start : NameSoFar T (s.ahead 1).cursor ((a.stream.get s.cursor).raw, (a.stream.get s.cursor).span)
      ((b.stream.get (T.moved s).cursor).raw, (b.stream.get (T.moved s).cursor).span) :=
    ⟨Nat.succ_pos _, Token.raw_of_content same, rfl, rfl⟩
  obtain ⟨final, y, whole, related⟩ := loop_moved (fun depth => extending_hyphenPart.turning)
    (fun ok here within _ related => hyphenRound_moved touching ok here within related) rest there
    within start
  exact ⟨final, y, by rw [bind_of_ok second]; exact whole, related.text⟩

namespace ElementProp

theorem twin_namedParser [T.Walled] (h : T.Reader T.leave expr) :
    T.Twin (T.Open (parens + 1)) (T.Open (parens + 1)) (ElementProp.unplaced T.keep)
      (namedParser expr) (namedParser expr) := by
  refine (twin_attributeName touching).bind fun name name' same => ?_
  refine twin_eatSymbol ?_ (twin_pure (by simp [unplaced, Expr.erased, same]))
  have value (x y : Expr) (alike : x.unplaced T.leave = y.unplaced T.leave) :
      T.Twin (T.Open (parens + 1)) (T.Open (parens + 1)) (ElementProp.unplaced T.keep)
        (pure (named name.1 x false (name.2.cover x.span)))
        (pure (named name'.1 y false (name'.2.cover y.span))) :=
    twin_pure (by simp [unplaced, Expr.erased_keep, same, alike])
  refine twin_eatSymbol ?_ ((h.twin parens).bind value)
  refine (h.twin parens).bind fun x y alike => ?_
  exact (twin_expectSymbol _).bind fun _ _ _ => value x y alike

theorem parser_twin [T.Walled] (h : T.Reader T.leave expr) :
    T.Twin (T.Open (parens + 1)) (T.Open (parens + 1)) (ElementProp.unplaced T.keep)
      (parser expr) (parser expr) := by
  refine twin_isSymbol ?_ (twin_namedParser touching h)
  refine (twin_advance (by simp) (exact_at rfl)).bind fun _ _ _ => ?_
  exact (h.twin parens).bind fun _ _ same =>
    twin_pure (by simp [unplaced, Expr.erased_keep, same])

theorem twin_listParser [T.Walled] (h : T.Reader T.leave expr) :
    T.Twin (T.Open 0) (T.Open 0) (List.map (ElementProp.unplaced T.keep)) (listParser expr)
      (listParser expr) :=
  (twin_expectSymbol _).bind fun _ _ _ =>
    (Twin.commaSeparated (fun depth => parser_steady (h.moving depth).steady)
      (parser_twin touching h)).bind fun _ _ same =>
        (twin_expectSymbol _).bind fun _ _ _ => twin_pure same

end ElementProp

end

theorem twin_modifierPart (allowModifiers : Bool) (name name' : Token) {x y : Array Token × Span}
    (same : items Token.content x.1 = items Token.content y.1) :
    T.Twin (T.Open 0) (T.Open 0) (Option.map fun x => items Token.content x.1)
      (modifierPart allowModifiers name x) (modifierPart allowModifiers name' y) := by
  refine twin_near fun t u near => ?_
  rw [bne, bne, near.beq_kind rfl]
  refine .ite (fun _ => (twin_pure rfl).atKind) fun modifier => ?_
  refine .ite (fun _ => twin_of_fails fail_ne_ok) fun _ => ?_
  have kind : t.kind = .modifier := (near.kind_eq_iff rfl).mpr (by simpa using modifier)
  rw [kind]
  refine (twin_advance (by simp) (exact_at rfl)).bind fun _ _ _ => twin_pure ?_
  simp [same, near.content (by rw [kind]; rfl)]

section

variable {kind : TokenKind} (real : kind ≠ .endOfFile) (plain : kind.parensAfter 0 = 0)

include real plain

theorem twin_directiveHead (allowModifiers : Bool) :
    T.Twin (T.Directed kind) (T.Open 0) (fun x => x.1.map Token.content)
      (directiveHead allowModifiers) (directiveHead allowModifiers) := by
  rw [directiveHead_eq]
  refine twin_sign.bind fun _ _ _ => (twin_name real plain).bind fun name name' _ => ?_
  have modifiers (span span' : Span) : T.Twin (T.Open 0) (T.Open 0)
      (fun x => items Token.content x.1) (chain (modifierPart allowModifiers name) (#[], span))
      (chain (modifierPart allowModifiers name') (#[], span')) :=
    .chain (fun _ => extending_modifierPart allowModifiers name)
      (fun _ _ => twin_modifierPart allowModifiers name name') rfl
  exact (modifiers _ _).bind fun _ _ same => twin_pure same

theorem twin_plainHead :
    T.Twin (T.Directed kind) (T.Open 0) (fun _ : Span => ()) plainHead plainHead :=
  (twin_directiveHead real plain false).bind fun _ _ _ => twin_pure rfl

end

section

theorem texts_of_content {ts us : List Token} (h : ts.map Token.content = us.map Token.content) :
    ts.map (·.text) = us.map (·.text) := by
  induction ts generalizing us with
  | nil => rw [List.map_eq_nil_iff.mp h.symm]
  | cons t ts ih =>
    obtain ⟨u, us, rfl, same, rest⟩ := List.map_eq_cons_iff.mp h.symm
    rw [List.map_cons, List.map_cons, Token.text_of_content same.symm, ih rest.symm]

theorem failAtPrevious_ne_ok {scope : Scope} {s t : ParserState} {x : α} {place : Token → Place}
    {cause : Cause} : (previous >>= fun u => failAt (place u) cause) scope s ≠ .ok x t := by
  intro ok
  rw [bind_of_ok previous_apply] at ok
  cases ok

variable (h : T.Reader T.leave expr)

include h

theorem EventHandler.parser_twin [T.Walled] :
    T.Twin (T.Directed .identifier) (T.Open 0) (fun x => x.1.unplaced T.keep) (parser expr)
      (parser expr) := by
  refine twin_peekDirected fun name name' same => ?_
  refine (twin_directiveHead (by simp) rfl true).bind fun head head' modifiers => ?_
  have names : head.1.map (·.text) = head'.1.map (·.text) := texts_of_content modifiers
  refine twin_isSymbol ?_ ?_
  · refine (Expr.twin_arguments h).atKind.bind ?_
    rintro ⟨arguments, close⟩ ⟨arguments', close'⟩ alike
    dsimp only at alike ⊢
    rcases arguments with _ | ⟨x, _ | ⟨y, rest⟩⟩
    · rw [List.map_eq_nil_iff.mp alike.symm]
      exact twin_pure (by simp [unplaced, names, Token.text_of_content same])
    · obtain ⟨x', rest', rfl, first, rest⟩ := List.map_eq_cons_iff.mp alike.symm
      rw [List.map_eq_nil_iff.mp rest]
      exact twin_pure (by
        simp [unplaced, names, Token.text_of_content same, Expr.erased_keep, first])
    · exact twin_of_fails failAtPrevious_ne_ok
  · exact twin_pure (by simp [unplaced, names, Token.text_of_content same])

theorem Directive.twin_attributeParser [T.Walled] (touching : T.Touching) :
    T.Twin (T.Open (parens + 1)) (T.Open (parens + 1)) (A11yAttribute.unplaced T.keep)
      (attributeParser expr) (attributeParser expr) :=
  (twin_attributeName touching).bind fun _ _ name => (twin_expectSymbol _).bind fun _ _ _ =>
    (h.twin parens).bind fun _ _ same =>
      twin_pure (by simp [A11yAttribute.unplaced, Expr.erased_keep, name, same])

end

theorem BoundaryTarget.parser_twin [T.Walled] :
    T.Twin (T.Directed .identifier) (T.Open 0) Prod.fst parser parser := by
  refine twin_peekDirected fun name name' same => ?_
  refine (twin_plainHead (by simp) rfl).bind fun _ _ _ => ?_
  refine twin_isSymbol ?_ (twin_pure (by simp [Token.text_of_content same]))
  refine .ite (fun _ => twin_of_fails fun ok => ?_) fun no => absurd rfl no
  rw [bind_of_ok previous_apply] at ok
  exact fail_ne_ok ok

namespace Directive

theorem twin_modelModifiers {I : Nat → Prop} {ts us : List Token}
    (same : ts.map Token.content = us.map Token.content) :
    T.Twin I I id (modelModifiers ts) (modelModifiers us) := by
  induction ts generalizing us with
  | nil =>
    rw [List.map_eq_nil_iff.mp same.symm]
    exact twin_pure rfl
  | cons t ts ih =>
    obtain ⟨u, us, rfl, first, rest⟩ := List.map_eq_cons_iff.mp same.symm
    rw [modelModifiers, modelModifiers, Token.text_of_content first]
    split
    · exact twin_of_fails failAt_ne_ok
    · exact (ih rest.symm).bind fun _ _ alike => twin_pure (congrArg (List.cons _) alike)

section

variable (h : inner.Twin T)

include h

theorem twin_modelParser :
    T.Twin (T.Directed .identifier) (T.Open 0) (Directive.unplaced T.keep) (modelParser inner)
      (modelParser inner) := by
  refine (twin_directiveHead (by simp) rfl true).bind fun _ _ tokens => ?_
  refine (twin_modelModifiers tokens).bind fun modifiers _ same => ?_
  obtain rfl : modifiers = _ := same
  refine (MarkupInner.twin_condition h).bind fun _ _ binding => twin_previous.bind fun _ _ _ => ?_
  rw [Expr.isAssignable_of_unplaced binding]
  refine .ite (fun _ => twin_of_fails nofun) fun _ => twin_pure ?_
  simp [unplaced, Expr.erased_keep, binding]

theorem twin_a11yParser [T.Walled] (touching : T.Touching) :
    T.Twin (T.Directed .identifier) (T.Open 0) (Directive.unplaced T.keep) (a11yParser inner.expr)
      (a11yParser inner.expr) := by
  refine (twin_plainHead (by simp) rfl).bind fun _ _ _ => (twin_expectSymbol _).bind fun _ _ _ => ?_
  refine (Twin.commaSeparated
    (fun depth => (starting_attributeParser (h.expr.moving depth).steady).steady)
    (twin_attributeParser h.expr touching)).bind fun _ _ same => ?_
  exact (twin_expectSymbol _).bind fun _ _ _ => twin_pure (by simp [unplaced, same])

end

theorem twin_optionalArgument {α ε : Type} {item item' : Parser α} {e : α → ε}
    (h : T.Twin (T.Open 1) (T.Open 1) e item item') (span span' : Span) :
    T.Twin (T.Open 0) (T.Open 0) (fun x => x.1.map e) (optionalArgument item span)
      (optionalArgument item' span') := by
  have close (x y : Option α) (same : x.map e = y.map e) :
      T.Twin (T.Open 1) (T.Open 0) (fun x => x.1.map e)
        (expectSymbol .closeParen >>= fun t => pure (x, span.cover t.span))
        (expectSymbol .closeParen >>= fun t => pure (y, span'.cover t.span)) :=
    (twin_expectSymbol _).bind fun _ _ _ => twin_pure same
  refine twin_eatSymbol ?_ (twin_pure rfl)
  refine twin_isSymbol (close none none rfl).atKind ?_
  have value : T.Twin (T.Open 1) (T.Open 1) (Option.map e) (some <$> item) (some <$> item') :=
    h.map fun _ _ same => congrArg some same
  exact value.bind close

theorem twin_liveParser :
    T.Twin (T.Directed .identifier) (T.Open 0) (Directive.unplaced T.keep) liveParser liveParser := by
  refine (twin_plainHead (by simp) rfl).bind fun _ _ _ => ?_
  refine (twin_optionalArgument (twin_expectStringOr (by simp) rfl) _ _).bind fun x y same => twin_pure ?_
  have text (x : Option Token) : x.map (·.text) = (x.map Token.content).map fun c =>
      (Token.mk c.1 c.2.1 c.2.2 default).text := by
    cases x <;> rfl
  simp [unplaced, text, same]

theorem twin_focusTrapParser (h : T.Reader T.leave expr) :
    T.Twin (T.Directed .identifier) (T.Open 0) (Directive.unplaced T.keep) (focusTrapParser expr)
      (focusTrapParser expr) := by
  refine (twin_plainHead (by simp) rfl).bind fun _ _ _ => ?_
  refine (twin_optionalArgument (h.twin 0) _ _).bind fun x y same => twin_pure ?_
  exact congrArg (focusTrap · default) same

theorem parser_twin [T.Walled] (h : inner.Twin T) (touching : T.Touching) :
    T.Twin (T.Directed .identifier) (T.Open 0) (Directive.unplaced T.keep) (parser inner)
      (parser inner) := by
  refine twin_peekDirected fun t u same => ?_
  dsimp only
  rw [← Token.text_of_content same]
  refine .ite (fun _ => twin_modelParser h) fun _ => .ite (fun _ => twin_a11yParser h touching)
    fun _ => .ite (fun _ => twin_liveParser) fun _ => .ite (fun _ => twin_focusTrapParser h.expr)
      fun _ => .ite (fun _ => ?_) fun _ => .ite (fun _ => ?_) fun _ => ?_
  · exact (twin_plainHead (by simp) rfl).bind fun _ _ _ => twin_pure rfl
  · exact BoundaryTarget.parser_twin.bind fun _ _ target => twin_pure (by simp [unplaced, target])
  · exact (EventHandler.parser_twin h.expr).bind fun _ _ same => twin_pure (by simp [unplaced, same])

end Directive

namespace Directive

theorem twin_peekSecond [T.Walled] {J : Nat → Prop} {e : α → ε} {f g : Token → Parser α}
    (h : ∀ t u, t.Near u → T.Twin (T.Directed .identifier) J e (f t) (g u)) :
    T.Twin (T.Directed .identifier) J e (peekAt 2 >>= f) (peekAt 2 >>= g) := by
  intro s x t ok
  rw [bind_of_ok (peekAt_apply 2)] at ok
  have onward := (h _ _ (.of_content rfl) ok).1
  refine ⟨onward, fun here within => ?_⟩
  have le := Nat.le_trans onward within
  have lt : s.cursor < T.limit := lt_limit le (by simp [here.2]) (by simp [here.2])
  have more : s.cursor + 2 ≤ T.limit := lt_limit lt (by simp [here.1.2]) (by simp [here.1.2])
  have near := T.near more
  rw [Nat.add_right_comm] at near
  exact (h _ _ near ok).2 here within

theorem twin_attaches [T.Walled] {J : Nat → Prop} {e : α → ε} {f g : Bool → Parser α}
    (yes : T.Twin (T.Directed .identifier) J e (f true) (g true))
    (no : T.Twin (T.Open 0) J e (f false) (g false)) :
    T.Twin (a.At (T.Open 0) (.symbol .atSign)) J e (attaches >>= f) (attaches >>= g) := by
  have regroup (f : Bool → Parser α) : attaches >>= f = peek >>= fun name =>
      if name.kind != .identifier || name.text == "else-if" then f false
      else if name.text == "client" || name.text == "server" then
        peekAt 2 >>= fun t => f (t.kind != .symbol .openBrace)
      else f true := by
    funext scope s
    rw [attaches, bind_apply, bind_of_ok peek_apply, bind_of_ok peek_apply]
    generalize (Token.kind _ != .identifier || _) = other
    generalize (_ == "client" || _) = boundary
    cases other <;> cases boundary <;> rfl
  rw [regroup, regroup]
  refine twin_peekName fun t u same => ?_
  rw [← Token.kind_of_content same, ← Token.text_of_content same]
  refine .ite (fun _ => no.from fun _ here => here.1.1) fun own => ?_
  have kind : t.kind = .identifier := by
    by_contra other
    simp [other] at own
  rw [kind]
  refine .ite (fun _ => twin_peekSecond fun t u near => ?_) fun _ => yes
  rw [bne, bne, near.beq_kind rfl]
  cases u.kind == TokenKind.symbol .openBrace with
  | true => exact no.from fun _ here => here.1.1
  | false => exact yes

end Directive

namespace MarkupNode

section

variable (h : inner.Twin T) (touching : T.Touching)

include h touching

/-- What two runs have in common of what has been read after the head of an element. -/
def ElementTail.unplaced (keep : TokenRange → TokenRange) (tail : ElementTail) :
    List Directive × List TextNode :=
  (items (Directive.unplaced keep) tail.directives, items (TextNode.unplaced keep) tail.texts)

theorem twin_elementPart [T.Walled] {tail tail' : ElementTail}
    (same : tail.unplaced T.keep = tail'.unplaced T.keep) :
    T.Twin (T.Open 0) (T.Open 0) (Option.map (ElementTail.unplaced T.keep)) (elementPart inner tail)
      (elementPart inner tail') := by
  obtain ⟨directives, texts⟩ := Prod.ext_iff.mp same
  dsimp only [ElementTail.unplaced] at directives texts
  have text (kind : TokenKind) (real : kind ≠ .endOfFile) (plain : kind.isHead = false)
      (level : kind.parensAfter 0 = 0) : T.Twin (a.At (T.Open 0) kind) (T.Open 0)
      (Option.map (ElementTail.unplaced T.keep))
      (advance >>= fun t => TextNode.parser t >>= fun x =>
        pure (some { tail with texts := tail.texts.push x, span := tail.span.cover x.span }))
      (advance >>= fun t => TextNode.parser t >>= fun x =>
        pure (some { tail' with texts := tail'.texts.push x, span := tail'.span.cover x.span })) := by
    have passes : T.Twin (a.At (T.Open 0) kind) _ _ advance advance :=
      twin_advance real (exact_at plain)
    rw [level] at passes
    exact passes.bind fun _ _ content => (twin_text content).bind fun _ _ alike =>
      twin_pure (by simp [ElementTail.unplaced, directives, texts, alike])
  refine twin_near fun t u near => ?_
  rcases near.kind with kind | ⟨head, head'⟩
  · rw [← kind]
    split
    · next sign =>
      rw [sign]
      refine Directive.twin_attaches ?_ (twin_pure rfl)
      refine (Directive.parser_twin h touching).bind fun _ _ alike => twin_pure ?_
      simp [ElementTail.unplaced, directives, texts, alike]
    · next kind =>
      rw [kind]
      exact text .string (by simp) rfl rfl
    · next kind =>
      rw [kind]
      exact text .template (by simp) rfl rfl
    · exact (twin_pure rfl).atKind
  · rcases TokenKind.eq_of_isHead head with kind | kind <;>
    rcases TokenKind.eq_of_isHead head' with kind' | kind' <;>
    · rw [kind, kind']
      exact (twin_pure rfl).atKind

theorem twin_elementParser [T.Walled] {kind : TokenKind} (head : kind.isHead) :
    T.Twin (a.At (T.Open 0) kind) (T.Open 0) (MarkupNode.unplaced T.keep) (elementParser inner)
      (elementParser inner) := by
  have passes : T.Twin (a.At (T.Open 0) kind) (T.Open 0) Token.text advance advance := by
    rcases TokenKind.eq_of_isHead head with rfl | rfl <;> exact twin_advance_text (by simp)
  refine passes.bind fun head head' selector => ?_
  extract_lets rest rest'
  have tail (x y : List ElementProp × Span)
      (props : x.1.map (ElementProp.unplaced T.keep) = y.1.map (ElementProp.unplaced T.keep)) :
      T.Twin (T.Open 0) (T.Open 0) (MarkupNode.unplaced T.keep) (rest x) (rest' y) := by
    refine Twin.bind (e := ElementTail.unplaced T.keep) (.chain
      (fun depth => extending_elementPart (h.moving depth) False.elim)
      (fun _ _ => twin_elementPart h touching) rfl) fun t u same => ?_
    refine (MarkupInner.twin_optionalChildren h _ _).bind fun _ _ children => twin_pure ?_
    obtain ⟨directives, texts⟩ := Prod.ext_iff.mp same
    dsimp only [ElementTail.unplaced, items] at directives texts
    simp [unplaced, unplacedAll_eq, selector, props, directives, texts, children]
  refine twin_isSymbol ?_ (tail ([], head.span) ([], head'.span) rfl)
  refine (ElementProp.twin_listParser touching h.expr).atKind.bind fun props props' same => ?_
  refine twin_previous.bind fun t u _ => ?_
  exact tail (props, head.span.cover t.span) (props', head'.span.cover u.span) same

end

section

theorem branchHead_eq : branchHead = isSymbol .atSign >>= fun sign =>
    if !sign then pure none else peek >>= fun name =>
      if name.kind == .identifier && name.text == "else-if" then do
        let _ ← advance
        let _ ← advance
        return some .elseIf
      else if name.kind == .keyword .else_ then do
        let _ ← advance
        let _ ← advance
        if (← isSymbol .atSign) && (← peek).kind == .keyword .if_ then
          let _ ← advance
          let _ ← advance
          return some .elseIf
        else if ← eat (.keyword .if_) then return some .elseIf
        else return some .else_
      else return none := by
  funext scope s
  rw [branchHead, bind_of_ok peek_apply, isSymbol, bind_of_ok is_apply, bind_of_ok is_apply]
  split <;> rfl

theorem twin_branchHead [T.Walled] : T.Twin (T.Open 0) (T.Open 0) id branchHead branchHead := by
  have skip (kind : TokenKind) (real : kind ≠ .endOfFile) (plain : kind.parensAfter 0 = 0)
      {p q : Parser (Option BranchHead)} (rest : T.Twin (T.Open 0) (T.Open 0) id p q) :
      T.Twin (T.Directed kind) (T.Open 0) id (advance >>= fun _ => advance >>= fun _ => p)
        (advance >>= fun _ => advance >>= fun _ => q) :=
    twin_passSign.bind fun _ _ _ => (twin_name real plain).bind fun _ _ _ => rest
  have word : T.Twin (T.Open 0) (T.Open 0) id
      (eat (.keyword .if_) >>= fun found => if found then pure (some BranchHead.elseIf) else
        pure (some .else_))
      (eat (.keyword .if_) >>= fun found => if found then pure (some BranchHead.elseIf) else
        pure (some .else_)) :=
    twin_eat (by simp) (exact_at rfl) (sees_of_plain rfl) (twin_pure rfl) (twin_pure rfl)
  rw [branchHead_eq]
  refine twin_isSymbol (twin_peekName fun name name' same => ?_) (twin_pure rfl)
  rw [← Token.kind_of_content same, ← Token.text_of_content same]
  refine .ite (fun own => ?_) fun _ => .ite (fun own => ?_) fun _ => ?_
  · rw [show name.kind = .identifier by simp_all]
    exact skip _ (by simp) rfl (twin_pure rfl)
  · rw [beq_iff_eq.mp own]
    refine skip _ (by simp) rfl (twin_isSymbol ?_ (twin_peek fun _ _ => word))
    refine twin_peekName fun next next' same => ?_
    rw [← Token.kind_of_content same]
    refine .ite (fun own => ?_) fun _ => word.from fun _ here => here.1.1
    rw [show next.kind = .keyword .if_ by simpa using own]
    exact skip _ (by simp) rfl (twin_pure rfl)
  · exact (twin_pure rfl).mono (fun _ here => here.1.1) fun _ => id

variable (h : inner.Twin T)

include h

/-- What two runs have in common of the branches that have been read. -/
def Branches.unplaced (keep : TokenRange → TokenRange) (branches : Branches) :
    List Branch × Option (List MarkupNode) :=
  (items (unplacedBranch keep) branches.more, branches.alternate.map (List.map (MarkupNode.unplaced keep)))

theorem twin_branchParser [T.Walled] {branches branches' : Branches}
    (same : branches.unplaced T.keep = branches'.unplaced T.keep) :
    T.Twin (T.Open 0) (T.Open 0) (round (Branches.unplaced T.keep)) (branchParser inner branches)
      (branchParser inner branches') := by
  obtain ⟨more, alternate⟩ := Prod.ext_iff.mp same
  dsimp only [Branches.unplaced] at more alternate
  refine twin_near fun t u _ => twin_branchHead.atKind.bind fun head _ same => ?_
  obtain rfl : head = _ := same
  match head with
  | none => exact twin_done same
  | some .elseIf =>
    refine (MarkupInner.twin_condition h).bind fun _ _ condition => ?_
    refine (MarkupInner.twin_children h).bind fun _ _ consequent => twin_yield ?_
    simp [Branches.unplaced, unplacedBranch, unplacedAll_eq, Expr.erased_keep, more, alternate,
      condition, consequent]
  | some .else_ =>
    refine (MarkupInner.twin_children h).bind fun _ _ nodes => twin_done ?_
    simp [Branches.unplaced, more, nodes]

theorem twin_conditionalParser [T.Walled] :
    T.Twin (T.Directed (.keyword .if_)) (T.Open 0) (MarkupNode.unplaced T.keep)
      (conditionalParser inner) (conditionalParser inner) := by
  refine twin_sign.bind fun _ _ _ => ?_
  refine ((twin_expectKeyword .if_).from fun _ here => here.1.1).bind fun _ _ _ => ?_
  refine (MarkupInner.twin_condition h).bind fun _ _ condition => ?_
  refine (MarkupInner.twin_children h).bind fun x y consequent => ?_
  have branches : T.Twin (T.Open 0) (T.Open 0) (Branches.unplaced T.keep)
      (Parser.loop (branchParser inner) ⟨#[], none, x.2⟩)
      (Parser.loop (branchParser inner) ⟨#[], none, y.2⟩) :=
    .loop (fun depth => turning_branchParser (h.moving depth))
      (fun _ _ same => twin_branchParser h same) rfl
  refine branches.bind fun _ _ same => twin_pure ?_
  obtain ⟨more, alternate⟩ := Prod.ext_iff.mp same
  dsimp only [Branches.unplaced, items] at more alternate
  simp [unplaced, unplacedAll_eq, unplacedBranches_eq, unplacedAlternate_eq, Expr.erased_keep,
    condition, consequent, more, alternate]

omit h in
theorem twin_keyFollows [T.Walled] {J : Nat → Prop} {e : α → ε} {f g : Bool → Parser α}
    (yes : ∀ kind : TokenKind, kind.isHead → T.Twin (a.At (T.Open 0) kind) J e (f true) (g true))
    (no : T.Twin (T.Open 0) J e (f false) (g false)) :
    T.Twin (T.Open 0) J e (keyFollows >>= f) (keyFollows >>= g) := by
  have regroup (f : Bool → Parser α) : keyFollows >>= f = current >>= fun t => peek >>= fun next =>
      f (t.kind.isHead && t.text == "key" && next.kind == .symbol .openParen) := by
    have head (kind : TokenKind) : (kind == .identifier || kind == .selector) = kind.isHead := by
      cases kind <;> rfl
    simp only [← head]
    rfl
  rw [regroup, regroup]
  refine twin_near fun t u near => twin_peekNear fun next next' after => ?_
  rw [← near.isHead, ← near.text]
  cases head : t.kind.isHead with
  | false => exact no.atKind
  | true =>
    have apart : t.kind ≠ .symbol .closeBrace ∧ t.kind ≠ .endOfFile := by
      rcases TokenKind.eq_of_isHead head with kind | kind <;> simp [kind]
    rw [← (after apart.1 apart.2).beq_kind rfl]
    cases true && t.text == "key" && next.kind == TokenKind.symbol .openParen with
    | true => exact yes _ head
    | false => exact no.atKind

omit h in
theorem twin_iterationKind :
    T.Twin (T.Open (parens + 1)) (T.Open (parens + 1)) id iterationKind iterationKind := by
  refine twin_current exact_open fun t u content => ?_
  rw [← Token.kind_of_content content]
  split
  · next kind =>
    rw [kind]
    exact (twin_advance (by simp) (exact_at rfl)).bind fun _ _ _ => twin_pure rfl
  · exact (twin_expectKeyword _).atKind.bind fun _ _ _ => twin_pure rfl

theorem twin_loopHead [T.Walled] (keyword : LoopKeyword) :
    T.Twin (T.Open 0) (T.Open 0) (LoopHead.unplaced T.keep) (loopHead inner keyword)
      (loopHead inner keyword) := by
  refine (twin_expectSymbol _).bind fun _ _ _ => ?_
  refine (twin_expect (by simp) exact_open.sees).bind fun item item' name => ?_
  extract_lets rest rest'
  have tail (index : Option String) :
      T.Twin (T.Open 1) (T.Open 0) (LoopHead.unplaced T.keep) (rest index) (rest' index) := by
    refine twin_iterationKind.bind fun iteration _ same => ?_
    obtain rfl : iteration = _ := same
    refine (h.expr.twin 0).bind fun iterable iterable' list => ?_
    refine (twin_expectSymbol _).bind fun _ _ _ => ?_
    extract_lets last last'
    have close (key key' : Option Expr)
        (same : key.map (Expr.erased T.keep) = key'.map (Expr.erased T.keep)) :
        T.Twin (T.Open 0) (T.Open 0) (LoopHead.unplaced T.keep) (last key) (last' key') :=
      twin_pure (by
        simp [LoopHead.unplaced, Token.raw_of_content name, Expr.erased_keep, list, same])
    refine twin_keyFollows (fun kind head => ?_) (close none none rfl)
    have condition : T.Twin (T.Open 0) (T.Open 0) (Option.map (Expr.erased T.keep))
        (some <$> inner.condition) (some <$> inner.condition) :=
      (MarkupInner.twin_condition h).map fun _ _ same => congrArg some same
    have passes : T.Twin (a.At (T.Open 0) kind) (T.Open 0) Token.text advance advance := by
      rcases TokenKind.eq_of_isHead head with rfl | rfl <;> exact twin_advance_text (by simp)
    exact passes.bind fun _ _ _ => condition.bind close
  refine twin_eatSymbol ?_ (tail none)
  refine (twin_expect (by simp) exact_open.sees).bind fun t u index => ?_
  rw [Token.raw_of_content index]
  exact tail (some u.raw)

theorem twin_loopParser [T.Walled] {kind : TokenKind} (real : kind ≠ .endOfFile)
    (plain : kind.parensAfter 0 = 0) :
    T.Twin (T.Directed kind) (T.Open 0) (MarkupNode.unplaced T.keep) (loopParser inner)
      (loopParser inner) := by
  refine twin_sign.bind fun _ _ _ => (twin_name real plain).bind fun word word' same => ?_
  rw [Token.kind_of_content same]
  refine (twin_loopHead h _).bind fun _ _ head => (MarkupInner.twin_children h).bind fun _ _ body => ?_
  exact twin_pure (by simp [unplaced, unplacedAll_eq, head, body])

theorem twin_slotParser :
    T.Twin (T.Open 0) (T.Open 0) (MarkupNode.unplaced T.keep) (slotParser inner)
      (slotParser inner) := by
  refine (twin_expectKeyword .slot).bind fun word word' _ => ?_
  extract_lets rest
  have tail (name : Option String) (span span' : Span) :
      T.Twin (T.Open 0) (T.Open 0) (MarkupNode.unplaced T.keep) (rest (name, span))
        (rest (name, span')) :=
    (MarkupInner.twin_optionalChildren h _ _).bind fun _ _ same =>
      twin_pure (by simp [unplaced, unplacedAll_eq, same])
  refine twin_is (sees_of_plain rfl) ?_ (tail none word.span word'.span)
  refine (twin_advance (by simp) (exact_at rfl)).bind fun t u same => ?_
  rw [Token.text_of_content same]
  exact tail (some u.text) (word.span.cover t.span) (word'.span.cover u.span)

theorem twin_pathArguments (name : String) :
    T.Twin (T.Open 0) (T.Open 0)
      (fun x => (x.1.erased T.keep, x.2.1.map (Expr.erased T.keep))) (pathArguments inner name)
      (pathArguments inner name) := by
  refine (Expr.twin_arguments h.expr).bind ?_
  rintro ⟨arguments, close⟩ ⟨arguments', close'⟩ same
  dsimp only at same ⊢
  rcases arguments with _ | ⟨path, _ | ⟨options, _ | ⟨third, rest⟩⟩⟩
  · exact twin_of_fails failAtPrevious_ne_ok
  · obtain ⟨path', rest', rfl, first, rest⟩ := List.map_eq_cons_iff.mp same.symm
    rw [List.map_eq_nil_iff.mp rest]
    exact twin_pure (by simp [Expr.erased_keep, first])
  · obtain ⟨path', rest', rfl, first, rest⟩ := List.map_eq_cons_iff.mp same.symm
    obtain ⟨options', rest', rfl, second, rest⟩ := List.map_eq_cons_iff.mp rest
    rw [List.map_eq_nil_iff.mp rest]
    exact twin_pure (by simp [Expr.erased_keep, first, second])
  · exact twin_of_fails failAtPrevious_ne_ok

theorem twin_linkParser :
    T.Twin (T.Directed (.keyword .link)) (T.Open 0) (MarkupNode.unplaced T.keep) (linkParser inner)
      (linkParser inner) := by
  refine (twin_plainHead (by simp) rfl).bind fun head head' _ => ?_
  refine (twin_pathArguments h "link").bind ?_
  rintro ⟨path, options, close⟩ ⟨path', options', close'⟩ same
  obtain ⟨paths, settings⟩ := Prod.mk.inj same
  refine twin_near fun t u near => ?_
  extract_lets kind rest kind' rest'
  have tail (caption caption' : Option TextNode) (span span' : Span)
      (same : caption.map (TextNode.unplaced T.keep) = caption'.map (TextNode.unplaced T.keep)) :
      T.Twin (T.Open 0) (T.Open 0) (MarkupNode.unplaced T.keep) (rest (caption, span))
        (rest' (caption', span')) := by
    refine (MarkupInner.twin_optionalChildren h _ _).bind fun _ _ children => twin_pure ?_
    simp [unplaced, unplacedAll_eq, paths, settings, same, children]
  have quoted (kind : TokenKind) (real : kind ≠ .endOfFile) (plain : kind.isHead = false)
      (level : kind.parensAfter 0 = 0) : T.Twin (a.At (T.Open 0) kind) (T.Open 0)
      (MarkupNode.unplaced T.keep)
      (advance >>= fun t => TextNode.parser t >>= fun x =>
        pure (some x, (head.cover close).cover t.span) >>= rest)
      (advance >>= fun t => TextNode.parser t >>= fun x =>
        pure (some x, (head'.cover close').cover t.span) >>= rest') := by
    have passes : T.Twin (a.At (T.Open 0) kind) _ _ advance advance :=
      twin_advance real (exact_at plain)
    rw [level] at passes
    refine passes.bind fun t u content => (twin_text content).bind fun x y alike => ?_
    exact tail (some x) (some y) _ _ (congrArg some alike)
  have same : (kind' == .string || kind' == .template) = (kind == .string || kind == .template) :=
    (congrArg₂ or (near.beq_kind rfl) (near.beq_kind rfl)).symm
  rw [same]
  refine .ite (fun own => ?_) fun _ => (tail none none _ _ rfl).atKind
  rw [Bool.or_eq_true, beq_iff_eq, beq_iff_eq] at own
  rcases own with own | own
  · rw [show t.kind = .string from own]
    exact quoted .string (by simp) rfl rfl
  · rw [show t.kind = .template from own]
    exact quoted .template (by simp) rfl rfl

theorem twin_outletParser :
    T.Twin (T.Directed (.keyword .outlet)) (T.Open 0) (MarkupNode.unplaced T.keep)
      (outletParser inner) (outletParser inner) := by
  refine (twin_plainHead (by simp) rfl).bind fun head head' _ => ?_
  refine twin_isSymbol ?_ (twin_pure rfl)
  refine (Expr.twin_arguments h.expr).atKind.bind ?_
  rintro ⟨arguments, close⟩ ⟨arguments', close'⟩ same
  dsimp only at same ⊢
  rcases arguments with _ | ⟨container, _ | ⟨second, rest⟩⟩
  · rw [List.map_eq_nil_iff.mp same.symm]
    exact twin_pure rfl
  · obtain ⟨container', rest', rfl, first, rest⟩ := List.map_eq_cons_iff.mp same.symm
    rw [List.map_eq_nil_iff.mp rest]
    exact twin_pure (by simp [unplaced, Expr.erased_keep, first])
  · exact twin_of_fails fail_ne_ok

theorem twin_navigateParser :
    T.Twin (T.Directed (.keyword .navigate)) (T.Open 0) (MarkupNode.unplaced T.keep)
      (navigateParser inner) (navigateParser inner) := by
  refine (twin_plainHead (by simp) rfl).bind fun head head' _ => ?_
  refine (twin_pathArguments h "navigate").bind fun x y same => twin_pure ?_
  obtain ⟨paths, settings⟩ := Prod.mk.inj same
  simp [unplaced, paths, settings]

omit h in
theorem twin_emptyArguments {kind : TokenKind} (real : kind ≠ .endOfFile)
    (plain : kind.parensAfter 0 = 0) :
    T.Twin (T.Directed kind) (T.Open 0) (fun _ : Span => ()) emptyArguments emptyArguments := by
  refine (twin_plainHead real plain).bind fun head head' _ => twin_eatSymbol ?_ (twin_pure rfl)
  exact (twin_expectSymbol _).bind fun _ _ _ => twin_pure rfl

theorem twin_namedDirective [T.Walled] (name : String) :
    T.Twin (T.Directed .identifier) (T.Open 0) (MarkupNode.unplaced T.keep)
      (namedDirective inner name) (namedDirective inner name) := by
  refine .ite (fun _ => twin_of_fails fail_ne_ok) fun _ => .ite (fun _ => ?_) fun _ =>
    .ite (fun _ => twin_of_fails fail_ne_ok) fun _ => ?_
  · refine BoundaryTarget.parser_twin.bind fun _ _ target => ?_
    refine (MarkupInner.twin_optionalChildren h _ _).bind fun _ _ children => twin_pure ?_
    simp [unplaced, unplacedAll_eq, target, children]
  · refine (EventHandler.parser_twin h.expr).bind fun _ _ handler => ?_
    refine (MarkupInner.twin_optionalChildren h _ _).bind fun _ _ children => twin_pure ?_
    simp [unplaced, unplacedAll_eq, handler, children]

theorem twin_directiveParser [T.Walled] :
    T.Twin (a.At (T.Open 0) (.symbol .atSign)) (T.Open 0) (MarkupNode.unplaced T.keep)
      (directiveParser inner) (directiveParser inner) := by
  refine twin_peekName fun t u same => ?_
  rw [← Token.kind_of_content same, ← Token.text_of_content same]
  split
  · next kind => exact kind ▸ twin_conditionalParser h
  · next kind => exact kind ▸ twin_loopParser h (by simp) rfl
  · next kind => exact kind ▸ twin_loopParser h (by simp) rfl
  · next kind => exact kind ▸ twin_linkParser h
  · next kind => exact kind ▸ twin_outletParser h
  · next kind => exact kind ▸ twin_navigateParser h
  · next kind =>
    rw [kind]
    exact (twin_emptyArguments (by simp) rfl).bind fun _ _ _ => twin_pure rfl
  · next kind =>
    rw [kind]
    exact (twin_emptyArguments (by simp) rfl).bind fun _ _ _ => twin_pure rfl
  · exact twin_of_fails fail_ne_ok
  · next kind => exact kind ▸ twin_namedDirective h _
  · refine twin_of_fails fun ok => ?_
    obtain ⟨_, _, _, ok⟩ := bind_eq_ok.mp ok
    exact failAtToken_ne_ok ok

end

section

variable (h : inner.Twin T) (touching : T.Touching)

include h touching

theorem twin_parserAt [T.Walled] :
    T.Twin (T.Open 0) (T.Open 0) (MarkupNode.unplaced T.keep) (parserAt inner) (parserAt inner) := by
  have quoted (kind : TokenKind) (real : kind ≠ .endOfFile) (plain : kind.isHead = false)
      (level : kind.parensAfter 0 = 0) : T.Twin (a.At (T.Open 0) kind) (T.Open 0)
      (MarkupNode.unplaced T.keep) (advance >>= fun t => TextNode.parser t >>= fun x =>
        pure (text x)) (advance >>= fun t => TextNode.parser t >>= fun x => pure (text x)) := by
    have passes : T.Twin (a.At (T.Open 0) kind) _ _ advance advance :=
      twin_advance real (exact_at plain)
    rw [level] at passes
    exact passes.bind fun _ _ content => (twin_text content).bind fun _ _ alike =>
      twin_pure (by simp [unplaced, alike])
  have literal (kind : TokenKind) (real : kind ≠ .endOfFile) (plain : kind.isHead = false)
      (level : kind.parensAfter 0 = 0) : T.Twin (a.At (T.Open 0) kind) (T.Open 0)
      (MarkupNode.unplaced T.keep) (advance >>= fun t => pure (text (.ofLiteral t)))
      (advance >>= fun t => pure (text (.ofLiteral t))) := by
    have passes : T.Twin (a.At (T.Open 0) kind) _ _ advance advance :=
      twin_advance real (exact_at plain)
    rw [level] at passes
    refine passes.bind fun _ _ content => twin_pure ?_
    simp [unplaced, TextNode.unplaced, TextNode.ofLiteral, Token.raw_of_content content]
  have element (kind : TokenKind) (head : kind.isHead) := twin_elementParser h touching head
  refine twin_near fun t u near => ?_
  rcases near.kind with kind | ⟨head, head'⟩
  · rw [← kind]
    split
    case h_10 => exact (twin_slotParser h).atKind
    case h_11 sign => exact sign ▸ twin_directiveParser h
    case h_12 => exact twin_of_fails failAtToken_ne_ok
    all_goals
      next kind => 
        rw [kind]
        first
        | exact element _ rfl
        | exact quoted _ (by simp) rfl rfl
        | exact literal _ (by simp) rfl rfl
  · rcases TokenKind.eq_of_isHead head with kind | kind <;>
    rcases TokenKind.eq_of_isHead head' with kind' | kind' <;>
    · rw [kind, kind']
      exact element _ rfl

end

theorem twin_parserWithin [T.Plain] (touching : T.Touching) (levels : Nat) :
    T.Twin (T.Open 0) (T.Open 0) (MarkupNode.unplaced T.keep) (parserWithin levels)
      (parserWithin levels) := by
  induction levels with
  | zero => exact twin_of_fails fail_ne_ok
  | succ levels ih =>
    refine (twin_parserAt ⟨Expr.parser_reader Plain.leaves, fun depth => ?_, ih⟩ touching).deeper
    exact moving_parserWithin levels False.elim False.elim

theorem parser_twin [T.Plain] (touching : T.Touching) :
    T.Twin (T.Open 0) (T.Open 0) (MarkupNode.unplaced T.keep) parser parser :=
  .withLevels (twin_parserWithin touching)

end MarkupNode

theorem ViewBlock.parser_closing [T.Plain] (touching : T.Touching) :
    T.Closing (T.Open 0) (ViewBlock.unplaced T.keep) parser parser := by
  refine (twin_expectKeyword .view).close fun _ _ _ => ?_
  have body := Twin.closing_braced (fun depth => MarkupNode.parser_moving False.elim)
    (MarkupNode.parser_twin touching)
  exact body.map fun _ _ same => congrArg (ViewBlock.mk · default) same

end PulseSyntax
