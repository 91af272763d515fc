import PulseSyntax.Proofs.Expr.Moved
import PulseSyntax.Proofs.Expr.Renamed

namespace PulseSyntax

open PulseSyntax.Parser

/-- The reserved word may stand in for the name: it reads as a name itself, the name has no meaning
    of its own, and no reserved word is spelled like it. -/
structure Scope.Replaceable (x : String) (k : Keyword) (a : Scope) : Prop where
  contextual : k.isContextual
  plain : x ≠ "async"
  words : ∀ t ∈ a.stream.toList, t.kind.isKeyword → t.raw ≠ x
  ordered : a.stream.Ordered

namespace Expr

variable {x : String} {k : Keyword} {a : Scope} {expr : Parser Expr} {nested : Nested}

section

variable {t : Token}

theorem literalOf?_renamed (contextual : k.isContextual) :
    literalOf? (t.renamed x k) = (literalOf? t).map (renamed x k) := by
  by_cases names : t.Names x
  · have word : literalOf? (t.renamed x k) = none := by
      rw [Token.renamed_of_names names]
      cases k <;> first | rfl | cases contextual
    rw [word, literalOf?, names.1]
    rfl
  · rw [Token.renamed_of_not names]
    unfold literalOf?
    split <;> simp [ofLiteral]

theorem renamed_ofName (r : a.Replaceable x k) (member : t ∈ a.stream.toList)
    (name : t.kind = .identifier ∨ t.kind.isKeyword) :
    ofName (t.renamed x k) = (ofName t).renamed x k := by
  by_cases names : t.Names x
  · rw [Token.renamed_of_names names]
    simp [ofName, Keyword.standsFor, names.2, Token.span]
  · have other : t.raw ≠ x := name.elim (fun kind raw => names ⟨kind, raw⟩) (r.words t member)
    rw [Token.renamed_of_not names]
    simp [ofName, Keyword.standsFor, other]

theorem keyOf?_renamed (r : a.Replaceable x k) (member : t ∈ a.stream.toList) :
    keyOf? (t.renamed x k) = (keyOf? t).map (PropertyKey.renamed x k) := by
  by_cases names : t.Names x
  · rw [Token.renamed_of_names names]
    simp [keyOf?, names.1, names.2, Keyword.standsFor]
  · rw [Token.renamed_of_not names]
    unfold keyOf?
    split
    · next kind => simp [Keyword.standsFor, show t.raw ≠ x from fun raw => names ⟨kind, raw⟩]
    · next word kind => simp [Keyword.standsFor, r.words t member (by rw [kind]; rfl)]
    · rfl
    · rfl
    · rfl

theorem closesBeforeArrow_renamed {depth : Nat} {tokens : List Token} :
    closesBeforeArrow depth (tokens.map (Token.renamed x k)) = closesBeforeArrow depth tokens := by
  have bracket (t : Token) : bracketStep (t.renamed x k).kind = bracketStep t.kind := by
    by_cases names : t.Names x
    · rw [Token.renamed_of_names names, names.1]
      rfl
    · rw [Token.renamed_of_not names]
  have same (t : Token) (kind : TokenKind) (name : kind ≠ .identifier)
      (word : kind.isKeyword = false) : ((t.renamed x k).kind == kind) = (t.kind == kind) := by
    rw [Bool.eq_iff_iff, beq_iff_eq, beq_iff_eq, Token.kind_renamed_eq_iff name word]
  induction tokens generalizing depth with
  | nil => rfl
  | cons t rest ih =>
    have next : ((rest.map (Token.renamed x k)).head?.any fun next => next.kind == .symbol .arrow) =
        rest.head?.any fun next => next.kind == .symbol .arrow := by
      cases rest with
      | nil => rfl
      | cons u _ => exact same u _ (by simp) rfl
    rw [List.map_cons, closesBeforeArrow, closesBeforeArrow, bracket, next, ih, ih, ih,
      same t _ (by simp) rfl, same t _ (by simp) rfl]

end

/-- A reader that reads the reserved word as it reads the name. -/
abbrev Reads (x : String) (k : Keyword) (a : Scope) (p : Parser Expr) : Prop :=
  Renames x k a (renamed x k) (Pinned a x) (fun _ => a.Halts x) p p

structure Nested.Reads (x : String) (k : Keyword) (a : Scope) (nested : Nested) : Prop where
  assignment : Expr.Reads x k a nested.assignment
  unary : Expr.Reads x k a nested.unary
  sound : nested.Sound a

section

variable {α β γ : Type} {name : α → β} {pins : α → Prop} {stop : β → ParserState → Prop}
variable {s : ParserState}

theorem expectSymbol_halts {sign : Symbol} (other : sign ≠ .arrow) {f : Token → Parser β}
    (here : a.Halts x s) : Yields (expectSymbol sign >>= f) (a.renamed x k) s stop := by
  rw [yields_bind, yields_expectSymbol, Scope.get_renamed, Token.kind_renamed_symbol]
  exact fun kind => absurd kind (here.kind_ne other)

theorem answers_current {f : Token → Parser α} {g : Token → Parser β}
    (h : Answers name pins stop (f (a.stream.get s.cursor) a s)
      (g ((a.stream.get s.cursor).renamed x k) (a.renamed x k) s)) :
    Answers name pins stop ((current >>= f) a s) ((current >>= g) (a.renamed x k) s) := by
  rwa [bind_of_ok current_apply, bind_of_ok current_apply, Scope.get_renamed]

theorem answers_peek {f : Token → Parser α} {g : Token → Parser β}
    (h : Answers name pins stop (f (a.stream.get (s.cursor + 1)) a s)
      (g ((a.stream.get (s.cursor + 1)).renamed x k) (a.renamed x k) s)) :
    Answers name pins stop ((peek >>= f) a s) ((peek >>= g) (a.renamed x k) s) := by
  rwa [bind_of_ok peek_apply, bind_of_ok peek_apply, Scope.get_renamed]

end

theorem reads_spreadable (h : Reads x k a expr) : Reads x k a (spreadable expr) := by
  refine (renames_isSymbol _).step fun spread => .ite (fun _ => renames_advance.step fun t => ?_) fun _ => h
  refine h.bind (fun e free => renames_pure (by simp) (by simpa using free)) ?_
    fun _ _ here => yields_pure.mpr here
  intro e s pin
  simpa using pin

theorem renames_arguments (h : Reads x k a expr) :
    Renames x k a (fun answer : List Expr × Span => (answer.1.map (renamed x k), answer.2))
      (fun answer => ∃ e ∈ answer.1, e.Pinned a x) Nowhere (arguments expr) (arguments expr) := by
  refine (renames_expectSymbol _).step fun _ => ?_
  refine (Renames.commaSeparated _ (fun _ here => here.kind_ne (by simp)) (reads_spreadable h)).bind
    (fun es free => ?_) (fun es t pin => ?_) fun _ _ here => expectSymbol_halts (by simp) here
  · exact (renames_expectSymbol _).step fun close => renames_pure (by simp) free
  · simpa using fun _ => pin

theorem renames_arrowBlock :
    Renames x k a (ArrowBody.renamed x k) Free Nowhere arrowBlock arrowBlock := by
  refine renames_rawBlock.step fun r s => ?_
  rw [bind_of_ok scope_apply, bind_of_ok scope_apply]
  rw [show (a.renamed x k).quotation = a.quotation from rfl]
  cases a.quotation with
  | some => exact .same id
  | none => exact .same id

theorem arrowBlock_free {s : ParserState} : Yields arrowBlock a s fun b _ => ¬ b.Pinned a x := by
  intro b t ok
  obtain ⟨r, -, rfl⟩ := arrowBlock_eq_ok.mp ok
  exact ArrowBody.pinned_body

theorem Stands.exists_name {piece : Piece} {i j : Nat} (h : Stands a piece i j) {name : String}
    {span : Span} (same : piece = .expr (.identifier name span))
    (after : (a.stream.get j).kind ≠ .symbol .arrow) :
    ∃ m, .identifier name span = ofName (a.stream.get m) ∧
      (a.stream.get m).kind ≠ .endOfFile ∧ (a.stream.get (m + 1)).kind ≠ .symbol .arrow := by
  induction h with
  | @name i hk =>
    cases same
    refine ⟨i, rfl, ?_, after⟩
    intro atEnd
    rw [atEnd] at hk
    cases hk
  | @importName i hk =>
    cases same
    exact ⟨i, rfl, by simp [hk], after⟩
  | group ho inner hc ih => exact ih same (by simp [hc])
  | literal h =>
    cases same
    unfold literalOf? at h
    split at h <;> cases h
  | _ => cases same

theorem not_bareAt_of_items (ordered : a.stream.Ordered) {e : Expr} {i j m : Nat}
    (h : Stands a (.items [e]) i j) (closed : (a.stream.get j).kind = .symbol .closeParen)
    (same : e = .ofName (a.stream.get m)) : ¬ a.BareAt x m := by
  obtain ⟨j', own, after⟩ : ∃ j', Stands a (.item e) i j' ∧
      (a.stream.get j').kind ≠ .symbol .arrow := by
    cases h with
    | lastItem only => exact ⟨j, only, by simp [closed]⟩
    | moreItems first hc rest => exact ⟨_, first, by simp [hc]⟩
  subst same
  cases own with
  | item inner =>
    obtain ⟨n, same, real, next⟩ := inner.exists_name rfl after
    rintro ⟨names, arrow⟩
    have span : (a.stream.get m).span = (a.stream.get n).span := congrArg Expr.span same
    obtain rfl := ordered.eq_of_span (by simp [names.1]) real span
    exact next arrow

section

variable {s : ParserState} {start : Span} {isAsync : Bool} {params : List Expr}

def afterParams (nested : Nested) (start : Span) (isAsync : Bool) (params : List Expr) :
    Parser Expr := do
  if !params.all isParam then fail .arrowParameter
  else
    let _ ← expectSymbol .arrow
    if ← isSymbol .openBrace then
      let body ← arrowBlock
      return .arrow params body isAsync (start.cover (← previous).span)
    else
      let body ← nested.assignment
      return .arrow params (.expression body) isAsync (start.cover body.span)

theorem arrowFunction_eq :
    arrowFunction nested start isAsync = isSymbol .openParen >>= fun parens =>
      if parens then arguments nested.assignment >>= fun answer =>
        afterParams nested start isAsync answer.1
      else expect .identifier >>= fun t => afterParams nested start isAsync [.ofName t] := rfl

theorem yields_afterParams :
    Yields (afterParams nested start isAsync params) a s fun e _ =>
      ∃ body span, e = .arrow params body isAsync span := by
  simp [afterParams]

theorem arrowFunction_pinned (bare : a.BareAt x s.cursor) :
    Yields (arrowFunction nested start isAsync) a s fun e _ => e.Pinned a x := by
  simp [arrowFunction_eq, bare.1.1]
  refine yields_afterParams.mono ?_
  rintro _ t ⟨body, span, rfl⟩
  exact pinned_arrow.mpr (.inl ⟨_, rfl, bare⟩)

theorem reads_afterParams (h : nested.Reads x k a)
    (alone : ¬ ∃ i, params = [.ofName (a.stream.get i)] ∧ a.BareAt x i)
    (free : ¬ ∃ e ∈ params, e.Pinned a x) :
    Renames x k a (renamed x k) (Pinned a x) (fun _ => a.Halts x)
      (afterParams nested start isAsync params)
      (afterParams nested start isAsync (params.map (renamed x k))) := by
  rw [afterParams, afterParams, all_isParam_renamed]
  refine .ite (fun _ => renames_of_fails fail_ne_ok fail_ne_ok) fun _ => ?_
  refine (renames_expectSymbol _).step fun _ => (renames_isSymbol _).step fun brace => ?_
  refine .ite (fun _ s => ?_) fun _ => ?_
  · refine answers_step (renames_arrowBlock s) fun body t own =>
      answers_step (renames_previous t) fun last u _ => renames_pure ?_ ?_ u
    · simp [renamedItems_eq]
    · simpa [alone, free] using arrowBlock_free own
  · refine h.assignment.bind (fun body own => renames_pure ?_ ?_) (fun body t pin => ?_)
      fun _ _ here => yields_pure.mpr here
    · simp [renamedItems_eq]
    · simpa [alone, free] using own
    · simp [pin]

theorem answers_bareParam (h : nested.Reads x k a) (other : ¬ a.BareAt x s.cursor) :
    Answers (renamed x k) (Pinned a x) (fun _ => a.Halts x)
      ((expect .identifier >>= fun t => afterParams nested start isAsync [.ofName t]) a s)
      ((expect .identifier >>= fun t => afterParams nested start isAsync [.ofName t])
        (a.renamed x k) s) := by
  by_cases names : (a.stream.get s.cursor).Names x
  · refine answers_of_fails ?_ ?_
    · simp [afterParams, names.1]
      rw [ParserState.next_of_kind names.1 (by simp)]
      exact fun _ arrow => absurd ⟨names, arrow⟩ other
    · simp [Token.renamed_of_names names]
  by_cases kind : (a.stream.get s.cursor).kind = .identifier
  · have read (b : Scope) (here : b.stream.get s.cursor = a.stream.get s.cursor) :
        expect .identifier b s = .ok (a.stream.get s.cursor) (s.ahead 1) :=
      (expect_eq_ok (by simp)).mpr ⟨here ▸ kind, here.symm, rfl⟩
    have same : [ofName (a.stream.get s.cursor)] =
        [ofName (a.stream.get s.cursor)].map (renamed x k) := by
      have raw : (a.stream.get s.cursor).raw ≠ x := fun raw => names ⟨kind, raw⟩
      simp [ofName, Keyword.standsFor, raw]
    rw [bind_of_ok (read a rfl), bind_of_ok (read _ (by simp [Token.renamed_of_not names]))]
    conv => arg 5; rw [same]
    refine reads_afterParams h ?_ (by simp) (s.ahead 1)
    rintro ⟨i, same, bare⟩
    refine names ⟨kind, ?_⟩
    rw [← bare.1.2]
    exact congrArg (fun es : List Expr => (es.head?.bind name?).getD "") same
  · refine answers_of_fails ?_ ?_
    · simp [kind]
    · simp [Token.renamed_of_not names, kind]

theorem answers_arrowFunction (r : a.Replaceable x k) (h : nested.Reads x k a)
    (other : ¬ a.BareAt x s.cursor) :
    Answers (renamed x k) (Pinned a x) (fun _ => a.Halts x) (arrowFunction nested start isAsync a s)
      (arrowFunction nested start isAsync (a.renamed x k) s) := by
  rw [arrowFunction_eq]
  have listed : Renames x k a (renamed x k) (Pinned a x) (fun _ => a.Halts x)
      (arguments nested.assignment >>= fun answer => afterParams nested start isAsync answer.1)
      (arguments nested.assignment >>= fun answer => afterParams nested start isAsync answer.1) := by
    intro s
    refine answers_bind (renames_arguments h.assignment s) (fun answer t own free => ?_)
      (fun answer t pin => ?_) fun _ _ => False.elim
    · obtain ⟨close, -, -, -, items, closing⟩ := yields_arguments_stands h.sound.assignment own
      refine reads_afterParams h ?_ free t
      rintro ⟨i, same, bare⟩
      rw [same] at items
      exact not_bareAt_of_items r.ordered items closing rfl bare
    · refine yields_afterParams.mono ?_
      rintro _ t ⟨body, span, rfl⟩
      exact pinned_arrow.mpr (.inr (.inl pin))
  refine answers_step (renames_isSymbol _ s) fun parens t same => ?_
  obtain rfl : s = t := by
    cases same
    rfl
  cases parens with
  | true => exact listed s
  | false => exact answers_bareParam h other

end

theorem reads_arrayLiteral (h : nested.Reads x k a) : Reads x k a (arrayLiteral nested) := by
  refine (renames_expectSymbol _).step fun opening => ?_
  refine (Renames.commaSeparated _ (fun _ here => here.kind_ne (by simp))
    (reads_spreadable h.assignment)).bind (fun es free => ?_) (fun es t pin => ?_)
    fun _ _ here => expectSymbol_halts (by simp) here
  · refine (renames_expectSymbol _).step fun close => renames_pure ?_ (by simpa using free)
    simp [renamedItems_eq]
  · simpa using fun _ => pin

abbrev ReadsMember (x : String) (k : Keyword) (a : Scope) (p q : Parser ObjectMember) : Prop :=
  Renames x k a (ObjectMember.renamed x k) (ObjectMember.Pinned a x) (fun _ => a.Halts x) p q

theorem reads_propertyValue (h : nested.Reads x k a) (start : Span) {key : PropertyKey}
    (free : ¬ key.Pinned a x) :
    ReadsMember x k a (propertyValue nested start key)
      (propertyValue nested start (key.renamed x k)) := by
  refine (renames_expectSymbol _).step fun _ => ?_
  refine h.assignment.bind (fun value own => renames_pure ?_ ?_) (fun value t pin => ?_)
    fun _ _ here => yields_pure.mpr here
  · simp
  · simp [free, own]
  · simp [pin]

theorem propertyValue_pinned {start : Span} {key : PropertyKey} {s : ParserState}
    (pin : key.Pinned a x) :
    Yields (propertyValue nested start key) a s fun m _ => m.Pinned a x := by
  simp [propertyValue]
  exact fun _ _ _ _ => .inl pin

theorem kind_beq_renamed {t : Token} {sign : Symbol} :
    ((t.renamed x k).kind == .symbol sign) = (t.kind == .symbol sign) := by
  rw [Bool.eq_iff_iff, beq_iff_eq, beq_iff_eq, Token.kind_renamed_symbol]

theorem answers_keyed (h : nested.Reads x k a) {t : Token} {key : PropertyKey}
    (own : keyOf? t = some key) (s : ParserState) (alone : Bool)
    (found : alone → (a.stream.get s.cursor).kind ≠ .symbol .colon) :
    Answers (ObjectMember.renamed x k) (ObjectMember.Pinned a x) (fun _ => a.Halts x)
      ((if t.kind == .identifier && alone then return .property key (.ofName t) true t.span
        else propertyValue nested t.span key : Parser ObjectMember) a s)
      ((if (t.renamed x k).kind == .identifier && alone then
          return .property (key.renamed x k) (.ofName (t.renamed x k)) true t.span
        else propertyValue nested t.span (key.renamed x k) : Parser ObjectMember)
        (a.renamed x k) s) := by
  have value : Answers _ _ _ (propertyValue nested t.span key a s)
      (propertyValue nested t.span (key.renamed x k) (a.renamed x k) s) :=
    reads_propertyValue h t.span (PropertyKey.pinned_keyOf? own) s
  cases alone with
  | false => simpa using value
  | true =>
    simp only [Bool.and_true, beq_iff_eq]
    by_cases names : t.Names x
    · obtain rfl : key = .identifier t.raw := by simpa [keyOf?, names.1] using own.symm
      rw [if_pos names.1, Token.renamed_of_names names, if_neg (by simp)]
      refine .pinned (ObjectMember.pinned_shorthand.mpr names.2) fun m u ok => ?_
      obtain ⟨_, _, colon, -⟩ := bind_eq_ok.mp ok
      have colon := ((expect_eq_ok (by simp)).mp colon).1
      rw [Scope.get_renamed, Token.kind_renamed_symbol] at colon
      exact absurd colon (found rfl)
    · rw [Token.renamed_of_not names]
      split
      · next kind =>
        obtain rfl : key = .identifier t.raw := by simpa [keyOf?, kind] using own.symm
        have raw : t.raw ≠ x := fun raw => names ⟨kind, raw⟩
        refine renames_pure (a := a) ?_ (mt ObjectMember.pinned_shorthand.mp raw) s
        simp [ofName, Keyword.standsFor, raw]
      · exact value

theorem reads_objectMember (r : a.Replaceable x k) (h : nested.Reads x k a) :
    ReadsMember x k a (objectMember nested) (objectMember nested) := by
  intro s
  have member := a.stream.get_mem s.cursor
  refine answers_current ?_
  generalize a.stream.get s.cursor = t at member
  simp only [kind_beq_renamed, Token.span_renamed, keyOf?_renamed r member]
  revert s
  change Renames x k a _ _ _ _ _
  refine .ite (fun _ => renames_advance.step fun _ => ?_) fun _ =>
    .ite (fun _ => renames_advance.step fun _ => ?_) fun _ => ?_
  · refine h.assignment.bind (fun e free => renames_pure (by simp) (by simpa using free)) ?_
      fun _ _ here => yields_pure.mpr here
    intro e s pin
    simpa using pin
  · refine h.assignment.bind (fun key free => ?_) (fun key s pin => ?_)
      fun _ _ here => expectSymbol_halts (by simp) here
    · exact (renames_expectSymbol _).step fun _ => reads_propertyValue h t.span (by simpa using free)
    · simp
      exact fun _ => propertyValue_pinned (by simpa using pin)
  · cases own : keyOf? t with
    | none => exact renames_of_fails failAtToken_ne_ok failAtToken_ne_ok
    | some key =>
      refine renames_advance.step fun _ s => answers_current ?_
      simp only [kind_beq_renamed]
      refine answers_keyed h own s _ fun alone colon => ?_
      simp [colon] at alone

theorem reads_objectLiteral (r : a.Replaceable x k) (h : nested.Reads x k a) :
    Reads x k a (objectLiteral nested) := by
  refine (renames_expectSymbol _).step fun opening => ?_
  refine (Renames.commaSeparated _ (fun _ here => here.kind_ne (by simp))
    (reads_objectMember r h)).bind (fun ms free => ?_) (fun ms t pin => ?_)
    fun _ _ here => expectSymbol_halts (by simp) here
  · refine (renames_expectSymbol _).step fun close => renames_pure ?_ (by simpa using free)
    simp [renamedMembers_eq]
  · simpa using fun _ => pin

theorem reads_grouped (h : nested.Reads x k a) : Reads x k a (grouped nested) := by
  refine renames_advance.step fun _ => h.assignment.bind (fun e free => ?_) (fun e t pin => ?_)
    fun _ _ here => expectSymbol_halts (by simp) here
  · exact (renames_expectSymbol _).step fun _ => renames_pure rfl free
  · simpa using fun _ => pin

section

variable {t next : Token}

theorem readsAsName_renamed (r : a.Replaceable x k) :
    readsAsName (t.renamed x k) (next.renamed x k) = readsAsName t next := by
  rw [readsAsName, readsAsName, kind_beq_renamed]
  by_cases names : t.Names x
  · rw [Token.renamed_of_names names, names.1]
    simp [TokenKind.isName, TokenKind.isContextualKeyword, r.contextual]
  · rw [Token.renamed_of_not names]

theorem kind_of_readsAsName (h : readsAsName t next) : t.kind = .identifier ∨ t.kind.isKeyword := by
  simp only [readsAsName, Bool.or_eq_true, Bool.and_eq_true, beq_iff_eq] at h
  rcases h with name | ⟨word, -⟩
  · rcases kind_of_isName name with kind | ⟨word, kind, -⟩
    · exact .inl kind
    · exact .inr (by rw [kind]; rfl)
  · exact .inr (by rw [word]; rfl)

theorem reads_nameOrBrackets (r : a.Replaceable x k) (h : nested.Reads x k a)
    (member : t ∈ a.stream.toList) :
    Renames x k a (renamed x k) (Pinned a x) (fun _ => a.Halts x) (nameOrBrackets nested t next)
      (nameOrBrackets nested (t.renamed x k) (next.renamed x k)) := by
  rw [nameOrBrackets, nameOrBrackets, readsAsName_renamed r]
  refine .ite (fun name => ?_) fun noName => ?_
  · refine renames_advance.step fun _ => renames_pure ?_ pinned_ofName
    exact renamed_ofName r member (kind_of_readsAsName name)
  · have same : t.renamed x k = t := by
      refine Token.renamed_of_not fun names => noName ?_
      simp [readsAsName, names.1, TokenKind.isName]
    rw [same]
    split
    · exact reads_grouped h
    · exact reads_arrayLiteral h
    · exact reads_objectLiteral r h
    · exact renames_of_fails failAtToken_ne_ok failAtToken_ne_ok

end

theorem renames_startsArrowAt (offset : Nat) :
    Renames x k a id Free Nowhere (startsArrowAt offset) (startsArrowAt offset) := by
  intro s
  have same : startsArrowAt offset (a.renamed x k) s = .ok
      (closesBeforeArrow 0 (a.stream.tokensFrom (s.cursor + offset))) s := by
    rw [← closesBeforeArrow_renamed (x := x) (k := k), ← TokenStream.tokensFrom_renamed]
    rfl
  rw [same]
  exact .same id

section

variable {s : ParserState}

theorem answers_asyncArrowFollows (other : ¬ a.BareAt x (s.cursor + 1)) :
    Answers id Free Nowhere (asyncArrowFollows a s) (asyncArrowFollows (a.renamed x k) s) := by
  refine answers_peek ?_
  by_cases names : (a.stream.get (s.cursor + 1)).Names x
  · have noArrow : (a.stream.get (s.cursor + 2)).kind ≠ .symbol .arrow := fun arrow =>
      other ⟨names, arrow⟩
    rw [Token.renamed_of_names names, names.1]
    dsimp only
    rw [bind_of_ok (peekAt_apply 2), beq_eq_false_iff_ne.mpr noArrow]
    exact .same id
  · rw [Token.renamed_of_not names]
    generalize (a.stream.get (s.cursor + 1)).kind = kind
    clear other names
    revert s
    change Renames x k a id Free Nowhere _ _
    split
    · refine (renames_peekAt 2 fun _ => id).step fun t => ?_
      rw [kind_beq_renamed]
      exact renames_pure rfl id
    · exact renames_startsArrowAt 1
    · exact renames_pure rfl id

theorem answers_startsAsyncArrow (r : a.Replaceable x k) {t : Token}
    (other : t.kind = .identifier → t.raw = "async" → ¬ a.BareAt x (s.cursor + 1)) :
    Answers id Free Nowhere (startsAsyncArrow t a s)
      (startsAsyncArrow (t.renamed x k) (a.renamed x k) s) := by
  by_cases names : t.Names x
  · have plain : t.raw ≠ "async" := names.2 ▸ r.plain
    rw [startsAsyncArrow, startsAsyncArrow, if_neg (by simp [plain]),
      if_neg (by simp [Token.renamed_of_names names])]
    exact .same id
  · rw [Token.renamed_of_not names, startsAsyncArrow]
    by_cases async : t.kind = .identifier ∧ t.raw = "async"
    · rw [if_pos (by simpa using async)]
      exact answers_asyncArrowFollows (other async.1 async.2)
    · rw [if_neg (by simpa using async)]
      exact .same id

theorem answers_startsArrow {t next : Token}
    (other : t.Names x → next.kind ≠ .symbol .arrow) :
    Answers id Free Nowhere (startsArrow t next a s)
      (startsArrow (t.renamed x k) (next.renamed x k) (a.renamed x k) s) := by
  rw [startsArrow, startsArrow, kind_beq_renamed]
  by_cases names : t.Names x
  · rw [Token.renamed_of_names names, names.1, beq_eq_false_iff_ne.mpr (other names)]
    exact .same id
  · rw [Token.renamed_of_not names]
    revert s
    change Renames x k a id Free Nowhere _ _
    refine .ite (fun _ => renames_pure rfl id) fun _ => ?_
    exact .ite (fun _ => renames_startsArrowAt 0) fun _ => renames_pure rfl id

theorem yields_nameOrBrackets_name {scope : Scope} {t next : Token} {Q : Expr → ParserState → Prop}
    (name : t.kind.isName) (h : Q (.ofName t) (s.next scope)) :
    Yields (nameOrBrackets nested t next) scope s Q := by
  rw [nameOrBrackets, if_pos (by simp [readsAsName, name])]
  simpa using h

theorem answers_primary_bare (r : a.Replaceable x k) (bare : a.BareAt x s.cursor) :
    Answers (renamed x k) (Pinned a x) (fun _ => a.Halts x) (primary nested a s)
      (primary nested (a.renamed x k) s) := by
  have noLiteral : literalOf? (a.stream.get s.cursor) = none := by rw [literalOf?, bare.1.1]
  refine answers_of_yields ?_ ?_
  · have plain : (a.stream.get s.cursor).raw ≠ "async" := bare.1.2 ▸ r.plain
    simp [primary, noLiteral, startsAsyncArrow, plain, startsArrow, bare.1.1, bare.2]
    exact arrowFunction_pinned bare
  · have word := Token.renamed_of_names (k := k) bare.1
    simp [primary, literalOf?_renamed r.contextual, noLiteral, startsAsyncArrow, startsArrow]
    simp [word, bare.1.1]
    refine yields_nameOrBrackets_name ?_ ?_
    · simp [TokenKind.isName, TokenKind.isContextualKeyword, r.contextual]
    · rw [ParserState.next_of_kind rfl (by simp [word])]
      exact ⟨_, bare, .inr rfl⟩

theorem answers_primary_async (r : a.Replaceable x k)
    (kind : (a.stream.get s.cursor).kind = .identifier)
    (raw : (a.stream.get s.cursor).raw = "async") (bare : a.BareAt x (s.cursor + 1)) :
    Answers (renamed x k) (Pinned a x) (fun _ => a.Halts x) (primary nested a s)
      (primary nested (a.renamed x k) s) := by
  have noLiteral : literalOf? (a.stream.get s.cursor) = none := by rw [literalOf?, kind]
  have next := ParserState.next_of_kind kind (by simp)
  refine answers_of_yields ?_ ?_
  · simp [primary, noLiteral, startsAsyncArrow, kind, raw, asyncArrowFollows, bare.1.1, bare.2, next]
    exact arrowFunction_pinned bare
  · have plain : ¬ (a.stream.get s.cursor).Names x := fun names => r.plain (names.2 ▸ raw)
    have word := Token.renamed_of_names (k := k) bare.1
    simp [primary, Token.renamed_of_not plain, noLiteral, startsAsyncArrow, kind, raw,
      asyncArrowFollows, startsArrow, word]
    refine yields_nameOrBrackets_name (by simp [kind, TokenKind.isName]) ?_
    rw [ParserState.next_of_kind rfl (by simp [Token.renamed_of_not plain, kind])]
    exact ⟨_, bare, .inl rfl⟩

end

theorem reads_primary (r : a.Replaceable x k) (h : nested.Reads x k a) :
    Reads x k a (primary nested) := by
  intro s
  by_cases bare : a.BareAt x s.cursor
  · exact answers_primary_bare r bare
  by_cases async : (a.stream.get s.cursor).kind = .identifier ∧
      (a.stream.get s.cursor).raw = "async" ∧ a.BareAt x (s.cursor + 1)
  · exact answers_primary_async r async.1 async.2.1 async.2.2
  have member := a.stream.get_mem s.cursor
  refine answers_current (answers_peek ?_)
  rw [literalOf?_renamed r.contextual]
  cases literal : literalOf? (a.stream.get s.cursor) with
  | some e =>
    exact answers_step (renames_advance s) fun _ t _ => renames_pure rfl (pinned_literalOf? literal) t
  | none =>
    refine answers_step (answers_startsAsyncArrow r fun kind raw bare => async ⟨kind, raw, bare⟩)
      fun isAsync t read => ?_
    obtain ⟨rfl, word⟩ := yields_startsAsyncArrow_raw (Q := fun v u => s = u ∧ (v = true →
      (a.stream.get s.cursor).kind = .identifier ∧ (a.stream.get s.cursor).raw = "async"))
      (fun _ word => ⟨rfl, word⟩) read
    cases isAsync with
    | true =>
      obtain ⟨kind, raw⟩ := word rfl
      refine answers_step (renames_advance s) fun _ u read => ?_
      obtain rfl : u = s.ahead 1 := by
        rw [advance_apply (by simp [kind])] at read
        cases read
        rfl
      rw [Token.span_renamed]
      exact answers_arrowFunction r h fun bare => async ⟨kind, raw, bare⟩
    | false =>
      refine answers_step (answers_startsArrow fun names arrow => bare ⟨names, arrow⟩)
        fun starts u read => ?_
      obtain rfl := yields_startsArrow (Q := fun _ u => s = u) (fun _ => rfl) read
      cases starts with
      | true =>
        rw [Token.span_renamed]
        exact answers_arrowFunction r h bare
      | false => exact reads_nameOrBrackets r h member s

theorem isWord_renamed {t : Token} :
    ((t.renamed x k).kind == .identifier || (t.renamed x k).kind.isKeyword) =
      (t.kind == .identifier || t.kind.isKeyword) := by
  by_cases names : t.Names x
  · simp [Token.renamed_of_names names, names.1, TokenKind.isKeyword]
  · rw [Token.renamed_of_not names]

theorem renames_memberName (r : a.Replaceable x k) :
    Renames x k a (renamed x k) (Pinned a x) Nowhere memberName memberName := by
  intro s
  refine answers_current ?_
  rw [isWord_renamed]
  by_cases word : ((a.stream.get s.cursor).kind == .identifier ||
      (a.stream.get s.cursor).kind.isKeyword) = true
  · rw [if_pos word]
    refine answers_step (renames_advance s) fun t u read => renames_pure ?_ pinned_ofName u
    cases read
    exact renamed_ofName r (a.stream.get_mem _) (by simpa using word)
  · rw [if_neg word]
    exact renames_of_fails (a := a) failAtToken_ne_ok failAtToken_ne_ok s

theorem renames_index (h : nested.Reads x k a) :
    Renames x k a (fun answer : Expr × Span => (answer.1.renamed x k, answer.2))
      (fun answer => answer.1.Pinned a x) Nowhere (index nested) (index nested) := by
  refine renames_advance.step fun _ => h.assignment.bind (fun e free => ?_) (fun e t pin => ?_)
    fun _ _ here => expectSymbol_halts (by simp) here
  · exact (renames_expectSymbol _).step fun close => renames_pure (by simp) free
  · simpa using fun _ => pin

section

variable {e : Expr}

theorem reads_link (r : a.Replaceable x k) (h : nested.Reads x k a) (free : ¬ e.Pinned a x) :
    Renames x k a (Option.map (renamed x k)) (fun next => ∃ e ∈ next, e.Pinned a x)
      (fun _ => a.Halts x) (link nested e) (link nested (e.renamed x k)) := by
  have member (optional : Bool) :
      Renames x k a (Option.map (renamed x k)) (fun next => ∃ e ∈ next, e.Pinned a x)
        (fun _ => a.Halts x) (do return some (mkMember e (← memberName) optional))
        (do return some (mkMember (e.renamed x k) (← memberName) optional)) := by
    refine (renames_memberName r).bind (fun name own => renames_pure ?_ ?_) (fun name t pin => ?_)
      fun _ _ => False.elim
    · simp [mkMember]
    · simp [mkMember, free, own]
    · simp [mkMember, pin]
  have index (optional : Bool) :
      Renames x k a (Option.map (renamed x k)) (fun next => ∃ e ∈ next, e.Pinned a x)
        (fun _ => a.Halts x)
        (do let inside ← index nested
            return some (mkIndex e inside.1 optional inside.2))
        (do let inside ← index nested
            return some (mkIndex (e.renamed x k) inside.1 optional inside.2)) := by
    refine (renames_index h).bind (fun inside own => renames_pure ?_ ?_) (fun inside t pin => ?_)
      fun _ _ => False.elim
    · simp [mkIndex]
    · simp [mkIndex, free, own]
    · simp [mkIndex, pin]
  have call (optional : Bool) :
      Renames x k a (Option.map (renamed x k)) (fun next => ∃ e ∈ next, e.Pinned a x)
        (fun _ => a.Halts x)
        (do let inside ← arguments nested.assignment
            return some (mkCall e inside.1 optional inside.2))
        (do let inside ← arguments nested.assignment
            return some (mkCall (e.renamed x k) inside.1 optional inside.2)) := by
    refine (renames_arguments h.assignment).bind (fun inside own => renames_pure ?_ ?_)
      (fun inside t pin => ?_) fun _ _ => False.elim
    · simp [mkCall, renamedItems_eq]
    · simpa [mkCall, free] using own
    · simpa [mkCall] using .inr pin
  have noLink : Renames x k a (Option.map (renamed x k)) (fun next => ∃ e ∈ next, e.Pinned a x)
      (fun _ => a.Halts x) (pure none) (pure none) := renames_pure rfl (by simp)
  refine renames_current.step fun t => ?_
  by_cases names : t.Names x
  · rw [Token.renamed_of_names names, names.1]
    exact noLink
  rw [Token.renamed_of_not names]
  split
  · exact renames_advance.step fun _ => member false
  · refine renames_advance.step fun _ => renames_current.step fun t => ?_
    by_cases names : t.Names x
    · rw [Token.renamed_of_names names, names.1]
      exact member true
    rw [Token.renamed_of_not names]
    split
    · exact index true
    · exact call true
    · exact member true
  · exact index false
  · exact call false
  · exact noLink

theorem link_pinned {s : ParserState} (pin : e.Pinned a x) :
    Yields (link nested e) a s fun next _ => (next.getD e).Pinned a x := by
  have member {optional : Bool} {s : ParserState} :
      Yields (do return some (mkMember e (← memberName) optional)) a s fun next _ =>
        (next.getD e).Pinned a x :=
    yields_bind.mpr fun _ _ _ => by simp [mkMember, pin]
  have index {optional : Bool} {s : ParserState} :
      Yields (do let inside ← index nested
                 return some (mkIndex e inside.1 optional inside.2)) a s fun next _ =>
        (next.getD e).Pinned a x :=
    yields_bind.mpr fun _ _ _ => by simp [mkIndex, pin]
  have call {optional : Bool} {s : ParserState} :
      Yields (do let inside ← arguments nested.assignment
                 return some (mkCall e inside.1 optional inside.2)) a s fun next _ =>
        (next.getD e).Pinned a x :=
    yields_bind.mpr fun _ _ _ => by simp [mkCall, pin]
  refine yields_bind.mpr (yields_current.mpr ?_)
  split
  · exact yields_bind.mpr (yields_advance.mpr member)
  · refine yields_bind.mpr (yields_advance.mpr (yields_bind.mpr (yields_current.mpr ?_)))
    split
    · exact index
    · exact call
    · exact member
  · exact index
  · exact call
  · exact yields_pure.mpr pin

theorem link_halts {s : ParserState} (here : a.Halts x s) :
    Yields (link nested e) (a.renamed x k) s fun _ => a.Halts x := by
  refine yields_bind.mpr (yields_current.mpr ?_)
  rw [Scope.get_renamed]
  split
  case h_5 => exact yields_pure.mpr here
  all_goals
    rename_i kind
    exact absurd (Token.kind_renamed_symbol.mp kind) (here.kind_ne (by simp))

theorem reads_linked (r : a.Replaceable x k) (h : nested.Reads x k a) :
    Reads x k a (linked nested) :=
  (reads_primary r h).bind
    (fun _ free => .chain (fun _ free => reads_link r h free) (fun _ _ pin => link_pinned pin)
      (fun _ _ here => link_halts here) free)
    (fun _ _ pin => yields_chain (I := fun (e : Expr) _ => e.Pinned a x) (fun _ _ pin => link_pinned pin) pin)
    fun _ _ here => yields_chain (I := fun _ => a.Halts x) (fun _ _ here => link_halts here) here

theorem reads_updated (free : ¬ e.Pinned a x) :
    Renames x k a (renamed x k) (Pinned a x) (fun _ => a.Halts x) (updated e)
      (updated (e.renamed x k)) := by
  refine renames_current.step fun t => ?_
  by_cases names : t.Names x
  · rw [Token.renamed_of_names names, names.1]
    exact renames_pure rfl free
  rw [Token.renamed_of_not names]
  split
  · exact renames_pure rfl free
  · refine renames_previous.step fun last => ?_
    rw [Token.line_renamed, isAssignable_renamed]
    refine .ite (fun _ => renames_pure rfl free) fun _ =>
      .ite (fun _ => renames_of_fails fail_ne_ok fail_ne_ok) fun _ => ?_
    exact renames_advance.step fun _ => renames_pure (by simp) (by simpa using free)

theorem updated_pinned {s : ParserState} (pin : e.Pinned a x) :
    Yields (updated e) a s fun e _ => e.Pinned a x := by
  simp [updated]
  split <;> simp [pin]

theorem updated_halts {s : ParserState} (here : a.Halts x s) :
    Yields (updated e) (a.renamed x k) s fun _ => a.Halts x := by
  have noUpdate : UpdateOp.ofKind? ((a.stream.get s.cursor).renamed x k).kind = none := by
    rcases here.kind_renamed (k := k) with kind | kind <;> rw [kind] <;> rfl
  simp [updated, noUpdate, here]

theorem reads_postfixed (r : a.Replaceable x k) (h : nested.Reads x k a) :
    Reads x k a (postfixed nested) := by
  rw [postfixed_eq]
  exact (reads_linked r h).bind (fun _ free => reads_updated free) (fun _ _ pin => updated_pinned pin)
    fun _ _ here => updated_halts here

theorem reads_unaryAt (r : a.Replaceable x k) (h : nested.Reads x k a) :
    Reads x k a (unaryAt nested) := by
  refine renames_current.step fun t => ?_
  by_cases names : t.Names x
  · rw [Token.renamed_of_names names, names.1]
    exact reads_postfixed r h
  rw [Token.renamed_of_not names]
  split
  · refine renames_advance.step fun _ => h.unary.bind (fun e free => renames_pure ?_ ?_)
      (fun e s pin => ?_) fun _ _ here => yields_pure.mpr here
    · simp
    · simpa using free
    · simpa using pin
  · refine renames_advance.step fun _ => h.unary.bind (fun e free => ?_) (fun e s pin => ?_)
      fun e s here => ?_
    · rw [isAssignable_renamed]
      refine .ite (fun _ => renames_of_fails fail_ne_ok fail_ne_ok) fun _ => renames_pure ?_ ?_
      · simp
      · simpa using free
    · simpa using fun _ => pin
    · simpa using fun _ => here
  · exact reads_postfixed r h

end

theorem reads_join (h : Reads x k a expr) (level : Nat) {e : Expr} (free : ¬ e.Pinned a x) :
    Renames x k a (Option.map (renamed x k)) (fun next => ∃ e ∈ next, e.Pinned a x)
      (fun _ => a.Halts x) (join expr level e) (join expr level (e.renamed x k)) := by
  refine renames_current.step fun t => ?_
  have same : BinaryOp.ofKind? level (t.renamed x k).kind = BinaryOp.ofKind? level t.kind := by
    simp only [BinaryOp.ofKind?, kind_beq_renamed]
  rw [same]
  split
  · exact renames_pure rfl (by simp)
  · refine renames_advance.step fun _ => h.bind (fun right own => renames_pure ?_ ?_)
      (fun right s pin => ?_) fun _ _ here => yields_pure.mpr here
    · simp [mkBinary]
    · simp [mkBinary, free, own]
    · simp [mkBinary, pin]

theorem join_pinned {level : Nat} {e : Expr} {s : ParserState} (pin : e.Pinned a x) :
    Yields (join expr level e) a s fun next _ => (next.getD e).Pinned a x := by
  simp [join]
  split
  · simpa using pin
  · simp [mkBinary, pin]

theorem join_halts {level : Nat} {e : Expr} {s : ParserState} (here : a.Halts x s) :
    Yields (join expr level e) (a.renamed x k) s fun _ => a.Halts x := by
  have noOperator :
      BinaryOp.ofKind? level ((a.stream.get s.cursor).renamed x k).kind = none := by
    refine List.find?_eq_none.mpr fun op _ found => ?_
    simp only [Bool.and_eq_true, beq_iff_eq, Token.kind_renamed_symbol] at found
    exact here.kind_ne (by cases op <;> simp [BinaryOp.symbol]) found.2
  simp [join, noOperator, here]

theorem reads_binaryAt (h : Reads x k a expr) (level : Nat) : Reads x k a (binaryAt expr level) := by
  induction level with
  | zero => exact h
  | succ level ih =>
    refine ih.bind (fun _ free => ?_) (fun _ _ pin => ?_) fun _ _ here => ?_
    · exact .chain (fun _ free => reads_join ih _ free) (fun _ _ pin => join_pinned pin)
        (fun _ _ here => join_halts here) free
    · exact yields_chain (I := fun (e : Expr) _ => e.Pinned a x) (fun _ _ pin => join_pinned pin) pin
    · exact yields_chain (I := fun _ => a.Halts x) (fun _ _ here => join_halts here) here

theorem reads_conditionalAt (r : a.Replaceable x k) (h : nested.Reads x k a) :
    Reads x k a (conditionalAt nested) := by
  refine (reads_binaryAt (reads_unaryAt r h) _).bind (fun test free => ?_) (fun test s pin => ?_)
    fun test s here => ?_
  · refine (renames_eatSymbol _).step fun found => .ite (fun _ => renames_pure rfl free) fun _ => ?_
    refine h.assignment.bind (fun consequent own => (renames_expectSymbol _).step fun _ => ?_)
      (fun consequent s pin => ?_) fun _ _ here => expectSymbol_halts (by simp) here
    · refine h.assignment.bind (fun alternate last => renames_pure ?_ ?_) (fun alternate s pin => ?_)
        fun _ _ here => yields_pure.mpr here
      · simp
      · simp [free, own, last]
      · simp [pin]
    · simp [pin]
  · simp [pin]
  · simp [here, here.kind_ne]

theorem reads_assignmentAt (r : a.Replaceable x k) (h : nested.Reads x k a) :
    Reads x k a (assignmentAt nested) := by
  refine (reads_conditionalAt r h).bind (fun target free => renames_current.step fun t => ?_)
    (fun target s pin => ?_) fun target s here => ?_
  · by_cases names : t.Names x
    · rw [Token.renamed_of_names names, names.1]
      exact renames_pure rfl free
    rw [Token.renamed_of_not names, isAssignable_renamed]
    split
    · exact renames_pure rfl free
    · refine .ite (fun _ => renames_of_fails fail_ne_ok fail_ne_ok) fun _ => ?_
      refine renames_advance.step fun _ => h.assignment.bind (fun value own => renames_pure ?_ ?_)
        (fun value s pin => ?_) fun _ _ here => yields_pure.mpr here
      · simp
      · simp [free, own]
      · simp [pin]
  · simp
    split <;> simp [pin]
  · have noOperator : AssignOp.ofKind? ((a.stream.get s.cursor).renamed x k).kind = none := by
      rcases here.kind_renamed (k := k) with kind | kind <;> rw [kind] <;> rfl
    simp [noOperator, here]

theorem Reads.deeper (h : Reads x k a expr) : Reads x k a (deeper expr) :=
  Renames.deeper (fun _ _ _ => id) h

theorem reads_within (r : a.Replaceable x k) (levels : Nat) :
    Nested.Reads x k a ⟨parserWithin levels, unaryWithin levels⟩ := by
  have sound := sound_within a levels
  induction levels with
  | zero =>
    exact ⟨renames_of_fails fail_ne_ok fail_ne_ok, renames_of_fails fail_ne_ok fail_ne_ok, sound⟩
  | succ levels ih =>
    have ih := ih (sound_within a levels)
    exact ⟨(reads_assignmentAt r ih).deeper, (reads_unaryAt r ih).deeper, sound⟩

theorem parser_reads (r : a.Replaceable x k) : Reads x k a parser := fun s =>
  (reads_within r (a.options.maxDepth - s.depth)).assignment s

/-- A reserved word that reads as a name is read as any name is for which it stands, and gives the
    same tree with the word in it: what is read as an expression with the name is read as one with
    the word unless the name is in it as a member of an object alone or as a parameter without
    parentheses; and what is read with the word, and does not end where such a parameter and its
    arrow would follow, is read with the name. -/
theorem parser_renamed {scope : Scope} (contextual : k.isContextual) (plain : x ≠ "async")
    (words : ∀ t ∈ scope.stream.toList, t.kind.isKeyword → t.raw ≠ x)
    (ordered : scope.stream.Ordered) (s : ParserState) :
    (∀ e t, parser scope s = .ok e t → (∀ n ∈ e.nodes, ¬ n.Pins scope x) →
      parser (scope.renamed x k) s = .ok (e.renamed x k) t) ∧
    ∀ e' t, parser (scope.renamed x k) s = .ok e' t → scope.Halts x t ∨
      ∃ e, parser scope s = .ok e t ∧ (∀ n ∈ e.nodes, ¬ n.Pins scope x) ∧ e' = e.renamed x k := by
  have answers := parser_reads ⟨contextual, plain, words, ordered⟩ s
  generalize parser scope s = r at answers
  generalize parser (scope.renamed x k) s = r' at answers
  cases answers with
  | same free =>
    refine ⟨fun e t ok _ => ?_, fun e' t ok => ?_⟩
    · cases ok
      rfl
    · cases ok
      exact .inr ⟨_, rfl, fun n member pins => free ⟨n, member, pins⟩, rfl⟩
  | pinned pin stops =>
    refine ⟨fun e t ok free => ?_, fun e' t ok => .inl (stops ok)⟩
    cases ok
    obtain ⟨n, member, pins⟩ := pin
    exact absurd pins (free n member)
  | failed stops => exact ⟨fun e t ok => (nomatch ok), fun e' t ok => .inl (stops ok)⟩

/-- The word `mode` for a name that is called with itself, and for one that is a member alone. -/
theorem parser_renamed_mode :
    parser (Scope.renamed "x" .mode ⟨.ofList (tokenize "x(x)"), .standard, none⟩) .initial =
      .ok (.call (.identifier "mode" ⟨0, 1⟩) [.identifier "mode" ⟨2, 3⟩] false ⟨0, 4⟩) ⟨4, 0⟩ ∧
    (∃ e t, parser ⟨.ofList (tokenize "{ x }"), .standard, none⟩ .initial = .ok e t) ∧
    ∀ e t, parser (Scope.renamed "x" .mode ⟨.ofList (tokenize "{ x }"), .standard, none⟩)
      .initial ≠ .ok e t := by
  have called : parser ⟨.ofList (tokenize "x(x)"), .standard, none⟩ .initial =
      .ok (.call (.identifier "x" ⟨0, 1⟩) [.identifier "x" ⟨2, 3⟩] false ⟨0, 4⟩) ⟨4, 0⟩ := rfl
  have alone : parser ⟨.ofList (tokenize "{ x }"), .standard, none⟩ .initial =
      .ok (.object [.property (.identifier "x") (.identifier "x" ⟨2, 3⟩) true ⟨2, 3⟩] ⟨0, 5⟩)
        ⟨3, 0⟩ := rfl
  refine ⟨?_, ⟨_, _, alone⟩, fun e t read => ?_⟩
  · refine (parser_renamed (by decide) (by decide) (by decide +kernel)
      (TokenStream.ordered_tokenize "x(x)") .initial).1 _ _ called ?_
    simp [nodes, Pins]
  · rcases (parser_renamed (by decide) (by decide) (by decide +kernel)
      (TokenStream.ordered_tokenize "{ x }") .initial).2 e t read with halts | ⟨own, same, free, -⟩
    · obtain ⟨i, ⟨-, arrow⟩, -⟩ := halts
      have noArrow : ∀ t ∈ tokenize "{ x }", t.kind ≠ .symbol .arrow := by decide +kernel
      refine noArrow _ ?_ arrow
      rw [← TokenStream.toList_ofList_tokenize]
      exact TokenStream.get_mem _ _
    · cases alone.symm.trans same
      exact free _ List.mem_cons_self ⟨_, _, List.mem_cons_self⟩

end Expr

end PulseSyntax
