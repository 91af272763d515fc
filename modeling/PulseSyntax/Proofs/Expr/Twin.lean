import PulseSyntax.Proofs.Expr.Course
import PulseSyntax.Proofs.Expr.Same
import PulseSyntax.Proofs.Parser.Twin
import PulseSyntax.Proofs.Program.Unplaced

namespace PulseSyntax

open PulseSyntax.Parser Scope.Track

namespace Scope.Track

variable {a b : Scope} (T : a.Track b) (leave : TokenRange → ArrowBody)

/-- Both runs read expressions alike where a selector is not told from an identifier. -/
def Reads (p q : Parser Expr) : Prop :=
  ∀ parens, T.Twin (T.Open (parens + 1)) (T.Open (parens + 1)) (Expr.unplaced leave) p q

/-- A reader of expressions that reads a token at least and reads alike in both runs. -/
structure Reader (p : Parser Expr) : Prop where
  moving : ∀ depth, (a.course depth).Moving p
  twin : T.Reads leave p p

def AfterArrow (parens : Nat) (i : Nat) : Prop :=
  T.Open parens i ∧ 0 < i ∧ (a.stream.get (i - 1)).kind = .symbol .arrow

end Scope.Track

namespace Expr

variable {a b : Scope} {T : a.Track b} {leave : TokenRange → ArrowBody} {expr : Parser Expr}
variable {nested : Nested} {parens : Nat}

section

variable {block : TokenRange → ArrowBody}

theorem unplacedItems_eq (es : List Expr) : unplacedItems block es = es.map (unplaced block) := by
  induction es with
  | nil => rfl
  | cons e es ih => rw [unplacedItems, ih, List.map_cons]

theorem unplacedMembers_eq (ms : List ObjectMember) :
    unplacedMembers block ms = ms.map (unplacedMember block) := by
  induction ms with
  | nil => rfl
  | cons m ms ih => rw [unplacedMembers, ih, List.map_cons]

variable {e e' : Expr}

theorem isAssignable_of_unplaced (h : unplaced block e = unplaced block e') :
    e.isAssignable = e'.isAssignable := by
  rw [← isAssignable_unplaced block, h, isAssignable_unplaced]

theorem all_isParam_of_unplaced {es es' : List Expr}
    (h : es.map (unplaced block) = es'.map (unplaced block)) :
    es.all isParam = es'.all isParam := by
  have all (es : List Expr) : es.all isParam = (es.map (unplaced block)).all isParam := by
    rw [List.all_map]
    exact congrArg es.all (funext fun e => (isParam_unplaced block e).symm)
  rw [all, h, ← all]

theorem unplaced_ofName {t u : Token} (h : t.raw = u.raw) :
    unplaced block (ofName t) = unplaced block (ofName u) := by
  rw [ofName, ofName, h]
  rfl

theorem unplaced_literalOf? {t u : Token} (h : t.content = u.content) :
    (literalOf? t).map (unplaced block) = (literalOf? u).map (unplaced block) := by
  rw [literalOf?, literalOf?, Token.kind_of_content h, Token.text_of_content h,
    Token.value_of_content h, Token.number?_of_content h, Token.raw_of_content h]
  split <;> simp [ofLiteral, Token.raw_of_content h]

end

structure Nested.Twin (T : a.Track b) (leave : TokenRange → ArrowBody) (nested : Nested) : Prop where
  bodies : T.Leaves leave
  assignment : T.Reader leave nested.assignment
  unary : T.Reader leave nested.unary

theorem Nested.Twin.moving (h : nested.Twin T leave) (depth : Nat) : nested.Moving (a.course depth) :=
  ⟨h.assignment.moving depth, h.unary.moving depth⟩

theorem twin_spreadable (h : T.Reads leave expr expr) : T.Reads leave (spreadable expr) (spreadable expr) := by
  refine fun parens => twin_isSymbol ?_ (h parens)
  refine (twin_advance (by simp) (exact_at rfl)).bind fun _ _ _ => (h parens).bind fun _ _ same => ?_
  exact twin_pure (by simp [same])

theorem twin_arguments (h : T.Reader leave expr) :
    T.Twin (T.Open parens) (T.Open parens) (fun x => x.1.map (unplaced leave)) (arguments expr)
      (arguments expr) := by
  refine (twin_expectSymbol _).bind fun _ _ _ => ?_
  refine (Twin.commaSeparated (fun depth => steady_spreadable (h.moving depth).steady)
    (twin_spreadable h.twin parens)).bind fun _ _ same => ?_
  exact (twin_expectSymbol _).bind fun _ _ _ => twin_pure same

theorem twin_arrowBlock (bodies : T.Leaves leave) :
    T.Twin (a.At (T.AfterArrow parens) (.symbol .openBrace)) (T.Open parens)
      (unplacedBody leave) arrowBlock arrowBlock := by
  have raw : T.Twin (a.At (T.AfterArrow parens) (.symbol .openBrace)) (T.Open parens) T.keep
      rawBlock rawBlock := by
    refine twin_rawBlock_of fun r delimits within ⟨⟨here, pos, before⟩, _⟩ => ?_
    exact T.body (by omega) (by rwa [Nat.sub_sub] at before) delimits within here
  intro s x t ok
  obtain ⟨r, first, rfl⟩ := arrowBlock_eq_ok.mp ok
  refine ⟨(raw first).1, fun here within => ⟨((raw first).2 here within).1, ?_⟩⟩
  exact ⟨_, arrowBlock_eq_ok.mpr ⟨_, rawBlock_moved first within, rfl⟩, bodies r⟩

theorem twin_arrowFunction (h : nested.Twin T leave) (start start' : Span) (isAsync : Bool) :
    T.Reads leave (arrowFunction nested start isAsync) (arrowFunction nested start' isAsync) := by
  intro parens
  have arrow : T.Twin (T.Open (parens + 1)) (T.AfterArrow (parens + 1)) Token.content
      (expectSymbol .arrow) (expectSymbol .arrow) :=
    twin_expect_of (by simp) (sees_symbol _) fun i here found lt =>
      ⟨open_succ here found lt, Nat.succ_pos i, found⟩
  have body (params params' : List Expr)
      (same : params.map (unplaced leave) = params'.map (unplaced leave)) :
      T.Twin (T.Open (parens + 1)) (T.Open (parens + 1)) (unplaced leave)
        (if !params.all isParam then fail .arrowParameter else do
          let _ ← expectSymbol .arrow
          if ← isSymbol .openBrace then
            let body ← arrowBlock
            return .arrow params body isAsync (start.cover (← previous).span)
          else
            let body ← nested.assignment
            return .arrow params (.expression body) isAsync (start.cover body.span))
        (if !params'.all isParam then fail .arrowParameter else do
          let _ ← expectSymbol .arrow
          if ← isSymbol .openBrace then
            let body ← arrowBlock
            return .arrow params' body isAsync (start'.cover (← previous).span)
          else
            let body ← nested.assignment
            return .arrow params' (.expression body) isAsync (start'.cover body.span)) := by
    rw [all_isParam_of_unplaced same]
    refine .ite (fun _ => twin_of_fails fail_ne_ok) fun _ => arrow.bind fun _ _ _ => ?_
    refine twin_isSymbol ?_ ?_
    · refine (twin_arrowBlock h.bodies).bind fun _ _ alike => twin_previous.bind fun _ _ _ => twin_pure ?_
      simp [unplacedItems_eq, same, alike]
    · refine (h.assignment.twin parens).from (fun _ here => here.1) |>.bind fun _ _ alike => ?_
      exact twin_pure (by simp [unplacedItems_eq, same, alike])
  refine twin_isSymbol ?_ ?_
  · refine (twin_arguments h.assignment).atKind.bind fun _ _ same => ?_
    exact body _ _ same
  · refine (twin_expect (by simp) exact_open.sees).bind fun _ _ same => ?_
    exact body _ _ (by simp [unplaced_ofName (Token.raw_of_content same)])

theorem twin_arrayLiteral (h : nested.Twin T leave) :
    T.Reads leave (arrayLiteral nested) (arrayLiteral nested) := by
  refine fun parens => (twin_expectSymbol _).bind fun _ _ _ => ?_
  refine (Twin.commaSeparated (fun depth => steady_spreadable (h.assignment.moving depth).steady)
    (twin_spreadable h.assignment.twin parens)).bind fun _ _ same => ?_
  exact (twin_expectSymbol _).bind fun _ _ _ => twin_pure (by simp [unplacedItems_eq, same])

theorem twin_propertyValue (h : nested.Twin T leave) (start start' : Span) {key key' : PropertyKey}
    (same : unplacedKey leave key = unplacedKey leave key') :
    T.Twin (T.Open (parens + 1)) (T.Open (parens + 1)) (unplacedMember leave)
      (propertyValue nested start key) (propertyValue nested start' key') := by
  refine (twin_expectSymbol _).bind fun _ _ _ => ?_
  exact (h.assignment.twin parens).bind fun _ _ alike => twin_pure (by simp [same, alike])

theorem kind_ne_of_keyOf? {t : Token} {key : PropertyKey} (h : keyOf? t = some key) :
    t.kind ≠ .endOfFile := by
  intro atEnd
  simp [keyOf?, atEnd] at h

theorem parensAfter_of_keyOf? {t : Token} {key : PropertyKey} (h : keyOf? t = some key) :
    t.kind.parensAfter parens = parens := by
  cases kind : t.kind with
  | symbol sign => simp [keyOf?, kind] at h
  | _ => rfl

theorem parensAfter_of_literalOf? {t : Token} {e : Expr} (h : literalOf? t = some e) :
    t.kind.parensAfter parens = parens := by
  cases kind : t.kind with
  | symbol sign => simp [literalOf?, kind] at h
  | _ => rfl

theorem twin_objectMember (h : nested.Twin T leave) :
    T.Twin (T.Open (parens + 1)) (T.Open (parens + 1)) (unplacedMember leave)
      (objectMember nested) (objectMember nested) := by
  refine twin_current exact_open fun t u content => ?_
  rw [← Token.kind_of_content content]
  refine .ite (fun spread => ?_) fun _ => .ite (fun opening => ?_) fun _ => ?_
  · rw [beq_iff_eq.mp spread]
    refine (twin_advance (by simp) (exact_at rfl)).bind fun _ _ _ => ?_
    exact (h.assignment.twin parens).bind fun _ _ same => twin_pure (by simp [same])
  · rw [beq_iff_eq.mp opening]
    refine (twin_advance (by simp) (exact_at rfl)).bind fun _ _ _ => ?_
    refine (h.assignment.twin parens).bind fun _ _ same => ?_
    refine (twin_expectSymbol _).bind fun _ _ _ => ?_
    exact twin_propertyValue h _ _ (by simp [same])
  · rw [← keyOf?_of_content content]
    split
    · exact twin_of_fails failAtToken_ne_ok
    · next key found =>
      refine (twin_pass (kind_ne_of_keyOf? found) (parensAfter_of_keyOf? found)).bind fun _ _ _ => twin_current exact_open fun next next' after => ?_
      dsimp only
      rw [← Token.kind_of_content after]
      refine .ite (fun _ => ?_) fun _ => ?_
      · refine (twin_pure ?_).atKind
        simp [unplaced_ofName (Token.raw_of_content content)]
      · exact (twin_propertyValue h _ _ rfl).atKind

theorem twin_objectLiteral (h : nested.Twin T leave) :
    T.Reads leave (objectLiteral nested) (objectLiteral nested) := by
  refine fun parens => (twin_expectSymbol _).bind fun _ _ _ => ?_
  refine (Twin.commaSeparated (fun depth => steady_objectMember (h.moving depth))
    (twin_objectMember h)).bind fun _ _ same => ?_
  exact (twin_expectSymbol _).bind fun _ _ _ => twin_pure (by simp [unplacedMembers_eq, same])

theorem twin_grouped (h : nested.Twin T leave) :
    T.Twin (a.At (T.Open (parens + 1)) (.symbol .openParen)) (T.Open (parens + 1))
      (unplaced leave) (grouped nested) (grouped nested) := by
  refine (twin_advance (by simp) (exact_at rfl)).bind fun _ _ _ => ?_
  refine (h.assignment.twin (parens + 1)).bind fun _ _ same => ?_
  exact (twin_expectSymbol _).bind fun _ _ _ => twin_pure same

theorem parensAfter_of_readsAsName {t next : Token} (h : readsAsName t next) :
    t.kind.parensAfter parens = parens := by
  cases kind : t.kind with
  | symbol sign => simp [readsAsName, kind, TokenKind.isName, TokenKind.isContextualKeyword] at h
  | _ => rfl

theorem twin_nameOrBrackets (h : nested.Twin T leave) {t u next next' : Token}
    (content : t.content = u.content) (after : next.Near next') :
    T.Twin (a.At (T.Open (parens + 1)) t.kind) (T.Open (parens + 1)) (unplaced leave)
      (nameOrBrackets nested t next) (nameOrBrackets nested u next') := by
  have same : readsAsName u next' = readsAsName t next := by
    rw [readsAsName, readsAsName, Token.kind_of_content content, after.beq_kind rfl]
  rw [nameOrBrackets, nameOrBrackets, same, ← Token.kind_of_content content]
  refine .ite (fun name => ?_) fun _ => ?_
  · refine (twin_pass (kind_ne_of_readsAsName name) (parensAfter_of_readsAsName name)).bind ?_
    exact fun _ _ _ => twin_pure (unplaced_ofName (Token.raw_of_content content))
  · split
    · next kind =>
      rw [kind]
      exact twin_grouped h
    · exact (twin_arrayLiteral h parens).atKind
    · exact (twin_objectLiteral h parens).atKind
    · exact twin_of_fails failAtToken_ne_ok

section

variable {s : ParserState}

theorem near_peek (lt : s.cursor < T.limit) :
    (a.stream.get (s.cursor + 1)).Near (b.stream.get ((T.moved s).cursor + 1)) := by
  rw [moved_cursor, Nat.add_right_comm]
  exact T.near lt

theorem startsArrowAt_moved (offset : Nat) (le : s.cursor + offset ≤ T.limit)
    (opening : (a.stream.get (s.cursor + offset)).kind = .symbol .openParen) :
    ∃ v, startsArrowAt offset a s = .ok v s ∧
      startsArrowAt offset b (T.moved s) = .ok v (T.moved s) := by
  refine ⟨_, rfl, ?_⟩
  rw [T.arrows le opening, Nat.add_right_comm]
  rfl

theorem asyncArrowFollows_moved [T.Walled] (here : T.Open (parens + 1) s.cursor) (lt : s.cursor < T.limit)
    (name : (a.stream.get s.cursor).kind = .identifier) :
    ∃ v, asyncArrowFollows a s = .ok v s ∧
      asyncArrowFollows b (T.moved s) = .ok v (T.moved s) := by
  have next := T.exact_ (open_succ here name lt) lt
  rw [Nat.add_right_comm] at next
  rw [asyncArrowFollows, bind_of_ok peek_apply, bind_of_ok peek_apply, moved_cursor, ← next]
  generalize kind : (a.stream.get (s.cursor + 1)).kind = found
  split
  · -- The token at the limit is no name, so one more token can be looked at.
    have more : s.cursor + 2 ≤ T.limit := lt_limit lt (by simp [kind]) (by simp [kind])
    refine ⟨_, rfl, ?_⟩
    rw [bind_of_ok (peekAt_apply 2), moved_cursor, Nat.add_right_comm,
      ← (T.near more).beq_kind rfl]
    rfl
  · exact startsArrowAt_moved 1 lt kind
  · exact ⟨false, rfl, rfl⟩

theorem startsAsyncArrow_moved [T.Walled] (here : T.Open (parens + 1) s.cursor) (lt : s.cursor < T.limit) :
    ∃ v, startsAsyncArrow (a.stream.get s.cursor) a s = .ok v s ∧
      startsAsyncArrow (b.stream.get (T.moved s).cursor) b (T.moved s) = .ok v (T.moved s) := by
  have same : (a.stream.get s.cursor).content = (b.stream.get (T.moved s).cursor).content :=
    content exact_open here (Nat.le_of_lt lt)
  rw [startsAsyncArrow, startsAsyncArrow, ← Token.kind_of_content same,
    ← Token.raw_of_content same]
  split
  · next async =>
    rw [Bool.and_eq_true, beq_iff_eq] at async
    exact asyncArrowFollows_moved here lt async.1
  · exact ⟨false, rfl, rfl⟩

theorem startsArrow_moved (here : T.Open (parens + 1) s.cursor) (lt : s.cursor < T.limit) :
    ∃ v, startsArrow (a.stream.get s.cursor) (a.stream.get (s.cursor + 1)) a s = .ok v s ∧
      startsArrow (b.stream.get (T.moved s).cursor) (b.stream.get ((T.moved s).cursor + 1)) b
        (T.moved s) = .ok v (T.moved s) := by
  have same : (a.stream.get s.cursor).content = (b.stream.get (T.moved s).cursor).content :=
    content exact_open here (Nat.le_of_lt lt)
  rw [startsArrow, startsArrow, ← Token.kind_of_content same,
    ← (near_peek lt).beq_kind rfl]
  split
  · exact ⟨_, rfl, rfl⟩
  · split
    · next opening => exact startsArrowAt_moved 0 (Nat.le_of_lt lt) (beq_iff_eq.mp opening)
    · exact ⟨false, rfl, rfl⟩

end

theorem twin_primary [T.Walled] (h : nested.Twin T leave) : T.Reads leave (primary nested) (primary nested) := by
  intro parens s x t ok
  have starts := starting_primary (h.moving s.depth) s rfl
  have progress := starts.progress ok trivial
  refine ⟨Nat.le_of_lt progress, fun here within => ?_⟩
  have lt : s.cursor < T.limit := Nat.lt_of_lt_of_le progress within
  have same : (a.stream.get s.cursor).content = (b.stream.get (T.moved s).cursor).content :=
    content exact_open here (Nat.le_of_lt lt)
  have literal : (literalOf? _).map (unplaced leave) = _ := unplaced_literalOf? same
  obtain ⟨async, first, second⟩ := startsAsyncArrow_moved here lt
  obtain ⟨arrow, third, fourth⟩ := startsArrow_moved here lt
  rw [primary, bind_of_ok current_apply, bind_of_ok peek_apply] at ok ⊢
  cases found : literalOf? (a.stream.get s.cursor) with
  | some e =>
    obtain ⟨e', found', alike⟩ : ∃ e', literalOf? (b.stream.get (T.moved s).cursor) = some e' ∧
        unplaced leave e' = unplaced leave e := by
      rw [found, Option.map_some, eq_comm, Option.map_eq_some_iff] at literal
      exact literal
    have passes : T.Twin (a.At (T.Open (parens + 1)) _) _ _ advance advance :=
      twin_pass (kind_ne_of_literalOf? found) (parensAfter_of_literalOf? found)
    rw [found] at ok
    rw [found']
    exact ((passes.bind fun _ _ _ => twin_pure alike.symm) ok).2 ⟨here, rfl⟩ within
  | none =>
    have found' : literalOf? (b.stream.get (T.moved s).cursor) = none := by
      rwa [found, Option.map_none, eq_comm, Option.map_eq_none_iff] at literal
    rw [found] at ok
    rw [found']
    dsimp only at ok ⊢
    rw [bind_of_ok first] at ok
    rw [bind_of_ok second]
    cases async with
    | true =>
      have name : (a.stream.get s.cursor).kind = .identifier := by
        by_contra other
        simp [startsAsyncArrow, other] at first
      have passes : T.Twin (a.At (T.Open (parens + 1)) .identifier) _ _ _ _ :=
        twin_pass (by simp) rfl
      have whole := passes.bind fun _ _ _ => twin_arrowFunction h (a.stream.get s.cursor).span
        (b.stream.get (T.moved s).cursor).span true parens
      exact (whole ok).2 ⟨here, name⟩ within
    | false =>
      rw [if_neg Bool.false_ne_true, bind_of_ok third] at ok
      rw [if_neg Bool.false_ne_true, bind_of_ok fourth]
      cases arrow with
      | true => exact (twin_arrowFunction h _ _ false parens ok).2 here within
      | false => exact (twin_nameOrBrackets h same (near_peek lt) ok).2 ⟨here, rfl⟩ within

theorem twin_memberName : T.Reads leave memberName memberName := by
  refine fun parens => twin_current exact_open fun t u content => ?_
  dsimp only
  rw [← Token.kind_of_content content]
  refine .ite (fun name => ?_) fun _ => twin_of_fails failAtToken_ne_ok
  have real : t.kind ≠ .endOfFile := by
    intro atEnd
    simp [atEnd, TokenKind.isKeyword] at name
  have plain : t.kind.parensAfter (parens + 1) = parens + 1 := by
    cases kind : t.kind with
    | symbol sign => simp [kind, TokenKind.isKeyword] at name
    | _ => rfl
  exact (twin_pass real plain).bind fun _ _ same =>
    twin_pure (unplaced_ofName (Token.raw_of_content same))

theorem twin_index (h : nested.Twin T leave) :
    T.Twin (a.At (T.Open (parens + 1)) (.symbol .openBracket)) (T.Open (parens + 1))
      (fun x => unplaced leave x.1) (index nested) (index nested) := by
  refine (twin_advance (by simp) (exact_at rfl)).bind fun _ _ _ => ?_
  refine (h.assignment.twin parens).bind fun _ _ same => ?_
  exact (twin_expectSymbol _).bind fun _ _ _ => twin_pure same

theorem twin_link (h : nested.Twin T leave) {e e' : Expr}
    (same : unplaced leave e = unplaced leave e') :
    T.Twin (T.Open (parens + 1)) (T.Open (parens + 1)) (Option.map (unplaced leave))
      (link nested e) (link nested e') := by
  have names : T.Reads leave memberName memberName := twin_memberName
  have name (optional : Bool) : T.Twin (T.Open (parens + 1)) (T.Open (parens + 1))
      (Option.map (unplaced leave))
      (memberName >>= fun property => pure (some (mkMember e property optional)))
      (memberName >>= fun property => pure (some (mkMember e' property optional))) :=
    (names parens).bind fun _ _ alike => twin_pure (by simp [mkMember, same, alike])
  have call (optional : Bool) : T.Twin (T.Open (parens + 1)) (T.Open (parens + 1))
      (Option.map (unplaced leave))
      (arguments nested.assignment >>= fun x => pure (some (mkCall e x.1 optional x.2)))
      (arguments nested.assignment >>= fun x => pure (some (mkCall e' x.1 optional x.2))) :=
    (twin_arguments h.assignment).bind fun _ _ alike =>
      twin_pure (by simp [mkCall, unplacedItems_eq, same, alike])
  have computed (optional : Bool) : T.Twin (a.At (T.Open (parens + 1)) (.symbol .openBracket))
      (T.Open (parens + 1)) (Option.map (unplaced leave))
      (index nested >>= fun x => pure (some (mkIndex e x.1 optional x.2)))
      (index nested >>= fun x => pure (some (mkIndex e' x.1 optional x.2))) :=
    (twin_index h).bind fun _ _ alike => twin_pure (by simp [mkIndex, same, alike])
  refine twin_current exact_open fun t u content => ?_
  dsimp only
  rw [← Token.kind_of_content content]
  split
  · next kind =>
    rw [kind]
    exact (twin_advance (by simp) (exact_at rfl)).bind fun _ _ _ => name false
  · next kind =>
    rw [kind]
    refine (twin_advance (by simp) (exact_at rfl)).bind fun _ _ _ => ?_
    refine twin_current exact_open fun next next' after => ?_
    rw [← Token.kind_of_content after]
    split
    · next kind =>
      rw [kind]
      exact computed true
    · exact (call true).atKind
    · exact (name true).atKind
  · next kind =>
    rw [kind]
    exact computed false
  · exact (call false).atKind
  · exact (twin_pure rfl).atKind

theorem twin_linked [T.Walled] (h : nested.Twin T leave) : T.Reads leave (linked nested) (linked nested) := fun parens =>
  (twin_primary h parens).bind fun _ _ same =>
    .chain (fun depth => extending_link (h.moving depth)) (fun _ _ => twin_link h) same

theorem parensAfter_of_updateOp {kind : TokenKind} {op : UpdateOp}
    (h : UpdateOp.ofKind? kind = some op) : kind.parensAfter parens = parens := by
  cases kind with
  | symbol sign => cases sign <;> first | rfl | cases h
  | _ => rfl

theorem parensAfter_of_unaryOp {kind : TokenKind} {op : UnaryOp}
    (h : UnaryOp.ofKind? kind = some op) : kind.parensAfter parens = parens := by
  cases kind with
  | symbol sign => cases sign <;> first | rfl | cases h
  | _ => rfl

theorem parensAfter_of_assignOp {kind : TokenKind} {op : AssignOp}
    (h : AssignOp.ofKind? kind = some op) : kind.parensAfter parens = parens := by
  cases kind with
  | symbol sign => cases sign <;> first | rfl | cases h
  | _ => rfl

theorem kind_ne_of_assignOp {kind : TokenKind} {op : AssignOp}
    (h : AssignOp.ofKind? kind = some op) : kind ≠ .endOfFile := by
  rintro rfl
  cases h

theorem twin_postfixed [T.Walled] (h : nested.Twin T leave) : T.Reads leave (postfixed nested) (postfixed nested) := by
  refine fun parens => (twin_linked h parens).bind fun e e' same => ?_
  intro s x t ok
  rw [bind_of_ok current_apply] at ok
  cases op : UpdateOp.ofKind? (a.stream.get s.cursor).kind with
  | none =>
    rw [op] at ok
    cases ok
    refine ⟨Nat.le_refl _, fun here within => ⟨here, e', ?_, same⟩⟩
    rw [bind_of_ok current_apply, moved_cursor, ← T.exact_ here within, op]
    rfl
  | some op' =>
    rw [op] at ok
    dsimp only at ok
    rw [bind_of_ok previous_apply] at ok
    have real := kind_ne_of_updateOp op
    have mono : s.cursor ≤ t.cursor := by
      split at ok
      · cases ok
        exact Nat.le_refl _
      · split at ok
        · exact absurd ok fail_ne_ok
        · rw [bind_of_ok (advance_apply real)] at ok
          cases ok
          exact Nat.le_succ _
    refine ⟨mono, fun here within => ?_⟩
    have le := Nat.le_trans mono within
    have lines := T.lines le (by simp [op])
    have kind : (b.stream.get (T.moved s).cursor).kind = (a.stream.get s.cursor).kind :=
      (T.exact_ here le).symm
    rw [bind_of_ok current_apply, kind, op]
    dsimp only
    rw [bind_of_ok previous_apply]
    by_cases line : (a.stream.get s.cursor).line = (a.stream.get (s.cursor - 1)).line
    · have line' : (b.stream.get (T.moved s).cursor).line =
          (b.stream.get ((T.moved s).cursor - 1)).line := lines.mp line
      rw [if_neg (by simp [line])] at ok
      rw [if_neg (by simpa using line'), ← isAssignable_of_unplaced same]
      have rest : T.Twin (a.At (T.Open (parens + 1)) (a.stream.get s.cursor).kind)
          (T.Open (parens + 1)) (unplaced leave)
          (if (!e.isAssignable) = true then fail (.updateOperand "postfix") else do
            let _ ← advance
            return .update op' false e (e.span.cover (a.stream.get s.cursor).span))
          (if (!e.isAssignable) = true then fail (.updateOperand "postfix") else do
            let _ ← advance
            return .update op' false e' (e'.span.cover (b.stream.get (T.moved s).cursor).span)) :=
        .ite (fun _ => twin_of_fails fail_ne_ok) fun _ =>
          (twin_pass real (parensAfter_of_updateOp op)).bind fun _ _ _ =>
            twin_pure (by simp [same])
      exact (rest ok).2 ⟨here, rfl⟩ within
    · have line' : (b.stream.get (T.moved s).cursor).line ≠
          (b.stream.get ((T.moved s).cursor - 1)).line := mt lines.mpr line
      rw [if_pos (by simpa using line)] at ok
      cases ok
      rw [if_pos (by simpa using line')]
      exact ⟨here, e', rfl, same⟩

theorem twin_unaryAt [T.Walled] (h : nested.Twin T leave) : T.Reads leave (unaryAt nested) (unaryAt nested) := by
  refine fun parens => twin_current exact_open fun t u content => ?_
  rw [← Token.kind_of_content content]
  split
  · next op found =>
    refine (twin_pass (kind_ne_of_unaryOp found) (parensAfter_of_unaryOp found)).bind
      fun _ _ _ => ?_
    exact (h.unary.twin parens).bind fun _ _ same => twin_pure (by simp [same])
  · next op _ found =>
    refine (twin_pass (kind_ne_of_updateOp found) (parensAfter_of_updateOp found)).bind
      fun _ _ _ => (h.unary.twin parens).bind fun _ _ same => ?_
    rw [isAssignable_of_unplaced same]
    exact .ite (fun _ => twin_of_fails fail_ne_ok) fun _ => twin_pure (by simp [same])
  · exact (twin_postfixed h parens).atKind

theorem parensAfter_of_binaryOp {level : Nat} {kind : TokenKind} {op : BinaryOp}
    (h : BinaryOp.ofKind? level kind = some op) : kind.parensAfter parens = parens := by
  have fits := List.find?_some h
  simp only [Bool.and_eq_true, beq_iff_eq] at fits
  rw [fits.2]
  cases op <;> rfl

theorem twin_join (h : T.Reads leave expr expr) (level : Nat) {e e' : Expr}
    (same : unplaced leave e = unplaced leave e') :
    T.Twin (T.Open (parens + 1)) (T.Open (parens + 1)) (Option.map (unplaced leave))
      (join expr level e) (join expr level e') := by
  refine twin_current exact_open fun t u content => ?_
  rw [← Token.kind_of_content content]
  split
  · exact (twin_pure rfl).atKind
  · next op found =>
    refine (twin_pass (kind_ne_of_binaryOp found) (parensAfter_of_binaryOp found)).bind
      fun _ _ _ => ?_
    exact (h parens).bind fun _ _ alike => twin_pure (by simp [mkBinary, same, alike])

theorem twin_binaryAt [T.Walled] (h : nested.Twin T leave) (level : Nat) :
    T.Reads leave (binaryAt (unaryAt nested) level) (binaryAt (unaryAt nested) level) := by
  induction level with
  | zero => exact twin_unaryAt h
  | succ level ih =>
    refine fun parens => (ih parens).bind fun _ _ same => ?_
    refine .chain (fun depth => extending_join ?_ _) (fun _ _ => twin_join ih _) same
    exact (starting_binaryAt (starting_unaryAt (h.moving depth)) level).steady

theorem twin_conditionalAt [T.Walled] (h : nested.Twin T leave) :
    T.Reads leave (conditionalAt nested) (conditionalAt nested) := by
  refine fun parens => (twin_binaryAt h _ parens).bind fun _ _ test => ?_
  refine twin_eatSymbol ?_ (twin_pure test)
  refine (h.assignment.twin parens).bind fun _ _ consequent => ?_
  refine (twin_expectSymbol _).bind fun _ _ _ => ?_
  exact (h.assignment.twin parens).bind fun _ _ alternate =>
    twin_pure (by simp [test, consequent, alternate])

theorem twin_assignmentAt [T.Walled] (h : nested.Twin T leave) :
    T.Reads leave (assignmentAt nested) (assignmentAt nested) := by
  refine fun parens => (twin_conditionalAt h parens).bind fun _ _ target => ?_
  refine twin_current exact_open fun t u content => ?_
  rw [← Token.kind_of_content content]
  split
  · exact (twin_pure target).atKind
  · next op found =>
    rw [isAssignable_of_unplaced target]
    refine .ite (fun _ => twin_of_fails fail_ne_ok) fun _ => ?_
    refine (twin_pass (kind_ne_of_assignOp found) (parensAfter_of_assignOp found)).bind
      fun _ _ _ => ?_
    exact (h.assignment.twin parens).bind fun _ _ value => twin_pure (by simp [target, value])

theorem twin_within [T.Walled] (bodies : T.Leaves leave) (levels : Nat) :
    Nested.Twin T leave ⟨parserWithin levels, unaryWithin levels⟩ := by
  have moving (depth : Nat) := moving_within (c := a.course depth) levels False.elim
  induction levels with
  | zero =>
    exact ⟨bodies, ⟨fun depth => (moving depth).assignment, fun _ => twin_of_fails fail_ne_ok⟩,
      ⟨fun depth => (moving depth).unary, fun _ => twin_of_fails fail_ne_ok⟩⟩
  | succ levels ih =>
    have inner := ih fun depth => moving_within levels False.elim
    exact ⟨bodies, ⟨fun depth => (moving depth).assignment, fun parens =>
        (twin_assignmentAt inner parens).deeper⟩,
      ⟨fun depth => (moving depth).unary, fun parens => (twin_unaryAt inner parens).deeper⟩⟩

theorem parser_reader [T.Walled] (bodies : T.Leaves leave) : T.Reader leave parser where
  moving _ := parser_moving
  twin parens := .withLevels fun levels => (twin_within bodies levels).assignment.twin parens

end Expr

namespace Scope.Track

variable {a b : Scope} (T : a.Track b)

/-- What two runs that keep the block of a function as a range of tokens have in common of it. -/
abbrev leave : TokenRange → ArrowBody := ArrowBody.kept T.keep

/-- Both runs keep the block of a function as a range of tokens, or both as the same text. -/
class Plain : Prop extends T.Walled where
  leaves : T.Leaves T.leave

end Scope.Track

namespace Expr

variable {a b : Scope} {T : a.Track b} {parens : Nat}

theorem erased_keep (e : Expr) : e.erased T.keep = e.unplaced T.leave := rfl

theorem parser_twin [T.Plain] :
    T.Twin (T.Open (parens + 1)) (T.Open (parens + 1)) (erased T.keep) parser parser :=
  (parser_reader Plain.leaves).twin parens

end Expr

end PulseSyntax
