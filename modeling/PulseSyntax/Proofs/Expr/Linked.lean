import PulseSyntax.Proofs.Expr.Primary
import PulseSyntax.Proofs.Expr.Twin
import PulseSyntax.Proofs.Parser.Linked

namespace PulseSyntax.Expr

open PulseSyntax.Parser PulseSyntax.Course Scope Scope.Link

section

variable {keep keep' : TokenRange → TokenRange} {e e' : Expr}

theorem isAssignable_of_erased (h : e.erased keep = e'.erased keep') :
    e.isAssignable = e'.isAssignable := by
  rw [← isAssignable_unplaced (ArrowBody.kept keep), ← isAssignable_unplaced (ArrowBody.kept keep') e']
  exact congrArg isAssignable h

theorem all_isParam_of_erased {es es' : List Expr} (h : each erased keep es = each erased keep' es') :
    es.all isParam = es'.all isParam := by
  have all (keep : TokenRange → TokenRange) (es : List Expr) :
      es.all isParam = (each erased keep es).all isParam := by
    rw [each, List.all_map]
    exact congrArg es.all (funext fun e => (isParam_unplaced (ArrowBody.kept keep) e).symm)
  rw [all keep, h, ← all]

theorem erased_literalOf? {t : Token} (h : literalOf? t = some e) : e.erased keep = e.erased keep' := by
  unfold literalOf? at h
  split at h <;> cases h <;> rfl

theorem unplacedItems_kept (es : List Expr) :
    unplacedItems (ArrowBody.kept keep) es = each erased keep es := unplacedItems_eq es

theorem unplacedMembers_kept (ms : List ObjectMember) :
    unplacedMembers (ArrowBody.kept keep) ms =
      each (fun keep => unplacedMember (ArrowBody.kept keep)) keep ms := unplacedMembers_eq ms

end

variable {a b : Scope} {T : a.Link b} {expr : Parser Expr} {nested : Nested} {s : ParserState}
variable {n : Nat}

structure Nested.Linked (T : a.Link b) (nested : Nested) : Prop where
  moving : ∀ scope depth, nested.Moving (Scope.course scope depth)
  assignment : ∀ s, T.Copies 0 erased nested.assignment nested.assignment s
  unary : ∀ s, T.Copies 0 erased nested.unary nested.unary s

theorem copies_spreadable (h : ∀ s, T.Copies 0 erased expr expr s) :
    T.Copies (n + 1) erased (spreadable expr) (spreadable expr) s := by
  refine copies_isSymbol (fun found => ?_) fun _ => (h s).mono (Nat.zero_le _)
  refine copies_pass (by simp [found]) (by simp [found]) ?_
  exact ((h _).mono (Nat.zero_le _)).bind fun _ _ _ _ same => copies_pure (congrArg (Expr.spread · default) same)

theorem copies_arguments (moving : ∀ scope depth, (Scope.course scope depth).Moving expr)
    (h : ∀ s, T.Copies 0 erased expr expr s) :
    T.Copies 0 (fun keep x => each erased keep x.1) (arguments expr) (arguments expr) s := by
  refine copies_expectSymbol (by simp) ?_
  have items := copies_commaSeparated .closeParen (T := T) (s := s.ahead 1) (n := 0)
    (fun scope depth => steady_spreadable (moving scope depth).steady) fun _ => copies_spreadable h
  exact items.closed (by simp) fun _ _ _ same => same

theorem copies_arrowBlock : T.Copies 0 (fun keep => unplacedBody (ArrowBody.kept keep)) arrowBlock
    arrowBlock s := by
  intro x t ok
  obtain ⟨r, first, rfl⟩ := arrowBlock_eq_ok.mp ok
  have onward := ((starting_rawBlock (c := a.course s.depth)) s rfl).reaches first
  refine ⟨fun _ => onward.cursor, fun on within => ?_⟩
  obtain ⟨there, r', second, same⟩ := T.body first on within
  refine ⟨there, _, arrowBlock_eq_ok.mpr ⟨r', second, rfl⟩, ?_⟩
  rw [body, body, ← T.quotation]
  cases quoted : a.quotation with
  | none =>
    rw [if_pos quoted] at same
    exact congrArg ArrowBody.block same
  | some q =>
    rw [if_neg (by simp [quoted])] at same
    rw [same]
    rfl

def arrowRest (nested : Nested) (start : Span) (isAsync : Bool) (params : List Expr) : Parser Expr :=
  if !params.all Expr.isParam then fail .arrowParameter
  else do
    let _ ← expectSymbol .arrow
    if ← isSymbol .openBrace then
      let body ← arrowBlock
      return .arrow params body isAsync (start.cover (← previous).span)
    else
      let body ← nested.assignment
      return .arrow params (.expression body) isAsync (start.cover body.span)

theorem copies_arrowRest (h : nested.Linked T) (start : Span) (isAsync : Bool)
    {params params' : List Expr} (same : each erased T.left params = each erased T.right params') :
    T.Copies 0 erased (arrowRest nested start isAsync params) (arrowRest nested start isAsync params')
      s := by
  rw [arrowRest, arrowRest, all_isParam_of_erased same]
  refine .ite (fun _ => copies_of_fails fail_ne_ok) fun _ => copies_expectSymbol (by simp) ?_
  refine copies_startIs (fun _ hs => .atIs (.ite (fun _ => ?_) fun _ => ?_)) (fun _ => ?_) fun _ => ?_
  · exact starting_arrowBlock.moving.proceeds hs fun _ => steady_previous.bind fun _ => steady_pure _
  · exact (h.moving _ _).assignment.proceeds hs fun _ => steady_pure _
  · refine copies_arrowBlock.bind fun _ _ _ _ alike => copies_previous fun _ _ => copies_pure ?_
    simp only [erased, unplaced, unplacedItems_kept, same, alike]
  · refine (h.assignment _).bind fun _ _ _ _ alike => copies_pure ?_
    simp only [erased, unplaced, unplacedBody, unplacedItems_kept, same] at alike ⊢
    rw [alike]

theorem copies_arrowFunction (h : nested.Linked T) (start : Span) (isAsync : Bool) :
    T.Copies 0 erased (arrowFunction nested start isAsync) (arrowFunction nested start isAsync) s := by
  have moving := (starting_arrowFunction (h.moving a s.depth) start isAsync).moving
  refine copies_startIs moving (fun _ => ?_) fun _ => ?_
  · refine (copies_arguments (fun _ _ => (h.moving _ _).assignment) h.assignment).bind ?_
    exact fun _ _ _ _ same => copies_arrowRest h start isAsync same
  · exact copies_expect (by simp) (by simp) fun _ => copies_arrowRest h start isAsync rfl

theorem copies_arrayLiteral (h : nested.Linked T) :
    T.Copies 0 erased (arrayLiteral nested) (arrayLiteral nested) s := by
  refine copies_expectSymbol (by simp) ?_
  have items := copies_commaSeparated .closeBracket (T := T) (s := s.ahead 1) (n := 0)
    (fun _ _ => steady_spreadable (h.moving _ _).assignment.steady)
    fun _ => copies_spreadable h.assignment
  refine items.closed (by simp) fun _ _ _ same => ?_
  simp only [erased, unplaced, unplacedItems_kept, same]

theorem copies_propertyValue (h : nested.Linked T) (start : Span) {key key' : PropertyKey}
    (same : unplacedKey (ArrowBody.kept T.left) key = unplacedKey (ArrowBody.kept T.right) key') :
    T.Copies 0 (fun keep => unplacedMember (ArrowBody.kept keep)) (propertyValue nested start key)
      (propertyValue nested start key') s := by
  refine copies_expectSymbol (by simp) ((h.assignment _).bind fun _ _ _ _ alike => copies_pure ?_)
  simp only [erased, unplacedMember, same] at alike ⊢
  rw [alike]

theorem unplacedKey_keyOf? {k l : TokenRange → TokenRange} {t : Token} {key : PropertyKey}
    (h : keyOf? t = some key) :
    unplacedKey (ArrowBody.kept k) key = unplacedKey (ArrowBody.kept l) key := by
  unfold keyOf? at h
  split at h <;> cases h <;> rfl

theorem copies_objectMember (h : nested.Linked T) :
    T.Copies 1 (fun keep => unplacedMember (ArrowBody.kept keep)) (objectMember nested)
      (objectMember nested) s := by
  have value (start : Span) {key key' : PropertyKey} (s : ParserState)
      (same : unplacedKey (ArrowBody.kept T.left) key = unplacedKey (ArrowBody.kept T.right) key') :=
    (copies_propertyValue (s := s) h start same).mono (Nat.zero_le 1)
  refine copies_current (.ite (fun spread => ?_) fun _ => .ite (fun opening => ?_) fun _ => ?_)
  · rw [beq_iff_eq] at spread
    refine copies_pass (by simp [spread]) (by simp [spread]) ?_
    refine ((h.assignment _).mono (Nat.zero_le 1)).bind fun _ _ _ _ same => copies_pure ?_
    exact congrArg (ObjectMember.spread · default) same
  · rw [beq_iff_eq] at opening
    refine copies_pass (by simp [opening]) (by simp [opening]) ?_
    refine ((h.assignment _).mono (Nat.zero_le 1)).bind fun _ _ _ _ same => ?_
    exact copies_expectSymbol (by simp) (value _ _ (congrArg PropertyKey.computed same))
  · split
    · exact copies_of_fails failAtToken_ne_ok
    · next key found =>
      have plain : (a.stream.get s.cursor).kind ≠ .symbol .atSign := by
        intro sign
        simp [keyOf?, sign] at found
      refine copies_pass (kind_ne_of_keyOf? found) plain (copies_current (.ite (fun _ => ?_) fun _ => ?_))
      · refine copies_pure ?_
        simp only [unplacedMember, unplacedKey_keyOf? found (l := T.right)]
        rfl
      · exact value _ _ (unplacedKey_keyOf? found)

theorem copies_objectLiteral (h : nested.Linked T) :
    T.Copies 0 erased (objectLiteral nested) (objectLiteral nested) s := by
  refine copies_expectSymbol (by simp) ?_
  have members := copies_commaSeparated .closeBrace (T := T) (s := s.ahead 1) (n := 0)
    (fun _ _ => steady_objectMember (h.moving _ _)) fun _ => copies_objectMember h
  refine members.closed (by simp) fun _ _ _ same => ?_
  simp only [erased, unplaced, unplacedMembers_kept, same]

theorem copies_grouped (h : nested.Linked T)
    (opening : (a.stream.get s.cursor).kind = .symbol .openParen) :
    T.Copies 0 erased (grouped nested) (grouped nested) s := by
  refine copies_pass (by simp [opening]) (by simp [opening]) ((h.assignment _).bind fun _ _ _ _ same => ?_)
  exact copies_expectSymbol (by simp) (copies_pure same)

theorem copies_nameOrBrackets (h : nested.Linked T) {next next' : Token}
    (same : (next.kind == .symbol .openParen) = (next'.kind == .symbol .openParen)) :
    T.Copies 0 erased (nameOrBrackets nested (a.stream.get s.cursor) next)
      (nameOrBrackets nested (a.stream.get s.cursor) next') s := by
  rw [nameOrBrackets, nameOrBrackets, readsAsName, readsAsName, same]
  refine .ite (fun name => ?_) fun _ => ?_
  · have plain : (a.stream.get s.cursor).kind ≠ .symbol .atSign := by
      intro sign
      simp [sign, TokenKind.isName, TokenKind.isContextualKeyword] at name
    exact copies_pass (kind_ne_of_readsAsName name) plain (copies_pure rfl)
  · split
    · next opening => exact copies_grouped h opening
    · exact copies_arrayLiteral h
    · exact copies_objectLiteral h
    · exact copies_of_fails failAtToken_ne_ok

section

variable {scope : Scope} {e : Expr} {t : ParserState}

theorem kind_ne_of_primary (ok : primary nested scope s = .ok e t) :
    (scope.stream.get s.cursor).kind ≠ .endOfFile ∧
      (scope.stream.get s.cursor).kind ≠ .symbol .atSign := by
  rw [primary, bind_of_ok current_apply, bind_of_ok peek_apply] at ok
  constructor <;> intro kind
  all_goals
    rw [literalOf?, startsAsyncArrow, startsArrow, nameOrBrackets, readsAsName, kind] at ok
    exact absurd ok failAtToken_ne_ok

theorem asyncArrowFollows_settled (h : scope.stream.Settles (s.cursor + 1)) :
    asyncArrowFollows scope s = .ok false s := by
  rw [asyncArrowFollows, bind_of_ok peek_apply]
  rcases h with last | ⟨name, other⟩
  · generalize (scope.stream.get (s.cursor + 1)).kind = kind at last
    split
    · cases last
    · cases last
    · rfl
  · rw [name]
    dsimp only
    rw [bind_of_ok (peekAt_apply 2), beq_eq_false_iff_ne.mpr other]
    rfl

end

theorem startsArrowAt_linked (offset : Nat) (on : T.On (s.cursor + offset))
    (within : Within T.bound (s.cursor + offset + 1))
    (opening : (a.stream.get (s.cursor + offset)).kind = .symbol .openParen)
    (next : T.move (s.cursor + offset) = T.move s.cursor + offset) :
    ∃ v, startsArrowAt offset a s = .ok v s ∧
      startsArrowAt offset b (T.moved s) = .ok v (T.moved s) := by
  refine ⟨_, rfl, ?_⟩
  rw [T.arrows on within opening, next]
  rfl

theorem asyncArrowFollows_linked (on : T.On s.cursor) (before : Within T.bound (s.cursor + 1))
    (name : (a.stream.get s.cursor).kind = .identifier) :
    ∃ v, asyncArrowFollows a s = .ok v s ∧
      asyncArrowFollows b (T.moved s) = .ok v (T.moved s) := by
  obtain ⟨there, next⟩ := T.next on before (unforked (by simp [name]) on) (by simp [name])
  rcases before.before_or with within | last
  · rw [asyncArrowFollows, bind_of_ok peek_apply, bind_of_ok peek_apply, moved_cursor, ← next,
      ← T.token there within]
    generalize kind : (a.stream.get (s.cursor + 1)).kind = found
    split
    · obtain ⟨further, after⟩ := T.next there within (unforked (by simp [kind]) there) (by simp [kind])
      refine ⟨_, rfl, ?_⟩
      rw [bind_of_ok (peekAt_apply 2), beq_ahead further within (by simp [TokenKind.Settled, TokenKind.goesOnAt]),
        after, next]
      rfl
    · exact startsArrowAt_linked 1 there within kind next
    · exact ⟨false, rfl, rfl⟩
  · obtain ⟨first, second⟩ := T.settles _ last there
    rw [next] at second
    exact ⟨false, asyncArrowFollows_settled first, asyncArrowFollows_settled second⟩

theorem startsAsyncArrow_linked (on : T.On s.cursor) (before : Within T.bound (s.cursor + 1)) :
    ∃ v, startsAsyncArrow (a.stream.get s.cursor) a s = .ok v s ∧
      startsAsyncArrow (a.stream.get s.cursor) b (T.moved s) = .ok v (T.moved s) := by
  unfold startsAsyncArrow
  split
  · next async =>
    rw [Bool.and_eq_true, beq_iff_eq] at async
    exact asyncArrowFollows_linked on before async.1
  · exact ⟨false, rfl, rfl⟩

theorem startsArrow_linked {next next' : Token} (on : T.On s.cursor)
    (before : Within T.bound (s.cursor + 1))
    (same : (next.kind == .symbol .arrow) = (next'.kind == .symbol .arrow)) :
    ∃ v, startsArrow (a.stream.get s.cursor) next a s = .ok v s ∧
      startsArrow (a.stream.get s.cursor) next' b (T.moved s) = .ok v (T.moved s) := by
  rw [startsArrow, startsArrow, same]
  split
  · exact ⟨_, rfl, rfl⟩
  · split
    · next opening => exact startsArrowAt_linked 0 on before (beq_iff_eq.mp opening) rfl
    · exact ⟨false, rfl, rfl⟩

theorem copies_primary (h : nested.Linked T) :
    T.Copies 0 erased (primary nested) (primary nested) s := by
  intro x t ok
  have starts := starting_primary (h.moving a s.depth) s rfl
  have progress := starts.progress ok trivial
  refine ⟨fun _ => Nat.le_of_lt progress, fun on within => ?_⟩
  have before : Within T.bound (s.cursor + 1) := within.mono progress
  obtain ⟨real, plain⟩ := kind_ne_of_primary ok
  obtain ⟨there, next⟩ := T.next on before (unforked plain on) real
  have ahead (sign : Symbol) (goesOn : (TokenKind.symbol sign).goesOnAt ≠ 11) :
      ((a.stream.get (s.cursor + 1)).kind == .symbol sign) =
        ((b.stream.get (T.move s.cursor + 1)).kind == .symbol sign) := by
    rw [← next]
    exact beq_ahead there before (by simpa [TokenKind.Settled] using goesOn)
  obtain ⟨async, first, second⟩ := startsAsyncArrow_linked on before
  obtain ⟨arrow, third, fourth⟩ := startsArrow_linked on before (ahead .arrow (by decide))
  rw [primary, bind_of_ok current_apply, bind_of_ok peek_apply] at ok ⊢
  rw [moved_cursor, ← T.token on before]
  cases found : literalOf? (a.stream.get s.cursor) with
  | some e =>
    have passes : T.Copies 0 erased (advance >>= fun _ => pure e) (advance >>= fun _ => pure e) s :=
      copies_pass real plain (copies_pure (erased_literalOf? found))
    rw [found] at ok
    exact (passes ok).2 on within
  | none =>
    rw [found] at ok
    dsimp only at ok ⊢
    rw [bind_of_ok first] at ok
    rw [bind_of_ok second]
    cases async with
    | true => exact (copies_pass real plain (copies_arrowFunction h _ true) ok).2 on within
    | false =>
      rw [if_neg Bool.false_ne_true, bind_of_ok third] at ok
      rw [if_neg Bool.false_ne_true, bind_of_ok fourth]
      cases arrow with
      | true => exact (copies_arrowFunction h _ false ok).2 on within
      | false => exact (copies_nameOrBrackets h (ahead .openParen (by decide)) ok).2 on within

theorem moving_memberName {c : Course} : c.Moving memberName := by
  refine fun s hs => .atCurrent (.ite (fun name => ?_) fun _ => .failWanted)
  refine .token ?_ hs (Nat.zero_le _) (steady_pure _)
  intro atEnd
  simp [atEnd, TokenKind.isKeyword] at name

theorem copies_memberName : T.Copies 0 erased memberName memberName s := by
  refine copies_start moving_memberName ?_
  refine .ite (fun name => ?_) fun _ => copies_of_fails failAtToken_ne_ok
  refine copies_pass ?_ ?_ (copies_pure rfl)
  all_goals
    intro kind
    simp [kind, TokenKind.isKeyword] at name

theorem copies_index (h : nested.Linked T)
    (opening : (a.stream.get s.cursor).kind = .symbol .openBracket) :
    T.Copies 0 (fun keep x => erased keep x.1) (index nested) (index nested) s := by
  refine copies_pass (by simp [opening]) (by simp [opening]) ((h.assignment _).bind fun _ _ _ _ same => ?_)
  exact copies_expectSymbol (by simp) (copies_pure same)

theorem copies_link (h : nested.Linked T) {e e' : Expr} (same : e.erased T.left = e'.erased T.right) :
    T.Copies 0 (Link.optional erased) (link nested e) (link nested e') s := by
  have name (optional : Bool) (s : ParserState) : T.Copies 0 (Link.optional erased)
      (memberName >>= fun property => pure (some (mkMember e property optional)))
      (memberName >>= fun property => pure (some (mkMember e' property optional))) s := by
    refine copies_memberName.bind fun _ _ _ _ alike => copies_pure (congrArg some ?_)
    simp only [erased, mkMember, unplaced] at same alike ⊢
    rw [same, alike]
  have call (optional : Bool) (s : ParserState) : T.Copies 0 (Link.optional erased)
      (arguments nested.assignment >>= fun x => pure (some (mkCall e x.1 optional x.2)))
      (arguments nested.assignment >>= fun x => pure (some (mkCall e' x.1 optional x.2))) s := by
    refine (copies_arguments (fun _ _ => (h.moving _ _).assignment) h.assignment).bind ?_
    refine fun _ _ _ _ alike => copies_pure (congrArg some ?_)
    simp only [erased, mkCall, unplaced, unplacedItems_kept] at same alike ⊢
    rw [same, alike]
  have computed (optional : Bool) (s : ParserState)
      (opening : (a.stream.get s.cursor).kind = .symbol .openBracket) :
      T.Copies 0 (Link.optional erased)
        (index nested >>= fun x => pure (some (mkIndex e x.1 optional x.2)))
        (index nested >>= fun x => pure (some (mkIndex e' x.1 optional x.2))) s := by
    refine (copies_index h opening).bind fun _ _ _ _ alike => copies_pure (congrArg some ?_)
    simp only [erased, mkIndex, unplaced] at same alike ⊢
    rw [same, alike]
  refine copies_goesOn (x := none) (y := none) rfl (fun t settled => ?_) ?_
  · generalize t.kind = kind at settled
    constructor <;> split
    all_goals first | rfl | simp [TokenKind.Settled, TokenKind.goesOnAt] at settled
  split
  · next kind => exact copies_pass (by simp [kind]) (by simp [kind]) (name false _)
  · next kind =>
    refine copies_pass (by simp [kind]) (by simp [kind]) ?_
    refine copies_start (fun _ hs => .atCurrent ?_) ?_
    · split
      · next kind => exact (proceeds_index (h.moving _ _) hs kind).andThen hs (Nat.zero_le _) fun _ => steady_pure _
      · exact (starting_arguments (h.moving _ _).assignment.steady).moving.proceeds hs fun _ => steady_pure _
      · exact moving_memberName.proceeds hs fun _ => steady_pure _
    · split
      · next kind => exact computed true _ kind
      · exact call true _
      · exact name true _
  · next kind => exact computed false _ kind
  · exact call false _
  · exact copies_pure rfl

theorem copies_linked (h : nested.Linked T) : T.Copies 0 erased (linked nested) (linked nested) s :=
  (copies_primary h).bind fun _ _ _ _ same =>
    copies_chain (fun _ _ => extending_link (h.moving _ _)) (fun _ _ _ same => copies_link h same) same

theorem ofKind?_update_settled {kind : TokenKind} (h : kind.Settled) : UpdateOp.ofKind? kind = none := by
  by_contra found
  obtain ⟨op, found⟩ := Option.ne_none_iff_exists'.mp found
  rcases h with other | rfl
  · rw [goesOnAt_of_update found] at other
    cases other
  · cases found

theorem copies_line {α ε : Type} {e : (TokenRange → TokenRange) → α → ε} {f g : Bool → Parser α}
    (update : UpdateOp.ofKind? (a.stream.get s.cursor).kind ≠ none)
    (h : ∀ later, T.Copies n e (f later) (g later) s) :
    T.Copies n e (previous >>= fun t => f ((a.stream.get s.cursor).line != t.line))
      (previous >>= fun t => g ((a.stream.get s.cursor).line != t.line)) s := by
  intro x t ok
  rw [bind_of_ok previous_apply] at ok
  refine ⟨(h _ ok).1, fun on within => ?_⟩
  have here : Within T.bound s.cursor := ((h _).before ok within).mono (Nat.le_add_right _ n)
  rcases here.before_or with before | last
  · have lines := T.lines on before update
    have same : ((a.stream.get s.cursor).line != (b.stream.get (T.move s.cursor - 1)).line) =
        ((a.stream.get s.cursor).line != (a.stream.get (s.cursor - 1)).line) := by
      rw [T.token on before] at lines ⊢
      rw [Bool.eq_iff_iff, bne_iff_ne, bne_iff_ne]
      exact (not_congr lines).symm
    rw [bind_of_ok previous_apply, moved_cursor, same]
    exact (h _ ok).2 on within
  · exact absurd (ofKind?_update_settled (T.settles _ last on).1.settled) update

theorem copies_postfixed (h : nested.Linked T) :
    T.Copies 0 erased (postfixed nested) (postfixed nested) s := by
  refine (copies_linked h).bind fun e e' s _ same => ?_
  refine copies_goesOn same (fun t settled => ?_) ?_
  · rw [ofKind?_update_settled settled]
    exact ⟨rfl, rfl⟩
  cases op : UpdateOp.ofKind? (a.stream.get s.cursor).kind with
  | none => exact copies_pure same
  | some op' =>
    have update : UpdateOp.ofKind? (a.stream.get s.cursor).kind ≠ none := by simp [op]
    let rest (e : Expr) (later : Bool) : Parser Expr :=
      if later then pure e else if !e.isAssignable then fail (.updateOperand "postfix") else do
        let _ ← advance
        return .update op' false e (e.span.cover (a.stream.get s.cursor).span)
    have alike (later : Bool) : T.Copies 0 erased (rest e later) (rest e' later) s := by
      refine .ite (fun _ => copies_pure same) fun _ => ?_
      rw [isAssignable_of_erased same]
      refine .ite (fun _ => copies_of_fails fail_ne_ok) fun _ => ?_
      refine copies_pass (kind_ne_of_updateOp op) ?_ (copies_pure ?_)
      · intro sign
        rw [sign] at op
        cases op
      · exact congrArg (Expr.update op' false · default) same
    exact copies_line update alike

theorem copies_unaryAt (h : nested.Linked T) :
    T.Copies 0 erased (unaryAt nested) (unaryAt nested) s := by
  refine copies_start (starting_unaryAt (h.moving a s.depth)).moving ?_
  split
  · next op found =>
    refine copies_pass (kind_ne_of_unaryOp found) ?_ ((h.unary _).bind fun _ _ _ _ same => copies_pure ?_)
    · intro sign
      rw [sign] at found
      cases found
    · exact congrArg (Expr.unary op · default) same
  · next op _ found =>
    refine copies_pass (kind_ne_of_updateOp found) ?_ ((h.unary _).bind fun _ _ _ _ same => ?_)
    · intro sign
      rw [sign] at found
      cases found
    · rw [isAssignable_of_erased same]
      refine .ite (fun _ => copies_of_fails fail_ne_ok) fun _ => copies_pure ?_
      exact congrArg (Expr.update op true · default) same
  · exact copies_postfixed h

theorem kind_of_binaryOp {level : Nat} {kind : TokenKind} {op : BinaryOp}
    (h : BinaryOp.ofKind? level kind = some op) : ¬ kind.Settled ∧ kind ≠ .symbol .atSign := by
  have found := List.find?_some h
  simp only [Bool.and_eq_true, beq_iff_eq] at found
  obtain ⟨rfl, rfl⟩ := found
  cases op <;> simp [TokenKind.Settled, TokenKind.goesOnAt, BinaryOp.symbol]

theorem copies_join (h : ∀ s, T.Copies 0 erased expr expr s) (level : Nat) {e e' : Expr}
    (same : e.erased T.left = e'.erased T.right) :
    T.Copies 0 (Link.optional erased) (join expr level e) (join expr level e') s := by
  refine copies_goesOn (x := none) (y := none) rfl (fun t settled => ?_) ?_
  · have none : BinaryOp.ofKind? level t.kind = none := by
      by_contra found
      obtain ⟨op, found⟩ := Option.ne_none_iff_exists'.mp found
      exact (kind_of_binaryOp found).1 settled
    rw [none]
    exact ⟨rfl, rfl⟩
  cases found : BinaryOp.ofKind? level (a.stream.get s.cursor).kind with
  | none => exact copies_pure rfl
  | some op =>
    refine copies_pass (kind_ne_of_binaryOp found) (kind_of_binaryOp found).2 ?_
    refine (h _).bind fun _ _ _ _ alike => copies_pure (congrArg some ?_)
    simp only [erased, mkBinary, unplaced] at same alike ⊢
    rw [same, alike]

theorem copies_binaryAt (h : nested.Linked T) (level : Nat) :
    T.Copies 0 erased (binaryAt (unaryAt nested) level) (binaryAt (unaryAt nested) level) s := by
  induction level generalizing s with
  | zero => exact copies_unaryAt h
  | succ level ih =>
    refine ih.bind fun _ _ _ _ same => ?_
    refine copies_chain (fun _ _ => extending_join ?_ _) (fun _ _ _ same => copies_join (fun _ => ih) _ same) same
    exact (starting_binaryAt (starting_unaryAt (h.moving _ _)) level).steady

theorem copies_conditionalAt (h : nested.Linked T) :
    T.Copies 0 erased (conditionalAt nested) (conditionalAt nested) s := by
  refine (copies_binaryAt h _).bind fun e e' s _ test => ?_
  have whole (e : Expr) : (eatSymbol .question >>= fun found => if !found then pure e else do
      let consequent ← nested.assignment
      let _ ← expectSymbol .colon
      let alternate ← nested.assignment
      return .conditional e consequent alternate (e.span.cover alternate.span)) =
    current >>= fun t => if t.kind == .symbol .question then do
      let _ ← advance
      let consequent ← nested.assignment
      let _ ← expectSymbol .colon
      let alternate ← nested.assignment
      return .conditional e consequent alternate (e.span.cover alternate.span)
    else pure e := by
    rw [eatSymbol, Track.eat_bind (by simp)]
    rfl
  rw [whole, whole]
  refine copies_goesOn test (fun t settled => ?_) ?_
  · have other : (t.kind == .symbol .question) = false := by
      rw [beq_eq_false_iff_ne]
      intro kind
      simp [kind, TokenKind.Settled, TokenKind.goesOnAt] at settled
    rw [other]
    exact ⟨rfl, rfl⟩
  refine .ite (fun kind => ?_) fun _ => copies_pure test
  rw [beq_iff_eq] at kind
  refine copies_pass (by simp [kind]) (by simp [kind]) ((h.assignment _).bind fun _ _ _ _ consequent => ?_)
  refine copies_expectSymbol (by simp) ((h.assignment _).bind fun _ _ _ _ alternate => copies_pure ?_)
  simp only [erased, unplaced] at test consequent alternate ⊢
  rw [test, consequent, alternate]

theorem copies_assignmentAt (h : nested.Linked T) :
    T.Copies 0 erased (assignmentAt nested) (assignmentAt nested) s := by
  refine (copies_conditionalAt h).bind fun e e' s _ target => ?_
  refine copies_goesOn target (fun t settled => ?_) ?_
  · have none : AssignOp.ofKind? t.kind = none := by
      by_contra found
      obtain ⟨op, found⟩ := Option.ne_none_iff_exists'.mp found
      rcases settled with other | name
      · rw [goesOnAt_of_assign found] at other
        cases other
      · rw [name] at found
        cases found
    rw [none]
    exact ⟨rfl, rfl⟩
  cases found : AssignOp.ofKind? (a.stream.get s.cursor).kind with
  | none => exact copies_pure target
  | some op =>
    rw [isAssignable_of_erased target]
    refine .ite (fun _ => copies_of_fails fail_ne_ok) fun _ => ?_
    refine copies_pass (kind_ne_of_assignOp found) ?_ ((h.assignment _).bind fun _ _ _ _ value => copies_pure ?_)
    · intro sign
      rw [sign] at found
      cases found
    · simp only [erased, unplaced] at target value ⊢
      rw [target, value]

theorem linked_within (levels : Nat) :
    Nested.Linked T ⟨parserWithin levels, unaryWithin levels⟩ := by
  have moving (levels : Nat) (scope : Scope) (depth : Nat) :=
    moving_within (c := scope.course depth) levels False.elim
  induction levels with
  | zero => exact ⟨moving 0, fun _ => copies_of_fails fail_ne_ok, fun _ => copies_of_fails fail_ne_ok⟩
  | succ levels ih =>
    exact ⟨moving _, fun _ => (copies_assignmentAt ih).deeper, fun _ => (copies_unaryAt ih).deeper⟩

theorem parser_copies : T.Copies 0 erased parser parser s :=
  .withLevels fun levels => (linked_within levels).assignment s

end PulseSyntax.Expr
