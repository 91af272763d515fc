import PulseSyntax.Proofs.Expr.Same
import PulseSyntax.Proofs.Parser.Moved

namespace PulseSyntax

open PulseSyntax.Parser

namespace Expr

variable {q : Quotation} {a b : Scope}

theorem closesBeforeArrow_of_content {depth : Nat} {own other : List Token}
    (h : own.map Token.content = other.map Token.content) :
    closesBeforeArrow depth own = closesBeforeArrow depth other := by
  induction own generalizing depth other with
  | nil =>
    cases List.map_eq_nil_iff.mp h.symm
    rfl
  | cons t rest ih =>
    obtain ⟨u, more, rfl, first, others⟩ := List.map_eq_cons_iff.mp h.symm
    have next : (rest.head?.any fun t => t.kind == .symbol .arrow) =
        more.head?.any fun t => t.kind == .symbol .arrow := by
      have heads := congrArg List.head? others
      cases rest <;> cases more <;> simp_all [Token.content]
    rw [closesBeforeArrow, closesBeforeArrow, Token.kind_of_content first, next, ih others.symm,
      ih others.symm, ih others.symm]

structure Nested.Moved (q : Quotation) (a b : Scope) (alone quoted : Nested) : Prop where
  assignment : Follows a b (Same q) Maybe alone.assignment quoted.assignment
  unary : Follows a b (Same q) Maybe alone.unary quoted.unary

section

variable {expr expr' : Parser Expr} {nested nested' : Nested}

theorem follows_spreadable (moved : a.Moved q b) (h : Follows a b (Same q) Maybe expr expr') :
    Follows a b (Same q) Maybe (spreadable expr) (spreadable expr') := by
  refine (follows_is moved _).step fun found _ same => ?_
  rw [← same]
  refine .ite (fun _ => (follows_advance moved).step fun _ _ _ => ?_) fun _ => h
  exact h.bind (fun _ _ same => follows_pure same.spread) fun _ _ => stays_pure trivial

theorem follows_arguments (moved : a.Moved q b) (h : Follows a b (Same q) Maybe expr expr') :
    Follows a b (fun x y => List.Forall₂ (Same q) x.1 y.1) Never (arguments expr)
      (arguments expr') := by
  refine (follows_expectSymbol moved _).step fun _ _ _ => ?_
  refine (Follows.commaSeparated moved _ (follows_spreadable moved h)).bind (fun _ _ same => ?_)
    fun _ _ => stays_expectSymbol rfl _
  exact (follows_expectSymbol moved _).step fun _ _ _ => follows_pure same

theorem follows_startsArrowAt (moved : a.Moved q b) (offset : Nat) {P : Bool → Prop} :
    Follows a b Eq P (startsArrowAt offset) (startsArrowAt offset) := by
  intro s x t ok
  cases ok
  exact .inl ⟨_, rfl, closesBeforeArrow_of_content (moved.tokensFrom _)⟩

theorem follows_asyncArrowFollows (moved : a.Moved q b) {P : Bool → Prop} :
    Follows a b Eq P asyncArrowFollows asyncArrowFollows := by
  refine (follows_peek moved).step fun t u content => ?_
  rw [← Token.kind_of_content content]
  split
  · refine (follows_peekAt moved 2).step fun t u content => ?_
    rw [← Token.kind_of_content content]
    exact follows_pure rfl
  · exact follows_startsArrowAt moved 1
  · exact follows_pure rfl

theorem follows_arrowBlock (moved : a.Moved q b) {P : ArrowBody → Prop} :
    Follows a b (SameBody q) P arrowBlock arrowBlock := by
  refine (follows_rawBlock moved).step fun range _ same s x t ok => ?_
  subst same
  have alone : x = .block range ∧ t = s := by
    simp only [scope, bind_eq_ok] at ok
    obtain ⟨_, _, here, rest⟩ := ok
    cases here
    rw [moved.alone] at rest
    cases rest
    exact ⟨rfl, rfl⟩
  obtain ⟨rfl, rfl⟩ := alone
  refine .inl ⟨q.inline range, bind_eq_ok.mpr ⟨b, t, rfl, ?_⟩, rfl⟩
  rw [moved.quoted]
  rfl

theorem follows_arrowFunction (moved : a.Moved q b) (h : nested.Moved q a b nested')
    (start start' : Span) (isAsync : Bool) :
    Follows a b (Same q) Maybe (arrowFunction nested start isAsync)
      (arrowFunction nested' start' isAsync) := by
  refine (follows_is moved _).step fun parens _ same => ?_
  rw [← same]
  extract_lets rest rest'
  have tail (params params' : List Expr) (same : List.Forall₂ (Same q) params params') :
      Follows a b (Same q) Maybe (rest params) (rest' params') := by
    dsimp only [rest, rest']
    rw [Same.all_isParam same]
    refine .ite (fun _ => follows_of_fails fail_ne_ok) fun _ => ?_
    refine (follows_expectSymbol moved _).step fun _ _ _ => (follows_is moved _).step ?_
    intro brace _ alike
    rw [← alike]
    refine .ite (fun _ => (follows_arrowBlock moved).step fun _ _ body => ?_) fun _ => ?_
    · exact follows_previous.step fun _ _ _ => follows_pure (.arrow same body)
    · refine h.assignment.bind (fun _ _ body => ?_) fun _ _ => stays_pure trivial
      exact follows_pure (.arrow same (.expression body))
  refine .ite (fun _ => ?_) fun _ => ?_
  · refine (follows_arguments moved h.assignment).step fun _ _ params => ?_
    exact tail _ _ params
  · refine (follows_expect moved _).step fun _ _ content => ?_
    exact tail _ _ (.cons (.ofName content) .nil)

theorem follows_arrayLiteral (moved : a.Moved q b) (h : nested.Moved q a b nested')
    {P : Expr → Prop} : Follows a b (Same q) P (arrayLiteral nested) (arrayLiteral nested') := by
  refine (follows_expectSymbol moved _).step fun _ _ _ => ?_
  refine (Follows.commaSeparated moved _ (follows_spreadable moved h.assignment)).bind
    (fun _ _ same => ?_) fun _ _ => stays_expectSymbol rfl _
  exact (follows_expectSymbol moved _).step fun _ _ _ => follows_pure (.array same)

theorem follows_propertyValue (moved : a.Moved q b) (h : nested.Moved q a b nested')
    (start start' : Span) {key key' : PropertyKey} (same : SameKey q key key') :
    Follows a b (SameMember q) Maybe (propertyValue nested start key)
      (propertyValue nested' start' key') := by
  refine (follows_expectSymbol moved _).step fun _ _ _ => ?_
  exact h.assignment.bind (fun _ _ value => follows_pure (.property false same value))
    fun _ _ => stays_pure trivial

theorem follows_objectMember (moved : a.Moved q b) (h : nested.Moved q a b nested') :
    Follows a b (SameMember q) Maybe (objectMember nested) (objectMember nested') := by
  refine (follows_current moved).step fun t u content => ?_
  rw [← Token.kind_of_content content]
  refine .ite (fun _ => ?_) fun _ => .ite (fun _ => ?_) fun _ => ?_
  · refine (follows_advance moved).step fun _ _ _ => ?_
    exact h.assignment.bind (fun _ _ same => follows_pure (.spread same))
      fun _ _ => stays_pure trivial
  · refine (follows_advance moved).step fun _ _ _ => h.assignment.bind (fun _ _ same => ?_)
      fun _ _ => stays_expectSymbol rfl _
    exact (follows_expectSymbol moved _).step fun _ _ _ =>
      follows_propertyValue moved h _ _ (.computed same)
  · rw [← keyOf?_of_content content]
    split
    · exact follows_of_fails failAtToken_ne_ok
    · next key found =>
      have same := sameKey_refl_of_keyOf? (q := q) found
      refine (follows_advance moved).step fun _ _ _ => (follows_current moved).step ?_
      intro next next' alike
      rw [← Token.kind_of_content alike]
      exact .ite (fun _ => follows_pure (.property true same (.ofName content)))
        fun _ => follows_propertyValue moved h _ _ same

theorem follows_objectLiteral (moved : a.Moved q b) (h : nested.Moved q a b nested')
    {P : Expr → Prop} : Follows a b (Same q) P (objectLiteral nested) (objectLiteral nested') := by
  refine (follows_expectSymbol moved _).step fun _ _ _ => ?_
  refine (Follows.commaSeparated moved _ (follows_objectMember moved h)).bind
    (fun _ _ same => ?_) fun _ _ => stays_expectSymbol rfl _
  exact (follows_expectSymbol moved _).step fun _ _ _ => follows_pure (.object same)

theorem follows_startsAsyncArrow (moved : a.Moved q b) {t u : Token}
    (content : t.content = u.content) {P : Bool → Prop} :
    Follows a b Eq P (startsAsyncArrow t) (startsAsyncArrow u) := by
  rw [startsAsyncArrow, startsAsyncArrow, Token.kind_of_content content,
    Token.raw_of_content content]
  exact .ite (fun _ => follows_asyncArrowFollows moved) fun _ => follows_pure rfl

theorem follows_startsArrow (moved : a.Moved q b) {t u next next' : Token}
    (content : t.content = u.content) (after : next.content = next'.content) {P : Bool → Prop} :
    Follows a b Eq P (startsArrow t next) (startsArrow u next') := by
  rw [startsArrow, startsArrow, Token.kind_of_content content, Token.kind_of_content after]
  exact .ite (fun _ => follows_pure rfl) fun _ => .ite (fun _ => follows_startsArrowAt moved 0)
    fun _ => follows_pure rfl

theorem follows_grouped (moved : a.Moved q b) (h : nested.Moved q a b nested')
    {P : Expr → Prop} : Follows a b (Same q) P (grouped nested) (grouped nested') := by
  refine (follows_advance moved).step fun _ _ _ => h.assignment.bind (fun _ _ same => ?_)
    fun _ _ => stays_expectSymbol rfl _
  exact (follows_expectSymbol moved _).step fun _ _ _ => follows_pure same

theorem follows_nameOrBrackets (moved : a.Moved q b) (h : nested.Moved q a b nested')
    {t u next next' : Token} (content : t.content = u.content)
    (after : next.content = next'.content) {P : Expr → Prop} :
    Follows a b (Same q) P (nameOrBrackets nested t next) (nameOrBrackets nested' u next') := by
  rw [nameOrBrackets, nameOrBrackets, readsAsName, readsAsName, Token.kind_of_content content,
    Token.kind_of_content after]
  refine .ite (fun _ => ?_) fun _ => ?_
  · exact (follows_advance moved).step fun _ _ _ => follows_pure (.ofName content)
  · split
    · exact follows_grouped moved h
    · exact follows_arrayLiteral moved h
    · exact follows_objectLiteral moved h
    · exact follows_of_fails failAtToken_ne_ok

theorem follows_primary (moved : a.Moved q b) (h : nested.Moved q a b nested') :
    Follows a b (Same q) Maybe (primary nested) (primary nested') := by
  refine (follows_current moved).step fun t u content => (follows_peek moved).step ?_
  intro next next' after
  have literal := literalOf?_of_content (q := q) content
  generalize literalOf? t = first at literal ⊢
  generalize literalOf? u = second at literal ⊢
  cases literal with
  | some same => exact (follows_advance moved).step fun _ _ _ => follows_pure same
  | none =>
    refine (follows_startsAsyncArrow moved content).step fun _ _ alike => ?_
    rw [← alike]
    refine .ite (fun _ => ?_) fun _ => ?_
    · exact (follows_advance moved).step fun _ _ _ => follows_arrowFunction moved h _ _ _
    · refine (follows_startsArrow moved content after).step fun _ _ alike => ?_
      rw [← alike]
      exact .ite (fun _ => follows_arrowFunction moved h _ _ _)
        fun _ => follows_nameOrBrackets moved h content after

theorem follows_memberName (moved : a.Moved q b) {P : Expr → Prop} :
    Follows a b (Same q) P memberName memberName := by
  refine (follows_current moved).step fun t u content => ?_
  rw [← Token.kind_of_content content]
  refine .ite (fun _ => (follows_advance moved).step fun _ _ content => ?_)
    fun _ => follows_of_fails failAtToken_ne_ok
  exact follows_pure (.ofName content)

theorem follows_index (moved : a.Moved q b) (h : nested.Moved q a b nested')
    {P : Expr × Span → Prop} :
    Follows a b (fun x y => Same q x.1 y.1) P (index nested) (index nested') := by
  refine (follows_advance moved).step fun _ _ _ => h.assignment.bind (fun _ _ same => ?_)
    fun _ _ => stays_expectSymbol rfl _
  exact (follows_expectSymbol moved _).step fun _ _ _ => follows_pure same

theorem follows_link (moved : a.Moved q b) (h : nested.Moved q a b nested') {e e' : Expr}
    (same : Same q e e') :
    Follows a b (Option.Rel (Same q)) Maybe (link nested e) (link nested' e') := by
  have member (optional : Bool) :
      Follows a b (Option.Rel (Same q)) Maybe
        (return some (mkMember e (← memberName) optional))
        (return some (mkMember e' (← memberName) optional)) :=
    (follows_memberName moved).step fun _ _ name =>
      follows_pure (.some (.member false optional same name))
  have index (optional : Bool) :
      Follows a b (Option.Rel (Same q)) Maybe
        (do let inside ← index nested
            return some (mkIndex e inside.1 optional inside.2))
        (do let inside ← index nested'
            return some (mkIndex e' inside.1 optional inside.2)) :=
    (follows_index moved h).step fun _ _ property =>
      follows_pure (.some (.member true optional same property))
  have call (optional : Bool) :
      Follows a b (Option.Rel (Same q)) Maybe
        (do let inside ← arguments nested.assignment
            return some (mkCall e inside.1 optional inside.2))
        (do let inside ← arguments nested'.assignment
            return some (mkCall e' inside.1 optional inside.2)) :=
    (follows_arguments moved h.assignment).step fun _ _ args =>
      follows_pure (.some (.call optional same args))
  refine (follows_current moved).step fun t u content => ?_
  rw [← Token.kind_of_content content]
  split
  · exact (follows_advance moved).step fun _ _ _ => member false
  · refine (follows_advance moved).step fun _ _ _ => (follows_current moved).step ?_
    intro t u content
    rw [← Token.kind_of_content content]
    split
    · exact index true
    · exact call true
    · exact member true
  · exact index false
  · exact call false
  · exact follows_pure .none

theorem stays_link (e : Expr) : Stays a Maybe (link nested e) := by
  refine stays_current fun t update => ?_
  split
  case h_5 => exact stays_pure trivial
  all_goals
    rename_i kind
    exact absurd (by rw [kind]; rfl) update

theorem follows_linked (moved : a.Moved q b) (h : nested.Moved q a b nested') :
    Follows a b (Same q) Maybe (linked nested) (linked nested') := by
  refine (follows_primary moved h).bind (fun _ _ same => ?_) fun e _ => ?_
  · exact .chain moved (fun _ _ same => follows_link moved h same) stays_link same
  · exact .chain stays_link e

def updated (e : Expr) : Parser Expr := do
  let t ← current
  match UpdateOp.ofKind? t.kind with
  | none => return e
  | some op =>
    if t.line != (← previous).line then return e
    else if !e.isAssignable then fail (.updateOperand "postfix")
    else
      let _ ← advance
      return .update op false e (e.span.cover t.span)

theorem postfixed_eq : postfixed nested = linked nested >>= updated := rfl

theorem updated_of_stalled {s : ParserState} (stalled : a.Stalled s) (e : Expr) :
    updated e a s = .ok e s := by
  obtain ⟨update, later⟩ := stalled
  obtain ⟨op, found⟩ := Option.ne_none_iff_exists'.mp update
  rw [updated, bind_of_ok current_apply]
  simp only [found, bind_of_ok previous_apply, bne_iff_ne.mpr later, ↓reduceIte]
  rfl

theorem updated_of_line {scope : Scope} {s : ParserState} {op : UpdateOp}
    (found : UpdateOp.ofKind? (scope.stream.get s.cursor).kind = some op)
    (line : (scope.stream.get s.cursor).line = (scope.stream.get (s.cursor - 1)).line) (e : Expr) :
    updated e scope s =
      (if !e.isAssignable then fail (.updateOperand "postfix")
        else advance >>= fun _ =>
          pure (.update op false e (e.span.cover (scope.stream.get s.cursor).span)) :
        Parser Expr) scope s := by
  rw [updated, bind_of_ok current_apply]
  simp only [found, bind_of_ok previous_apply, bne_eq_false_iff_eq.mpr line, Bool.false_eq_true,
    ↓reduceIte]

theorem follows_updated (moved : a.Moved q b) {e e' : Expr} (same : Same q e e') :
    Follows a b (Same q) Maybe (updated e) (updated e') := by
  intro s
  by_cases stalled : a.Stalled s
  · rw [yields_of_apply (updated_of_stalled stalled e)]
    exact .inr ⟨stalled, trivial⟩
  rw [Scope.Stalled, not_and_not_right] at stalled
  have kind := moved.kind s.cursor
  rcases update : UpdateOp.ofKind? (a.stream.get s.cursor).kind with _ | op
  · have last (scope : Scope) (e : Expr)
        (none : UpdateOp.ofKind? (scope.stream.get s.cursor).kind = none) :
        updated e scope s = .ok e s := by
      rw [updated, bind_of_ok current_apply, none]
      rfl
    rw [yields_of_apply (last a e update)]
    exact .inl ⟨e', last b e' (kind ▸ update), same⟩
  · have line := stalled (by rw [update]; exact Option.some_ne_none op)
    intro x t ok
    rw [updated_of_line update line, same.isAssignable] at ok
    rw [updated_of_line (kind ▸ update) (moved.lines _ _ line)]
    refine Follows.ite (fun _ => follows_of_fails fail_ne_ok) (fun _ => ?_) s ok
    exact (follows_advance moved).step fun _ _ _ => follows_pure (same.update op false)

theorem stays_updated (e : Expr) : Stays a Maybe (updated e) := by
  intro s stalled
  rw [yields_of_apply (updated_of_stalled stalled e)]
  exact ⟨stalled, trivial⟩

theorem follows_postfixed (moved : a.Moved q b) (h : nested.Moved q a b nested') :
    Follows a b (Same q) Maybe (postfixed nested) (postfixed nested') := by
  rw [postfixed_eq, postfixed_eq]
  exact (follows_linked moved h).bind (fun _ _ same => follows_updated moved same)
    fun e _ => stays_updated e

theorem follows_unaryAt (moved : a.Moved q b) (h : nested.Moved q a b nested') :
    Follows a b (Same q) Maybe (unaryAt nested) (unaryAt nested') := by
  refine (follows_current moved).step fun t u content => ?_
  rw [← Token.kind_of_content content]
  split
  · refine (follows_advance moved).step fun _ _ _ => ?_
    exact h.unary.bind (fun _ _ same => follows_pure (same.unary _)) fun _ _ => stays_pure trivial
  · refine (follows_advance moved).step fun _ _ _ => h.unary.bind (fun e e' same => ?_)
      fun e _ s stalled => ?_
    · rw [same.isAssignable]
      exact .ite (fun _ => follows_of_fails fail_ne_ok) fun _ => follows_pure (same.update _ true)
    · exact yields_ite.mpr ⟨fun _ => yields_fail.mpr trivial, fun _ => stays_pure trivial s stalled⟩
  · exact follows_postfixed moved h

theorem stays_join (operand : Parser Expr) (level : Nat) (e : Expr) :
    Stays a Maybe (join operand level e) := by
  refine stays_current fun t update => ?_
  have other : BinaryOp.ofKind? level t.kind = none := by
    refine List.find?_eq_none.mpr fun op _ found => update ?_
    simp only [Bool.and_eq_true, beq_iff_eq] at found
    rw [found.2]
    cases op <;> rfl
  rw [other]
  exact stays_pure trivial

theorem follows_binaryAt (moved : a.Moved q b) (h : Follows a b (Same q) Maybe expr expr')
    (level : Nat) : Follows a b (Same q) Maybe (binaryAt expr level) (binaryAt expr' level) := by
  induction level with
  | zero => exact h
  | succ level ih =>
    refine ih.bind (fun _ _ same => ?_) fun _ _ => .chain (stays_join _ _) _
    refine .chain moved (fun left left' same => ?_) (stays_join _ _) same
    refine (follows_current moved).step fun t u content => ?_
    rw [← Token.kind_of_content content]
    split
    · exact follows_pure .none
    · refine (follows_advance moved).step fun _ _ _ => ?_
      exact ih.bind (fun _ _ right => follows_pure (.some (same.binary _ right)))
        fun _ _ => stays_pure trivial

theorem follows_conditionalAt (moved : a.Moved q b) (h : nested.Moved q a b nested') :
    Follows a b (Same q) Maybe (conditionalAt nested) (conditionalAt nested') := by
  refine (follows_binaryAt moved (follows_unaryAt moved h) _).bind (fun _ _ test => ?_)
    fun _ _ => stays_eatSymbol rfl (stays_pure trivial)
  refine (follows_eat moved _).step fun found _ same => ?_
  rw [← same]
  refine .ite (fun _ => follows_pure test) fun _ => ?_
  refine h.assignment.bind (fun _ _ consequent => ?_) fun _ _ => stays_expectSymbol rfl _
  refine (follows_expectSymbol moved _).step fun _ _ _ => ?_
  refine h.assignment.bind (fun _ _ alternate => ?_) fun _ _ => stays_pure trivial
  exact follows_pure (test.conditional consequent alternate)

theorem follows_assignmentAt (moved : a.Moved q b) (h : nested.Moved q a b nested') :
    Follows a b (Same q) Maybe (assignmentAt nested) (assignmentAt nested') := by
  refine (follows_conditionalAt moved h).bind (fun target target' same => ?_) fun _ _ => ?_
  · refine (follows_current moved).step fun t u content => ?_
    rw [← Token.kind_of_content content, same.isAssignable]
    split
    · exact follows_pure same
    · refine .ite (fun _ => follows_of_fails fail_ne_ok) fun _ => ?_
      refine (follows_advance moved).step fun _ _ _ => ?_
      exact h.assignment.bind (fun _ _ value => follows_pure (same.assignment _ value))
        fun _ _ => stays_pure trivial
  · refine stays_current fun t update => ?_
    have other : AssignOp.ofKind? t.kind = none := by
      revert update
      cases t.kind with
      | symbol sign => cases sign <;> simp [UpdateOp.ofKind?, AssignOp.ofKind?]
      | _ => exact fun _ => rfl
    rw [other]
    exact stays_pure trivial

theorem follows_within (moved : a.Moved q b) (levels : Nat) :
    Nested.Moved q a b ⟨parserWithin levels, unaryWithin levels⟩
      ⟨parserWithin levels, unaryWithin levels⟩ := by
  induction levels with
  | zero => exact ⟨follows_of_fails fail_ne_ok, follows_of_fails fail_ne_ok⟩
  | succ levels ih =>
    exact ⟨(follows_assignmentAt moved ih).deeper, (follows_unaryAt moved ih).deeper⟩

theorem parser_follows (moved : a.Moved q b) : Follows a b (Same q) Maybe parser parser := by
  intro s e t ok
  have levels : parser b s = parserWithin (a.options.maxDepth - s.depth) b s := by
    rw [moved.options]
    rfl
  rw [levels]
  exact (follows_within moved _).assignment s ok

end

end Expr

end PulseSyntax
