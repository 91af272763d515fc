import PulseSyntax.Proofs.Parser.Course

namespace PulseSyntax.Expr

open PulseSyntax.Parser PulseSyntax.Course

variable {c : Course}

structure Nested.Moving (c : Course) (nested : Nested) : Prop where
  assignment : c.Moving nested.assignment
  unary : c.Moving nested.unary

variable {expr : Parser Expr} {nested : Nested}

theorem steady_spreadable (h : c.Steady expr) : c.Steady (spreadable expr) :=
  (steady_is _).bind fun _ => .ite (steady_advance.bind fun _ => h.bind fun _ => steady_pure _) h

theorem starting_arguments (h : c.Steady expr) : c.Starting (arguments expr) :=
  (starting_expectSymbol _).bind fun _ => (steady_commaSeparated (steady_spreadable h)).bind fun _ =>
    (starting_expectSymbol _).steady.bind fun _ => steady_pure _

theorem startsArrowAt_looks (offset : Nat) (scope : Scope) (s : ParserState) :
    ∃ a, startsArrowAt offset scope s = .ok a s := ⟨_, rfl⟩

theorem asyncArrowFollows_looks (scope : Scope) (s : ParserState) :
    ∃ a, asyncArrowFollows scope s = .ok a s := by
  rw [asyncArrowFollows, bind_of_ok peek_apply]
  generalize (scope.stream.get (s.cursor + 1)).kind = kind
  split
  · exact ⟨_, rfl⟩
  · exact startsArrowAt_looks 1 scope s
  · exact ⟨_, rfl⟩

theorem startsAsyncArrow_looks (t : Token) (scope : Scope) (s : ParserState) :
    ∃ a, startsAsyncArrow t scope s = .ok a s := by
  unfold startsAsyncArrow
  split
  · exact asyncArrowFollows_looks scope s
  · exact ⟨_, rfl⟩

theorem startsArrow_looks (t next : Token) (scope : Scope) (s : ParserState) :
    ∃ a, startsArrow t next scope s = .ok a s := by
  unfold startsArrow
  split
  · exact ⟨_, rfl⟩
  · split <;> exact ⟨_, rfl⟩

theorem starting_arrowBlock : c.Starting arrowBlock := by
  refine starting_rawBlock.bind fun range => steady_scope.bind fun scope => ?_
  split
  · exact steady_pure _
  · exact steady_pure _

theorem starting_arrowFunction (h : nested.Moving c) (start : Span) (isAsync : Bool) :
    c.Starting (arrowFunction nested start isAsync) := by
  intro s hs
  refine .atIs ?_
  extract_lets rest
  have tail (params : List Expr) : c.Steady (rest params) := by
    refine .ite (steady_fail rfl) ((starting_expectSymbol _).steady.bind fun _ =>
      (steady_is _).bind fun _ => .ite ?_ ?_)
    · exact starting_arrowBlock.steady.bind fun _ => steady_previous.bind fun _ => steady_pure _
    · exact h.assignment.steady.bind fun _ => steady_pure _
  refine .ite (fun _ => ?_) fun _ => ?_
  · exact (starting_arguments h.assignment.steady).bind (fun _ => (steady_pure _).bind tail) s hs
  · exact (starting_expect (by simp)).bind (fun _ => (steady_pure _).bind tail) s hs

theorem starting_arrayLiteral (h : nested.Moving c) : c.Starting (arrayLiteral nested) :=
  (starting_expectSymbol _).bind fun _ =>
    (steady_commaSeparated (steady_spreadable h.assignment.steady)).bind fun _ =>
      (starting_expectSymbol _).steady.bind fun _ => steady_pure _

theorem starting_propertyValue (h : nested.Moving c) (start : Span) (key : PropertyKey) :
    c.Starting (propertyValue nested start key) :=
  (starting_expectSymbol _).bind fun _ => h.assignment.steady.bind fun _ => steady_pure _

theorem steady_objectMember (h : nested.Moving c) : c.Steady (objectMember nested) := by
  have value (start : Span) (key : PropertyKey) := (starting_propertyValue h start key).steady
  refine steady_current.bind fun t => .ite ?_ (.ite ?_ ?_)
  · exact steady_advance.bind fun _ => h.assignment.steady.bind fun _ => steady_pure _
  · exact steady_advance.bind fun _ => h.assignment.steady.bind fun _ =>
      (starting_expectSymbol _).steady.bind fun _ => value _ _
  · split
    · exact (starting_failWanted _).steady
    · exact steady_advance.bind fun _ => steady_current.bind fun _ => .ite (steady_pure _) (value _ _)

theorem turning_members (h : nested.Moving c) :
    c.Turning (commaRound .closeBrace fun _ => objectMember nested) :=
  turning_commaRound fun _ => steady_objectMember h

theorem starting_objectLiteral (h : nested.Moving c) : c.Starting (objectLiteral nested) :=
  (starting_expectSymbol _).bind fun _ => (steady_commaSeparated (steady_objectMember h)).bind
    fun _ => (starting_expectSymbol _).steady.bind fun _ => steady_pure _

theorem kind_ne_of_literalOf? {t : Token} {e : Expr} (h : literalOf? t = some e) :
    t.kind ≠ .endOfFile := by
  intro atEnd
  simp [literalOf?, atEnd] at h

theorem kind_ne_of_readsAsName {t next : Token} (h : readsAsName t next) : t.kind ≠ .endOfFile := by
  intro atEnd
  simp only [readsAsName, atEnd] at h
  cases h

theorem kind_ne_of_updateOp {kind : TokenKind} {op : UpdateOp}
    (h : UpdateOp.ofKind? kind = some op) : kind ≠ .endOfFile := by
  rintro rfl
  cases h

theorem kind_ne_of_unaryOp {kind : TokenKind} {op : UnaryOp} (h : UnaryOp.ofKind? kind = some op) :
    kind ≠ .endOfFile := by
  rintro rfl
  cases h

theorem kind_ne_of_binaryOp {level : Nat} {kind : TokenKind} {op : BinaryOp}
    (h : BinaryOp.ofKind? level kind = some op) : kind ≠ .endOfFile := by
  have fits := List.find?_some h
  simp only [Bool.and_eq_true, beq_iff_eq] at fits
  rw [fits.2]
  nofun

theorem proceeds_nameOrBrackets {s : ParserState} (h : nested.Moving c) (hs : s.depth = c.depth)
    (next : Token) :
    c.Proceeds 1 (fun _ => True) (nameOrBrackets nested (c.scope.stream.get s.cursor) next) s := by
  refine .ite (fun name => ?_) fun _ => ?_
  · exact .token (kind_ne_of_readsAsName name) hs (Nat.le_refl _) (steady_pure _)
  split
  · next opening =>
    exact .token (by simp [opening]) hs (Nat.le_refl _) (h.assignment.steady.bind fun _ =>
      (starting_expectSymbol _).steady.bind fun _ => steady_pure _)
  · exact starting_arrayLiteral h s hs
  · exact starting_objectLiteral h s hs
  · exact starting_failWanted _ s hs

theorem starting_primary (h : nested.Moving c) : c.Starting (primary nested) := by
  intro s hs
  refine .atCurrent (.atPeek ?_)
  split
  · next e literal =>
    exact .token (kind_ne_of_literalOf? literal) hs (Nat.le_refl _) (steady_pure _)
  obtain ⟨isAsync, looks⟩ := startsAsyncArrow_looks (c.scope.stream.get s.cursor) c.scope s
  refine .look looks (.ite (fun async => ?_) fun _ => ?_)
  · have inside : (c.scope.stream.get s.cursor).kind ≠ .endOfFile := by
      intro atEnd
      subst async
      simp [startsAsyncArrow, atEnd] at looks
    exact .token inside hs (Nat.le_refl _) ((starting_arrowFunction h _ _).steady)
  obtain ⟨isArrow, looks⟩ := startsArrow_looks (c.scope.stream.get s.cursor)
    (c.scope.stream.get (s.cursor + 1)) c.scope s
  refine .look looks (.ite (fun _ => ?_) fun _ => ?_)
  · exact starting_arrowFunction h _ _ s hs
  · exact proceeds_nameOrBrackets h hs _

theorem steady_memberName : c.Steady memberName :=
  steady_current.bind fun _ =>
    .ite (steady_advance.bind fun _ => steady_pure _) (starting_failWanted _).steady

theorem proceeds_index {s : ParserState} (h : nested.Moving c) (hs : s.depth = c.depth)
    (opening : (c.scope.stream.get s.cursor).kind = .symbol .openBracket) :
    c.Proceeds 0 (fun _ => True) (index nested) s :=
  .token (by simp [opening]) hs (Nat.zero_le _) (h.assignment.steady.bind fun _ =>
    (starting_expectSymbol _).steady.bind fun _ => steady_pure _)

theorem steady_index (h : nested.Moving c) : c.Steady (index nested) :=
  steady_advance.bind fun _ => h.assignment.steady.bind fun _ =>
    (starting_expectSymbol _).steady.bind fun _ => steady_pure _

theorem extending_link (h : nested.Moving c) : c.Extending (link nested) := by
  have call := starting_arguments h.assignment.steady
  intro e s hs
  refine .atCurrent ?_
  split
  · next dot =>
    exact .token (by simp [dot]) hs (Nat.zero_le _) (steady_memberName.bind fun _ => steady_pure _)
  · next dot =>
    refine .token (by simp [dot]) hs (Nat.zero_le _) (steady_current.bind fun _ => ?_)
    split
    · exact (steady_index h).bind fun _ => steady_pure _
    · exact call.steady.bind fun _ => steady_pure _
    · exact steady_memberName.bind fun _ => steady_pure _
  · next opening =>
    exact (proceeds_index h hs opening).andThen hs (Nat.zero_le _) fun _ => steady_pure _
  · exact call.moving.proceeds hs fun _ => steady_pure _
  · exact .none

theorem starting_linked (h : nested.Moving c) : c.Starting (linked nested) :=
  (starting_primary h).bind fun _ => (extending_link h).steady _

theorem starting_postfixed (h : nested.Moving c) : c.Starting (postfixed nested) := by
  refine (starting_linked h).bind fun e => steady_current.bind fun t => ?_
  split
  · exact steady_pure e
  · refine steady_previous.bind fun _ => .ite (steady_pure e) (.ite (steady_fail rfl) ?_)
    exact steady_advance.bind fun _ => steady_pure _

theorem starting_unaryAt (h : nested.Moving c) : c.Starting (unaryAt nested) := by
  intro s hs
  refine .atCurrent ?_
  split
  · next op read =>
    exact .token (kind_ne_of_unaryOp read) hs (Nat.le_refl _) (h.unary.steady.bind fun _ =>
      steady_pure _)
  · next op _ read =>
    exact .token (kind_ne_of_updateOp read) hs (Nat.le_refl _) (h.unary.steady.bind fun _ =>
      .ite (steady_fail rfl) (steady_pure _))
  · exact starting_postfixed h s hs

theorem extending_join {operand : Parser Expr} (h : c.Steady operand) (level : Nat) :
    c.Extending (join operand level) := by
  intro left s hs
  refine .atCurrent ?_
  split
  · exact .none
  · next op read =>
    exact .token (kind_ne_of_binaryOp read) hs (Nat.zero_le _) (h.bind fun _ => steady_pure _)

theorem starting_binaryAt {operand : Parser Expr} (h : c.Starting operand) (level : Nat) :
    c.Starting (binaryAt operand level) := by
  induction level with
  | zero => exact h
  | succ level ih => exact ih.bind fun _ => (extending_join ih.steady _).steady _

theorem starting_conditionalAt (h : nested.Moving c) : c.Starting (conditionalAt nested) := by
  refine (starting_binaryAt (starting_unaryAt h) _).bind fun test =>
    (steady_eatSymbol _).bind fun _ => .ite (steady_pure _) ?_
  exact h.assignment.steady.bind fun _ => (starting_expectSymbol _).steady.bind fun _ =>
    h.assignment.steady.bind fun _ => steady_pure _

theorem starting_assignmentAt (h : nested.Moving c) : c.Starting (assignmentAt nested) := by
  refine (starting_conditionalAt h).bind fun target => steady_current.bind fun t => ?_
  split
  · exact steady_pure target
  · refine .ite (steady_fail rfl) ?_
    exact steady_advance.bind fun _ => h.assignment.steady.bind fun _ => steady_pure _

theorem moving_within (levels : Nat)
    (left : c.fits → c.scope.options.maxDepth - c.depth ≤ levels) :
    Nested.Moving c ⟨parserWithin levels, unaryWithin levels⟩ := by
  induction levels generalizing c with
  | zero =>
    have none (fits : c.fits) : c.scope.options.maxDepth ≤ c.depth :=
      Nat.le_of_sub_eq_zero (Nat.le_zero.mp (left fits))
    exact ⟨moving_failTooDeep none, moving_failTooDeep none⟩
  | succ levels ih =>
    have inner : Nested.Moving c.deeper ⟨parserWithin levels, unaryWithin levels⟩ :=
      ih fun fits => by
        have left := left fits
        change c.scope.options.maxDepth - (c.depth + 1) ≤ levels
        omega
    exact ⟨(starting_assignmentAt inner).deeper, (starting_unaryAt inner).deeper⟩

theorem parser_moving : c.Moving parser := fun s hs =>
  ((moving_within _ fun _ => Nat.le_of_eq (by rw [hs])).assignment s hs).congr rfl

end PulseSyntax.Expr
