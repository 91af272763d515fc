import PulseSyntax.Proofs.Parser.Balance

namespace PulseSyntax

open PulseSyntax.Parser

namespace Expr

variable {scope : Scope}

/-- The parser reads braces in pairs, and keeps the blocks of the arrow functions in its answer. -/
abbrev IsBalanced (scope : Scope) (p : Parser Expr) : Prop :=
  Balances scope (fun e => scope.Keeps e.arrows) p

structure Nested.IsBalanced (scope : Scope) (nested : Nested) : Prop where
  assignment : Expr.IsBalanced scope nested.assignment
  unary : Expr.IsBalanced scope nested.unary

variable {expr : Parser Expr} {nested : Nested} {i depth : Nat} {s : ParserState}

section

variable {P Q : Expr → Prop}

theorem balances_spreadable_of (h : Balances scope P expr) (plain : ∀ e, P e → Q e)
    (spread : ∀ e span, P e → Q (.spread e span)) : Balances scope Q (spreadable expr) := by
  intro i depth s o
  simp [spreadable]
  exact ⟨fun dots => h.step (o.read dots rfl) fun e t o holds => ⟨o, spread e _ holds⟩,
    fun _ => h.step o fun e t o holds => ⟨o, plain e holds⟩⟩

theorem balances_arguments_of (h : Balances scope P expr) (plain : ∀ e, P e → Q e)
    (spread : ∀ e span, P e → Q (.spread e span)) :
    Balances scope (∀ e ∈ ·.1, Q e) (arguments expr) := by
  intro i depth s o
  simp [arguments]
  intro opening
  refine (Balances.commaSeparated _ (balances_spreadable_of h plain spread)).step
    (o.read opening rfl) ?_
  exact fun items t o holds closing => ⟨o.read closing rfl, holds⟩

end

theorem balances_spreadable (h : IsBalanced scope expr) : IsBalanced scope (spreadable expr) :=
  balances_spreadable_of h (fun _ captured => captured) fun _ _ captured => by simpa using captured

theorem balances_arguments (h : IsBalanced scope expr) :
    Balances scope (∀ e ∈ ·.1, scope.Keeps e.arrows) (arguments expr) :=
  balances_arguments_of h (fun _ captured => captured) fun _ _ captured => by simpa using captured

/-- The block belongs to an arrow function that starts before it and ends with it. In the file it is
    kept as tokens, in an interpolation as text. -/
theorem yields_arrowBlock {start : Span} (o : scope.stream.Open i s.cursor depth)
    (began : ∃ first ≤ s.cursor, start = (scope.stream.get first).span) :
    Yields arrowBlock scope s fun body t => scope.stream.Open i t.cursor depth ∧
      scope.KeepsArrow (start.cover (scope.stream.get (t.cursor - 1)).span) body ∧
      scope.Keeps body.arrows := by
  obtain ⟨first, before, rfl⟩ := began
  refine yields_bind.mpr (yields_rawBlock o fun r t o delimits after stop => ?_)
  have encloses : scope.Encloses ((scope.stream.get first).span.cover
      (scope.stream.get (t.cursor - 1)).span) r := by
    refine ⟨delimits, first, by omega, ?_⟩
    rw [stop, Nat.add_sub_cancel]
  simp only [yields_bind, yields_scope]
  split
  · next q quoted => exact yields_pure.mpr ⟨o, .inline quoted encloses, by simp⟩
  · next inFile => exact yields_pure.mpr ⟨o, .block ⟨encloses, inFile⟩, by simp⟩

theorem yields_arrowFunction (h : nested.IsBalanced scope) (isAsync : Bool) {start : Span}
    (o : scope.stream.Open i s.cursor depth)
    (began : ∃ first ≤ s.cursor, start = (scope.stream.get first).span) :
    Yields (arrowFunction nested start isAsync) scope s
      (Leaves scope i depth fun e => scope.Keeps e.arrows) := by
  obtain ⟨first, before, rfl⟩ := began
  refine yields_bind.mpr (yields_isSymbol.mpr ?_)
  extract_lets rest
  have tail {params : List Expr} {t : ParserState} (o : scope.stream.Open i t.cursor depth)
      (captured : ∀ e ∈ params, scope.Keeps e.arrows) (onward : s.cursor ≤ t.cursor) :
      Yields (rest params) scope t (Leaves scope i depth fun e => scope.Keeps e.arrows) := by
    simp [rest]
    intro _ arrow
    have after := ParserState.next_of_kind arrow (by simp)
    refine ⟨fun _ => (yields_arrowBlock (o.read arrow rfl) ⟨first, ?_, rfl⟩).mono ?_,
      fun _ => h.assignment.step (o.read arrow rfl) fun body t o inner => ⟨o, ?_⟩⟩
    · rw [after, ParserState.ahead_cursor]
      omega
    · rintro body u ⟨o, block, inner⟩
      exact ⟨o, by simpa using ⟨block, captured, inner⟩⟩
    · simpa using ⟨.expression, captured, inner⟩
  simp
  refine ⟨fun _ => (balances_arguments h.assignment).stepOnward o fun items t o captured onward =>
    tail o captured onward, fun _ name => tail (o.read name rfl) (by simp [ofName]) ?_⟩
  rw [ParserState.next_of_kind name (by simp)]
  exact Nat.le_succ _

theorem balances_arrayLiteral (h : nested.IsBalanced scope) :
    IsBalanced scope (arrayLiteral nested) := by
  intro i depth s o
  simp [arrayLiteral]
  intro opening
  refine (Balances.commaSeparated _ (balances_spreadable h.assignment)).step
    (o.read opening rfl) fun items t o captured closing => ⟨o.read closing rfl, ?_⟩
  simpa using captured

theorem balances_propertyValue (h : nested.IsBalanced scope) (start : Span) {key : PropertyKey}
    (hkey : scope.Keeps key.arrows) :
    Balances scope (fun m => scope.Keeps m.arrows)
      (propertyValue nested start key) := by
  intro i depth s o
  simp [propertyValue]
  intro colon
  refine h.assignment.step (o.read colon rfl) fun value t o captured => ⟨o, ?_⟩
  simpa using ⟨hkey, captured⟩

theorem keyOf?_eq_some {t : Token} {key : PropertyKey} (h : keyOf? t = some key) :
    t.kind.isBrace = false ∧ key.arrows = [] := by
  unfold keyOf? at h
  split at h
  case h_5 => cases h
  all_goals
    next kind =>
    cases h
    exact ⟨by rw [kind]; rfl, by simp⟩

theorem balances_objectMember (h : nested.IsBalanced scope) :
    Balances scope (fun m => scope.Keeps m.arrows) (objectMember nested) := by
  intro i depth s o
  simp [objectMember]
  refine ⟨fun spread => ?_, fun _ => ⟨fun opening => ?_, fun _ => ?_⟩⟩
  · refine h.assignment.step (o.read spread rfl) fun e t o captured => ⟨o, ?_⟩
    simpa using captured
  · refine h.assignment.step (o.read opening rfl) fun key t o captured closing => ?_
    exact balances_propertyValue h _ (by simpa using captured) (o.read closing rfl)
  · split
    · simp
    · next key read =>
      obtain ⟨plain, noInner⟩ := keyOf?_eq_some read
      simp
      refine ⟨fun _ _ => ⟨o.read rfl plain, ?_⟩, fun _ => ?_⟩
      · simp [noInner, ofName]
      · exact balances_propertyValue h _ (by simp [noInner]) (o.read rfl plain)

theorem balances_objectLiteral (h : nested.IsBalanced scope) :
    IsBalanced scope (objectLiteral nested) := by
  intro i depth s o
  simp [objectLiteral]
  intro opening
  refine (Balances.commaSeparated _ (balances_objectMember h)).step (o.opening opening)
    fun members t o captured closing => ⟨o.closing closing, ?_⟩
  simpa using captured

theorem literalOf?_eq_some {t : Token} {e : Expr} (h : literalOf? t = some e) :
    t.kind.isBrace = false ∧ scope.Keeps e.arrows := by
  unfold literalOf? at h
  split at h
  case h_8 => cases h
  all_goals
    next kind =>
    cases h
    exact ⟨by rw [kind]; rfl, by simp [ofLiteral]⟩

theorem readsAsName_plain {t next : Token} (h : readsAsName t next) : t.kind.isBrace = false := by
  simp only [readsAsName, Bool.or_eq_true, Bool.and_eq_true, beq_iff_eq] at h
  rcases h with name | ⟨import_, -⟩
  · exact TokenKind.not_isBrace_of_isName name
  · rw [import_]
    rfl

theorem yields_grouped (h : nested.IsBalanced scope) (o : scope.stream.Open i s.cursor depth)
    (opening : (scope.stream.get s.cursor).kind = .symbol .openParen) :
    Yields (grouped nested) scope s (Leaves scope i depth fun e => scope.Keeps e.arrows) := by
  simp [grouped]
  exact h.assignment.step (o.read opening rfl) fun e t o captured closing =>
    ⟨o.read closing rfl, captured⟩

theorem yields_nameOrBrackets (h : nested.IsBalanced scope)
    (o : scope.stream.Open i s.cursor depth) (next : Token) :
    Yields (nameOrBrackets nested (scope.stream.get s.cursor) next) scope s
      (Leaves scope i depth fun e => scope.Keeps e.arrows) := by
  simp [nameOrBrackets]
  refine ⟨fun name => ⟨o.read rfl (readsAsName_plain name), by simp [ofName]⟩, fun _ => ?_⟩
  split
  · next opening => exact yields_grouped h o opening
  · exact balances_arrayLiteral h o
  · exact balances_objectLiteral h o
  · simp

theorem yields_asyncArrowFollows {Q : Bool → ParserState → Prop} (h : ∀ a, Q a s) :
    Yields asyncArrowFollows scope s Q := by
  simp [asyncArrowFollows]
  split
  · simpa using h _
  · simpa [startsArrowAt] using h _
  · simpa using h _

theorem yields_startsAsyncArrow {t : Token} {Q : Bool → ParserState → Prop}
    (h : ∀ a, (a = true → t.kind = .identifier) → Q a s) :
    Yields (startsAsyncArrow t) scope s Q := by
  simp [startsAsyncArrow]
  exact ⟨fun name _ => yields_asyncArrowFollows fun a => h a fun _ => name,
    fun _ => h false (by simp)⟩

theorem yields_startsArrow {t next : Token} {Q : Bool → ParserState → Prop} (h : ∀ a, Q a s) :
    Yields (startsArrow t next) scope s Q := by
  simp [startsArrow, startsArrowAt]
  exact ⟨fun _ => h _, fun _ => ⟨fun _ => h _, fun _ => h _⟩⟩

theorem balances_primary (h : nested.IsBalanced scope) : IsBalanced scope (primary nested) := by
  intro i depth s o
  simp [primary]
  split
  · next e literal =>
    obtain ⟨plain, captured⟩ := literalOf?_eq_some literal
    simp
    exact ⟨o.read rfl plain, captured⟩
  · simp
    refine yields_startsAsyncArrow fun isAsync name => ⟨fun yes => ?_, fun _ => ?_⟩
    · refine yields_arrowFunction h _ (o.read (name yes) rfl) ⟨s.cursor, ?_, rfl⟩
      rw [ParserState.next_of_kind (name yes) (by simp)]
      exact Nat.le_succ _
    · exact yields_startsArrow fun arrow =>
        ⟨fun _ => yields_arrowFunction h _ o ⟨s.cursor, Nat.le_refl _, rfl⟩,
          fun _ => yields_nameOrBrackets h o _⟩

theorem balances_memberName : IsBalanced scope memberName := by
  intro i depth s o
  simp [memberName]
  exact fun word => ⟨o.read rfl (TokenKind.not_isBrace_of_word word), by simp [ofName]⟩

theorem yields_index (h : nested.IsBalanced scope) (o : scope.stream.Open i s.cursor depth)
    (opening : (scope.stream.get s.cursor).kind = .symbol .openBracket) :
    Yields (index nested) scope s (Leaves scope i depth fun e => scope.Keeps e.1.arrows) := by
  simp [index]
  exact h.assignment.step (o.read opening rfl) fun e t o captured closing =>
    ⟨o.read closing rfl, captured⟩

theorem balances_link (h : nested.IsBalanced scope) (e : Expr)
    (he : scope.Keeps e.arrows) :
    Balances scope (∀ e ∈ ·, scope.Keeps e.arrows) (link nested e) := by
  have call {i depth : Nat} {s : ParserState} (optional : Bool)
      (o : scope.stream.Open i s.cursor depth) :
      Yields (do
          let inside ← arguments nested.assignment
          return some (mkCall e inside.1 optional inside.2)) scope s
        (Leaves scope i depth (∀ e ∈ ·, scope.Keeps e.arrows)) := by
    simp
    refine (balances_arguments h.assignment).step o fun args t o captured => ⟨o, ?_⟩
    simpa [mkCall] using ⟨he, captured⟩
  have indexed {i depth : Nat} {s : ParserState} (optional : Bool)
      (o : scope.stream.Open i s.cursor depth)
      (opening : (scope.stream.get s.cursor).kind = .symbol .openBracket) :
      Yields (do
          let inside ← index nested
          return some (mkIndex e inside.1 optional inside.2)) scope s
        (Leaves scope i depth (∀ e ∈ ·, scope.Keeps e.arrows)) := by
    simp
    refine (yields_index h o opening).mono fun property t left => ⟨left.braces, ?_⟩
    simpa [mkIndex] using ⟨he, left.answer⟩
  have member {i depth : Nat} {s : ParserState} (optional : Bool)
      (o : scope.stream.Open i s.cursor depth) :
      Yields (do return some (mkMember e (← memberName) optional)) scope s
        (Leaves scope i depth (∀ e ∈ ·, scope.Keeps e.arrows)) := by
    simp
    refine balances_memberName.step o fun property t o captured => ⟨o, ?_⟩
    simpa [mkMember] using ⟨he, captured⟩
  intro i depth s o
  refine yields_bind.mpr (yields_current.mpr ?_)
  split
  · next dot => exact yields_bind.mpr (yields_advance.mpr (member false (o.read dot rfl)))
  · next dot =>
    refine yields_bind.mpr (yields_advance.mpr (yields_bind.mpr (yields_current.mpr ?_)))
    have o := o.read dot rfl
    split
    · next opening => exact indexed true o opening
    · exact call true o
    · exact member true o
  · next opening => exact indexed false o opening
  · exact call false o
  · exact yields_pure.mpr ⟨o, by simp⟩

theorem balances_linked (h : nested.IsBalanced scope) : IsBalanced scope (linked nested) := by
  intro i depth s o
  refine yields_bind.mpr ((balances_primary h).step o fun e t o captured => ?_)
  exact Balances.chain (P := fun (e : Expr) => scope.Keeps e.arrows) (balances_link h) captured o

theorem updateOp_plain {kind : TokenKind} {op : UpdateOp} (h : UpdateOp.ofKind? kind = some op) :
    kind.isBrace = false := by
  unfold UpdateOp.ofKind? at h
  split at h <;> first | rfl | cases h

theorem unaryOp_plain {kind : TokenKind} {op : UnaryOp} (h : UnaryOp.ofKind? kind = some op) :
    kind.isBrace = false := by
  unfold UnaryOp.ofKind? at h
  split at h <;> first | rfl | cases h

theorem binaryOp_plain {level : Nat} {kind : TokenKind} {op : BinaryOp}
    (h : BinaryOp.ofKind? level kind = some op) : kind.isBrace = false := by
  have fits := List.find?_some h
  simp only [Bool.and_eq_true, beq_iff_eq] at fits
  rw [fits.2]
  cases op <;> rfl

theorem assignOp_plain {kind : TokenKind} {op : AssignOp} (h : AssignOp.ofKind? kind = some op) :
    kind.isBrace = false := by
  unfold AssignOp.ofKind? at h
  split at h <;> first | rfl | cases h

theorem balances_postfixed (h : nested.IsBalanced scope) : IsBalanced scope (postfixed nested) := by
  intro i depth s o
  refine yields_bind.mpr ((balances_linked h).step o fun e t o captured => ?_)
  simp
  split
  · exact yields_pure.mpr ⟨o, captured⟩
  · next op read =>
    simp
    refine ⟨fun _ _ => ⟨o.read rfl (updateOp_plain read), ?_⟩, fun _ => ⟨o, captured⟩⟩
    simpa using captured

theorem balances_unaryAt (h : nested.IsBalanced scope) : IsBalanced scope (unaryAt nested) := by
  intro i depth s o
  simp [unaryAt]
  split
  · next op read =>
    simp
    refine h.unary.step (o.read rfl (unaryOp_plain read)) fun e t o captured => ⟨o, ?_⟩
    simpa using captured
  · next op none read =>
    simp
    refine h.unary.step (o.read rfl (updateOp_plain read)) fun e t o captured _ => ⟨o, ?_⟩
    simpa using captured
  · exact balances_postfixed h o

theorem balances_binaryAt (h : IsBalanced scope expr) (level : Nat) :
    IsBalanced scope (binaryAt expr level) := by
  induction level with
  | zero => exact h
  | succ level ih =>
    intro i depth s o
    refine yields_bind.mpr (ih.step o fun first t o captured => ?_)
    refine Balances.chain (P := fun (e : Expr) => scope.Keeps e.arrows) (fun left captured => ?_)
      captured o
    intro i depth s o
    simp [join]
    split
    · exact yields_pure.mpr ⟨o, by simp⟩
    · next op read =>
      simp
      refine ih.step (o.read rfl (binaryOp_plain read)) fun right t o captured' => ⟨o, ?_⟩
      simpa [mkBinary] using ⟨captured, captured'⟩

theorem balances_conditionalAt (h : nested.IsBalanced scope) :
    IsBalanced scope (conditionalAt nested) := by
  intro i depth s o
  refine yields_bind.mpr ((balances_binaryAt (balances_unaryAt h) _).step o fun test t o tested => ?_)
  simp
  refine ⟨fun question => ?_, fun _ => ⟨o, tested⟩⟩
  refine h.assignment.step (o.read question rfl) fun consequent t o first colon => ?_
  refine h.assignment.step (o.read colon rfl) fun alternate t o second => ⟨o, ?_⟩
  simpa using ⟨tested, first, second⟩

theorem balances_assignmentAt (h : nested.IsBalanced scope) :
    IsBalanced scope (assignmentAt nested) := by
  intro i depth s o
  refine yields_bind.mpr ((balances_conditionalAt h).step o fun target t o captured => ?_)
  simp
  split
  · exact yields_pure.mpr ⟨o, captured⟩
  · next op read =>
    simp
    refine fun _ => h.assignment.step (o.read rfl (assignOp_plain read)) fun value t o captured' =>
      ⟨o, ?_⟩
    simpa using ⟨captured, captured'⟩

theorem balances_within (levels : Nat) :
    Nested.IsBalanced scope ⟨parserWithin levels, unaryWithin levels⟩ := by
  induction levels with
  | zero => exact ⟨fun _ _ _ _ => yields_failTooDeep.mpr trivial,
      fun _ _ _ _ => yields_failTooDeep.mpr trivial⟩
  | succ levels ih => exact ⟨(balances_assignmentAt ih).deeper, (balances_unaryAt ih).deeper⟩

theorem parser_balances : IsBalanced scope parser :=
  .withLevels fun levels => (balances_within levels).assignment

/-- The parser reads braces in pairs, and answers with what is read from the tokens. -/
abbrev IsRead (scope : Scope) (p : Parser Expr) : Prop := Balances scope scope.Reads p

theorem parser_isRead : IsRead scope parser := fun _ _ s o _ t ok =>
  ⟨(parser_balances o ok).braces, s, t, ok⟩

theorem balances_arguments_read (h : IsRead scope expr) :
    Balances scope (∀ e ∈ ·.1, scope.HasExpr e) (arguments expr) :=
  balances_arguments_of h (fun _ => .read) fun _ _ => .spread

end Expr

namespace Scope

variable {scope : Scope}

theorem Reads.keeps {e : Expr} (h : scope.Reads e) : scope.Keeps e.arrows := by
  obtain ⟨s, t, ok⟩ := h
  exact (Expr.parser_balances (.refl _ _) ok).answer

theorem HasExpr.keeps {e : Expr} (h : scope.HasExpr e) : scope.Keeps e.arrows := by
  cases h with
  | read h => exact h.keeps
  | spread h => simpa using h.keeps
  | flag => simp

theorem HasText.keeps {t : TextNode} (h : scope.HasText t) : scope.KeepsText t := by
  intro source e member
  obtain ⟨i, start, hole, place, here, same, own⟩ := h source e member
  exact ⟨i, start, hole, place, here, same, (reads_of_readHole own).keeps⟩

theorem Has.captures {fragments : List Fragment} (h : scope.Has fragments) :
    scope.Captures fragments := by
  intro f member
  have own := h f member
  cases f with
  | body owner r => exact own
  | expression e => exact own.keeps
  | text t => exact own.keeps

end Scope

end PulseSyntax
