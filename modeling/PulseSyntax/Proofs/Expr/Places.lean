import PulseSyntax.Proofs.Expr.Balance
import PulseSyntax.Proofs.Expr.Course
import PulseSyntax.Proofs.Parser.Places

namespace PulseSyntax

open PulseSyntax.Parser

namespace Expr

variable {scope : Scope} {inText : Bool}

/-- The expression that the parser answers with lies between the tokens that it has read. -/
abbrev IsPlaced (scope : Scope) (inText : Bool) (p : Parser Expr) : Prop :=
  Places scope inText (fun e => [e.spanTree]) p

structure Nested.IsPlaced (scope : Scope) (inText : Bool) (nested : Nested) : Prop where
  assignment : Expr.IsPlaced scope inText nested.assignment
  unary : Expr.IsPlaced scope inText nested.unary

@[simp] theorem span_spanTree (e : Expr) : e.spanTree.span = e.span := by
  cases e <;> simp [spanTree, SpanTree.span, span]

variable {expr : Parser Expr} {nested : Nested} {s : ParserState}

theorem places_spreadable (ruled : scope.stream.Ruled inText) (h : IsPlaced scope inText expr) :
    IsPlaced scope inText (spreadable expr) := by
  intro s
  simp [spreadable]
  refine ⟨fun spread => h.mono fun e t placed => ?_, fun _ => @h s⟩
  rw [ParserState.next_of_kind spread (by simp)] at placed
  simpa [spanTree] using placed.after_token ruled (Nat.lt_succ_self _)

theorem yields_arguments (ruled : scope.stream.Ruled inText) (h : IsPlaced scope inText expr) :
    Yields (arguments expr) scope s fun answer t => ∃ close, t.cursor = close + 1 ∧
      answer.2 = (scope.stream.get close).span ∧
      scope.stream.Placed inText (s.cursor + 1) close (Expr.spanTrees answer.1) := by
  simp only [arguments, yields_bind, yields_expectSymbol, yields_pure, spanTrees_eq]
  intro opening
  rw [ParserState.next_of_kind opening (by simp)]
  refine (Places.commaSeparatedAfter ruled _ fun _ => places_spreadable ruled h).mono
    fun items t placed closing => ?_
  rw [ParserState.next_of_kind closing (by simp)]
  exact ⟨t.cursor, rfl, rfl, placed⟩

theorem yields_rawBlock_onward :
    Yields rawBlock scope s fun _ t => s.cursor < t.cursor := by
  intro r t ok
  have proceeds := Course.starting_rawBlock (c := ⟨scope, s.depth, False⟩) s rfl
  exact proceeds.progress ok trivial

theorem yields_arrowBlock_onward :
    Yields arrowBlock scope s fun body t => s.cursor < t.cursor ∧ body.spanTrees = [] := by
  refine yields_bind.mpr (yields_rawBlock_onward.mono fun r t onward => ?_)
  simp only [yields_bind, yields_scope]
  split <;> exact yields_pure.mpr ⟨onward, by simp [ArrowBody.spanTrees]⟩

theorem yields_arrowFunction_placed (ruled : scope.stream.Ruled inText)
    (h : nested.IsPlaced scope inText) (isAsync : Bool) {first : Nat} (before : first ≤ s.cursor) :
    Yields (arrowFunction nested (scope.stream.get first).span isAsync) scope s fun e t =>
      scope.stream.Placed inText first t.cursor [e.spanTree] := by
  refine yields_bind.mpr (yields_isSymbol.mpr ?_)
  extract_lets rest
  have tail {params : List Expr} {t : ParserState}
      (placed : scope.stream.Placed inText s.cursor t.cursor (Expr.spanTrees params)) :
      Yields (rest params) scope t fun e u =>
        scope.stream.Placed inText first u.cursor [e.spanTree] := by
    have le := placed.le
    simp [rest]
    intro _ arrow
    rw [ParserState.next_of_kind arrow (by simp)]
    refine ⟨fun _ => yields_arrowBlock_onward.mono ?_, fun _ => h.assignment.mono fun body u inner => ?_⟩
    · rintro body u ⟨onward, none⟩
      obtain ⟨last, hl⟩ : ∃ last, u.cursor = last + 1 := ⟨u.cursor - 1, by omega⟩
      simp only [ParserState.ahead_cursor] at onward
      simpa [spanTree, none, hl] using
        placed.between ruled before (show t.cursor ≤ last + 1 by omega) (by omega)
    · simp only [ParserState.ahead_cursor] at inner
      have some := inner.bounds.some
      have start := TokenStream.Bounds.token ruled first
      have holds := placed.append inner ruled (Nat.le_succ _)
      simp only [spanTree, ArrowBody.spanTrees]
      refine .node (by simpa using start.cover inner.bounds ruled (by omega) (by omega)) holds
        (List.forall_mem_append.mpr ⟨?_, ?_⟩)
      · simpa using placed.lies_between ruled start inner.bounds (by omega) (by omega)
      · simpa using (Span.LiesIn.refl inner.bounds.proper).right _
  simp
  refine ⟨fun _ => (yields_arguments ruled h.assignment).mono ?_, fun _ name => ?_⟩
  · rintro ⟨items, close⟩ t ⟨last, ht, -, placed⟩
    exact tail (placed.widen ruled (Nat.le_succ _) (ht ▸ Nat.le_succ _))
  · refine tail ?_
    rw [ParserState.next_of_kind name (by simp)]
    simpa [spanTrees_eq, ofName, spanTree] using TokenStream.Placed.token ruled s.cursor

theorem places_arrayLiteral (ruled : scope.stream.Ruled inText) (h : nested.IsPlaced scope inText) :
    IsPlaced scope inText (arrayLiteral nested) := by
  intro s
  simp [arrayLiteral]
  intro opening
  rw [ParserState.next_of_kind opening (by simp)]
  refine (Places.commaSeparatedAfter ruled _ fun _ => places_spreadable ruled h.assignment).mono
    fun items t placed closing => ?_
  rw [ParserState.next_of_kind closing (by simp)]
  have le := placed.le
  simp only [ParserState.ahead_cursor] at le placed ⊢
  simpa [spanTree, spanTrees_eq] using
    placed.between ruled (Nat.le_succ _) (Nat.le_succ _) (by omega)

theorem yields_propertyValue_placed (ruled : scope.stream.Ruled inText)
    (h : nested.IsPlaced scope inText) {first : Nat} {key : PropertyKey}
    (hkey : scope.stream.Placed inText first s.cursor key.spanTrees) :
    Yields (propertyValue nested (scope.stream.get first).span key) scope s fun m t =>
      scope.stream.Placed inText first t.cursor [m.spanTree] := by
  simp [propertyValue]
  intro colon
  rw [ParserState.next_of_kind colon (by simp)]
  refine h.assignment.mono fun value t placed => ?_
  have le := hkey.le
  have some := placed.bounds.some
  have start := TokenStream.Bounds.token ruled first
  simp only [ParserState.ahead_cursor] at placed some
  simp only [ObjectMember.spanTree]
  refine .node (by simpa using start.cover placed.bounds ruled (by omega) (by omega))
    (hkey.append placed ruled (Nat.le_succ _)) (List.forall_mem_append.mpr ⟨?_, ?_⟩)
  · simpa using hkey.lies_between ruled start placed.bounds (by omega) (by omega)
  · simpa using (Span.LiesIn.refl placed.bounds.proper).right _

theorem keyOf?_spanTrees {t : Token} {key : PropertyKey} (h : keyOf? t = some key) :
    t.kind ≠ .endOfFile ∧ key.spanTrees = [] := by
  unfold keyOf? at h
  split at h
  case h_5 => cases h
  all_goals
    next kind =>
    cases h
    exact ⟨by rw [kind]; nofun, by simp [PropertyKey.spanTrees]⟩

theorem places_objectMember (ruled : scope.stream.Ruled inText) (h : nested.IsPlaced scope inText) :
    Places scope inText (fun m => [m.spanTree]) (objectMember nested) := by
  intro s
  simp [objectMember]
  refine ⟨fun spread => ?_, fun _ => ⟨fun opening => ?_, fun _ => ?_⟩⟩
  · rw [ParserState.next_of_kind spread (by simp)]
    refine h.assignment.mono fun e t placed => ?_
    simpa [ObjectMember.spanTree] using placed.after_token ruled (Nat.lt_succ_self _)
  · rw [ParserState.next_of_kind opening (by simp)]
    refine h.assignment.mono fun key t placed closing => ?_
    rw [ParserState.next_of_kind closing (by simp)]
    refine yields_propertyValue_placed ruled h ?_
    simpa [PropertyKey.spanTrees] using placed.widen ruled (Nat.le_succ _) (Nat.le_succ _)
  · split
    · simp
    · next key read =>
      obtain ⟨inside, none⟩ := keyOf?_spanTrees read
      simp
      rw [ParserState.next_of_kind rfl inside]
      refine ⟨fun _ _ => ?_, fun _ => ?_⟩
      · have placed := TokenStream.Placed.token ruled s.cursor
        simp only [ObjectMember.spanTree, none, ofName, spanTree]
        refine .node (.token ruled _) placed ?_
        simpa [SpanTree.span] using Span.LiesIn.refl (ruled.proper _)
      · exact yields_propertyValue_placed ruled h (none ▸ .nil (Nat.le_succ _))

theorem places_objectLiteral (ruled : scope.stream.Ruled inText) (h : nested.IsPlaced scope inText) :
    IsPlaced scope inText (objectLiteral nested) := by
  intro s
  simp [objectLiteral]
  intro opening
  rw [ParserState.next_of_kind opening (by simp)]
  refine (Places.commaSeparatedAfter ruled _ fun _ => places_objectMember ruled h).mono
    fun members t placed closing => ?_
  rw [ParserState.next_of_kind closing (by simp)]
  have le := placed.le
  simp only [ParserState.ahead_cursor] at le placed ⊢
  simpa [spanTree, ObjectMember.spanTrees_eq] using
    placed.between ruled (Nat.le_succ _) (Nat.le_succ _) (by omega)

theorem literalOf?_spanTree {t : Token} {e : Expr} (h : literalOf? t = some e) :
    t.kind ≠ .endOfFile ∧ e.spanTree = .node t.span [] := by
  unfold literalOf? at h
  split at h
  case h_8 => cases h
  all_goals
    next kind =>
    cases h
    exact ⟨by simp [kind], by simp [ofLiteral, spanTree]⟩

theorem places_grouped (ruled : scope.stream.Ruled inText) (h : nested.IsPlaced scope inText) :
    IsPlaced scope inText (grouped nested) := by
  intro s
  simp [grouped]
  refine h.assignment.mono fun e t placed closing => ?_
  exact placed.widen ruled (ParserState.le_next _ _) (ParserState.le_next _ _)

theorem yields_nameOrBrackets_placed (ruled : scope.stream.Ruled inText)
    (h : nested.IsPlaced scope inText) (next : Token) :
    Yields (nameOrBrackets nested (scope.stream.get s.cursor) next) scope s fun e t =>
      scope.stream.Placed inText s.cursor t.cursor [e.spanTree] := by
  simp [nameOrBrackets]
  refine ⟨fun name => ?_, fun _ => ?_⟩
  · rw [ParserState.next_of_kind rfl (kind_ne_of_readsAsName name)]
    simpa [ofName, spanTree] using TokenStream.Placed.token ruled s.cursor
  · split
    · exact @places_grouped _ _ _ ruled h s
    · exact @places_arrayLiteral _ _ _ ruled h s
    · exact @places_objectLiteral _ _ _ ruled h s
    · simp

theorem places_primary (ruled : scope.stream.Ruled inText) (h : nested.IsPlaced scope inText) :
    IsPlaced scope inText (primary nested) := by
  intro s
  simp [primary]
  split
  · next e literal =>
    obtain ⟨inside, same⟩ := literalOf?_spanTree literal
    simp
    rw [ParserState.next_of_kind rfl inside, same]
    exact .token ruled s.cursor
  · simp
    refine yields_startsAsyncArrow fun isAsync name => ⟨fun yes => ?_, fun _ => ?_⟩
    · refine yields_arrowFunction_placed ruled h _ ?_
      rw [ParserState.next_of_kind (name yes) (by simp)]
      exact Nat.le_succ _
    · exact yields_startsArrow fun arrow =>
        ⟨fun _ => yields_arrowFunction_placed ruled h _ (Nat.le_refl _),
          fun _ => yields_nameOrBrackets_placed ruled h _⟩

theorem places_memberName (ruled : scope.stream.Ruled inText) :
    IsPlaced scope inText memberName := by
  intro s
  simp [memberName]
  intro word
  have inside : (scope.stream.get s.cursor).kind ≠ .endOfFile := by
    rintro atEnd
    simp [atEnd, TokenKind.isKeyword] at word
  rw [ParserState.next_of_kind rfl inside]
  simpa [ofName, spanTree] using TokenStream.Placed.token ruled s.cursor

theorem yields_index_placed (ruled : scope.stream.Ruled inText) (h : nested.IsPlaced scope inText) :
    Yields (index nested) scope s fun answer t => ∃ close, t.cursor = close + 1 ∧
      answer.2 = (scope.stream.get close).span ∧
      scope.stream.Placed inText s.cursor close [answer.1.spanTree] := by
  simp [index]
  refine h.assignment.mono fun e t placed closing => ?_
  rw [ParserState.next_of_kind closing (by simp)]
  exact ⟨t.cursor, rfl, rfl, placed.widen ruled (ParserState.le_next _ _) (Nat.le_refl _)⟩

theorem yields_link_placed (ruled : scope.stream.Ruled inText) (h : nested.IsPlaced scope inText)
    {i : Nat} {e : Expr} (placed : scope.stream.Placed inText i s.cursor [e.spanTree]) :
    Yields (link nested e) scope s fun next t =>
      scope.stream.Placed inText i t.cursor [(next.getD e).spanTree] := by
  have call {s : ParserState} (optional : Bool)
      (placed : scope.stream.Placed inText i s.cursor [e.spanTree]) :
      Yields (do
          let inside ← arguments nested.assignment
          return some (mkCall e inside.1 optional inside.2)) scope s fun next t =>
        scope.stream.Placed inText i t.cursor [(next.getD e).spanTree] := by
    simp
    refine (yields_arguments ruled h.assignment).mono ?_
    rintro ⟨args, _⟩ t ⟨close, ht, rfl, inner⟩
    rw [ht]
    simpa [mkCall, spanTree] using placed.up_to_token inner ruled (Nat.le_succ _) (Nat.le_refl _)
  have indexed {s : ParserState} (optional : Bool)
      (placed : scope.stream.Placed inText i s.cursor [e.spanTree]) :
      Yields (do
          let inside ← index nested
          return some (mkIndex e inside.1 optional inside.2)) scope s fun next t =>
        scope.stream.Placed inText i t.cursor [(next.getD e).spanTree] := by
    simp
    refine (yields_index_placed ruled h).mono ?_
    rintro ⟨property, _⟩ t ⟨close, ht, rfl, inner⟩
    rw [ht]
    simpa [mkIndex, spanTree] using placed.up_to_token inner ruled (Nat.le_refl _) (Nat.le_refl _)
  have member {s : ParserState} (optional : Bool)
      (placed : scope.stream.Placed inText i s.cursor [e.spanTree]) :
      Yields (do return some (mkMember e (← memberName) optional)) scope s fun next t =>
        scope.stream.Placed inText i t.cursor [(next.getD e).spanTree] := by
    simp
    refine (places_memberName ruled).mono fun property t inner => ?_
    simpa [mkMember, spanTree] using placed.join inner ruled (Nat.le_refl _)
  have onward := placed.widen ruled (Nat.le_refl i) (ParserState.le_next scope s)
  refine yields_bind.mpr (yields_current.mpr ?_)
  split
  · exact yields_bind.mpr (yields_advance.mpr (member false onward))
  · refine yields_bind.mpr (yields_advance.mpr (yields_bind.mpr (yields_current.mpr ?_)))
    split
    · exact indexed true onward
    · exact call true onward
    · exact member true onward
  · exact indexed false placed
  · exact call false placed
  · exact yields_pure.mpr placed

theorem places_linked (ruled : scope.stream.Ruled inText) (h : nested.IsPlaced scope inText) :
    IsPlaced scope inText (linked nested) := by
  intro s
  refine yields_bind.mpr ((places_primary ruled h).mono fun e t placed => ?_)
  exact yields_chain (fun e t placed => yields_link_placed ruled h placed) placed

theorem places_postfixed (ruled : scope.stream.Ruled inText) (h : nested.IsPlaced scope inText) :
    IsPlaced scope inText (postfixed nested) := by
  intro s
  refine yields_bind.mpr ((places_linked ruled h).mono fun e t placed => ?_)
  simp
  split
  · exact yields_pure.mpr placed
  · next op read =>
    simp
    refine ⟨fun _ _ => ?_, fun _ => placed⟩
    rw [ParserState.next_of_kind rfl (kind_ne_of_updateOp read)]
    simpa [spanTree] using
      placed.up_to_token (.nil (Nat.le_refl _)) ruled (Nat.le_refl _) (Nat.le_refl _)

theorem places_unaryAt (ruled : scope.stream.Ruled inText) (h : nested.IsPlaced scope inText) :
    IsPlaced scope inText (unaryAt nested) := by
  have operator {e : Expr} {s t : ParserState} (inside : (scope.stream.get s.cursor).kind ≠ .endOfFile)
      (placed : scope.stream.Placed inText (s.next scope).cursor t.cursor [e.spanTree]) :
      scope.stream.Placed inText s.cursor t.cursor
        [.node ((scope.stream.get s.cursor).span.cover e.span) [[e.spanTree]]] := by
    rw [ParserState.next_of_kind rfl inside] at placed
    simpa using placed.after_token ruled (Nat.lt_succ_self _)
  intro s
  simp [unaryAt]
  split
  · next op read =>
    simp
    refine h.unary.mono fun e t placed => ?_
    simpa [spanTree] using operator (kind_ne_of_unaryOp read) placed
  · next op none read =>
    simp
    refine h.unary.mono fun e t placed _ => ?_
    simpa [spanTree] using operator (kind_ne_of_updateOp read) placed
  · exact @places_postfixed _ _ _ ruled h s

theorem places_binaryAt (ruled : scope.stream.Ruled inText) (h : IsPlaced scope inText expr)
    (level : Nat) : IsPlaced scope inText (binaryAt expr level) := by
  induction level with
  | zero => exact h
  | succ level ih =>
    intro s
    refine yields_bind.mpr (ih.mono fun first t placed => ?_)
    refine yields_chain (I := fun (e : Expr) u =>
      scope.stream.Placed inText s.cursor u.cursor [e.spanTree]) (fun left t placed => ?_) placed
    simp [join]
    split
    · exact yields_pure.mpr placed
    · simp
      refine ih.mono fun right u placed' => ?_
      simpa [mkBinary, spanTree] using placed.join placed' ruled (ParserState.le_next _ _)

theorem places_conditionalAt (ruled : scope.stream.Ruled inText) (h : nested.IsPlaced scope inText) :
    IsPlaced scope inText (conditionalAt nested) := by
  intro s
  refine yields_bind.mpr ((places_binaryAt ruled (places_unaryAt ruled h) _).mono
    fun test t tested => ?_)
  simp
  refine ⟨fun question => ?_, fun _ => tested⟩
  refine h.assignment.mono fun consequent u first colon => ?_
  refine h.assignment.mono fun alternate v second => ?_
  simpa [spanTree] using
    tested.across first second ruled (ParserState.le_next _ _) (ParserState.le_next _ _)

theorem places_assignmentAt (ruled : scope.stream.Ruled inText) (h : nested.IsPlaced scope inText) :
    IsPlaced scope inText (assignmentAt nested) := by
  intro s
  refine yields_bind.mpr ((places_conditionalAt ruled h).mono fun target t placed => ?_)
  simp
  split
  · exact yields_pure.mpr placed
  · simp
    refine fun _ => h.assignment.mono fun value u placed' => ?_
    simpa [spanTree] using placed.join placed' ruled (ParserState.le_next _ _)

theorem places_within (ruled : scope.stream.Ruled inText) (levels : Nat) :
    Nested.IsPlaced scope inText ⟨parserWithin levels, unaryWithin levels⟩ := by
  induction levels with
  | zero => exact ⟨fun _ => yields_failTooDeep.mpr trivial, fun _ => yields_failTooDeep.mpr trivial⟩
  | succ levels ih => exact ⟨(places_assignmentAt ruled ih).deeper, (places_unaryAt ruled ih).deeper⟩

theorem parser_places (ruled : scope.stream.Ruled inText) : IsPlaced scope inText parser :=
  .withLevels fun levels => (places_within ruled levels).assignment

end Expr

end PulseSyntax
