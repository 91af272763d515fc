import PulseSyntax.Proofs.Block.Balance
import PulseSyntax.Proofs.Expr.Places

namespace PulseSyntax

open PulseSyntax.Parser

variable {scope : Scope} {s : ParserState}

theorem ParserState.next_of_name
    (name : (scope.stream.get s.cursor).kind.isName = true) : s.next scope = s.ahead 1 :=
  next_of_kind rfl (Course.isName_ne name)

theorem Property.parser_places (ruled : scope.stream.Ruled false) :
    Places scope false (fun p => [p.spanTree]) parser := by
  intro s
  have value (name : Token) {t : ParserState} (onward : s.cursor < t.cursor) :
      Yields Expr.parser scope t fun e u => scope.stream.Placed false s.cursor u.cursor
        [(⟨name.text, e, (scope.stream.get s.cursor).span.cover e.span⟩ : Property).spanTree] := by
    refine (Expr.parser_places ruled).mono fun e u placed => ?_
    simpa [spanTree] using placed.after_token ruled onward
  have further (t : ParserState) : t.cursor ≤ (t.next scope).cursor := ParserState.le_next scope t
  simp [parser]
  refine ⟨fun string _ => ?_, fun _ name _ => ?_⟩
  · rw [ParserState.next_of_kind string (by simp)]
    exact value _ (further (s.ahead 1))
  · rw [ParserState.next_of_name name]
    exact value _ (further (s.ahead 1))

theorem PropertyBlock.parser_places (ruled : scope.stream.Ruled false) (word : Keyword) :
    Places scope false (fun b => [b.spanTree]) (parser word) := by
  intro s
  simp [parser]
  intro start
  rw [ParserState.next_of_kind start (by simp)]
  refine (yields_braced_placed ruled (.entry ruled (Property.parser_places ruled))).mono ?_
  rintro ⟨properties, _⟩ t ⟨close, ht, rfl, placed⟩
  rw [ht]
  exact placed.in_braces ruled (Nat.le_succ _) (Nat.lt_succ_self _) (Nat.le_refl _)

theorem Param.parser_places (ruled : scope.stream.Ruled false) (before : Array Param) :
    Places scope false (fun p => [p.spanTree]) (parser before) := by
  intro s
  have first := TokenStream.Bounds.token ruled s.cursor
  simp [parser]
  refine fun _ => ⟨fun spread name _ => ?_, fun _ name => ⟨fun eq => ?_, fun _ => ?_⟩⟩
  · rw [ParserState.next_of_kind spread (by simp)] at name ⊢
    rw [ParserState.next_of_name name]
    exact .node (first.cover (.token ruled _) ruled (Nat.le_succ _) (Nat.le_succ _))
      (.nil (Nat.le_refl s.cursor)) (List.forall_mem_nil _)
  · rw [ParserState.next_of_name name] at eq ⊢
    rw [ParserState.next_of_kind eq (by simp)]
    refine (Expr.parser_places ruled).mono fun e t placed => ?_
    simpa [spanTree, Expr.optionSpanTrees] using placed.after_token ruled (by simp)
  · rw [ParserState.next_of_name name]
    rw [Span.cover_self]
    exact .node first (.nil (Nat.le_refl s.cursor)) (List.forall_mem_nil _)

theorem Param.yields_listParser_placed (ruled : scope.stream.Ruled false) :
    Yields listParser scope s fun params t =>
      scope.stream.Placed false s.cursor t.cursor (params.map spanTree) := by
  simp [listParser]
  intro opening
  refine (Places.commaSeparatedAfter ruled _ (Param.parser_places ruled)).mono
    fun params t placed closing => ?_
  exact placed.widen ruled (ParserState.le_next _ _) (ParserState.le_next _ _)

theorem yields_params_body_placed (ruled : scope.stream.Ruled false) {first : Nat}
    (before : first ≤ s.cursor) {Q : List Param → TokenRange → ParserState → Prop}
    (goOn : ∀ params body (t : ParserState), scope.stream.Placed false first t.cursor
      [.node ((scope.stream.get first).span.cover (scope.stream.get (t.cursor - 1)).span)
        [params.map Param.spanTree]] → Q params body t) :
    Yields Param.listParser scope s fun params t => Yields rawBlock scope t (Q params) := by
  refine (Param.yields_listParser_placed ruled).mono fun params t placed => ?_
  refine Expr.yields_rawBlock_onward.mono fun body u onward => goOn params body u ?_
  have le := placed.le
  obtain ⟨last, hl⟩ : ∃ last, u.cursor = last + 1 := ⟨u.cursor - 1, by omega⟩
  simpa [hl] using placed.between ruled before (show t.cursor ≤ last + 1 by omega) (by omega)

theorem Action.parser_places (ruled : scope.stream.Ruled false) :
    Places scope false (fun a => [a.spanTree]) parser := by
  intro s
  refine yields_bind.mpr (yields_current.mpr (yields_bind.mpr (yields_peek.mpr ?_)))
  extract_lets isAsync rest
  have tail {t : ParserState} (onward : s.cursor ≤ t.cursor) :
      Yields (rest ()) scope t fun a u => scope.stream.Placed false s.cursor u.cursor [a.spanTree] := by
    simp [rest]
    intro name
    exact yields_params_body_placed ruled (Nat.le_trans onward (ParserState.le_next _ _))
      fun params body u placed => placed
  simp [isAsync]
  exact ⟨fun _ _ _ => tail (ParserState.le_next _ _), fun _ => tail (Nat.le_refl _)⟩

theorem ActionsBlock.parser_places (ruled : scope.stream.Ruled false) :
    Places scope false (fun b => [b.spanTree]) parser := by
  intro s
  simp [parser, many]
  intro start opening
  rw [ParserState.next_of_kind start (by simp)]
  refine (Places.manyAfter ruled _ fun _ => .entry ruled (Action.parser_places ruled)).mono
    fun functions t placed closing => ?_
  rw [ParserState.next_of_kind closing (by simp)]
  have onward : s.cursor ≤ ((s.ahead 1).next scope).cursor :=
    Nat.le_trans (Nat.le_succ _) (ParserState.le_next _ (s.ahead 1))
  have le := placed.le
  exact placed.between ruled onward (Nat.le_succ _) (by omega)

theorem Route.parser_places (ruled : scope.stream.Ruled false) (before : Array Route) :
    Places scope false (fun r => [r.spanTree]) (parser before) := by
  intro s
  simp [parser]
  refine fun string _ colon => (Expr.parser_places ruled).mono fun e t placed => ?_
  rw [ParserState.next_of_kind string (by simp)] at placed
  have further := ParserState.le_next scope (s.ahead 1)
  simpa [spanTree] using placed.after_token ruled further

theorem Route.yields_listParser_placed (ruled : scope.stream.Ruled false) :
    Yields listParser scope s fun routes t =>
      scope.stream.Placed false s.cursor t.cursor (routes.map spanTree) := by
  have further (t : ParserState) : t.cursor ≤ (t.next scope).cursor := ParserState.le_next scope t
  have routes {t : ParserState} (onward : s.cursor ≤ t.cursor) :
      Yields (manyAfter .closeBrace fun before => entry (parser before)) scope (t.next scope)
        fun routes u => (scope.stream.get u.cursor).kind = .symbol .closeBrace →
          scope.stream.Placed false s.cursor (u.next scope).cursor (routes.map spanTree) :=
    (Places.manyAfter ruled _ fun before => .entry ruled (Route.parser_places ruled before)).mono
      fun routes u placed _ => placed.widen ruled (Nat.le_trans onward (further t)) (further u)
  simp [listParser]
  exact fun _ => ⟨fun _ _ => routes (Nat.le_trans (further s) (further _)),
    fun _ _ => routes (further s)⟩

theorem Guard.parser_places (ruled : scope.stream.Ruled false) :
    Places scope false (fun g => [g.spanTree]) parser := by
  intro s
  simp [parser]
  exact yields_params_body_placed ruled (ParserState.le_next _ _) fun params body t placed => placed

def RouterFields.spanTrees (fields : RouterFields) : List (List SpanTree) :=
  [(fields.routes.getD []).map Route.spanTree, (fields.beforeEach.map Guard.spanTree).toList,
    (fields.afterEach.map Guard.spanTree).toList]

theorem RouterFields.yields_add_placed (ruled : scope.stream.Ruled false) {i : Nat}
    (fields : RouterFields) (h : scope.stream.EachPlaced false i s.cursor fields.spanTrees) :
    Yields fields.add scope s fun fields t =>
      scope.stream.EachPlaced false i t.cursor fields.spanTrees := by
  have further (t : ParserState) : t.cursor ≤ (t.next scope).cursor := ParserState.le_next scope t
  have onward : s.cursor ≤ (((s.next scope).next scope).next scope).cursor :=
    Nat.le_trans (further s) (Nat.le_trans (further _) (further _))
  refine yields_bind.mpr (yields_current.mpr ?_)
  split
  · simp [fieldColon]
    exact fun _ _ _ => h.widen ruled onward
  · simp [fieldColon]
    exact fun _ _ _ => h.widen ruled onward
  · simp
    refine fun free => (Route.yields_listParser_placed ruled).mono fun routes t placed => ?_
    exact h.add ruled placed (Nat.le_refl _) (by simp [spanTrees, free])
  · simp
    refine fun free => (Guard.parser_places ruled).mono fun guard t placed => ?_
    exact h.add ruled placed (Nat.le_refl _) (by simp [spanTrees, free])
  · simp
    refine fun free => (Guard.parser_places ruled).mono fun guard t placed => ?_
    exact h.add ruled placed (Nat.le_refl _) (by simp [spanTrees, free])
  · exact yields_failWanted.mpr trivial

theorem RouterBlock.parser_places (ruled : scope.stream.Ruled false) :
    Places scope false (fun b => [b.spanTree]) parser := by
  intro s
  simp [parser]
  intro start opening
  rw [ParserState.next_of_kind start (by simp)]
  have onward : s.cursor ≤ ((s.ahead 1).next scope).cursor :=
    Nat.le_trans (Nat.le_succ _) (ParserState.le_next _ (s.ahead 1))
  exact yields_foldEntries_placed ruled
    (fun fields t => RouterFields.yields_add_placed ruled fields) onward (by simp [RouterFields.spanTrees])

theorem Getter.parser_places (ruled : scope.stream.Ruled false) :
    Places scope false (fun g => [g.spanTree]) parser := by
  intro s
  have further (t : ParserState) : t.cursor ≤ (t.next scope).cursor := ParserState.le_next scope t
  have body {t : ParserState} (onward : s.cursor ≤ t.cursor) (name : String) :
      Yields rawBlock scope t fun body u => scope.stream.Placed false s.cursor u.cursor
        [(⟨name, body, (scope.stream.get s.cursor).span.cover
          (scope.stream.get (u.cursor - 1)).span⟩ : Getter).spanTree] := by
    refine Expr.yields_rawBlock_onward.mono fun body u more => ?_
    obtain ⟨last, hl⟩ : ∃ last, u.cursor = last + 1 := ⟨u.cursor - 1, by omega⟩
    have bounds := (TokenStream.Bounds.token ruled s.cursor).cover (.token ruled last) ruled
      (by omega) (by omega)
    simpa [hl, spanTree] using TokenStream.Placed.leaf bounds
  simp [parser]
  refine fun name => ⟨fun opening closing => body (Nat.le_trans (further s) ?_) _,
    fun _ => body (further s) _⟩
  exact Nat.le_trans (further _) (further _)

theorem Getter.yields_listParser_placed (ruled : scope.stream.Ruled false) :
    Yields listParser scope s fun getters t =>
      scope.stream.Placed false s.cursor t.cursor (getters.map spanTree) := by
  simp [listParser]
  intro word
  refine (yields_braced_placed ruled (.entry ruled (Getter.parser_places ruled))).mono ?_
  rintro ⟨getters, _⟩ t ⟨close, ht, -, placed⟩
  have further := ParserState.le_next scope s
  exact placed.widen ruled (Nat.le_succ_of_le further) (ht ▸ Nat.le_succ _)

def StoreFields.spanTrees (fields : StoreFields) : List (List SpanTree) :=
  [(fields.state.map PropertyBlock.spanTree).toList, (fields.getters.getD []).map Getter.spanTree,
    (fields.actions.map ActionsBlock.spanTree).toList, Expr.optionSpanTrees fields.plugins]

theorem StoreFields.yields_add_placed (ruled : scope.stream.Ruled false) {i : Nat}
    (fields : StoreFields) (h : scope.stream.EachPlaced false i s.cursor fields.spanTrees) :
    Yields fields.add scope s fun fields t =>
      scope.stream.EachPlaced false i t.cursor fields.spanTrees := by
  have further (t : ParserState) : t.cursor ≤ (t.next scope).cursor := ParserState.le_next scope t
  have colon := Nat.le_trans (further s) (further _)
  have onward := Nat.le_trans colon (further _)
  refine yields_bind.mpr (yields_current.mpr ?_)
  split
  · simp
    refine fun free => (PropertyBlock.parser_places ruled .state).mono fun state t placed => ?_
    exact h.add ruled placed (Nat.le_refl _) (by simp [spanTrees, free])
  · simp
    refine fun free => (Getter.yields_listParser_placed ruled).mono fun getters t placed => ?_
    exact h.add ruled placed (Nat.le_refl _) (by simp [spanTrees, free])
  · simp
    refine fun free => (ActionsBlock.parser_places ruled).mono fun actions t placed => ?_
    exact h.add ruled placed (Nat.le_refl _) (by simp [spanTrees, free])
  · simp [fieldColon]
    refine fun _ _ => ?_
    split
    · simpa [spanTrees] using h.widen ruled onward
    · simpa [spanTrees] using h.widen ruled onward
    · exact yields_failWanted.mpr trivial
  · simp [fieldColon]
    exact fun _ _ _ => h.widen ruled onward
  · simp [fieldColon]
    refine fun free _ _ => (Expr.parser_places ruled).mono fun plugins t placed => ?_
    exact h.add ruled placed colon (by simp [spanTrees, Expr.optionSpanTrees, free])
  · exact yields_failWanted.mpr trivial

theorem StoreBlock.parser_places (ruled : scope.stream.Ruled false) :
    Places scope false (fun b => [b.spanTree]) parser := by
  intro s
  simp [parser]
  intro start opening
  rw [ParserState.next_of_kind start (by simp)]
  have onward : s.cursor ≤ ((s.ahead 1).next scope).cursor :=
    Nat.le_trans (Nat.le_succ _) (ParserState.le_next _ (s.ahead 1))
  exact yields_foldEntries_placed ruled
    (fun fields t => StoreFields.yields_add_placed ruled fields) onward
    (by simp [StoreFields.spanTrees, Expr.optionSpanTrees])

end PulseSyntax
