import PulseSyntax.Proofs.Block.Places
import PulseSyntax.Proofs.Markup.Places
import PulseSyntax.Proofs.Program.Balance

namespace PulseSyntax

open PulseSyntax.Parser

variable {scope : Scope} {s : ParserState}

namespace Import

theorem places_namedParser (ruled : scope.stream.Ruled false) :
    Places scope false (fun p => [p.spanTree]) namedParser := by
  intro s
  have first := TokenStream.Bounds.token ruled s.cursor
  simp [namedParser]
  intro name
  rw [ParserState.next_of_name name]
  refine ⟨fun as given => ?_, fun _ => .leaf first⟩
  rw [ParserState.next_of_kind as (by simp)] at given ⊢
  rw [ParserState.next_of_kind given (by simp)]
  exact .leaf (first.cover (.token ruled (s.cursor + 2)) ruled (by omega) (by simp))

theorem places_bindingsParser (ruled : scope.stream.Ruled false) :
    Places scope false (List.map ImportSpecifier.spanTree) bindingsParser := by
  intro s
  have further (t : ParserState) : t.cursor ≤ (t.next scope).cursor := ParserState.le_next scope t
  simp [bindingsParser]
  refine ⟨fun star => ?_, fun _ _ => ?_⟩
  · have first := TokenStream.Bounds.token ruled s.cursor
    simp [namespaceParser]
    intro as given
    rw [ParserState.next_of_kind star (by simp)] at as given ⊢
    rw [ParserState.next_of_kind as (by simp)] at given ⊢
    rw [ParserState.next_of_kind given (by simp)]
    exact .leaf (first.cover (.token ruled (s.cursor + 2)) ruled (by omega) (by simp))
  · refine (Places.commaSeparatedAfter ruled _ fun _ => places_namedParser ruled).mono
      fun specifiers t placed _ => ?_
    exact placed.widen ruled (further s) (further t)

theorem yields_sourceParser_placed (ruled : scope.stream.Ruled false) {first : Nat}
    {specifiers : List ImportSpecifier}
    (h : scope.stream.Placed false first s.cursor (specifiers.map ImportSpecifier.spanTree)) :
    Yields (sourceParser (scope.stream.get first).span specifiers) scope s fun i t =>
      scope.stream.Placed false first t.cursor [i.spanTree] := by
  have le := h.le
  simp [sourceParser]
  intro word string
  rw [ParserState.next_of_kind word (by simp)] at string ⊢
  rw [ParserState.next_of_kind string (by simp)]
  have node := h.between ruled (Nat.le_refl first) (show s.cursor ≤ s.cursor + 1 + 1 by omega) (by omega)
  exact ⟨fun _ => node.widen ruled (Nat.le_refl _) (ParserState.le_next _ ((s.ahead 1).ahead 1)),
    fun _ => node⟩

theorem parser_places (ruled : scope.stream.Ruled false) :
    Places scope false (fun i => [i.spanTree]) parser := by
  intro s
  simp [parser]
  intro word
  rw [ParserState.next_of_kind word (by simp)]
  have none : scope.stream.Placed false s.cursor (s.cursor + 1) [] := .nil (Nat.le_succ _)
  refine ⟨fun string => ?_, fun _ => ⟨fun name => ?_, fun _ => ?_⟩⟩
  · rw [ParserState.next_of_kind string (by simp)]
    have node := none.between ruled (Nat.le_refl _) (show _ ≤ s.cursor + 1 + 1 by omega) (by omega)
    exact ⟨fun _ => node.widen ruled (Nat.le_refl _) (ParserState.le_next _ ((s.ahead 1).ahead 1)),
      fun _ => node⟩
  · rw [ParserState.next_of_kind name (by simp)]
    have default : scope.stream.Placed false s.cursor (s.cursor + 2)
        [(⟨.default, "default", (scope.stream.get (s.cursor + 1)).text,
          (scope.stream.get (s.cursor + 1)).span⟩ : ImportSpecifier).spanTree] :=
      (TokenStream.Placed.token ruled (s.cursor + 1)).widen ruled (Nat.le_succ _) (Nat.le_refl _)
    refine ⟨fun _ => (places_bindingsParser ruled).mono fun bindings t placed => ?_, fun _ => ?_⟩
    · exact yields_sourceParser_placed ruled
        (default.append placed ruled (ParserState.le_next _ ((s.ahead 1).ahead 1)))
    · exact yields_sourceParser_placed ruled default
  · refine (places_bindingsParser ruled).mono fun bindings t placed => ?_
    exact yields_sourceParser_placed ruled (placed.widen ruled (Nat.le_succ _) (Nat.le_refl _))

end Import

theorem PageDecl.parser_places (ruled : scope.stream.Ruled false) :
    Places scope false (fun d => [d.spanTree]) parser := by
  intro s
  simp [parser]
  intro atSign word name
  rw [ParserState.next_of_kind atSign (by simp)] at word name ⊢
  rw [ParserState.next_of_kind word (by simp)] at name ⊢
  have more : (scope.stream.get (s.cursor + 2)).kind ≠ .endOfFile := by
    rcases name with kind | kind <;> exact ne_of_eq_of_ne kind (by simp)
  rw [ParserState.next_of_kind rfl more]
  exact .leaf ((TokenStream.Bounds.token ruled s.cursor).cover (.token ruled (s.cursor + 2)) ruled
    (by omega) (by simp))

theorem RouteDecl.parser_places (ruled : scope.stream.Ruled false) :
    Places scope false (fun d => [d.spanTree]) parser := by
  intro s
  simp [parser]
  intro atSign word path
  rw [ParserState.next_of_kind atSign (by simp)] at word path ⊢
  rw [ParserState.next_of_kind word (by simp)] at path ⊢
  rw [ParserState.next_of_kind path (by simp)]
  exact .leaf ((TokenStream.Bounds.token ruled s.cursor).cover (.token ruled (s.cursor + 2)) ruled
    (by omega) (by simp))

theorem StyleBlock.parser_places (ruled : scope.stream.Ruled false) :
    Places scope false (fun b => [b.spanTree]) parser := by
  intro s
  refine (StyleBlock.parser_readsBlock s).mono fun b t ⟨⟨last, stop, block⟩, _⟩ => ?_
  have le := block.inside.le
  have first := TokenStream.Bounds.token ruled s.cursor
  have opening := TokenStream.Bounds.token ruled (s.cursor + 1)
  have closing := TokenStream.Bounds.token ruled last
  have span : b.span = _ ∨ b.span = _ := block.span
  simp only [spanTree, stop]
  rcases span with span | span <;> rw [span]
  · exact .leaf (first.cover closing ruled (by omega) (by omega))
  · exact .leaf (first.cover (opening.cover closing ruled (by omega) (by omega)) ruled (by omega)
      (by omega))

namespace Declarations

def spanTrees (d : Declarations) : List (List SpanTree) :=
  [d.imports.map Import.spanTree, (d.page.map PageDecl.spanTree).toList,
    (d.route.map RouteDecl.spanTree).toList, (d.props.map PropertyBlock.spanTree).toList,
    (d.state.map PropertyBlock.spanTree).toList, (d.view.map ViewBlock.spanTree).toList,
    (d.actions.map ActionsBlock.spanTree).toList, (d.style.map StyleBlock.spanTree).toList,
    (d.router.map RouterBlock.spanTree).toList, (d.store.map StoreBlock.spanTree).toList]

variable {d : Declarations}

theorem yields_once_placed {α : Type} {tree : α → SpanTree} {p : Parser α}
    (ruled : scope.stream.Ruled false) (h : Places scope false (fun a => [tree a]) p)
    (placed : scope.stream.EachPlaced false 0 s.cursor d.spanTrees) {seen : Option α} {name : String}
    {next : Option α → Declarations}
    (grows : seen = none → ∀ a, ∀ list ∈ (next (some a)).spanTrees,
      list ∈ d.spanTrees ∨ ∃ old ∈ d.spanTrees, list = old ++ [tree a]) :
    Yields (do return next (← once seen name p)) scope s fun next t =>
      scope.stream.EachPlaced false 0 t.cursor next.spanTrees := by
  refine yields_bind.mpr (yields_once.mpr fun free => h.mono fun a t later => ?_)
  exact yields_pure.mpr (placed.add ruled later (Nat.le_refl _) (grows free a))

theorem yields_add_placed (file : scope.OfFile)
    (placed : scope.stream.EachPlaced false 0 s.cursor d.spanTrees) :
    Yields d.add scope s fun next t =>
      scope.stream.EachPlaced false 0 t.cursor next.spanTrees := by
  have ruled := file.ruled
  have unknown : Yields failUnknown scope s fun (next : Declarations) t =>
      scope.stream.EachPlaced false 0 t.cursor next.spanTrees :=
    fun _ _ ok => absurd ok failUnknown_ne_ok
  refine yields_bind.mpr (yields_current.mpr ?_)
  split
  · refine yields_bind.mpr ((Import.parser_places ruled).mono fun i t later => yields_pure.mpr ?_)
    exact placed.add ruled later (Nat.le_refl _) (by simp [spanTrees])
  · refine yields_bind.mpr (yields_peek.mpr ?_)
    split
    · exact yields_once_placed ruled (PageDecl.parser_places ruled) placed
        fun free a => by simp [spanTrees, free]
    · exact yields_once_placed ruled (RouteDecl.parser_places ruled) placed
        fun free a => by simp [spanTrees, free]
    · exact unknown
  · exact yields_once_placed ruled (PropertyBlock.parser_places ruled _) placed
      fun free a => by simp [spanTrees, free]
  · exact yields_once_placed ruled (PropertyBlock.parser_places ruled _) placed
      fun free a => by simp [spanTrees, free]
  · exact yields_once_placed ruled (ViewBlock.parser_places file) placed
      fun free a => by simp [spanTrees, free]
  · exact yields_once_placed ruled (ActionsBlock.parser_places ruled) placed
      fun free a => by simp [spanTrees, free]
  · exact yields_once_placed ruled (StyleBlock.parser_places ruled) placed
      fun free a => by simp [spanTrees, free]
  · exact yields_once_placed ruled (RouterBlock.parser_places ruled) placed
      fun free a => by simp [spanTrees, free]
  · exact yields_once_placed ruled (StoreBlock.parser_places ruled) placed
      fun free a => by simp [spanTrees, free]
  · simp only [yields_bind, yields_advance, yields_pure]
    exact placed.widen ruled (ParserState.le_next _ _)
  · exact unknown

end Declarations

theorem Program.yields_parser_placed (file : scope.OfFile) :
    Yields parser scope .initial fun program t =>
      scope.stream.Placed false 0 (t.cursor + 1) [program.spanTree] := by
  refine yields_bind.mpr (yields_current.mpr (yields_bind.mpr ?_))
  refine (yields_loop (I := fun d t => scope.stream.EachPlaced false 0 t.cursor d.spanTrees)
    (fun d t placed => ?_) ?_).mono fun d t placed => ?_
  · simp
    exact ⟨fun _ => placed, fun _ => Declarations.yields_add_placed file placed⟩
  · exact .empty (Nat.le_refl 0) (by simp [Declarations.spanTrees, Declarations.empty])
  · refine yields_bind.mpr (yields_current.mpr (yields_pure.mpr ?_))
    exact placed.between file.ruled (Nat.le_refl 0) (Nat.le_succ _) (Nat.zero_le _)

/-- The spans of a source that is parsed form a tree. Every node lies in the node that holds it, and
    starts no later than it stops, within the source. Outside of the interpolations of texts, the
    nodes of a list follow one another as in the source, without overlapping. -/
theorem Component.parse_spans_nested {source : String} {options : Options} {c : Component}
    (parsed : Component.parse source options = .ok c) :
    c.program.spanTree.Nested false ∧ ∀ t, c.program.spanTree.Has t →
      t.span.start ≤ t.span.stop ∧ t.span.stop ≤ source.utf8ByteSize := by
  obtain ⟨-, u, read⟩ := Component.parse_ok parsed
  have placed := Program.yields_parser_placed (Scope.ofFile source options) read
  have nested := placed.nested _ (List.mem_singleton_self _)
  refine ⟨nested, fun t has => ?_⟩
  have within := nested.within_of_has has
  have inside := TokenStream.get_tokenize_stop_le source (u.cursor + 1 - 1)
  exact ⟨within.proper, Nat.le_trans within.stop (Nat.le_trans placed.bounds.stop inside)⟩

/-- The spans of a state block and of a view with an interpolation. -/
theorem Component.parse_spans_nested_view :
    ∃ c, Component.parse r#"state { n: 1 } view { p "{n + 1}" }"# .standard = .ok c ∧
      c.program.view.isSome ∧ c.program.spanTree.Nested false ∧
      ∀ t, c.program.spanTree.Has t → t.span.start ≤ t.span.stop ∧ t.span.stop ≤ 35 := by
  generalize hs : r#"state { n: 1 } view { p "{n + 1}" }"# = source
  have size : source.utf8ByteSize = 35 := by
    subst hs
    decide +kernel
  have read : ((Component.parse source .standard).toOption.bind (·.program.view)).isSome := by
    subst hs
    decide +kernel
  cases parsed : Component.parse source .standard with
  | error e =>
    rw [parsed] at read
    cases read
  | ok c =>
    rw [parsed] at read
    have spans := Component.parse_spans_nested parsed
    rw [size] at spans
    exact ⟨c, rfl, read, spans⟩

end PulseSyntax
