import PulseSyntax.Proofs.Outline.Spans
import PulseSyntax.Proofs.Parser.Yields

namespace PulseSyntax

open PulseSyntax.Parser

namespace Span.LiesIn

variable {a b c : Span}

theorem refl (proper : a.start ≤ a.stop) : a.LiesIn a := ⟨Nat.le_refl _, proper, Nat.le_refl _⟩

theorem left (h : a.LiesIn b) (c : Span) : a.LiesIn (b.cover c) :=
  ⟨Nat.le_trans (Nat.min_le_left _ _) h.start, h.proper,
    Nat.le_trans h.stop (Nat.le_max_left _ _)⟩

theorem right (h : a.LiesIn b) (c : Span) : a.LiesIn (c.cover b) :=
  ⟨Nat.le_trans (Nat.min_le_right _ _) h.start, h.proper,
    Nat.le_trans h.stop (Nat.le_max_right _ _)⟩

end Span.LiesIn

/-- Later tokens neither start nor stop before earlier ones. -/
structure TokenStream.Rising (stream : TokenStream) : Prop where
  starts : ∀ {i j}, i ≤ j → (stream.get i).span.start ≤ (stream.get j).span.start
  stops : ∀ {i j}, i ≤ j → (stream.get i).span.stop ≤ (stream.get j).span.stop
  proper : ∀ i, (stream.get i).span.start ≤ (stream.get i).span.stop

/-- The tokens are rising. Outside of a text they do not overlap. -/
structure TokenStream.Ruled (stream : TokenStream) (inText : Bool) : Prop extends stream.Rising where
  apart : inText = false → ∀ {i j}, i < j →
    (stream.get i).span.stop ≤ (stream.get j).span.start

/-- The span lies in those of the tokens from index `i` up to `j`, and starts and stops with some of
    them. -/
structure TokenStream.Bounds (stream : TokenStream) (i j : Nat) (a : Span) : Prop where
  some : i < j
  start : (stream.get i).span.start ≤ a.start
  start_le : a.start ≤ (stream.get (j - 1)).span.start
  proper : a.start ≤ a.stop
  le_stop : (stream.get i).span.stop ≤ a.stop
  stop : a.stop ≤ (stream.get (j - 1)).span.stop

namespace TokenStream.Bounds

variable {stream : TokenStream} {inText : Bool} {i j k l m n : Nat} {a b c : Span}

theorem token (ruled : stream.Ruled inText) (i : Nat) : stream.Bounds i (i + 1) (stream.get i).span :=
  ⟨Nat.lt_succ_self i, Nat.le_refl _, Nat.le_refl _, ruled.proper i, Nat.le_refl _, Nat.le_refl _⟩

theorem widen (h : stream.Bounds i j a) (ruled : stream.Ruled inText) (before : k ≤ i)
    (after : j ≤ l) : stream.Bounds k l a where
  some := Nat.lt_of_le_of_lt before (Nat.lt_of_lt_of_le h.some after)
  start := Nat.le_trans (ruled.starts before) h.start
  start_le := Nat.le_trans h.start_le (ruled.starts (Nat.sub_le_sub_right after 1))
  proper := h.proper
  le_stop := Nat.le_trans (ruled.stops before) h.le_stop
  stop := Nat.le_trans h.stop (ruled.stops (Nat.sub_le_sub_right after 1))

theorem cover (h : stream.Bounds i j a) (h' : stream.Bounds k l b) (ruled : stream.Ruled inText)
    (before : i ≤ k) (after : j ≤ l) : stream.Bounds i l (a.cover b) := by
  have first := h.widen ruled (Nat.le_refl i) after
  have second := h'.widen ruled before (Nat.le_refl l)
  exact ⟨first.some, Nat.le_min.mpr ⟨first.start, second.start⟩,
    Nat.le_trans (Nat.min_le_left _ _) first.start_le,
    Nat.le_trans (Nat.min_le_left _ _) (Nat.le_trans first.proper (Nat.le_max_left _ _)),
    Nat.le_trans first.le_stop (Nat.le_max_left _ _), Nat.max_le.mpr ⟨first.stop, second.stop⟩⟩

theorem lies_after (h : stream.Bounds k l c) (ruled : stream.Ruled inText) (ha : stream.Bounds i m a)
    (before : m ≤ k + 1) (stop : c.stop ≤ b.stop) : c.LiesIn (a.cover b) where
  start := by
    have starts := ruled.starts (show m - 1 ≤ k from Nat.sub_le_of_le_add before)
    exact Nat.le_trans (Nat.min_le_left _ _)
      (Nat.le_trans ha.start_le (Nat.le_trans starts h.start))
  proper := h.proper
  stop := Nat.le_trans stop (Nat.le_max_right _ _)

theorem lies_between (h : stream.Bounds k l c) (ruled : stream.Ruled inText)
    (ha : stream.Bounds i m a) (hb : stream.Bounds n j b) (before : m ≤ k + 1) (after : l ≤ n + 1) :
    c.LiesIn (a.cover b) := by
  have stops := ruled.stops (show l - 1 ≤ n from Nat.sub_le_of_le_add after)
  exact h.lies_after ruled ha before (Nat.le_trans h.stop (Nat.le_trans stops hb.le_stop))

end TokenStream.Bounds

/-- Nodes lie between the tokens from index `i` up to `j`, one after another. -/
structure TokenStream.Placed (stream : TokenStream) (inText : Bool) (i j : Nat)
    (trees : List SpanTree) : Prop where
  le : i ≤ j
  nested : ∀ t ∈ trees, t.Nested inText
  holds : ∀ t ∈ trees, stream.Bounds i j t.span
  apart : inText = false → trees.Pairwise fun a b => a.span.stop ≤ b.span.start

namespace TokenStream.Placed

variable {stream : TokenStream} {inText : Bool} {i j k l m n : Nat} {trees more : List SpanTree}
  {t u : SpanTree} {a b : Span}

theorem nil (le : i ≤ j) : stream.Placed inText i j [] :=
  ⟨le, by simp, by simp, fun _ => .nil⟩

theorem single (nested : t.Nested inText) (holds : stream.Bounds i j t.span) :
    stream.Placed inText i j [t] :=
  ⟨Nat.le_of_lt holds.some, by simpa using nested, by simpa using holds,
    fun _ => List.pairwise_singleton _ _⟩

theorem widen (h : stream.Placed inText i j trees) (ruled : stream.Ruled inText) (before : k ≤ i)
    (after : j ≤ l) : stream.Placed inText k l trees where
  le := Nat.le_trans before (Nat.le_trans h.le after)
  nested := h.nested
  holds t member := (h.holds t member).widen ruled before after
  apart := h.apart

theorem append (h : stream.Placed inText i j trees) (h' : stream.Placed inText k l more)
    (ruled : stream.Ruled inText) (le : j ≤ k) : stream.Placed inText i l (trees ++ more) where
  le := Nat.le_trans h.le (Nat.le_trans le h'.le)
  nested := List.forall_mem_append.mpr ⟨h.nested, h'.nested⟩
  holds := List.forall_mem_append.mpr
    ⟨fun t member => (h.holds t member).widen ruled (Nat.le_refl _) (Nat.le_trans le h'.le),
      fun t member => (h'.holds t member).widen ruled (Nat.le_trans h.le le) (Nat.le_refl _)⟩
  apart outside := by
    refine List.pairwise_append.mpr ⟨h.apart outside, h'.apart outside, fun a first b second => ?_⟩
    have ends := h.holds a first
    have starts := h'.holds b second
    have some := ends.some
    exact Nat.le_trans ends.stop
      (Nat.le_trans (ruled.apart outside (by omega)) starts.start)

theorem bounds (h : stream.Placed inText i j [t]) : stream.Bounds i j t.span :=
  h.holds t (List.mem_singleton_self t)

theorem node (bounds : stream.Bounds i j a) (inner : stream.Placed inText k l trees)
    (within : ∀ t ∈ trees, t.span.LiesIn a) : stream.Placed inText i j [.node a [trees]] :=
  .single (.node bounds.proper (by simpa using inner.nested) (by simpa using within)
    (by simpa using inner.apart)) bounds

theorem leaf (bounds : stream.Bounds i j a) : stream.Placed inText i j [.node a []] :=
  .single (.node bounds.proper (by simp) (by simp) (by simp)) bounds

theorem token (ruled : stream.Ruled inText) (i : Nat) :
    stream.Placed inText i (i + 1) [.node (stream.get i).span []] := leaf (.token ruled i)

theorem lies_between (inner : stream.Placed inText k l trees) (ruled : stream.Ruled inText)
    (ha : stream.Bounds i m a) (hb : stream.Bounds n j b) (before : m ≤ k + 1) (after : l ≤ n + 1) :
    ∀ t ∈ trees, t.span.LiesIn (a.cover b) :=
  fun t member => (inner.holds t member).lies_between ruled ha hb before after

theorem after_token (inner : stream.Placed inText k l [t]) (ruled : stream.Ruled inText)
    (before : i < k) :
    stream.Placed inText i l [.node ((stream.get i).span.cover t.span) [[t]]] := by
  have some := inner.bounds.some
  refine node ((Bounds.token ruled i).cover inner.bounds ruled (Nat.le_of_lt before) (by omega))
    inner ?_
  simpa using (Span.LiesIn.refl inner.bounds.proper).right _

theorem up_to_token (first : stream.Placed inText i j [t]) (rest : stream.Placed inText k l more)
    (ruled : stream.Ruled inText) (le : j ≤ k) (before : l ≤ n) :
    stream.Placed inText i (n + 1) [.node (t.span.cover (stream.get n).span) [t :: more]] := by
  have onward := rest.le
  have some := first.bounds.some
  have last := Bounds.token ruled n
  refine node (first.bounds.cover last ruled (by omega) (by omega))
    (first.append rest ruled le) (List.forall_mem_cons.mpr ⟨?_, ?_⟩)
  · exact (Span.LiesIn.refl first.bounds.proper).left _
  · exact rest.lies_between ruled first.bounds last (by omega) (by omega)

theorem across (first : stream.Placed inText i j [t]) (middle : stream.Placed inText k l more)
    (last : stream.Placed inText m n [u]) (ruled : stream.Ruled inText) (le : j ≤ k) (le' : l ≤ m) :
    stream.Placed inText i n [.node (t.span.cover u.span) [t :: (more ++ [u])]] := by
  have onward := middle.le
  have some := first.bounds.some
  have some' := last.bounds.some
  refine node (first.bounds.cover last.bounds ruled (by omega) (by omega))
    (first.append (middle.append last ruled le') ruled le)
    (List.forall_mem_cons.mpr ⟨?_, List.forall_mem_append.mpr ⟨?_, ?_⟩⟩)
  · exact (Span.LiesIn.refl first.bounds.proper).left _
  · exact middle.lies_between ruled first.bounds last.bounds (by omega) (by omega)
  · simpa using (Span.LiesIn.refl last.bounds.proper).right _

theorem join (first : stream.Placed inText i j [t]) (last : stream.Placed inText k l [u])
    (ruled : stream.Ruled inText) (le : j ≤ k) :
    stream.Placed inText i l [.node (t.span.cover u.span) [[t, u]]] :=
  first.across (.nil (Nat.le_refl j)) last ruled (Nat.le_refl j) le

end TokenStream.Placed

/-- Lists of nodes, each of them between the tokens from index `i` up to `j`. -/
structure TokenStream.EachPlaced (stream : TokenStream) (inText : Bool) (i j : Nat)
    (lists : List (List SpanTree)) : Prop where
  le : i ≤ j
  each : ∀ list ∈ lists, stream.Placed inText i j list

namespace TokenStream.EachPlaced

variable {stream : TokenStream} {inText : Bool} {i j k l : Nat} {more : List SpanTree}
  {lists lists' : List (List SpanTree)}

theorem empty (le : i ≤ j) (none : ∀ list ∈ lists, list = []) :
    stream.EachPlaced inText i j lists :=
  ⟨le, fun list member => none list member ▸ .nil le⟩

theorem widen (h : stream.EachPlaced inText i j lists) (ruled : stream.Ruled inText) (after : j ≤ l) :
    stream.EachPlaced inText i l lists :=
  ⟨Nat.le_trans h.le after, fun list member => (h.each list member).widen ruled (Nat.le_refl i) after⟩

theorem add (h : stream.EachPlaced inText i j lists) (ruled : stream.Ruled inText)
    (later : stream.Placed inText k l more) (after : j ≤ k)
    (grows : ∀ list ∈ lists', list ∈ lists ∨ ∃ old ∈ lists, list = old ++ more) :
    stream.EachPlaced inText i l lists' := by
  have onward := Nat.le_trans after later.le
  refine ⟨Nat.le_trans h.le onward, fun list member => ?_⟩
  rcases grows list member with same | ⟨old, before, rfl⟩
  · exact (h.each list same).widen ruled (Nat.le_refl i) onward
  · exact (h.each old before).append later ruled after

theorem between (inner : stream.EachPlaced inText k l lists) (ruled : stream.Ruled inText)
    (before : i ≤ k) (after : l ≤ j + 1) (le : i ≤ j) :
    stream.Placed inText i (j + 1) [.node ((stream.get i).span.cover (stream.get j).span) lists] := by
  have first := Bounds.token ruled i
  have last := Bounds.token ruled j
  have bounds := first.cover last ruled le (Nat.succ_le_succ le)
  exact .single (.node bounds.proper (fun list member => (inner.each list member).nested)
    (fun list member =>
      (inner.each list member).lies_between ruled first last (Nat.succ_le_succ before) after)
    fun outside list member => (inner.each list member).apart outside) bounds

end TokenStream.EachPlaced

namespace TokenStream.Placed

variable {stream : TokenStream} {inText : Bool} {i j k l m : Nat} {trees : List SpanTree}

theorem between (inner : stream.Placed inText k l trees) (ruled : stream.Ruled inText)
    (before : i ≤ k) (after : l ≤ j + 1) (le : i ≤ j) :
    stream.Placed inText i (j + 1) [.node ((stream.get i).span.cover (stream.get j).span) [trees]] :=
  EachPlaced.between ⟨inner.le, List.forall_mem_singleton.mpr inner⟩ ruled before after le

theorem in_braces (inner : stream.Placed inText k l trees) (ruled : stream.Ruled inText)
    (word : i ≤ j) (before : j < k) (after : l ≤ m) :
    stream.Placed inText i (m + 1) [.node ((stream.get i).span.cover
      ((stream.get j).span.cover (stream.get m).span)) [trees]] := by
  have le := inner.le
  have opening := Bounds.token ruled j
  have closing := Bounds.token ruled m
  have braces := opening.cover closing ruled (by omega) (by omega)
  exact .node ((Bounds.token ruled i).cover braces ruled (by omega) (by omega)) inner fun t member =>
    (inner.lies_between ruled opening closing (by omega) (by omega) t member).right _

end TokenStream.Placed

/-- A node that is being read: its span and a list of what it holds so far. -/
structure TokenStream.Grown (stream : TokenStream) (inText : Bool) (i j : Nat) (a : Span)
    (trees : List SpanTree) : Prop where
  bounds : stream.Bounds i j a
  placed : stream.Placed inText i j trees
  within : ∀ t ∈ trees, t.span.LiesIn a

namespace TokenStream.Grown

variable {stream : TokenStream} {inText : Bool} {i j k l m n : Nat} {trees more : List SpanTree}
  {a own : Span}

theorem nil (bounds : stream.Bounds i j a) : stream.Grown inText i j a [] :=
  ⟨bounds, .nil (Nat.le_of_lt bounds.some), by simp⟩

theorem add (h : stream.Grown inText i j a trees) (ruled : stream.Ruled inText)
    (inner : stream.Placed inText k l more) (bounds : stream.Bounds n m own)
    (within : ∀ t ∈ more, t.span.LiesIn (a.cover own)) (after : j ≤ k) (before : l ≤ m)
    (start : i ≤ n) : stream.Grown inText i m (a.cover own) (trees ++ more) where
  bounds := h.bounds.cover bounds ruled start
    (Nat.le_trans after (Nat.le_trans inner.le before))
  placed := (h.placed.append inner ruled after).widen ruled (Nat.le_refl i) before
  within := List.forall_mem_append.mpr ⟨fun t member => (h.within t member).left own, within⟩

theorem cover (h : stream.Grown inText i j a trees) (ruled : stream.Ruled inText)
    (bounds : stream.Bounds n m own) (start : i ≤ n) (le : j ≤ m) :
    stream.Grown inText i m (a.cover own) trees := by
  simpa using h.add ruled (.nil le) bounds (by simp) (Nat.le_refl j) (Nat.le_refl m) start

theorem add_node {t : SpanTree} (h : stream.Grown inText i j a trees) (ruled : stream.Ruled inText)
    (inner : stream.Placed inText k l [t]) (after : j ≤ k) :
    stream.Grown inText i l (a.cover t.span) (trees ++ [t]) := by
  have some := h.bounds.some
  refine h.add ruled inner inner.bounds ?_ after (Nat.le_refl l) (by omega)
  simpa using (Span.LiesIn.refl inner.bounds.proper).right a

theorem cover_node {t : SpanTree} (h : stream.Grown inText i j a trees) (ruled : stream.Ruled inText)
    (inner : stream.Placed inText k l [t]) (after : j ≤ k) :
    stream.Grown inText i l (a.cover t.span) trees := by
  have some := h.bounds.some
  exact h.cover ruled inner.bounds (by omega) (Nat.le_trans after inner.le)

theorem node (h : stream.Grown inText i j a trees) :
    stream.Placed inText i j [.node a [trees]] := .node h.bounds h.placed h.within

theorem nodes {lists : List (List SpanTree)} (bounds : stream.Bounds i j a)
    (h : ∀ list ∈ lists, stream.Grown inText i j a list) :
    stream.Placed inText i j [.node a lists] :=
  .single (.node bounds.proper (fun list member => (h list member).placed.nested)
    (fun list member => (h list member).within)
    fun outside list member => (h list member).placed.apart outside) bounds

end TokenStream.Grown

namespace Parser

variable {α β σ : Type} {scope : Scope} {inText : Bool}

/-- Where the parser succeeds, the nodes of its answer lie between the tokens that it has read. -/
def Places (scope : Scope) (inText : Bool) (trees : α → List SpanTree) (p : Parser α) : Prop :=
  ∀ ⦃s⦄, Yields p scope s fun a t => scope.stream.Placed inText s.cursor t.cursor (trees a)

theorem yields_chain {step : α → Parser (Option α)} {I : α → ParserState → Prop}
    (keep : ∀ a t, I a t → Yields (step a) scope t fun next u => I (next.getD a) u) {a : α}
    {s : ParserState} (inv : I a s) : Yields (chain step a) scope s I := by
  refine yields_loop (fun a t inv => yields_bind.mpr ((keep a t inv).mono fun next u kept => ?_)) inv
  cases next with
  | none => exact yields_pure.mpr kept
  | some b => exact yields_pure.mpr kept

/-- What a round keeps: for the next one, or after the last one. -/
def Keeps (next last : σ → ParserState → Prop) : ForInStep σ → ParserState → Prop
  | .done a, t => last a t
  | .yield a, t => next a t

theorem yields_loop_last {step : σ → Parser (ForInStep σ)} {I Q : σ → ParserState → Prop}
    (weaken : ∀ a t, I a t → Q a t)
    (keep : ∀ a t, I a t → Yields (step a) scope t (Keeps I Q)) {a : σ} {s : ParserState}
    (inv : I a s) :
    Yields (loop step a) scope s Q := by
  suffices all : ∀ rounds, Yields (iterate step rounds a) scope s Q from all _
  intro rounds
  induction rounds generalizing a s with
  | zero => exact yields_pure.mpr (weaken a s inv)
  | succ rounds ih =>
    refine yields_bind.mpr ((keep a s inv).mono fun next t kept => ?_)
    cases next with
    | done b => exact yields_pure.mpr kept
    | yield b => exact ih kept

namespace Places

variable {trees : α → List SpanTree} {tree : α → SpanTree} {p : Parser α}

theorem deeper (h : Places scope inText trees p) : Places scope inText trees (deeper p) := by
  intro s a t ok
  obtain ⟨u, inner, rfl⟩ := deeper_eq_ok.mp ok
  have placed := h (s := { s with depth := s.depth + 1 }) inner
  exact placed

theorem withLevels {p : Nat → Parser α} (h : ∀ levels, Places scope inText trees (p levels)) :
    Places scope inText trees (withLevels p) :=
  fun s => h (scope.options.maxDepth - s.depth) (s := s)

theorem manyAfter (ruled : scope.stream.Ruled inText) {item : Array α → Parser α} (close : Symbol)
    (h : ∀ before, Places scope inText (fun a => [tree a]) (item before)) :
    Places scope inText (List.map tree) (manyAfter close item) := by
  intro s
  refine yields_bind.mpr ((yields_loop (I := fun items t =>
    scope.stream.Placed inText s.cursor t.cursor (items.toList.map tree)) (fun items t placed => ?_)
    (.nil (Nat.le_refl _))).mono fun items t placed => yields_pure.mpr placed)
  simp only [yields_bind, yields_current, yields_ite, yields_pure]
  refine ⟨fun _ => placed, fun _ => (h items).mono fun a u last => ?_⟩
  simpa [ForInStep.value] using placed.append last ruled (Nat.le_refl _)

theorem commaSeparatedAfter (ruled : scope.stream.Ruled inText) {item : Array α → Parser α}
    (close : Symbol) (h : ∀ before, Places scope inText (fun a => [tree a]) (item before)) :
    Places scope inText (List.map tree) (commaSeparatedAfter close item) := by
  intro s
  refine yields_bind.mpr ((yields_loop (I := fun items t =>
    scope.stream.Placed inText s.cursor t.cursor (items.toList.map tree)) (fun items t placed => ?_)
    (.nil (Nat.le_refl _))).mono fun items t placed => yields_pure.mpr placed)
  simp [commaRound]
  refine ⟨fun _ => placed, fun _ => (h items).mono fun a u last => ?_⟩
  have placed := placed.append last ruled (Nat.le_refl _)
  exact ⟨fun _ => by simpa using placed.widen ruled (Nat.le_refl _) (ParserState.le_next _ _),
    fun _ => by simpa using placed⟩

end Places

theorem places_skipSeparators (inText : Bool) : Places scope inText (fun _ => []) skipSeparators := by
  intro s
  refine yields_loop (I := fun _ t => scope.stream.Placed inText s.cursor t.cursor [])
    (fun _ t placed => ?_) (.nil (Nat.le_refl _))
  simp only [yields_bind, yields_current, yields_ite, yields_advance, yields_pure]
  exact ⟨fun _ => .nil (Nat.le_trans placed.le (ParserState.le_next _ _)), fun _ => placed⟩

theorem Places.entry {trees : α → List SpanTree} {p : Parser α} (ruled : scope.stream.Ruled inText)
    (h : Places scope inText trees p) : Places scope inText trees (entry p) := by
  intro s
  refine yields_bind.mpr (h.mono fun a t placed => ?_)
  refine yields_bind.mpr ((places_skipSeparators inText).mono fun _ u none => ?_)
  exact yields_pure.mpr (placed.widen ruled (Nat.le_refl _) none.le)

theorem yields_foldEntries_placed (ruled : scope.stream.Ruled inText) {add : σ → Parser σ}
    {lists : σ → List (List SpanTree)} {first : Nat}
    (h : ∀ a t, scope.stream.EachPlaced inText first t.cursor (lists a) → Yields (add a) scope t
      fun b u => scope.stream.EachPlaced inText first u.cursor (lists b))
    {a : σ} {s : ParserState} (before : first ≤ s.cursor) (empty : ∀ list ∈ lists a, list = []) :
    Yields (foldEntries add a) scope s fun b t =>
      (scope.stream.get t.cursor).kind = .symbol .closeBrace →
        scope.stream.Placed inText first (t.next scope).cursor
          [.node ((scope.stream.get first).span.cover (scope.stream.get t.cursor).span)
            (lists b)] := by
  refine (yields_loop (I := fun b t => scope.stream.EachPlaced inText first t.cursor (lists b))
    (fun b t placed => ?_) (.empty before empty)).mono fun b t placed closing => ?_
  · simp only [yields_bind, yields_current, yields_ite, yields_pure]
    refine ⟨fun _ => placed, fun _ => yields_bind.mpr ((h b t placed).mono fun c u added => ?_)⟩
    refine yields_bind.mpr ((places_skipSeparators inText).mono fun _ v none => ?_)
    exact yields_pure.mpr (added.widen ruled none.le)
  · rw [ParserState.next_of_kind closing (by simp)]
    exact placed.between ruled (Nat.le_refl first) (Nat.le_succ _) placed.le

theorem yields_braced_placed (ruled : scope.stream.Ruled inText) {tree : α → SpanTree}
    {item : Parser α} (h : Places scope inText (fun a => [tree a]) item) {s : ParserState} :
    Yields (braced item) scope s fun answer t => ∃ close, t.cursor = close + 1 ∧
      answer.2 = (scope.stream.get s.cursor).span.cover (scope.stream.get close).span ∧
      scope.stream.Placed inText (s.cursor + 1) close (answer.1.map tree) := by
  simp only [braced, many, yields_bind, yields_expectSymbol, yields_pure]
  intro opening
  rw [ParserState.next_of_kind opening (by simp)]
  refine (Places.manyAfter ruled _ fun _ => h).mono fun items t placed closing => ?_
  rw [ParserState.next_of_kind closing (by simp)]
  exact ⟨t.cursor, rfl, rfl, placed⟩

end Parser

end PulseSyntax
