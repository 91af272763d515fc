import PulseSyntax.Proofs.Expr.Balance

namespace PulseSyntax

open PulseSyntax.Parser

/-- A block from index `i` to its closing brace at `j`: a word, and braces whose contents have their
    own braces in pairs. -/
structure TokenStream.BlockAt (stream : TokenStream) (word : Keyword) (span : Span) (i j : Nat) :
    Prop where
  word : (stream.get i).kind = .keyword word
  opening : (stream.get (i + 1)).kind = .symbol .openBrace
  inside : stream.Open (i + 2) j 0
  closing : (stream.get j).kind = .symbol .closeBrace
  span : span = (stream.get i).span.cover (stream.get j).span ∨
    span = (stream.get i).span.cover ((stream.get (i + 1)).span.cover (stream.get j).span)

def Scope.ReadsBlock (scope : Scope) (word : Keyword) (span : Span) (s t : ParserState) : Prop :=
  ∃ j, t.cursor = j + 1 ∧ scope.stream.BlockAt word span s.cursor j

variable {scope : Scope}

theorem Scope.ReadsBlock.open {word : Keyword} {span : Span} {s t : ParserState}
    (h : scope.ReadsBlock word span s t) {i depth : Nat} (o : scope.stream.Open i s.cursor depth) :
    scope.stream.Open i t.cursor depth := by
  obtain ⟨j, stop, block⟩ := h
  have first := o.snoc (by simp [block.word]) (openBraces?_plain (by rw [block.word]; rfl))
  have second := first.snoc (by simp [block.opening]) (openBraces?_opening block.opening)
  have whole := second.trans block.inside
  rw [Nat.zero_add] at whole
  rw [stop]
  exact whole.snoc (by simp [block.closing]) (openBraces?_closing block.closing)

theorem Scope.readsBlock {word : Keyword} {span : Span} {s t : ParserState}
    (hw : (scope.stream.get s.cursor).kind = .keyword word)
    (ho : (scope.stream.get (s.next scope).cursor).kind = .symbol .openBrace)
    (inner : scope.stream.Open ((s.next scope).next scope).cursor t.cursor 0)
    (hc : (scope.stream.get t.cursor).kind = .symbol .closeBrace)
    (hspan : span = (scope.stream.get s.cursor).span.cover (scope.stream.get t.cursor).span ∨
      span = (scope.stream.get s.cursor).span.cover
        ((scope.stream.get (s.next scope).cursor).span.cover (scope.stream.get t.cursor).span)) :
    scope.ReadsBlock word span s (t.next scope) := by
  rw [ParserState.next_of_kind ho (by simp), ParserState.next_of_kind hw (by simp)] at inner
  rw [ParserState.next_of_kind hw (by simp)] at ho hspan
  rw [ParserState.next_of_kind hc (by simp)]
  exact ⟨t.cursor, rfl, hw, ho, inner, hc, hspan⟩

/-- Where the parser succeeds it has read a block, and captured the bodies in its answer. -/
def ReadsBlock (scope : Scope) (word : Keyword) {α : Type} (span : α → Span) (fragments : α → List Fragment)
    (p : Parser α) : Prop :=
  ∀ s, Yields p scope s fun a t => scope.ReadsBlock word (span a) s t ∧ scope.Has (fragments a)

theorem ReadsBlock.balances {word : Keyword} {α : Type} {span : α → Span} {fragments : α → List Fragment}
    {p : Parser α} (h : ReadsBlock scope word span fragments p) :
    Balances scope (fun a => scope.Has (fragments a)) p := fun _ _ s o =>
  (h s).mono fun _ _ ⟨block, captured⟩ => ⟨block.open o, captured⟩

theorem Property.parser_balances : Balances scope (scope.Has ·.fragments) parser := by
  intro i depth s o
  simp [parser]
  have value {t : ParserState} (o : scope.stream.Open i t.cursor depth) (name : Token)
      (colon : (scope.stream.get t.cursor).kind = .symbol .colon) :
      Yields Expr.parser scope (t.next scope) fun value u =>
        Leaves scope i depth (scope.Has ·.fragments)
          (⟨name.text, value, name.span.cover value.span⟩ : Property) u :=
    Expr.parser_isRead.step (o.read colon rfl) fun e t o captured =>
      ⟨o, by simpa [Property.fragments] using Scope.HasExpr.read captured⟩
  exact ⟨fun quoted => value (o.read quoted rfl) _,
    fun _ name => value (o.readName name) _⟩

theorem PropertyBlock.parser_readsBlock (word : Keyword) :
    ReadsBlock scope word (·.span) (PropertyBlock.fragments) (parser word) := by
  intro s
  simp [parser]
  intro hw
  refine yields_braced Property.parser_balances.entry fun properties t captured ho inner hc => ?_
  exact ⟨Scope.readsBlock hw ho inner hc (.inr rfl), by simpa [fragments] using captured⟩

theorem Param.parser_balances (before : Array Param) :
    Balances scope (scope.Has ·.fragments) (parser before) := by
  have noDefault {t : Token} {rest : Bool} {span : Span} :
      scope.Has (⟨t.raw, none, rest, span⟩ : Param).fragments := by simp [fragments]
  intro i depth s o
  simp [parser]
  refine fun _ => ⟨fun spread name _ => ⟨(o.read spread rfl).readName name, noDefault⟩,
    fun _ name => ⟨fun eq => ?_, fun _ => ⟨o.readName name, noDefault⟩⟩⟩
  refine Expr.parser_isRead.step ((o.readName name).read eq rfl) fun e t o captured => ⟨o, ?_⟩
  simpa [fragments] using Scope.HasExpr.read captured

theorem Param.balances_listParser :
    Balances scope (∀ p ∈ ·, scope.Has p.fragments) listParser := by
  intro i depth s o
  simp [listParser]
  intro opening
  refine (Balances.commaSeparatedAfter _ Param.parser_balances).step (o.read opening rfl)
    fun params t o captured closing => ⟨o.read closing rfl, captured⟩

theorem yields_ownBody (inFile : scope.quotation = none) {i depth first : Nat} {s : ParserState}
    (o : scope.stream.Open i s.cursor depth) (began : first ≤ s.cursor)
    {Q : TokenRange → ParserState → Prop}
    (goOn : ∀ body (t : ParserState), scope.stream.Open i t.cursor depth →
      scope.Owns ((scope.stream.get first).span.cover (scope.stream.get (t.cursor - 1)).span) body →
      Q body t) : Yields rawBlock scope s Q := by
  refine yields_rawBlock o fun body u o delimits after stop => ?_
  refine goOn body u o ⟨⟨delimits, first, by omega, ?_⟩, inFile⟩
  rw [stop, Nat.add_sub_cancel]

theorem yields_params_body (inFile : scope.quotation = none) {i depth first : Nat} {s : ParserState}
    (o : scope.stream.Open i s.cursor depth) (began : first ≤ s.cursor)
    {Q : List Param → TokenRange → ParserState → Prop}
    (goOn : ∀ params body (t : ParserState), scope.stream.Open i t.cursor depth →
      (∀ p ∈ params, scope.Has p.fragments) →
      scope.Owns ((scope.stream.get first).span.cover (scope.stream.get (t.cursor - 1)).span) body →
      Q params body t) :
    Yields Param.listParser scope s fun params t => Yields rawBlock scope t (Q params) :=
  Param.balances_listParser.stepOnward o fun params _ o captured onward =>
    yields_ownBody inFile o (Nat.le_trans began onward) fun body t o owns =>
      goOn params body t o captured owns

theorem Action.parser_balances (inFile : scope.quotation = none) :
    Balances scope (scope.Has ·.fragments) parser := by
  intro i depth s o
  refine yields_bind.mpr (yields_current.mpr (yields_bind.mpr (yields_peek.mpr ?_)))
  extract_lets isAsync rest
  have tail {t : ParserState} (o : scope.stream.Open i t.cursor depth)
      (onward : s.cursor ≤ t.cursor) :
      Yields (rest ()) scope t (Leaves scope i depth (scope.Has ·.fragments)) := by
    simp [rest]
    intro name
    refine yields_params_body inFile (o.readName name) (Nat.le_trans onward (ParserState.le_next _ _))
      fun params body u o captured owns => ⟨o, ?_⟩
    simpa [fragments] using ⟨owns, captured⟩
  simp [isAsync]
  exact ⟨fun word _ _ => tail (o.read word rfl) (ParserState.le_next _ _),
    fun _ => tail o (Nat.le_refl _)⟩

theorem ActionsBlock.parser_readsBlock (inFile : scope.quotation = none) :
    ReadsBlock scope .actions (·.span) fragments parser := by
  intro s
  simp [parser, many]
  intro hw ho
  refine (Balances.manyAfter _ fun _ => (Action.parser_balances inFile).entry).step (.refl _ _)
    fun functions t inner captured hc => ⟨Scope.readsBlock hw ho inner hc (.inl rfl), ?_⟩
  simpa [fragments] using captured

@[simp] theorem yields_ensureFirst {seen : Bool} {field block : String} {s : ParserState}
    {Q : Unit → ParserState → Prop} :
    Yields (ensureFirst seen field block) scope s Q ↔ (seen = false → Q () s) := by
  simp [ensureFirst]

theorem Route.parser_balances (before : Array Route) :
    Balances scope (scope.Has ·.fragments) (parser before) := by
  intro i depth s o
  simp [parser]
  intro path _ colon
  refine Expr.parser_isRead.step ((o.read path rfl).read colon rfl) fun e t o captured => ⟨o, ?_⟩
  simpa [fragments] using Scope.HasExpr.read captured

theorem Route.balances_listParser :
    Balances scope (∀ r ∈ ·, scope.Has r.fragments) listParser := by
  intro i depth s o
  simp [listParser]
  intro word
  have routes {t : ParserState} (o : scope.stream.Open i t.cursor depth)
      (opening : (scope.stream.get t.cursor).kind = .symbol .openBrace) :
      Yields (manyAfter .closeBrace fun before => entry (Route.parser before)) scope (t.next scope)
        fun routes u => (scope.stream.get u.cursor).kind = .symbol .closeBrace →
          Leaves scope i depth (∀ r ∈ ·, scope.Has r.fragments) routes (u.next scope) :=
    (Balances.manyAfter _ fun before => (Route.parser_balances before).entry).step
      (o.opening opening) fun routes u o captured closing => ⟨o.closing closing, captured⟩
  exact ⟨fun colon => routes ((o.read word rfl).read colon rfl), fun _ => routes (o.read word rfl)⟩

theorem Guard.parser_yields (inFile : scope.quotation = none) {i depth : Nat} {s : ParserState}
    (o : scope.stream.Open i (s.next scope).cursor depth) :
    Yields parser scope s (Leaves scope i depth (scope.Has ·.fragments)) := by
  simp [parser]
  refine yields_params_body inFile o (ParserState.le_next _ _)
    fun params body t o captured owns => ⟨o, ?_⟩
  simpa [fragments] using ⟨owns, captured⟩

structure RouterFields.Captured (scope : Scope) (fields : RouterFields) : Prop where
  routes : ∀ r ∈ fields.routes.getD [], scope.Has r.fragments
  beforeEach : ∀ g ∈ fields.beforeEach, scope.Has g.fragments
  afterEach : ∀ g ∈ fields.afterEach, scope.Has g.fragments

theorem RouterFields.balances_add (inFile : scope.quotation = none) (fields : RouterFields)
    (h : fields.Captured scope) : Balances scope (RouterFields.Captured scope) fields.add := by
  intro i depth s o
  refine yields_bind.mpr (yields_current.mpr ?_)
  split
  · next word =>
    simp [fieldColon]
    intro _ colon value
    have o := (o.read word rfl).read colon rfl
    exact ⟨value.elim (o.read · rfl) (o.read · rfl), { h with }⟩
  · next word =>
    simp [fieldColon]
    intro _ colon value
    exact ⟨((o.read word rfl).read colon rfl).read value rfl, { h with }⟩
  · simp
    intro _
    exact Route.balances_listParser.step o fun routes t o captured =>
      ⟨o, { h with routes := captured }⟩
  · next word =>
    simp
    intro _
    refine (Guard.parser_yields inFile (o.read word rfl)).mono fun g t left =>
      ⟨left.braces, { h with beforeEach := ?_ }⟩
    rintro _ ⟨⟩
    exact left.answer
  · next word =>
    simp
    intro _
    refine (Guard.parser_yields inFile (o.read word rfl)).mono fun g t left =>
      ⟨left.braces, { h with afterEach := ?_ }⟩
    rintro _ ⟨⟩
    exact left.answer
  · exact yields_failWanted.mpr trivial

theorem RouterBlock.parser_readsBlock (inFile : scope.quotation = none) :
    ReadsBlock scope .router (·.span) fragments parser := by
  intro s
  simp [parser]
  intro hw ho
  refine (Balances.foldEntries (RouterFields.balances_add inFile) ⟨?_, ?_, ?_⟩).step (.refl _ _)
    fun fields t inner captured hc => ⟨Scope.readsBlock hw ho inner hc (.inl rfl), ?_⟩
  · simp
  · simp
  · simp
  · simpa [fragments] using ⟨captured.routes, captured.beforeEach, captured.afterEach⟩

theorem Getter.parser_balances (inFile : scope.quotation = none) :
    Balances scope (scope.Has ·.fragments) parser := by
  intro i depth s o
  have body {t : ParserState} (o : scope.stream.Open i t.cursor depth) (began : s.cursor ≤ t.cursor)
      (name : String) :
      Yields rawBlock scope t fun body u => Leaves scope i depth (scope.Has ·.fragments)
        (⟨name, body, (scope.stream.get s.cursor).span.cover
          (scope.stream.get (u.cursor - 1)).span⟩ : Getter) u :=
    yields_ownBody inFile o began fun body u o owns => ⟨o, by simpa [fragments] using owns⟩
  simp [parser]
  have one := ParserState.le_next scope s
  have two := Nat.le_trans one (ParserState.le_next scope _)
  exact fun name => ⟨fun opening closing => body (((o.readName name).read opening rfl).read closing rfl)
    (Nat.le_trans two (ParserState.le_next scope _)) _, fun _ => body (o.readName name) one _⟩

theorem Getter.balances_listParser (inFile : scope.quotation = none) :
    Balances scope (∀ g ∈ ·, scope.Has g.fragments) listParser := by
  intro i depth s o
  simp [listParser]
  intro word
  exact (Getter.parser_balances inFile).entry.braced.step (o.read word rfl)
    fun getters t o captured => ⟨o, captured⟩

structure StoreFields.Captured (scope : Scope) (fields : StoreFields) : Prop where
  state : ∀ b ∈ fields.state, scope.Has b.fragments
  getters : ∀ g ∈ fields.getters.getD [], scope.Has g.fragments
  actions : ∀ b ∈ fields.actions, scope.Has b.fragments
  plugins : ∀ e ∈ fields.plugins, scope.HasExpr e

theorem StoreFields.balances_add (inFile : scope.quotation = none) (fields : StoreFields)
    (h : fields.Captured scope) : Balances scope (StoreFields.Captured scope) fields.add := by
  intro i depth s o
  refine yields_bind.mpr (yields_current.mpr ?_)
  split
  · simp
    refine fun _ => (PropertyBlock.parser_readsBlock .state).balances.step o
      fun b t o captured => ⟨o, { h with state := ?_ }⟩
    rintro _ ⟨⟩
    exact captured
  · simp
    exact fun _ => (Getter.balances_listParser inFile).step o fun getters t o captured =>
      ⟨o, { h with getters := captured }⟩
  · simp
    refine fun _ => (ActionsBlock.parser_readsBlock inFile).balances.step o
      fun b t o captured => ⟨o, { h with actions := ?_ }⟩
    rintro _ ⟨⟩
    exact captured
  · next word =>
    simp [fieldColon]
    intro _ colon
    have o := (o.read word rfl).read colon rfl
    split
    · next value => simpa using ⟨o.read value rfl, { h with }⟩
    · next value => simpa using ⟨o.read value rfl, { h with }⟩
    · exact yields_failWanted.mpr trivial
  · next word =>
    simp [fieldColon]
    exact fun _ colon value => ⟨((o.read word rfl).read colon rfl).read value rfl, { h with }⟩
  · next word =>
    simp [fieldColon]
    refine fun _ colon _ => Expr.parser_isRead.step ((o.read word rfl).read colon rfl)
      fun e t o captured => ⟨o, { h with plugins := ?_ }⟩
    rintro _ ⟨⟩
    exact .read captured
  · exact yields_failWanted.mpr trivial

theorem StoreBlock.parser_readsBlock (inFile : scope.quotation = none) :
    ReadsBlock scope .store (·.span) fragments parser := by
  intro s
  simp [parser]
  intro hw ho
  refine (Balances.foldEntries (StoreFields.balances_add inFile) ⟨?_, ?_, ?_, ?_⟩).step (.refl _ _)
    fun fields t inner captured hc => ⟨Scope.readsBlock hw ho inner hc (.inl rfl), ?_⟩
  · simp
  · simp
  · simp
  · simp
  · simpa [fragments] using ⟨captured.state, captured.getters, captured.actions, captured.plugins⟩

end PulseSyntax
