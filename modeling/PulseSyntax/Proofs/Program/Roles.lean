import PulseSyntax.Proofs.Expr.Extent
import PulseSyntax.Proofs.Expr.Operands
import PulseSyntax.Proofs.Markup.Roles
import PulseSyntax.Proofs.Program.Functions
import PulseSyntax.Proofs.Program.Heights

namespace PulseSyntax

open PulseSyntax.Parser

variable {scope : Scope} {role : Role} {e : Expr} {i j : Nat} {s : ParserState}

namespace Scope

theorem Reads.operands_alone (h : scope.Reads e) :
    ∀ node ∈ e.nodes, ∀ child ∈ node.operands, Expr.StandsAlone scope child :=
  fun node member => (Expr.stood_of_reads h node member).operands_alone

theorem Reads.assigned_alone (h : scope.Reads e) :
    ∀ target ∈ e.assigned, target.isAssignable ∧ ∃ i j, Expr.Stands scope (.expr target) i j :=
  List.forall_mem_flatMap.mpr fun node member => (Expr.stood_of_reads h node member).targets_alone

theorem Reads.alone (h : scope.Reads e) : Expr.StandsAlone scope e :=
  let ⟨s, _, read⟩ := h
  (Expr.parser_sound scope s read).alone

theorem Fills.operands_alone (h : scope.Fills role e) :
    ∀ node ∈ e.nodes, ∀ child ∈ node.operands, Expr.StandsAlone scope child := by
  cases h with
  | read h => exact h.operands_alone
  | spread h =>
    exact List.forall_mem_cons.mpr ⟨List.forall_mem_singleton.mpr h.alone, h.operands_alone⟩
  | flag => exact List.forall_mem_singleton.mpr (List.forall_mem_nil _)

theorem Fills.assigned_alone (h : scope.Fills role e) :
    ∀ target ∈ e.assigned, target.isAssignable ∧ ∃ i j, Expr.Stands scope (.expr target) i j := by
  cases h with
  | read h | spread h => exact h.assigned_alone
  | flag => exact List.forall_mem_nil _

theorem Fills.binding_alone (h : scope.Fills .binding e) :
    e.isAssignable ∧ ∃ i j, Expr.Stands scope (.expr e) i j := by
  cases h with
  | read h assignable =>
    obtain ⟨s, t, read⟩ := h
    exact ⟨assignable rfl, _, _, Expr.parser_sound scope s read⟩

theorem Fills.role_eq (h : scope.Fills role e) (spread : e.isSpread) : role = .argument := by
  cases h with
  | read h => exact absurd spread h.alone.not_isSpread
  | spread => rfl
  | flag => cases spread

end Scope

namespace Declarations

structure Each (props state : PropertyBlock → Prop) (view : ViewBlock → Prop)
    (actions : ActionsBlock → Prop) (router : RouterBlock → Prop) (store : StoreBlock → Prop)
    (d : Declarations) : Prop where
  props : ∀ b ∈ d.props, props b
  state : ∀ b ∈ d.state, state b
  view : ∀ b ∈ d.view, view b
  actions : ∀ b ∈ d.actions, actions b
  router : ∀ b ∈ d.router, router b
  store : ∀ b ∈ d.store, store b

theorem once_gives {α : Type} {P : α → Prop} {p : Parser α} (h : Gives scope P p)
    {seen : Option α} {name : String} : Gives scope (∀ a ∈ ·, P a) (once seen name p) := by
  refine fun s => yields_once.mpr fun _ => (h s).mono fun a t holds => ?_
  rintro _ ⟨⟩
  exact holds

section

variable {d : Declarations} {props state : PropertyBlock → Prop} {view : ViewBlock → Prop}
  {actions : ActionsBlock → Prop} {router : RouterBlock → Prop} {store : StoreBlock → Prop}
  (ofProps : Gives scope props (PropertyBlock.parser .props))
  (ofState : Gives scope state (PropertyBlock.parser .state))
  (ofView : Gives scope view ViewBlock.parser)
  (ofActions : Gives scope actions ActionsBlock.parser)
  (ofRouter : Gives scope router RouterBlock.parser)
  (ofStore : Gives scope store StoreBlock.parser)

include ofProps ofState ofView ofActions ofRouter ofStore

theorem add_each (h : d.Each props state view actions router store) :
    Gives scope (Each props state view actions router store) d.add := by
  intro s
  have unknown : Yields failUnknown scope s fun next _ =>
      Each props state view actions router store next :=
    fun _ _ ok => absurd ok failUnknown_ne_ok
  refine yields_bind.mpr (yields_current.mpr ?_)
  split
  · simp
    exact fun _ _ _ => { h with }
  · refine yields_bind.mpr (yields_peek.mpr ?_)
    split
    · exact yields_bind.mpr fun _ _ _ => yields_pure.mpr { h with }
    · exact yields_bind.mpr fun _ _ _ => yields_pure.mpr { h with }
    · exact unknown
  · exact yields_bind.mpr ((once_gives ofProps s).mono
      fun b t holds => yields_pure.mpr { h with props := holds })
  · exact yields_bind.mpr ((once_gives ofState s).mono
      fun b t holds => yields_pure.mpr { h with state := holds })
  · exact yields_bind.mpr ((once_gives ofView s).mono
      fun b t holds => yields_pure.mpr { h with view := holds })
  · exact yields_bind.mpr ((once_gives ofActions s).mono
      fun b t holds => yields_pure.mpr { h with actions := holds })
  · exact yields_bind.mpr fun _ _ _ => yields_pure.mpr { h with }
  · exact yields_bind.mpr ((once_gives ofRouter s).mono
      fun b t holds => yields_pure.mpr { h with router := holds })
  · exact yields_bind.mpr ((once_gives ofStore s).mono
      fun b t holds => yields_pure.mpr { h with store := holds })
  · simp
    exact h
  · exact unknown

theorem Reached.each (h : d.Reached scope s) : d.Each props state view actions router store := by
  induction h with
  | start => exact ⟨nofun, nofun, nofun, nofun, nofun, nofun⟩
  | round before more read ih =>
    exact add_each ofProps ofState ofView ofActions ofRouter ofStore ih _ read

end

theorem Reached.fillsAll {d : Declarations} (h : d.Reached scope s) : scope.FillsAll d.roles := by
  have each := h.each (PropertyBlock.parser_gives .props) (PropertyBlock.parser_gives .state)
    ViewBlock.parser_gives ActionsBlock.parser_gives RouterBlock.parser_gives
    StoreBlock.parser_gives
  simpa [roles] using ⟨each.props, each.state, each.view, each.actions, each.router, each.store⟩

end Declarations

theorem Component.filled {source : String} {options : Options} {c : Component}
    (parsed : Component.parse source options = .ok c) :
    Scope.FillsAll ⟨.ofList (tokenize source), options, none⟩ c.program.roles ∧
      Scope.Has ⟨.ofList (tokenize source), options, none⟩ c.program.fragments := by
  obtain ⟨-, t, read⟩ := Component.parse_ok parsed
  have reached := (Program.reached (rfl : (Scope.mk (.ofList (tokenize source)) options
    none).quotation = none) read).1
  exact ⟨reached.fillsAll, (reached.captured rfl).has⟩

/-- Within an expression only elements, arguments and parameters are spread. Apart from these, what
    is read as an argument of a directive may be: the handler of an event, the path and the options
    of a link or a navigation, the container of an outlet. -/
theorem Component.parse_spreads {source : String} {options : Options} {c : Component}
    (parsed : Component.parse source options = .ok c) :
    (∀ e ∈ c.program.expressions, ∀ node ∈ e.nodes, ∀ child ∈ node.operands, ¬ child.isSpread) ∧
    (∀ e ∈ c.program.expressions, ∀ node ∈ e.inner, node.isSpread →
      ∃ parent ∈ e.nodes, node ∈ parent.items) ∧
    (∀ e, .expression e ∈ c.program.fragments → e.isSpread → (.argument, e) ∈ c.program.roles) ∧
    (∀ role e, (role, e) ∈ c.program.roles → e.isSpread → role = .argument) ∧
    ∀ t, .text t ∈ c.program.fragments → ∀ part e, .interpolation part e ∈ t.parts →
      ¬ e.isSpread := by
  obtain ⟨filled, has⟩ := Component.filled parsed
  have operands : ∀ e ∈ c.program.expressions, ∀ node ∈ e.nodes, ∀ child ∈ node.operands,
      ¬ child.isSpread := by
    intro e member node inside child operand
    rcases Declarations.mem_expressions.mp member with own | ⟨t, part, own, inText⟩
    · obtain ⟨role, own⟩ := Declarations.mem_roles.mpr own
      exact ((filled _ own).operands_alone node inside child operand).not_isSpread
    · obtain ⟨i, start, hole, -, -, -, read⟩ := has _ own part e inText
      exact ((Scope.reads_of_readHole read).operands_alone node inside child operand).not_isSpread
  refine ⟨operands, fun e member node inside spread => ?_, fun e own spread => ?_,
    fun role e member => (filled _ member).role_eq, fun t own part e inText => ?_⟩
  · obtain ⟨parent, own, child⟩ := Expr.exists_parent inside
    exact ⟨parent, own, (List.mem_append.mp child).resolve_left fun operand =>
      operands e member parent own node operand spread⟩
  · obtain ⟨role, own⟩ := Declarations.mem_roles.mpr own
    exact (filled _ own).role_eq spread ▸ own
  · obtain ⟨i, start, hole, -, -, -, read⟩ := has _ own part e inText
    exact (Scope.reads_of_readHole read).alone.not_isSpread

/-- The handler of an event may be spread. -/
theorem Component.parse_spreads_handler :
    ∃ c e, Component.parse "view { a @click(...x) }" .standard = .ok c ∧
      .expression e ∈ c.program.fragments ∧ e.isSpread ∧ (.argument, e) ∈ c.program.roles := by
  generalize hs : "view { a @click(...x) }" = source
  have read : (Component.parse source .standard).toOption.map
      (fun c => c.program.roles.map fun r => r.2.isSpread) = some [true] := by
    subst hs
    decide +kernel
  cases parsed : Component.parse source .standard with
  | error e =>
    rw [parsed] at read
    cases read
  | ok c =>
    rw [parsed] at read
    obtain ⟨⟨role, e⟩, only, spread⟩ := List.map_eq_singleton_iff.mp (Option.some.inj read)
    have own : .expression e ∈ c.program.fragments :=
      Declarations.mem_roles.mp ⟨role, by simp [only]⟩
    exact ⟨c, e, rfl, own, spread, (Component.parse_spreads parsed).2.2.1 e own spread⟩

/-- What is assigned to, or bound to a field, is a name, or a member whose last link is no optional
    one. The links before the last one are not looked at: they are plain ones unless `?.` is written
    within the target, or in the source of the interpolation where the target stands. -/
theorem Component.parse_targets {source : String} {options : Options} {c : Component}
    (parsed : Component.parse source options = .ok c) :
    (∀ target, ((.binding, target) ∈ c.program.roles ∨
        ∃ e, .expression e ∈ c.program.fragments ∧ target ∈ e.assigned) →
      target.isAssignable ∧ (target.isReference ∨
        ∃ t ∈ c.tokens, t.kind = .symbol .questionDot ∧ t.span.LiesIn target.span)) ∧
    ∀ t, .text t ∈ c.program.fragments → ∀ part e, .interpolation part e ∈ t.parts →
      ∃ token ∈ c.tokens, token.span = t.span ∧ ∃ start hole,
        .hole start hole ∈ TextSegment.cut (token.kind == .template) 0 0 token.text.toList ∧
        part = String.ofList (Text.trim hole) ∧
        ∀ target ∈ e.assigned, target.isAssignable ∧ (target.isReference ∨
          ∃ inner ∈ Lexer.tokens hole, inner.kind = .symbol .questionDot) := by
  obtain ⟨filled, has⟩ := Component.filled parsed
  obtain ⟨same, -⟩ := Component.parse_ok parsed
  rw [same]
  let scope : Scope := ⟨.ofList (tokenize source), options, none⟩
  have ordered : scope.stream.Ordered := TokenStream.ordered_tokenize source
  have tokens : scope.stream.toList = tokenize source := TokenStream.toList_ofList_tokenize source
  refine ⟨fun target own => ?_, fun t own part e inText => ?_⟩
  · have ⟨assignable, i, j, stands⟩ :
        target.isAssignable ∧ ∃ i j, Expr.Stands scope (.expr target) i j := by
      rcases own with binding | ⟨e, own, assigned⟩
      · exact (filled _ binding).binding_alone
      · obtain ⟨role, own⟩ := Declarations.mem_roles.mpr own
        exact (filled _ own).assigned_alone target assigned
    refine ⟨assignable, (stands.isReference_or assignable).imp_right ?_⟩
    rintro ⟨k, after, before, kind⟩
    have within : scope.stream.Trims i j target.span := stands.trims ordered
    exact ⟨scope.stream.get k, tokens ▸ TokenStream.get_mem _ _, kind,
      within.liesIn ordered after before (by simp [kind]) (by simp [kind])⟩
  · obtain ⟨i, start, hole, place, cut, trimmed, read⟩ := has _ own part e inText
    refine ⟨scope.stream.get i, tokens ▸ TokenStream.get_mem _ _, place, start, hole, cut, trimmed,
      fun target assigned => ?_⟩
    obtain ⟨assignable, k, l, stands⟩ := (Scope.reads_of_readHole read).assigned_alone target assigned
    refine ⟨assignable, (stands.isReference_or assignable).imp_right ?_⟩
    rintro ⟨k, -, -, kind⟩
    exact TextNode.exists_kind_hole kind

/-- The optional link before the last one of `b?.c.d`. -/
theorem Component.parse_targets_chain :
    ∃ c e target, Component.parse "state { a: b?.c.d = 1 }" .standard = .ok c ∧
      .expression e ∈ c.program.fragments ∧ target ∈ e.assigned ∧ target.isAssignable ∧
      ¬ target.isReference ∧
      ∃ t ∈ c.tokens, t.kind = .symbol .questionDot ∧ t.span.LiesIn target.span := by
  generalize hs : "state { a: b?.c.d = 1 }" = source
  have read : (Component.parse source .standard).toOption.map
      (fun c => c.program.roles.map fun r => r.2.assigned.map (·.isReference)) =
        some [[false]] := by
    subst hs
    decide +kernel
  cases parsed : Component.parse source .standard with
  | error e =>
    rw [parsed] at read
    cases read
  | ok c =>
    rw [parsed] at read
    obtain ⟨⟨role, e⟩, only, inside⟩ := List.map_eq_singleton_iff.mp (Option.some.inj read)
    obtain ⟨target, own, optional⟩ := List.map_eq_singleton_iff.mp inside
    have expression : .expression e ∈ c.program.fragments :=
      Declarations.mem_roles.mp ⟨role, by simp [only]⟩
    have assigned : target ∈ e.assigned := by simp [own]
    obtain ⟨assignable, reference⟩ :=
      (Component.parse_targets parsed).1 target (.inr ⟨e, expression, assigned⟩)
    have optional : ¬ target.isReference := by simp [optional]
    exact ⟨c, e, target, rfl, expression, assigned, assignable, optional,
      reference.resolve_left optional⟩

namespace Expr

/-- The operand with which an expression starts: what it is without the operators, the members and the
    calls that follow. -/
def head : Expr → Expr
  | .binary _ e _ _ | .update _ false e _ | .assignment _ e _ _ | .conditional e _ _ _
  | .member e _ _ _ _ | .call e _ _ _ => e.head
  | e => e

/-- The kinds of tokens that lead on from an operand that nothing can be assigned to. -/
inductive LeadsOn : TokenKind → Prop
  | dot : LeadsOn (.symbol .dot)
  | questionDot : LeadsOn (.symbol .questionDot)
  | openBracket : LeadsOn (.symbol .openBracket)
  | openParen : LeadsOn (.symbol .openParen)
  | question : LeadsOn (.symbol .question)
  | operator (op : BinaryOp) : LeadsOn (.symbol op.symbol)

/-- An expression between two indices starts with an array literal, and is this literal unless the
    token after its closing bracket leads on. -/
def StartsWithArray (scope : Scope) (e : Expr) (i j : Nat) : Prop :=
  ∃ elements close, Stands scope (.items elements) (i + 1) close ∧
    (scope.stream.get close).kind = .symbol .closeBracket ∧
    e.head = .array elements ((scope.stream.get i).span.cover (scope.stream.get close).span) ∧
    (e = e.head ∧ j = close + 1 ∨ close + 1 < j ∧ LeadsOn (scope.stream.get (close + 1)).kind)

variable {e' : Expr} {j' : Nat}

theorem StartsWithArray.lead (h : StartsWithArray scope e i j) (head : e'.head = e.head)
    (later : j < j') (next : LeadsOn (scope.stream.get j).kind ∨ e.isAssignable) :
    StartsWithArray scope e' i j' := by
  obtain ⟨elements, close, items, bracket, own, rest⟩ := h
  refine ⟨elements, close, items, bracket, head.trans own, .inr ?_⟩
  rcases rest with ⟨alone, rfl⟩ | ⟨more, leads⟩
  · have fixed : ¬ e.isAssignable := by
      rw [alone, own]
      exact Bool.false_ne_true
    exact ⟨later, next.resolve_right fixed⟩
  · exact ⟨by omega, leads⟩

theorem Dotted.leadsOn {optional : Bool} {k : Nat} (h : Dotted scope optional j k)
    (next : LeadsOn (scope.stream.get k).kind) : LeadsOn (scope.stream.get j).kind := by
  cases h with
  | plain => exact next
  | optional dotted => exact dotted ▸ .questionDot

theorem Stands.startsWithArray (ordered : scope.stream.Ordered) (h : Stands scope (.expr e) i j)
    (bracket : (scope.stream.get i).kind = .symbol .openBracket) : StartsWithArray scope e i j := by
  have longer {e : Expr} {i j : Nat} (h : Stands scope (.expr e) i j) : i < j :=
    TokenStream.Edges.lt (h.edges ordered)
  generalize same : Piece.expr e = piece at h
  induction h generalizing e with
  | array _ inner hc =>
    cases same
    exact ⟨_, _, inner, hc, rfl, .inl ⟨rfl, rfl⟩⟩
  | @property i j e' optional operand hd _ ih =>
    cases same
    refine (ih bracket rfl).lead rfl (Nat.lt_add_of_pos_right Nat.two_pos) (.inl ?_)
    rw [hd]
    cases optional
    · exact .dot
    · exact .questionDot
  | index operand dotted ho inner _ ih =>
    cases same
    have le := dotted.le
    have lt := longer inner
    exact (ih bracket rfl).lead rfl (by omega) (.inl (dotted.leadsOn (ho ▸ .openBracket)))
  | call operand dotted ho inner _ ih =>
    cases same
    have le := dotted.le
    have items : _ ≤ _ := inner.edges ordered
    exact (ih bracket rfl).lead rfl (by omega) (.inl (dotted.leadsOn (ho ▸ .openParen)))
  | updateAfter operand assignable _ ih =>
    cases same
    exact (ih bracket rfl).lead rfl (Nat.lt_succ_self _) (.inr assignable)
  | @binary i j k left right op first ht second ih =>
    cases same
    have lt := longer second
    exact (ih bracket rfl).lead rfl (by omega) (.inl (ht ▸ .operator op))
  | conditional condition hq one _ other ih =>
    cases same
    have lt := longer one
    have lt' := longer other
    exact (ih bracket rfl).lead rfl (by omega) (.inl (hq ▸ .question))
  | assignment left assignable _ right ih =>
    cases same
    have lt := longer right
    exact (ih bracket rfl).lead rfl (by omega) (.inr assignable)
  | name hk =>
    rw [bracket] at hk
    cases hk
  | importName hk => simp [bracket] at hk
  | literal read => simp [literalOf?, bracket] at read
  | group ho => simp [bracket] at ho
  | object ho => simp [bracket] at ho
  | asyncArrow hw => simp [bracket] at hw
  | @unary i j e' op ht | @updateBefore i j e' op ht =>
    rw [bracket] at ht
    cases op <;> cases ht
  | arrow list =>
    cases list with
    | bareParam hk => simp [bracket] at hk
    | paramList ho => simp [bracket] at ho
  | _ => cases same

theorem Stands.span_start (ordered : scope.stream.Ordered) (h : Stands scope (.expr e) i j)
    (bracket : (scope.stream.get i).kind = .symbol .openBracket) :
    e.span.start = (scope.stream.get i).span.start := by
  obtain ⟨first, last, least, -, -, parens, -, same⟩ : scope.stream.Trims i j e.span := h.trims ordered
  obtain rfl | more := Nat.eq_or_lt_of_le least
  · rw [same]
  · have paren := parens i (Nat.le_refl i) more
    simp [bracket] at paren

end Expr

/-- The expression stands after a word `plugins` and a colon, and it starts with an array literal. -/
def Scope.ListsPlugins (scope : Scope) (e : Expr) : Prop :=
  ∃ i j, scope.PluginsAt i ∧ Expr.Stands scope (.expr e) (i + 2) j ∧
    e.span.start = (scope.stream.get (i + 2)).span.start ∧ Expr.StartsWithArray scope e (i + 2) j

theorem StoreBlock.parser_plugins (ordered : scope.stream.Ordered) :
    Gives scope (∀ e ∈ ·.plugins, scope.ListsPlugins e) parser := by
  have any {α : Type} {p : Parser α} : Gives scope (fun _ => True) p := fun _ _ _ _ => trivial
  refine (StoreBlock.parser_each any any fun s here e t read => ?_).mono fun b each => each.2.2
  have stands := Expr.parser_sound scope _ read
  exact ⟨s.cursor, t.cursor, here, stands, stands.span_start ordered here.bracket,
    stands.startsWithArray ordered here.bracket⟩

/-- The plugins of a store start with the bracket after `plugins:`, and with them an array literal that
    ends at its closing bracket. They are the literal, unless the token after that bracket leads on:
    to a member, to a call, to the branches of a conditional, or to an operator. -/
theorem Component.parse_plugins {source : String} {options : Options} {c : Component}
    (parsed : Component.parse source options = .ok c) :
    ∀ store ∈ c.program.store, ∀ e ∈ store.plugins,
      Scope.ListsPlugins ⟨.ofList c.tokens, options, none⟩ e := by
  obtain ⟨same, t, read⟩ := Component.parse_ok parsed
  rw [same]
  have any {α : Type} {p : Parser α} :
      Gives ⟨.ofList (tokenize source), options, none⟩ (fun _ => True) p := fun _ _ _ _ => trivial
  have reached := (Program.reached (rfl : (Scope.mk (.ofList (tokenize source)) options
    none).quotation = none) read).1
  exact (reached.each any any any any any
    (StoreBlock.parser_plugins (TokenStream.ordered_tokenize source))).store

/-- The literal goes on to a member. -/
theorem Component.parse_plugins_member :
    ∃ c store e, Component.parse "store { plugins: [a].b }" .standard = .ok c ∧
      store ∈ c.program.store ∧ e ∈ store.plugins ∧ e.isAssignable ∧
      Scope.ListsPlugins ⟨.ofList c.tokens, .standard, none⟩ e := by
  generalize hs : "store { plugins: [a].b }" = source
  have read : (Component.parse source .standard).toOption.bind (fun c =>
      (c.program.store.bind (·.plugins)).map Expr.isAssignable) = some true := by
    subst hs
    decide +kernel
  obtain ⟨c, parsed, found⟩ := Component.exists_parse read
  obtain ⟨e, plugins, assignable⟩ := Option.map_eq_some_iff.mp found
  obtain ⟨store, own, has⟩ := Option.bind_eq_some_iff.mp plugins
  exact ⟨c, store, e, parsed, own, has, assignable, Component.parse_plugins parsed store own e has⟩

end PulseSyntax
