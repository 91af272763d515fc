import PulseSyntax.Proofs.Block.Balance
import PulseSyntax.Proofs.Outline.Roles
import PulseSyntax.Proofs.Parser.Yields

namespace PulseSyntax

open PulseSyntax.Parser

variable {scope : Scope}

theorem Expr.parser_gives : Gives scope scope.Reads Expr.parser := fun s _ t ok => ⟨s, t, ok⟩

theorem Property.parser_gives : Gives scope (scope.FillsAll ·.roles) parser := by
  intro s
  have value (name : Token) (t : ParserState) :
      Yields Expr.parser scope t fun e _ =>
        scope.FillsAll (⟨name.text, e, name.span.cover e.span⟩ : Property).roles :=
    (Expr.parser_gives t).mono fun e u read => by simpa [roles] using Scope.fills_value read
  simp [parser]
  exact ⟨fun _ _ => value _ _, fun _ _ _ => value _ _⟩

theorem PropertyBlock.parser_gives (word : Keyword) :
    Gives scope (scope.FillsAll ·.roles) (parser word) := by
  intro s
  simp [parser]
  intro _
  exact (Property.parser_gives.entry.braced _).mono fun properties t filled => by
    simpa [roles] using filled

theorem Param.parser_gives (before : Array Param) :
    Gives scope (scope.FillsAll ·.roles) (parser before) := by
  intro s
  simp [parser, roles]
  exact fun _ _ _ _ => (Expr.parser_gives _).mono fun e t read => Scope.fills_value read

theorem Param.listParser_gives : Gives scope (∀ p ∈ ·, scope.FillsAll p.roles) listParser := by
  intro s
  simp [listParser]
  exact fun _ => (Gives.commaSeparatedAfter _ Param.parser_gives _).mono fun _ _ filled _ => filled

section

variable {P : List Param → Prop} {Q : Action → Prop}

theorem Action.parser_params (params : Gives scope P Param.listParser) :
    Gives scope (P ·.params) parser := by
  intro s
  refine yields_bind.mpr (yields_current.mpr (yields_bind.mpr (yields_peek.mpr ?_)))
  extract_lets isAsync rest
  have tail (t : ParserState) : Yields (rest ()) scope t fun a _ => P a.params := by
    simp [rest]
    exact fun _ => (params _).mono fun params t holds _ _ _ => holds
  simp
  exact ⟨fun _ => tail _, fun _ => tail _⟩

theorem Guard.parser_params (params : Gives scope P Param.listParser) :
    Gives scope (P ·.params) parser := by
  intro s
  simp [parser]
  exact (params _).mono fun params t holds _ _ _ => holds

theorem ActionsBlock.parser_each (action : Gives scope Q Action.parser) :
    Gives scope (∀ a ∈ ·.functions, Q a) parser := by
  intro s
  simp [parser, many]
  exact fun _ _ => (Gives.manyAfter _ (fun _ => action.entry) _).mono fun functions t all _ => all

end

theorem Action.parser_gives : Gives scope (scope.FillsAll ·.roles) parser :=
  (Action.parser_params Param.listParser_gives).mono fun a filled => by simpa [roles] using filled

theorem ActionsBlock.parser_gives : Gives scope (scope.FillsAll ·.roles) parser :=
  (ActionsBlock.parser_each Action.parser_gives).mono fun b filled => by simpa [roles] using filled

theorem Route.parser_gives (before : Array Route) :
    Gives scope (scope.FillsAll ·.roles) (parser before) := by
  intro s
  simp [parser, roles]
  exact fun _ _ _ => (Expr.parser_gives _).mono fun e t read => Scope.fills_value read

theorem Route.listParser_gives : Gives scope (∀ r ∈ ·, scope.FillsAll r.roles) listParser := by
  have routes (t : ParserState) :
      Yields (manyAfter .closeBrace fun before => entry (Route.parser before)) scope t
        fun routes u => (scope.stream.get u.cursor).kind = .symbol .closeBrace →
          ∀ r ∈ routes, scope.FillsAll r.roles :=
    (Gives.manyAfter _ (fun before => (Route.parser_gives before).entry) t).mono
      fun _ _ filled _ => filled
  intro s
  simp [listParser]
  exact fun _ => ⟨fun _ _ => routes _, fun _ _ => routes _⟩

theorem Guard.parser_gives : Gives scope (scope.FillsAll ·.roles) parser :=
  (Guard.parser_params Param.listParser_gives).mono fun g filled => by simpa [roles] using filled

section

variable {P : Route → Prop} {Q : Guard → Prop}

structure RouterFields.Each (P : Route → Prop) (Q : Guard → Prop) (fields : RouterFields) :
    Prop where
  routes : ∀ r ∈ fields.routes.getD [], P r
  beforeEach : ∀ g ∈ fields.beforeEach, Q g
  afterEach : ∀ g ∈ fields.afterEach, Q g

theorem RouterFields.add_each (route : Gives scope (∀ r ∈ ·, P r) Route.listParser)
    (guard : Gives scope Q Guard.parser) (fields : RouterFields) (h : fields.Each P Q) :
    Gives scope (RouterFields.Each P Q) fields.add := by
  intro s
  refine yields_bind.mpr (yields_current.mpr ?_)
  split
  · simp [fieldColon]
    exact fun _ _ _ => { h with }
  · simp [fieldColon]
    exact fun _ _ _ => { h with }
  · simp
    exact fun _ => (route _).mono fun routes t all => { h with routes := all }
  · simp
    refine fun _ => (guard _).mono fun g t holds => { h with beforeEach := ?_ }
    rintro _ ⟨⟩
    exact holds
  · simp
    refine fun _ => (guard _).mono fun g t holds => { h with afterEach := ?_ }
    rintro _ ⟨⟩
    exact holds
  · exact yields_failWanted.mpr trivial

theorem RouterBlock.parser_each (route : Gives scope (∀ r ∈ ·, P r) Route.listParser)
    (guard : Gives scope Q Guard.parser) :
    Gives scope (fun b => (∀ r ∈ b.routes, P r) ∧ (∀ g ∈ b.beforeEach, Q g) ∧
      ∀ g ∈ b.afterEach, Q g) parser := by
  intro s
  simp [parser]
  refine fun _ _ => (Gives.foldEntries (RouterFields.add_each route guard)
    ⟨by simp, by simp, by simp⟩ _).mono fun fields t each _ => ?_
  exact ⟨each.routes, each.beforeEach, each.afterEach⟩

end

theorem RouterBlock.parser_gives : Gives scope (scope.FillsAll ·.roles) parser :=
  (RouterBlock.parser_each Route.listParser_gives Guard.parser_gives).mono fun b filled => by
    simpa [roles] using filled

section

variable {P : PropertyBlock → Prop} {Q : ActionsBlock → Prop} {R : Expr → Prop}

/-- The word `plugins` stands here, with a colon and an opening bracket after it. -/
structure Scope.PluginsAt (scope : Scope) (i : Nat) : Prop where
  word : (scope.stream.get i).kind = .keyword .plugins
  colon : (scope.stream.get (i + 1)).kind = .symbol .colon
  bracket : (scope.stream.get (i + 2)).kind = .symbol .openBracket

structure StoreFields.Each (P : PropertyBlock → Prop) (Q : ActionsBlock → Prop) (R : Expr → Prop)
    (fields : StoreFields) : Prop where
  state : ∀ b ∈ fields.state, P b
  actions : ∀ b ∈ fields.actions, Q b
  plugins : ∀ e ∈ fields.plugins, R e

theorem StoreFields.add_each (state : Gives scope P (PropertyBlock.parser .state))
    (actions : Gives scope Q ActionsBlock.parser)
    (plugins : ∀ s : ParserState, scope.PluginsAt s.cursor →
      Yields Expr.parser scope (s.ahead 2) fun e _ => R e)
    (fields : StoreFields) (h : fields.Each P Q R) :
    Gives scope (StoreFields.Each P Q R) fields.add := by
  intro s
  refine yields_bind.mpr (yields_current.mpr ?_)
  split
  · simp
    refine fun _ => (state _).mono fun b t holds => { h with state := ?_ }
    rintro _ ⟨⟩
    exact holds
  · simp
    exact fun _ _ _ _ => { h with }
  · simp
    refine fun _ => (actions _).mono fun b t holds => { h with actions := ?_ }
    rintro _ ⟨⟩
    exact holds
  · simp [fieldColon]
    intro _ _
    split
    · simpa using { h with }
    · simpa using { h with }
    · exact yields_failWanted.mpr trivial
  · simp [fieldColon]
    exact fun _ _ _ => { h with }
  · next word =>
    simp [fieldColon]
    intro _ colon bracket
    rw [ParserState.next_of_kind word (by simp)] at colon bracket ⊢
    rw [ParserState.next_of_kind colon (by simp)] at bracket ⊢
    refine (plugins s ⟨word, colon, bracket⟩).mono fun e t holds => { h with plugins := ?_ }
    rintro _ ⟨⟩
    exact holds
  · exact yields_failWanted.mpr trivial

/-- What holds of all blocks of properties and of all actions, wherever they are read, and of the
    expressions that are read after `plugins:`, holds of those of a store. -/
theorem StoreBlock.parser_each (state : Gives scope P (PropertyBlock.parser .state))
    (actions : Gives scope Q ActionsBlock.parser)
    (plugins : ∀ s : ParserState, scope.PluginsAt s.cursor →
      Yields Expr.parser scope (s.ahead 2) fun e _ => R e) :
    Gives scope (fun b => (∀ p ∈ b.state, P p) ∧ (∀ a ∈ b.actions, Q a) ∧ ∀ e ∈ b.plugins, R e)
      parser := by
  intro s
  simp [parser]
  refine fun _ _ => (Gives.foldEntries (StoreFields.add_each state actions plugins)
    ⟨by simp, by simp, by simp⟩ _).mono fun fields t each _ => ?_
  exact ⟨each.state, each.actions, each.plugins⟩

end

theorem StoreBlock.parser_gives : Gives scope (scope.FillsAll ·.roles) parser :=
  (StoreBlock.parser_each (PropertyBlock.parser_gives .state) ActionsBlock.parser_gives
    fun _ _ => Expr.parser_gives _).mono fun b ⟨state, actions, plugins⟩ => by
      have values : ∀ e ∈ b.plugins, scope.Fills .value e := fun e own => Scope.fills_value (plugins e own)
      simpa [roles] using ⟨state, actions, values⟩

end PulseSyntax
