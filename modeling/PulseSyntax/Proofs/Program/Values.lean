import PulseSyntax.Proofs.Parser.Restores
import PulseSyntax.Proofs.Program.Course
import PulseSyntax.Proofs.Token.Stable

namespace PulseSyntax

open PulseSyntax.Parser PulseSyntax.Piece

section

variable {scope : Scope} {depth : Nat} {ps : List Piece} {l : Lexeme} {ls : List Lexeme}
  {P : Declarations → Prop}

theorem Declarations.restores_alone (first : lexemes ps = l :: ls) (noEnd : l.kind ≠ .endOfFile)
    (read : Restores scope depth ps (fun _ => True) Declarations.empty.add P) :
    Restores scope depth ps (firstKind · = .endOfFile) (loop Declarations.round .empty) P := by
  have round : Restores scope depth ps (fun _ => True) (Declarations.round .empty)
      fun next => ∃ d, next = .yield d ∧ P d := by
    refine .is first ?_
    rw [beq_eq_false_iff_ne.mpr noEnd]
    exact read.returns fun d holds => ⟨d, rfl, holds⟩
  have last (d : Declarations) (holds : P d) :
      Restores scope depth [] (firstKind · = .endOfFile) (Declarations.round d)
        fun next => ∃ d, next = .done d ∧ P d := by
    intro pos s rest _ tokens atEnd
    have here : (scope.stream.get s.cursor).kind = .endOfFile :=
      (Scope.kind_of_remaining tokens).trans atEnd
    refine ⟨.done d, ?_, d, rfl, holds⟩
    rw [Declarations.round, bind_of_ok is_apply, here]
    rfl
  have rounds : RestoresEnd scope depth (ps ++ []) (firstKind · = .endOfFile)
      Declarations.round .empty P :=
    .cons (by simp [first]) round (fun _ _ _ => trivial) fun d holds => .last (last d holds)
  rw [List.append_nil] at rounds
  exact rounds.loop

theorem exists_program (first : lexemes ps = l :: ls) (noEnd : l.kind ≠ .endOfFile)
    (read : Restores scope 0 ps (fun _ => True) Declarations.empty.add P) {pos : Position}
    {last : Token} (atEnd : last.kind = .endOfFile)
    (tokens : scope.stream.toList = Lexer.placed pos ps ++ [last]) :
    ∃ program t, Program.parser scope .initial = .ok program t ∧ P program.toDeclarations := by
  have remaining : scope.remaining .initial = Lexer.placed pos ps ++ [last] := by
    rw [← tokens]
    exact TokenStream.tokensFrom_eq _ _
  obtain ⟨d, ok, holds⟩ :=
    Declarations.restores_alone first noEnd read pos .initial [last] rfl remaining atEnd
  have run : ∃ span t, Program.parser scope .initial = .ok { d with span } t :=
    ⟨_, _, by rw [Program.parser_eq, bind_of_ok current_apply, bind_of_ok ok,
      bind_of_ok current_apply, pure_apply]⟩
  obtain ⟨span, t, run⟩ := run
  exact ⟨_, t, run, holds⟩

end

theorem Component.parse_alone {ps : List Piece} {l : Lexeme} {ls : List Lexeme} {options : Options}
    {P : Declarations → Prop} {ctx : Context} (first : lexemes ps = l :: ls)
    (noEnd : l.kind ≠ .endOfFile) (scans : Lexer.Scans .initial ps ctx)
    (read : ∀ stream, Restores ⟨stream, options, none⟩ 0 ps (fun _ => True)
      Declarations.empty.add P) :
    ∃ c, Component.parse (String.ofList (Lexer.textOf ps)) options = .ok c ∧
      P c.program.toDeclarations := by
  obtain ⟨last, atEnd, tokens⟩ : ∃ last : Token, last.kind = .endOfFile ∧
      Lexer.tokens (Lexer.textOf ps) = Lexer.placed .origin ps ++ [last] := by
    have whole := scans .origin []
    rw [List.append_nil] at whole
    exact ⟨_, rfl, whole⟩
  have whole : (TokenStream.ofList (Lexer.placed .origin ps ++ [last])).toList =
      Lexer.placed .origin ps ++ [last] := TokenStream.toList_ofList atEnd
  let source := String.ofList (Lexer.textOf ps)
  unfold Component.parse
  dsimp only
  rw [tokenize, String.toList_ofList, tokens]
  generalize TokenStream.ofList _ = stream at whole ⊢
  obtain ⟨program, t, run, holds⟩ := exists_program first noEnd (read stream) atEnd whole
  refine ⟨⟨program, stream.toList, source⟩, ?_, holds⟩
  rw [Parser.run, run]

def stateOf (value : List Lexeme) : List Lexeme :=
  .word "state" :: .symbol .openBrace :: .word "a" :: .symbol .colon :: value ++ [.symbol .closeBrace]

abbrev ClosesNext (rest : List Token) : Prop := firstKind rest = .symbol .closeBrace

section

variable {scope : Scope} {depth : Nat} {value : List Lexeme} {P : Expr → Prop}

theorem restores_skipSeparators :
    Restores scope depth [] ClosesNext skipSeparators fun _ => True := by
  rw [skipSeparators_eq]
  refine RestoresEnd.loop (.last fun pos s rest _ tokens closes => ?_)
  refine ⟨.done (), ?_, (), rfl, trivial⟩
  have here : (scope.stream.get s.cursor).kind = .symbol .closeBrace :=
    (Scope.kind_of_remaining tokens).trans closes
  rw [separatorRound, bind_of_ok current_apply, here]
  rfl

theorem restores_property
    (read : Restores scope depth (Lexeme.spaced value) ClosesNext Expr.parser P) :
    Restores scope depth (Lexeme.spaced (.word "a" :: .symbol .colon :: value)) ClosesNext
      Property.parser fun p => P p.value := by
  refine .is lexemes_spaced ?_
  refine .head (.expectName lexemes_spaced (by decide)) fun name _ => ?_
  refine .head (.expectSymbol .colon) fun _ _ => ?_
  exact read.returns fun _ holds => holds

theorem restores_entry
    (read : Restores scope depth (Lexeme.spaced value) ClosesNext Expr.parser P) :
    Restores scope depth (Lexeme.spaced (.word "a" :: .symbol .colon :: value)) ClosesNext
      (entry Property.parser) fun p => P p.value :=
  (restores_property read).last (fun _ closes => closes) fun _ holds =>
    restores_skipSeparators.returns fun _ _ => holds

theorem restores_properties
    (read : Restores scope depth (Lexeme.spaced value) ClosesNext Expr.parser P) :
    Restores scope depth (Lexeme.spaced (.word "a" :: .symbol .colon :: value)) ClosesNext
      (many .closeBrace (entry Property.parser)) fun ps => ∃ p : Property, ps = [p] ∧ P p.value := by
  have each : Restores scope depth
      ([()].flatMap fun _ => Lexeme.spaced (.word "a" :: .symbol .colon :: value)) ClosesNext
      (many .closeBrace (entry Property.parser))
      fun ps => List.Forall₂ (fun _ (p : Property) => P p.value) [()] ps :=
    Restores.many (fun _ _ => restores_entry read)
      (fun _ _ => ⟨_, _, lexemes_spaced, by decide, by decide⟩) (by simp [Between])
      fun _ _ _ closes => closes
  rw [List.flatMap_singleton] at each
  refine each.mono fun ps all => ?_
  cases all with
  | cons holds none =>
    cases none
    exact ⟨_, rfl, holds⟩

theorem restores_stateBlock
    (read : Restores scope depth (Lexeme.spaced value) ClosesNext Expr.parser P) :
    Restores scope depth (Lexeme.spaced (stateOf value)) (fun _ => True)
      (PropertyBlock.parser .state) fun b => ∃ p, b.properties = [p] ∧ P p.value := by
  refine .head (.expect lexemes_spaced (by decide) (by decide)) fun _ _ => ?_
  refine .returns (P := fun answer => ∃ p, answer.1 = [p] ∧ P p.value) ?_ fun _ holds => holds
  refine .head (.expectSymbol .openBrace) fun _ _ => ?_
  change Restores scope depth (Lexeme.spaced ((.word "a" :: .symbol .colon :: value) ++ _)) _ _ _
  rw [Lexeme.spaced_append]
  refine (restores_properties read).bind (fun _ _ _ => firstKind_placed lexemes_spaced _ _)
    fun ps holds => ?_
  exact (Restores.expectSymbol .closeBrace).returns fun _ _ => holds

theorem restores_add
    (read : Restores scope depth (Lexeme.spaced value) ClosesNext Expr.parser P) :
    Restores scope depth (Lexeme.spaced (stateOf value)) (fun _ => True)
      Declarations.empty.add
      fun d => ∃ b p, d.state = some b ∧ b.properties = [p] ∧ P p.value := by
  refine .current lexemes_spaced fun t own => ?_
  have kind : t.kind = .keyword .state := congrArg Lexeme.kind own
  simp only [kind]
  refine .returns (P := fun seen => ∃ b p, seen = some b ∧ b.properties = [p] ∧ P p.value) ?_
    fun _ holds => holds
  exact (restores_stateBlock read).map fun b ⟨p, one, holds⟩ => ⟨b, p, rfl, one, holds⟩

end

theorem Context.inCode_of_block {ctx : Context} {word : Keyword} (h : ctx.block = some word)
    (noStyle : word ≠ .style) (noView : word ≠ .view) : ctx.InCode := by
  constructor
  · simpa [inStyle, h] using noStyle
  · simp [inMarkup, h, noView]

namespace Lexer

theorem scans_value {ls : List Lexeme} (stable : ∀ l ∈ ls, l.IsStable Context.InCode)
    (noBrace : ∀ l ∈ ls, l.kind.isBrace = false) {ctx : Context} (block : ctx.blocks = [some .state]) :
    ∃ next : Context, next.blocks = [some .state] ∧ Scans ctx (Lexeme.spaced ls) next := by
  induction ls generalizing ctx with
  | nil => exact ⟨ctx, block, .nil ctx⟩
  | cons l ls ih =>
    obtain ⟨first, others⟩ := List.forall_mem_cons.mp stable
    obtain ⟨plain, noBrace⟩ := List.forall_mem_cons.mp noBrace
    have inState : ctx.block = some .state := by
      rw [Context.block, block]
      rfl
    have here : ctx.InCode := Context.inCode_of_block inState (by decide) (by decide)
    have inside : (ctx.past l).blocks = [some .state] :=
      (ctx.afterKind_blocks_of_plain plain).trans block
    obtain ⟨next, blocks, scans⟩ := ih others noBrace inside
    exact ⟨next, blocks, (scans_lexeme first here).append scans⟩

theorem scans_sign (sign : Symbol) (other : sign ≠ .atSign) {ctx : Context}
    (noStyle : ctx.inStyle = false) :
    Scans ctx (Lexeme.spaced [.symbol sign]) (ctx.past (.symbol sign)) :=
  scans_lexeme (stable_symbol other) noStyle

theorem scans_stateOf {value : List Lexeme} (stable : ∀ l ∈ value, l.IsStable Context.InCode)
    (noBrace : ∀ l ∈ value, l.kind.isBrace = false) :
    ∃ ctx, Scans .initial (Lexeme.spaced (stateOf value)) ctx := by
  have word : (Lexeme.word "state").IsStable Context.InCode :=
    Lexeme.stable_word ⟨'s', ['t', 'a', 't', 'e'], rfl, by decide, by simp; decide⟩
  have name : (Lexeme.word "a").IsStable Context.InCode :=
    Lexeme.stable_word ⟨'a', [], rfl, by decide, nofun⟩
  have colon : (Lexeme.symbol .colon).IsStable Context.InCode :=
    (stable_symbol (by decide)).mono fun _ here => here.noStyle
  have start : Scans .initial (Lexeme.spaced [.word "state"]) _ := scans_lexeme word ⟨rfl, rfl⟩
  have opening := start.append (scans_sign .openBrace (by decide) rfl)
  have inState : ((Context.initial.past (.word "state")).past (.symbol .openBrace)).blocks =
      [some .state] := by decide
  obtain ⟨next, blocks, inside⟩ := scans_value
    (List.forall_mem_cons.mpr ⟨name, List.forall_mem_cons.mpr ⟨colon, stable⟩⟩)
    (List.forall_mem_cons.mpr ⟨by decide, List.forall_mem_cons.mpr ⟨by decide, noBrace⟩⟩) inState
  have noStyle : next.inStyle = false := by
    rw [Context.inStyle, Context.block, blocks]
    rfl
  have whole := (opening.append inside).append (scans_sign .closeBrace (by decide) noStyle)
  rw [← Lexeme.spaced_append, ← Lexeme.spaced_append, ← Lexeme.spaced_append] at whole
  exact ⟨_, whole⟩

end Lexer

theorem Component.parse_stateOf {value : List Lexeme} {options : Options} {P : Expr → Prop}
    (stable : ∀ l ∈ value, l.IsStable Context.InCode)
    (noBrace : ∀ l ∈ value, l.kind.isBrace = false)
    (read : ∀ stream, Restores ⟨stream, options, none⟩ 0 (Lexeme.spaced value) ClosesNext
      Expr.parser P) :
    ∃ c b p, Component.parse (String.ofList (Lexer.textOf (Lexeme.spaced (stateOf value)))) options =
        .ok c ∧ c.program.state = some b ∧ b.properties = [p] ∧ P p.value := by
  obtain ⟨ctx, scans⟩ := Lexer.scans_stateOf stable noBrace
  obtain ⟨c, parsed, b, p, holds⟩ := Component.parse_alone lexemes_spaced (by decide) scans
    fun stream => restores_add (read stream)
  exact ⟨c, b, p, parsed, holds⟩

end PulseSyntax
