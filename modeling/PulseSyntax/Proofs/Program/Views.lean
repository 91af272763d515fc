import PulseSyntax.Proofs.Markup.Rebuilt
import PulseSyntax.Proofs.Markup.SoundNodes
import PulseSyntax.Proofs.Parser.Entries
import PulseSyntax.Proofs.Program.Blocks
import PulseSyntax.Proofs.Program.Values
import PulseSyntax.Proofs.Token.Spelled

namespace PulseSyntax

open PulseSyntax.Parser PulseSyntax.Piece Lexeme

namespace TokenStream

theorem Open.le_of_closing {stream : TokenStream} {i j k depth : Nat} (h : stream.Open i k depth)
    (matched : stream.Open i j 0) (closing : (stream.get j).kind = .symbol .closeBrace) : k ≤ j := by
  have inside : j < stream.size := Nat.lt_of_succ_lt (lt_size_of_kind_ne (by simp [closing]))
  refine Nat.le_of_not_lt fun beyond => ?_
  obtain ⟨d, braces⟩ := h.before (Nat.le_succ_of_le matched.le) beyond
  rw [between_append stream matched.le (Nat.le_succ j), openBraces?_append, matched.braces,
    between_succ inside, Option.bind_some, openBraces?, closing] at braces
  cases braces

variable {source : String} {word : Keyword} {span : Span} {i j k : Nat}

theorem isSpelled_get (block : ((ofList (tokenize source)).contextAt (k + 1)).block = some word)
    (noStyle : word ≠ .style) (more : k + 3 < (ofList (tokenize source)).size) :
    ((ofList (tokenize source)).get (k + 1)).own.IsSpelled
      (((ofList (tokenize source)).get k).kind == .symbol .atSign) := by
  have last := contextAt_lastKind (show k < (ofList (tokenize source)).size by omega)
  have noEnd : ((ofList (tokenize source)).get (k + 1)).kind ≠ .endOfFile := by
    intro atEnd
    have := size_le_of_endOfFile atEnd
    omega
  have token := getElem?_tokenize noEnd
  obtain ⟨ctx, here⟩ := Lexer.exists_context token
  rw [Lexer.contextAt_of_contexts here] at block last
  have inBlock : ctx.inStyle = false := by
    rw [Context.inStyle, ← ctx.core_block, block]
    simpa using noStyle
  rw [size_ofList_tokenize] at more
  have spelled := Lexer.isSpelled_tokens token here inBlock more
  rwa [← ctx.core_lastKind, last] at spelled

theorem BlockAt.isSpelled (h : (ofList (tokenize source)).BlockAt word span i j)
    (opens : word.opensBlock) (noStyle : word ≠ .style)
    (outside : ((ofList (tokenize source)).contextAt i).blocks = []) (options : Options) :
    Scope.IsSpelled ⟨.ofList (tokenize source), options, none⟩ (i + 2) := by
  intro k braces o
  obtain ⟨k, rfl⟩ := Nat.exists_eq_add_of_le' (Nat.le_trans (by omega) o.le : 1 ≤ k)
  rcases Nat.eq_or_lt_of_le (o.le_of_closing h.inside h.closing) with rfl | before
  · rw [IsSpelled, show (Token.own _).kind = _ from h.closing]
    trivial
  · have since := o.le
    have inside := lt_size_of_kind_ne (show _ ≠ TokenKind.endOfFile by rw [h.closing]; simp)
    have block := ((h.contextAt opens outside).2 (k + 1) (by omega) (by omega) word).mpr
      ⟨rfl, by omega, by omega⟩
    exact isSpelled_get block noStyle (by omega)

end TokenStream

variable {scope : Scope} {s : ParserState} {block : ViewBlock}

namespace ViewBlock

theorem parser_found (spelled : scope.IsSpelled (s.cursor + 2)) :
    Yields parser scope s fun block _ =>
      Fragment.ArePlain block.fragments → block.IsWritable (scope.options.maxDepth - s.depth) := by
  simp only [parser, braced, yields_bind, yields_expectKeyword, yields_expectSymbol, yields_pure]
  intro word opening
  rw [ParserState.next_of_kind word (by simp)] at opening ⊢
  rw [ParserState.next_of_kind opening (by simp)]
  have o : ((s.ahead 1).ahead 1).InBlock scope (s.cursor + 2) s.depth 0 := by
    refine ⟨rfl, .refl _ _, fun atSign => ?_⟩
    rw [show (scope.stream.get (((s.ahead 1).ahead 1).cursor - 1)).kind = _ from opening] at atSign
    cases atSign
  refine (MarkupNode.yields_many_found (fun _ o => MarkupNode.parser_found spelled o) o).mono
    fun ns t found _ plain => ⟨fun n own => found.2.writable n own ?_, found.2.apart⟩
  rw [fragments, Fragment.arePlain_flatMap] at plain
  exact plain n own

theorem IsWritable.scans {levels : Nat} (h : block.IsWritable levels) :
    ∃ ctx, Lexer.Scans .initial block.printed ctx := by
  have word : (Lexeme.word "view").IsStable (·.inStyle = false) :=
    stable_keyword ⟨'v', ['i', 'e', 'w'], rfl, by decide, by simp; decide⟩ rfl
  have start : Lexer.Scans .initial (spaced [.word "view"]) _ := Lexer.scans_lexeme word rfl
  have opening := start.append (Lexer.scans_sign .openBrace (by decide) rfl)
  obtain ⟨next, inView, -, inside⟩ := h.readsBack
    ((Context.initial.past (.word "view")).past (.symbol .openBrace)) ⟨rfl, rfl, by decide⟩
  have whole := opening.append
    (Lexer.Scans.append inside (Lexer.scans_sign .closeBrace (by decide) inView.noStyle))
  rw [List.append_assoc] at whole
  exact ⟨_, whole⟩

theorem IsWritable.restores_add {depth : Nat}
    (h : block.IsWritable (scope.options.maxDepth - depth)) :
    Restores scope depth block.printed (fun _ => True) Declarations.empty.add
      fun d => ∃ v, d.view = some v ∧ v.content = block.content := by
  refine .current (lexemes_append.trans (congrArg (· ++ _) lexemes_spaced)) fun t own => ?_
  have kind : t.kind = .keyword .view := congrArg Lexeme.kind own
  simp only [kind]
  refine .returns (P := fun seen => ∃ v, seen = some v ∧ v.content = block.content) ?_
    fun _ holds => holds
  exact h.restores.map fun v same => ⟨v, rfl, same⟩

end ViewBlock

namespace Declarations

variable {d : Declarations}

theorem yields_add_view : Yields d.add scope s fun next t =>
    ∀ v ∈ next.view, v ∈ d.view ∨ ViewBlock.parser scope s = .ok v t := by
  have other {α : Type} {p : Parser α} {next : α → Declarations} (same : ∀ a, (next a).view = d.view) :
      Yields (do return next (← p)) scope s fun next t =>
        ∀ v ∈ next.view, v ∈ d.view ∨ ViewBlock.parser scope s = .ok v t :=
    yields_bind.mpr fun a t _ => yields_pure.mpr fun v own => .inl (same a ▸ own)
  have unknown : Yields failUnknown scope s fun (next : Declarations) t =>
      ∀ v ∈ next.view, v ∈ d.view ∨ ViewBlock.parser scope s = .ok v t :=
    fun _ _ ok => absurd ok failUnknown_ne_ok
  refine yields_bind.mpr (yields_current.mpr ?_)
  split
  · exact other fun _ => rfl
  · refine yields_bind.mpr (yields_peek.mpr ?_)
    split
    · exact other fun _ => rfl
    · exact other fun _ => rfl
    · exact unknown
  · exact other fun _ => rfl
  · exact other fun _ => rfl
  · refine yields_bind.mpr (yields_once.mpr fun _ v t read => yields_pure.mpr ?_)
    rintro _ ⟨⟩
    exact .inr read
  · exact other fun _ => rfl
  · exact other fun _ => rfl
  · exact other fun _ => rfl
  · exact other fun _ => rfl
  · exact other fun _ => rfl
  · exact unknown

theorem Reached.depth (h : d.Reached scope s) : s.depth = 0 := by
  induction h with
  | start => rfl
  | round before more read ih =>
    rw [← ih]
    exact (Course.reaches_of_moving
      (fun _ none => moving_add (fun fits => absurd fits none) _) read).1.depth

theorem Reached.view (h : d.Reached scope s) (own : d.view = some block) :
    ∃ d s t, Reached scope d s ∧ ViewBlock.parser scope s = .ok block t := by
  induction h with
  | start => cases own
  | round before more read ih =>
    rcases yields_add_view read block own with earlier | now
    · exact ih earlier
    · exact ⟨_, _, _, before, now⟩

end Declarations

theorem Component.view_isWritable {source : String} {options : Options} {c : Component}
    (parsed : Component.parse source options = .ok c) (own : c.program.view = some block)
    (plain : Fragment.ArePlain block.fragments) : block.IsWritable options.maxDepth := by
  obtain ⟨-, t, read⟩ := Component.parse_ok parsed
  let scope : Scope := ⟨.ofList (tokenize source), options, none⟩
  obtain ⟨d, s, t, reached, view⟩ :=
    (Program.reached (rfl : scope.quotation = none) read).1.view own
  obtain ⟨last, -, block⟩ := (ViewBlock.parser_readsBlock s view).1
  have spelled := block.isSpelled rfl (by decide) (reached.followed rfl).outside options
  have writable := ViewBlock.parser_found spelled view plain
  rw [reached.depth] at writable
  exact writable

/-- A view without interpolations and without functions that have a block survives being written:
    what is written is a component, and its view is the same but for the places of its parts and the
    texts that literals were read from. -/
theorem Component.parse_printed {source : String} {options : Options} {c : Component}
    (parsed : Component.parse source options = .ok c) (own : c.program.view = some block)
    (texts : ∀ t, .text t ∈ block.fragments → t.isInterpolated = false)
    (functions : ∀ e, .expression e ∈ block.fragments → ArePlain e.arrows) :
    ∃ c' v, Component.parse (String.ofList (Lexer.textOf block.printed)) options = .ok c' ∧
      c'.program.view = some v ∧ v.content = block.content := by
  have plain : Fragment.ArePlain block.fragments := by
    intro f member
    cases f with
    | body => trivial
    | expression e => exact functions e member
    | text t => exact texts t member
  have writable : block.IsWritable (options.maxDepth - 0) :=
    Component.view_isWritable parsed own plain
  obtain ⟨ctx, scans⟩ := writable.scans
  obtain ⟨c', parsed', v, own', same⟩ := Component.parse_alone
    (lexemes_append.trans (congrArg (· ++ _) lexemes_spaced)) (by decide) scans
    fun _ => writable.restores_add
  exact ⟨c', v, parsed', own', same⟩

/-- Of the two elements one has a block, which is written even where it is empty, and one ends with a
    boundary. -/
theorem Component.parse_printed_loop :
    ∃ c v c' v',
      Component.parse r#"view { a(b={x => x}) @click "c" @for (d of e) { f @client } }"#
        .standard = .ok c ∧ c.program.view = some v ∧
      Component.parse (String.ofList (Lexer.textOf v.printed)) .standard = .ok c' ∧
      c'.program.view = some v' ∧ v'.content = v.content := by
  generalize hs : r#"view { a(b={x => x}) @click "c" @for (d of e) { f @client } }"# =
    source
  have read : ((Component.parse source .standard).toOption.bind (·.program.view)).any
      fun v => decide (Fragment.ArePlain v.fragments) := by
    subst hs
    decide +kernel
  cases parsed : Component.parse source .standard with
  | error e =>
    rw [parsed] at read
    cases read
  | ok c =>
    rw [parsed] at read
    obtain ⟨v, own, plain⟩ := Option.any_eq_true _ _ |>.mp read
    have plain : Fragment.ArePlain v.fragments := of_decide_eq_true plain
    obtain ⟨c', v', parsed', own', same⟩ := Component.parse_printed parsed own
      (fun t member => plain (.text t) member) (fun e member => plain (.expression e) member)
    exact ⟨c, v, c', v', rfl, own, parsed', own', same⟩

end PulseSyntax
