import PulseSyntax.Proofs.Program.Balance
import PulseSyntax.Proofs.Token.Context

namespace PulseSyntax

namespace TokenStream

def contextAt (stream : TokenStream) (i : Nat) : Context :=
  Context.initial.through (stream.between 0 i)

variable {stream : TokenStream} {i j k : Nat}

@[simp] theorem contextAt_zero (stream : TokenStream) : stream.contextAt 0 = .initial := by
  rw [contextAt, between_self]
  rfl

theorem contextAt_of_le (le : i ≤ j) :
    stream.contextAt j = (stream.contextAt i).through (stream.between i j) := by
  rw [contextAt, between_append stream (Nat.zero_le i) le, Context.through_append]
  rfl

theorem contextAt_succ (inside : i < stream.size) :
    stream.contextAt (i + 1) = ((stream.contextAt i).afterKind (stream.get i).kind).core := by
  rw [contextAt_of_le (Nat.le_succ i), between_succ inside]
  rfl

theorem contextAt_lastKind (inside : i < stream.size) :
    (stream.contextAt (i + 1)).lastKind = some (stream.get i).kind := by
  rw [contextAt_succ inside, Context.core_lastKind, Context.afterKind_lastKind]

theorem contextAt_group {block : Option Keyword} (outside : (stream.contextAt i).blocks = [])
    (opened : (stream.contextAt i).opened = block)
    (opening : (stream.get i).kind = .symbol .openBrace) (matched : stream.Open (i + 1) j 0)
    (closing : (stream.get j).kind = .symbol .closeBrace) :
    (stream.contextAt (j + 1)).blocks = [] ∧
      ∀ k, i < k → k ≤ j → (stream.contextAt k).block = block := by
  have hi : i < stream.size := Nat.lt_of_succ_lt (lt_size_of_kind_ne (by simp [opening]))
  have hj : j < stream.size := Nat.lt_of_succ_lt (lt_size_of_kind_ne (by simp [closing]))
  have first : (stream.contextAt (i + 1)).blocks = List.replicate (0 + 1) block := by
    rw [contextAt_succ hi, Context.core_blocks, opening, Context.afterKind_blocks_opening, opened,
      outside]
    rfl
  have last := Context.through_blocks first matched.braces
  rw [← contextAt_of_le matched.le] at last
  refine ⟨?_, fun k after upTo => ?_⟩
  · rw [contextAt_succ hj, Context.core_blocks, closing, Context.afterKind_blocks_closing, last]
    rfl
  · obtain ⟨d, braces⟩ := matched.before after upTo
    have here := Context.through_blocks first braces
    rw [← contextAt_of_le after] at here
    rw [Context.block, here]
    rfl

theorem block_of_blocks_nil {ctx : Context} (none : ctx.blocks = []) : ctx.block = Option.none := by
  rw [Context.block, none]
  rfl

theorem Flat.contextAt (h : stream.Flat i j) (outside : (stream.contextAt i).blocks = []) :
    (stream.contextAt j).blocks = [] ∧
      ∀ k, i ≤ k → k ≤ j → (stream.contextAt k).block = none := by
  induction h with
  | refl =>
    refine ⟨outside, fun k since upTo => ?_⟩
    rw [Nat.le_antisymm upTo since]
    exact block_of_blocks_nil outside
  | @plain j before he plain ih =>
    have inside : j < stream.size := Nat.lt_of_succ_lt (lt_size_of_kind_ne he)
    have last : (stream.contextAt (j + 1)).blocks = [] := by
      rw [contextAt_succ inside, Context.core_blocks, Context.afterKind_blocks_of_plain _ plain]
      exact ih.1
    refine ⟨last, fun k since upTo => ?_⟩
    rcases Nat.le_succ_iff.mp upTo with upTo | rfl
    · exact ih.2 k since upTo
    · exact block_of_blocks_nil last
  | @group j close before pos word opening matched closing ih =>
    obtain ⟨j, rfl⟩ := Nat.exists_eq_succ_of_ne_zero (Nat.ne_of_gt pos)
    have inside : j + 1 < stream.size := Nat.lt_of_succ_lt (lt_size_of_kind_ne (by simp [opening]))
    have last := contextAt_lastKind (Nat.lt_of_succ_lt inside)
    have opened : (stream.contextAt (j + 1)).opened = none := by
      refine Context.opened_eq_none ih.1 fun kind before => ?_
      rw [last] at before
      cases before
      exact word
    have group := contextAt_group ih.1 opened opening matched closing
    refine ⟨group.1, fun k since upTo => ?_⟩
    rcases Nat.lt_or_ge (j + 1) k with after | upToOpening
    · rcases Nat.le_succ_iff.mp upTo with upTo | rfl
      · exact group.2 k after upTo
      · exact block_of_blocks_nil group.1
    · exact ih.2 k since upToOpening

/-- A block at the top level is read in its own block from after its opening brace on, up to and
    with its closing brace. -/
theorem BlockAt.contextAt {word : Keyword} {span : Span} (h : stream.BlockAt word span i j)
    (opens : word.opensBlock) (outside : (stream.contextAt i).blocks = []) :
    (stream.contextAt (j + 1)).blocks = [] ∧ ∀ k, i ≤ k → k ≤ j + 1 → ∀ w,
      (stream.contextAt k).block = some w ↔ w = word ∧ i + 1 < k ∧ k ≤ j := by
  have inside : i < stream.size := Nat.lt_of_succ_lt (lt_size_of_kind_ne (by simp [h.word]))
  have atOpening : (stream.contextAt (i + 1)).blocks = [] := by
    rw [contextAt_succ inside, Context.core_blocks, h.word, Context.afterKind_blocks_of_plain _ rfl,
      outside]
  have last := contextAt_lastKind inside
  rw [h.word] at last
  have group := contextAt_group atOpening (Context.opened_of_word atOpening last opens) h.opening
    h.inside h.closing
  refine ⟨group.1, fun k since upTo w => ?_⟩
  by_cases within : i + 1 < k ∧ k ≤ j
  · rw [group.2 k within.1 within.2]
    simp [within, eq_comm]
  · -- The word, its opening brace and what follows the block are read outside every block.
    have ends : k = i ∨ k = i + 1 ∨ k = j + 1 := by omega
    have none : (stream.contextAt k).block = none := by
      rcases ends with rfl | rfl | rfl
      · exact block_of_blocks_nil outside
      · exact block_of_blocks_nil atOpening
      · exact block_of_blocks_nil group.1
    simp [none, within]

theorem BlockAt.span_eq {word : Keyword} {span : Span} (h : stream.BlockAt word span i j)
    (ordered : stream.Ordered) : span = ⟨(stream.get i).span.start, (stream.get j).span.stop⟩ := by
  have inside : j < stream.size := Nat.lt_of_succ_lt (lt_size_of_kind_ne (by simp [h.closing]))
  have le := h.inside.le
  have first := ordered.disjoint (show i < i + 1 by omega) (by omega)
  have last := ordered.disjoint (show i + 1 < j by omega) inside
  have proper := ordered.proper
  have hi := proper i
  have ho := proper (i + 1)
  have hj := proper j
  rcases h.span with rfl | rfl <;>
    simp only [Span.cover, Span.mk.injEq] <;> omega

end TokenStream

namespace Declarations

variable {scope : Scope} {d : Declarations} {s : ParserState}

/-- Up to a cursor the lexer was in a block of some word exactly where the parser has read it. -/
structure Followed (scope : Scope) (d : Declarations) (s : ParserState) : Prop where
  outside : (scope.stream.contextAt s.cursor).blocks = []
  unread : ∀ {word}, d.spanOf word = none →
    ∀ k ≤ s.cursor, (scope.stream.contextAt k).block ≠ some word
  read : ∀ {word span}, d.spanOf word = some span →
    ∃ i j, scope.stream.BlockAt word span i j ∧ j < s.cursor ∧
      ∀ k ≤ s.cursor, (scope.stream.contextAt k).block = some word ↔ i + 1 < k ∧ k ≤ j

theorem Followed.start : Followed scope .empty .initial where
  outside := by simp [ParserState.initial, Context.initial]
  unread _ k le := by simp [Nat.le_zero.mp le, Context.initial, Context.block]
  read {word span} read := by cases word <;> cases read

theorem Followed.flat {next : Declarations} {t : ParserState} (h : Followed scope d s)
    (same : next.spanOf = d.spanOf) (flat : scope.stream.Flat s.cursor t.cursor) :
    Followed scope next t := by
  obtain ⟨outside, beyond⟩ := flat.contextAt h.outside
  refine ⟨outside, fun {word} unread k le => ?_, fun {word span} read => ?_⟩
  · rcases Nat.le_total k s.cursor with before | after
    · exact h.unread (same ▸ unread) k before
    · simp [beyond k after le]
  · obtain ⟨i, j, block, stop, inBlock⟩ := h.read (same ▸ read)
    refine ⟨i, j, block, Nat.lt_of_lt_of_le stop flat.le, fun k le => ?_⟩
    rcases Nat.le_total k s.cursor with before | after
    · exact inBlock k before
    · rw [beyond k after le]
      exact iff_of_false (Option.some_ne_none word).symm (by omega)

theorem Followed.block {next : Declarations} {t : ParserState} {own : Keyword} {ownSpan : Span}
    (h : Followed scope d s) (opens : own.opensBlock) (unseen : d.spanOf own = none)
    (spans : ∀ w, next.spanOf w = if w = own then some ownSpan else d.spanOf w)
    (reads : scope.ReadsBlock own ownSpan s t) : Followed scope next t := by
  obtain ⟨last, stop, block⟩ := reads
  have progress := block.inside.le
  obtain ⟨outside, beyond⟩ := block.contextAt opens h.outside
  rw [← stop] at outside beyond
  refine ⟨outside, fun {word} unread k le => ?_, fun {word span} read => ?_⟩
  · rw [spans] at unread
    split at unread
    · cases unread
    · next other =>
      rcases Nat.le_total k s.cursor with before | after
      · exact h.unread unread k before
      · exact fun here => other ((beyond k after le word).mp here).1
  · rw [spans] at read
    split at read
    · next same =>
      cases read
      subst same
      refine ⟨s.cursor, last, block, by omega, fun k le => ?_⟩
      rcases Nat.le_total k s.cursor with before | after
      · exact iff_of_false (h.unread unseen k before) (by omega)
      · simpa using beyond k after le word
    · next other =>
      obtain ⟨i, j, earlier, before, inBlock⟩ := h.read read
      refine ⟨i, j, earlier, by omega, fun k le => ?_⟩
      rcases Nat.le_total k s.cursor with before | after
      · exact inBlock k before
      · exact iff_of_false (fun here => other ((beyond k after le word).mp here).1) (by omega)

theorem Followed.round {next : Declarations} {t : ParserState} (h : Followed scope d s)
    (reads : Reads scope d s next t) : Followed scope next t := by
  cases reads with
  | flat same flat => exact h.flat same flat
  | block opens unseen spans reads => exact h.block opens unseen spans reads

theorem Reached.followed (inFile : scope.quotation = none) (h : Reached scope d s) :
    Followed scope d s := by
  induction h with
  | start => exact .start
  | round before more read ih => exact ih.round (yields_add inFile _ more read).reads

theorem Reached.inside (inFile : scope.quotation = none) (h : Reached scope d s) :
    s.cursor < scope.stream.size := by
  cases h with
  | start => exact scope.stream.nonempty
  | round before more read => exact (yields_add inFile _ more read).inside

end Declarations

namespace Lexer

theorem contexts_length (source : String) :
    (contexts source.toList).length = (tokenize source).length := contextsFrom_length _ _ _

theorem contextAt_of_contexts {source : String} {i : Nat} {ctx : Context}
    (h : (contexts source.toList)[i]? = some ctx) :
    (TokenStream.ofList (tokenize source)).contextAt i = ctx.core := by
  have before : (TokenStream.ofList (tokenize source)).between 0 i = (tokenize source).take i := by
    rw [TokenStream.between_eq, List.drop_zero, Nat.sub_zero]
    exact congrArg (List.take i) (TokenStream.toList_ofList_tokenize source)
  rw [TokenStream.contextAt, before]
  exact (core_of_contexts h).symm

end Lexer

/-- The lexer and the parser agree on the blocks. Of a source that is parsed, the lexer reads in the
    block of a word exactly the tokens after the opening brace of the block that the parser reads,
    up to and with its closing brace, and none if there is no such block. Where the parser is about
    to read a declaration the lexer was outside every block. -/
theorem Component.parse_blocks {source : String} {options : Options} {c : Component}
    (parsed : Component.parse source options = .ok c) :
    (Lexer.contexts source.toList).length = c.tokens.length ∧
      (∀ word span, c.program.spanOf word = some span →
        ∃ first last, (TokenStream.ofList c.tokens).BlockAt word span first last ∧
          span = ⟨((TokenStream.ofList c.tokens).get first).span.start,
            ((TokenStream.ofList c.tokens).get last).span.stop⟩ ∧
          ∀ i ctx, (Lexer.contexts source.toList)[i]? = some ctx →
            (ctx.block = some word ↔ first + 1 < i ∧ i ≤ last)) ∧
      (∀ word, c.program.spanOf word = none →
        ∀ ctx ∈ Lexer.contexts source.toList, ctx.block ≠ some word) ∧
      (∃ t, Declarations.Reached ⟨.ofList c.tokens, options, none⟩ c.program.toDeclarations t ∧
        ((TokenStream.ofList c.tokens).get t.cursor).kind = .endOfFile) ∧
      ∀ d s, Declarations.Reached ⟨.ofList c.tokens, options, none⟩ d s →
        ∃ ctx, (Lexer.contexts source.toList)[s.cursor]? = some ctx ∧ ctx.blocks = [] := by
  obtain ⟨same, t, read⟩ := Component.parse_ok parsed
  rw [same]
  let scope : Scope := ⟨.ofList (tokenize source), options, none⟩
  have ordered : scope.stream.Ordered := TokenStream.ordered_tokenize source
  obtain ⟨reached, atEnd⟩ := Program.reached (rfl : scope.quotation = none) read
  have followed := reached.followed rfl
  have upTo {i : Nat} {ctx : Context} (h : (Lexer.contexts source.toList)[i]? = some ctx) :
      i ≤ t.cursor := by
    have inside := (List.getElem?_eq_some_iff.mp h).1
    rw [Lexer.contexts_length, ← TokenStream.size_ofList_tokenize] at inside
    exact Nat.le_of_lt_succ (Nat.lt_of_lt_of_le inside (TokenStream.size_le_of_endOfFile atEnd))
  have blocks {i : Nat} {ctx : Context} (h : (Lexer.contexts source.toList)[i]? = some ctx) :
      (scope.stream.contextAt i).block = ctx.block := by
    rw [Lexer.contextAt_of_contexts h]
    rfl
  refine ⟨Lexer.contexts_length source, fun word span has => ?_, fun word unread ctx member => ?_,
    ⟨t, reached, atEnd⟩, fun d s before => ?_⟩
  · obtain ⟨first, last, block, -, inBlock⟩ := followed.read has
    refine ⟨first, last, block, block.span_eq ordered, fun i ctx h => ?_⟩
    rw [← blocks h]
    exact inBlock i (upTo h)
  · obtain ⟨i, h⟩ := List.mem_iff_getElem?.mp member
    rw [← blocks h]
    exact followed.unread unread i (upTo h)
  · have inside := before.inside rfl
    rw [TokenStream.size_ofList_tokenize, ← Lexer.contexts_length] at inside
    refine ⟨_, List.getElem?_eq_getElem inside, ?_⟩
    rw [← Context.core_blocks, ← Lexer.contextAt_of_contexts (List.getElem?_eq_getElem inside)]
    exact (before.followed rfl).outside

/-- The view block is over where the style block begins. -/
theorem Component.parse_blocks_view :
    ∃ c span first last,
      Component.parse "view { p(x) }\nstyle { }" .standard = .ok c ∧
      c.program.spanOf .view = some span ∧
      (TokenStream.ofList c.tokens).BlockAt .view span first last ∧
      ∀ i ctx, (Lexer.contexts "view { p(x) }\nstyle { }".toList)[i]? = some ctx →
        (ctx.block = some .view ↔ first + 1 < i ∧ i ≤ last) := by
  generalize hs : "view { p(x) }\nstyle { }" = source
  have read : ((Component.parse source .standard).toOption.bind (·.program.spanOf .view)).isSome := by
    subst hs
    decide +kernel
  cases parsed : Component.parse source .standard with
  | error e =>
    rw [parsed] at read
    cases read
  | ok c =>
    rw [parsed] at read
    obtain ⟨span, has⟩ := Option.isSome_iff_exists.mp read
    obtain ⟨first, last, block, -, inBlock⟩ := (Component.parse_blocks parsed).2.1 .view span has
    exact ⟨c, span, first, last, rfl, has, block, inBlock⟩

end PulseSyntax
