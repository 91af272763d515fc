import PulseSyntax.Proofs.Token.Stream
import PulseSyntax.Token.Lexer

namespace PulseSyntax

namespace Lexer

/-- The context before each token of some pieces, and the one before the end of the file. -/
def contextsFrom : Context → List Piece → List Context
  | ctx, [] => [ctx]
  | ctx, .trivia text :: rest => contextsFrom (ctx.after (.trivia text)) rest
  | ctx, .lexeme kind value text :: rest =>
    ctx :: contextsFrom (ctx.after (.lexeme kind value text)) rest

/-- The contexts in which the tokens of a source are read. -/
def contexts (source : List Char) : List Context := contextsFrom .initial (pieces .initial 0 source)

end Lexer

namespace Context

/-- A context but for the character before it, which is all that white space and comments change. -/
def core (ctx : Context) : Context := { ctx with lastChar := none }

@[simp] theorem core_blocks (ctx : Context) : ctx.core.blocks = ctx.blocks := rfl

@[simp] theorem core_block (ctx : Context) : ctx.core.block = ctx.block := rfl

@[simp] theorem core_parens (ctx : Context) : ctx.core.parens = ctx.parens := rfl

@[simp] theorem core_lastKind (ctx : Context) : ctx.core.lastKind = ctx.lastKind := rfl

theorem core_afterKind (ctx : Context) (kind : TokenKind) :
    (ctx.afterKind kind).core = (ctx.core.afterKind kind).core := by
  unfold afterKind
  split <;> rfl

theorem core_after_lexeme (ctx : Context) (kind : TokenKind) (value : TokenValue)
    (text : List Char) :
    (ctx.after (.lexeme kind value text)).core = (ctx.core.afterKind kind).core :=
  core_afterKind ctx kind

/-- The context after some tokens, but for the character before it. -/
def through (ctx : Context) (tokens : List Token) : Context :=
  tokens.foldl (fun ctx t => (ctx.afterKind t.kind).core) ctx

theorem through_append (ctx : Context) (xs ys : List Token) :
    ctx.through (xs ++ ys) = (ctx.through xs).through ys := List.foldl_append

@[simp] theorem afterKind_lastKind (ctx : Context) (kind : TokenKind) :
    (ctx.afterKind kind).lastKind = some kind := by
  unfold afterKind
  split <;> rfl

theorem through_lastKind (ctx : Context) (tokens : List Token) :
    (ctx.through tokens).lastKind = (tokens.getLast?.map (·.kind)).or ctx.lastKind := by
  rcases List.eq_nil_or_concat tokens with rfl | ⟨before, t, rfl⟩
  · rfl
  · rw [List.concat_eq_append, through_append, List.getLast?_concat]
    exact afterKind_lastKind _ _

theorem afterKind_blocks_of_plain (ctx : Context) {kind : TokenKind} (h : kind.isBrace = false) :
    (ctx.afterKind kind).blocks = ctx.blocks := by
  unfold afterKind
  split
  · cases h
  · cases h
  all_goals rfl

theorem through_blocks_of_plain (ctx : Context) {tokens : List Token}
    (plain : ∀ t ∈ tokens, t.kind.isBrace = false) : (ctx.through tokens).blocks = ctx.blocks := by
  induction tokens generalizing ctx with
  | nil => rfl
  | cons t tokens ih =>
    obtain ⟨first, others⟩ := List.forall_mem_cons.mp plain
    calc (ctx.through (t :: tokens)).blocks
      _ = (ctx.afterKind t.kind).core.blocks := ih _ others
      _ = ctx.blocks := afterKind_blocks_of_plain ctx first

theorem afterKind_blocks_opening (ctx : Context) :
    (ctx.afterKind (.symbol .openBrace)).blocks = ctx.opened :: ctx.blocks := rfl

theorem afterKind_blocks_closing (ctx : Context) :
    (ctx.afterKind (.symbol .closeBrace)).blocks = ctx.blocks.tail := rfl

theorem opened_of_word {ctx : Context} {word : Keyword} (none : ctx.blocks = [])
    (last : ctx.lastKind = some (.keyword word)) (opens : word.opensBlock) :
    ctx.opened = some word := by
  simp [opened, none, last, opens]

theorem opened_eq_none {ctx : Context} (none : ctx.blocks = [])
    (last : ∀ kind ∈ ctx.lastKind, kind.opensBlock = false) : ctx.opened = Option.none := by
  simp only [opened, none]
  split
  · next word _ same =>
    have plain : word.opensBlock = false := last _ same
    rw [plain, if_neg Bool.false_ne_true]
  · rfl
  · contradiction

theorem through_blocks {ctx : Context} {block : Option Keyword} {depth d : Nat}
    (h : ctx.blocks = List.replicate (depth + 1) block) {tokens : List Token}
    (braces : openBraces? depth tokens = some d) :
    (ctx.through tokens).blocks = List.replicate (d + 1) block := by
  induction tokens generalizing ctx depth with
  | nil =>
    cases braces
    exact h
  | cons t tokens ih =>
    rw [openBraces?_cons] at braces
    obtain ⟨next, first, rest⟩ := Option.bind_eq_some_iff.mp braces
    refine ih ?_ rest
    rw [core_blocks]
    cases hb : t.kind.isBrace with
    | false =>
      rw [openBraces?_plain hb] at first
      cases first
      rw [afterKind_blocks_of_plain _ hb, h]
    | true =>
      rcases TokenKind.eq_of_isBrace hb with opening | closing
      · rw [openBraces?_opening opening] at first
        cases first
        rw [opening, afterKind_blocks_opening, h]
        simp [opened, h, List.replicate_succ]
      · cases depth with
        | zero => simp [openBraces?, closing] at first
        | succ depth =>
          rw [openBraces?_closing closing] at first
          cases first
          rw [closing, afterKind_blocks_closing, h]
          rfl

end Context

namespace Lexer

theorem contextsFrom_length (ctx : Context) (p : Position) (pieces : List Piece) :
    (contextsFrom ctx pieces).length = (place p pieces).length := by
  induction pieces generalizing ctx p with
  | nil => rfl
  | cons piece rest ih =>
    cases piece with
    | trivia text => exact ih _ _
    | lexeme kind value text => exact congrArg Nat.succ (ih _ _)

theorem core_of_contextsFrom {ctx c : Context} {p : Position} {pieces : List Piece} {i : Nat}
    (h : (contextsFrom ctx pieces)[i]? = some c) :
    c.core = ctx.core.through ((place p pieces).take i) := by
  induction pieces generalizing ctx p i with
  | nil =>
    cases i with
    | zero => cases h; rfl
    | succ i => cases h
  | cons piece rest ih =>
    cases piece with
    | trivia text => exact @ih (ctx.after (.trivia text)) (p.after text) i h
    | lexeme kind value text =>
      cases i with
      | zero => cases h; rfl
      | succ i =>
        have next := @ih (ctx.after (.lexeme kind value text)) (p.after text) i h
        rw [Context.core_after_lexeme] at next
        exact next

theorem core_of_contexts {source : List Char} {i : Nat} {ctx : Context}
    (h : (contexts source)[i]? = some ctx) :
    ctx.core = Context.initial.through ((tokens source).take i) := core_of_contextsFrom h

theorem exists_context {source : List Char} {i : Nat} {t : Token}
    (h : (tokens source)[i]? = some t) : ∃ ctx, (contexts source)[i]? = some ctx := by
  have inside : i < (contexts source).length := by
    rw [contexts, contextsFrom_length _ .origin]
    exact (List.getElem?_eq_some_iff.mp h).1
  exact ⟨_, List.getElem?_eq_getElem inside⟩

end Lexer

end PulseSyntax
