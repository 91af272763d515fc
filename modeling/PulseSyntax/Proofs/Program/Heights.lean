import PulseSyntax.Proofs.Expr.Complete
import PulseSyntax.Proofs.Expr.Nesting
import PulseSyntax.Proofs.Program.Functions
import PulseSyntax.Proofs.Program.Values

namespace PulseSyntax

open PulseSyntax.Parser

def TextPart.expression? : TextPart → Option Expr
  | literal _ => none
  | interpolation _ e => some e

def Fragment.expressions : Fragment → List Expr
  | body .. => []
  | expression e => [e]
  | text t => t.parts.filterMap TextPart.expression?

/-- The expressions that are declared, with those between the braces of texts. -/
def Declarations.expressions (d : Declarations) : List Expr :=
  d.fragments.flatMap Fragment.expressions

theorem Declarations.mem_expressions {d : Declarations} {e : Expr} :
    e ∈ d.expressions ↔ .expression e ∈ d.fragments ∨
      ∃ t source, .text t ∈ d.fragments ∧ .interpolation source e ∈ t.parts := by
  rw [expressions, List.mem_flatMap]
  constructor
  · rintro ⟨f, member, own⟩
    cases f with
    | body owner r => cases own
    | expression e' =>
      obtain rfl := List.mem_singleton.mp own
      exact .inl member
    | text t =>
      obtain ⟨part, inText, same⟩ := List.mem_filterMap.mp own
      cases part with
      | literal value => cases same
      | interpolation source e' =>
        cases same
        exact .inr ⟨t, source, member, inText⟩
  · rintro (member | ⟨t, source, member, inText⟩)
    · exact ⟨_, member, List.mem_singleton_self e⟩
    · exact ⟨_, member, List.mem_filterMap.mpr ⟨_, inText, rfl⟩⟩

namespace Scope

variable {scope : Scope} {e : Expr}

theorem HasExpr.nesting_le (h : scope.HasExpr e) : e.nesting ≤ 10 * scope.options.maxDepth + 1 := by
  cases h with
  | read h => exact Nat.le_succ_of_le (Expr.nesting_le_of_reads h)
  | spread h => exact Nat.succ_le_succ (Expr.nesting_le_of_reads h)
  | flag => exact Nat.zero_le _

theorem HasText.nesting_le {t : TextNode} (h : scope.HasText t) {source : String}
    (inText : .interpolation source e ∈ t.parts) : e.nesting ≤ 10 * scope.options.maxDepth := by
  obtain ⟨i, start, hole, -, -, -, read⟩ := h source e inText
  have inner := Expr.nesting_le_of_reads (reads_of_readHole read)
  exact inner

end Scope

/-- Ten nodes for each level that is allowed, one more for what spreads the whole, and the links of a
    chain for each of these: so high are the trees at most. -/
theorem Component.parse_height_le {source : String} {options : Options} {c : Component}
    (parsed : Component.parse source options = .ok c) :
    ∀ e ∈ c.program.expressions, e.nesting ≤ 10 * options.maxDepth + 1 ∧
      ∀ limit, (∀ node ∈ e.nodes, node.links ≤ limit) →
        e.height ≤ (10 * options.maxDepth + 1) * (limit + 1) + limit := by
  obtain ⟨-, t, read⟩ := Component.parse_ok parsed
  let scope : Scope := ⟨.ofList (tokenize source), options, none⟩
  have has := ((Program.reached (rfl : scope.quotation = none) read).1.captured rfl).has
  intro e member
  have nesting : e.nesting ≤ 10 * options.maxDepth + 1 := by
    rcases Declarations.mem_expressions.mp member with own | ⟨t, part, own, inText⟩
    · have expression : scope.HasExpr e := has _ own
      exact expression.nesting_le
    · have text : scope.HasText t := has _ own
      exact Nat.le_succ_of_le (text.nesting_le inText)
  exact ⟨nesting, fun limit short => (Expr.fits e short).mono nesting⟩

/-- The chain `f(x)[0].a` and the sum beside it, with two levels. -/
theorem Component.parse_height_le_chain :
    ∃ c e, Component.parse "state { a: f(x)[0].a + 1 }" ⟨true, 2⟩ = .ok c ∧
      c.program.expressions = [e] ∧ e.height = 4 ∧ e.links = 4 ∧ e.nesting ≤ 10 * 2 + 1 ∧
      ∀ limit, (∀ node ∈ e.nodes, node.links ≤ limit) →
        e.height ≤ (10 * 2 + 1) * (limit + 1) + limit := by
  generalize hs : "state { a: f(x)[0].a + 1 }" = source
  have read : (Component.parse source ⟨true, 2⟩).toOption.map
      (fun c => c.program.expressions.map fun e => (e.height, e.links)) = some [(4, 4)] := by
    subst hs
    decide +kernel
  cases parsed : Component.parse source ⟨true, 2⟩ with
  | error e =>
    rw [parsed] at read
    cases read
  | ok c =>
    rw [parsed] at read
    obtain ⟨e, only, same⟩ := List.map_eq_singleton_iff.mp (Option.some.inj read)
    have member : e ∈ c.program.expressions := by simp [only]
    obtain ⟨nesting, height⟩ := Component.parse_height_le parsed e member
    obtain ⟨high, links⟩ := Prod.mk.inj same
    exact ⟨c, e, rfl, only, high, links, nesting, height⟩

open Lexeme in
def sumText : Nat → List Lexeme
  | 0 => [word "x"]
  | n + 1 => sumText n ++ [symbol .plus, word "x"]

namespace Expr

theorem derives_sum (levels n : Nat) {ts : List Token} (own : ts.map Token.own = sumText n) :
    ∃ e, Derives levels (.expr 5 e) ts ∧ e.height = n := by
  have name {t : Token} (own : t.own = .word "x") : Derives levels (.expr 0 (.ofName t)) [t] := by
    have kind : t.kind = .identifier := congrArg Lexeme.kind own
    exact .name (by rw [kind]; rfl)
  induction n generalizing ts with
  | zero =>
    obtain ⟨t, rfl, first⟩ := List.map_eq_singleton_iff.mp own
    exact ⟨_, (name first).widen (by omega) (by omega) nofun, rfl⟩
  | succ n ih =>
    obtain ⟨left, right, rfl, first, second⟩ := List.map_eq_append_iff.mp own
    obtain ⟨sign, right, rfl, plus, last⟩ := List.map_eq_cons_iff.mp second
    obtain ⟨t, rfl, word⟩ := List.map_eq_singleton_iff.mp last
    obtain ⟨e, operand, height⟩ := ih first
    have kind : sign.kind = .symbol BinaryOp.add.symbol := congrArg Lexeme.kind plus
    refine ⟨mkBinary .add e (.ofName t), .binary operand kind ?_, ?_⟩
    · exact (name word).widen (by omega) (by decide) nofun
    · simp [mkBinary, ofName, height]

end Expr

theorem restores_sum {stream : TokenStream} {options : Options} (some : 0 < options.maxDepth)
    (n : Nat) :
    Restores ⟨stream, options, none⟩ 0 (Lexeme.spaced (sumText n)) ClosesNext Expr.parser
      (·.height = n) := by
  intro pos s rest here tokens closes
  have own : (Lexer.placed pos (Lexeme.spaced (sumText n))).map Token.own = sumText n :=
    (Lexeme.placed_map_own _ _).trans (Lexeme.filterMap_spaced _)
  obtain ⟨e, derives, height⟩ := Expr.derives_sum (options.maxDepth - 1) n own
  refine ⟨e, (derives.widen (by omega) (by omega) nofun).parser tokens ?_ ?_, height⟩
  · rw [closes]
    decide
  · rw [here]
    dsimp only
    omega

theorem lexemes_sum (n : Nat) :
    ∀ l ∈ sumText n, l.IsStable Context.InCode ∧ l.kind.isBrace = false := by
  have word : (Lexeme.word "x").IsStable Context.InCode :=
    Lexeme.stable_word ⟨'x', [], rfl, by decide, nofun⟩
  have plus : (Lexeme.symbol .plus).IsStable Context.InCode :=
    (Lexer.stable_symbol (by decide)).mono fun _ here => here.noStyle
  induction n with
  | zero => simpa [sumText] using ⟨word, by decide⟩
  | succ n ih =>
    rw [sumText]
    refine List.forall_mem_append.mpr ⟨ih, ?_⟩
    simpa using ⟨⟨plus, by decide⟩, word, by decide⟩

theorem Component.exists_parse_height {options : Options} (some : 0 < options.maxDepth) (n : Nat) :
    ∃ source c e, Component.parse source options = .ok c ∧ e ∈ c.program.expressions ∧
      e.height = n := by
  obtain ⟨c, b, p, parsed, state, one, height⟩ := Component.parse_stateOf
    (fun l member => (lexemes_sum n l member).1) (fun l member => (lexemes_sum n l member).2)
    fun _ => restores_sum some n
  refine ⟨_, c, p.value, parsed, Declarations.mem_expressions.mpr (.inl ?_), height⟩
  simp [Declarations.fragments, state, PropertyBlock.fragments, one, Property.fragments]

/-- No bound on the height depends on the limit of the nesting alone. -/
theorem Component.parse_height_unbounded :
    ¬ ∃ bound : Nat → Nat, ∀ source options c, Component.parse source options = .ok c →
      ∀ e ∈ c.program.expressions, e.height ≤ bound options.maxDepth := by
  rintro ⟨bound, within⟩
  obtain ⟨source, c, e, parsed, member, height⟩ :=
    Component.exists_parse_height (show 0 < (Options.mk true 1).maxDepth by decide) (bound 1 + 1)
  have le := within _ _ c parsed e member
  rw [height] at le
  exact Nat.not_succ_le_self _ le

end PulseSyntax
