import PulseSyntax.Proofs.Expr.Moved
import PulseSyntax.Proofs.Markup.Holes
import PulseSyntax.Proofs.Token.Order

namespace PulseSyntax

open PulseSyntax.Parser

/-- A source, with the spans of its tokens. -/
def Quotation.of (source : List Char) : Quotation :=
  ⟨source, (Lexer.tokens source).map (·.span)⟩

/-- The expression that a source is on its own, if all of its tokens write one. -/
def Expr.alone? (options : Options) (source : List Char) : Option Expr :=
  let scope : Scope := ⟨.ofList (Lexer.tokens source), options, none⟩
  match Expr.parser scope .initial with
  | .ok e s => if (scope.stream.get s.cursor).kind = .endOfFile then some e else none
  | .error _ _ => none

theorem Expr.alone?_eq_some {options : Options} {source : List Char} {e : Expr} :
    alone? options source = some e ↔
      ∃ s, Expr.parser ⟨.ofList (Lexer.tokens source), options, none⟩ .initial = .ok e s ∧
        ((TokenStream.ofList (Lexer.tokens source)).get s.cursor).kind = .endOfFile := by
  unfold alone?
  dsimp only
  cases Expr.parser ⟨.ofList (Lexer.tokens source), options, none⟩ .initial with
  | ok x s =>
    simp only [Option.ite_none_right_eq_some, Option.some.injEq, Reply.ok.injEq]
    constructor
    · rintro ⟨ends, same⟩
      exact ⟨s, ⟨same, rfl⟩, ends⟩
    · rintro ⟨_, ⟨same, rfl⟩, ends⟩
      exact ⟨ends, same⟩
  | error x s => simp

namespace Expr

section

variable {scope : Scope} {s t : ParserState} {nested : Nested} {e : Expr}
variable {Q : Expr → ParserState → Prop}

theorem primary_endOfFile (h : (scope.stream.get s.cursor).kind = .endOfFile) :
    Yields (primary nested) scope s Q := by
  simp [primary, literalOf?, startsAsyncArrow, startsArrow, nameOrBrackets, readsAsName, h,
    TokenKind.isName, TokenKind.isContextualKeyword]

theorem binaryAt_endOfFile (h : (scope.stream.get s.cursor).kind = .endOfFile) (level : Nat) :
    Yields (binaryAt (unaryAt nested) level) scope s Q := by
  induction level generalizing Q with
  | zero =>
    rw [binaryAt, unaryAt, yields_bind, yields_current, h]
    simp only [UnaryOp.ofKind?, UpdateOp.ofKind?, postfixed, linked, yields_bind]
    exact primary_endOfFile h
  | succ level ih =>
    rw [binaryAt, yields_bind]
    exact ih

theorem parser_endOfFile (h : (scope.stream.get s.cursor).kind = .endOfFile) :
    parser scope s ≠ .ok e t := by
  intro ok
  change parserWithin (scope.options.maxDepth - s.depth) scope s = _ at ok
  generalize scope.options.maxDepth - s.depth = levels at ok
  cases levels with
  | zero => exact fail_ne_ok ok
  | succ levels =>
    obtain ⟨u, inner, -⟩ := deeper_eq_ok.mp ok
    rw [assignmentAt, bind_eq_ok] at inner
    obtain ⟨_, _, inner, -⟩ := inner
    rw [conditionalAt, bind_eq_ok] at inner
    obtain ⟨_, _, inner, -⟩ := inner
    exact binaryAt_endOfFile (s := ⟨s.cursor, s.depth + 1⟩) (Q := fun _ _ => False) h _ inner

end

end Expr

theorem Text.isBlank_of_trim {text : List Char} (h : trim text = []) : ∀ c ∈ text, isBlank c := by
  have rest : text.dropWhile isBlank = [] := by
    by_contra some
    have first := List.head_dropWhile_not isBlank some
    rw [trim, trimEnd, List.reverse_eq_nil_iff, List.dropWhile_eq_nil_iff] at h
    have blank := h _ (List.mem_reverse.mpr (List.head_mem some))
    rw [first] at blank
    cases blank
  exact List.dropWhile_eq_nil_iff.mp rest

theorem Lexer.tokens_of_blank {source : List Char} (h : ∀ c ∈ source, Text.isBlank c) :
    tokens source = [.endOfFile (Position.origin.after source)] := by
  cases source with
  | nil => rfl
  | cons c cs =>
    have blank : scan .initial c cs = [.trivia (c :: cs)] := by
      rw [scan, if_pos (h c List.mem_cons_self), List.takeWhile_eq_self_iff.mpr]
      exact fun d member => h d (List.mem_cons_of_mem c member)
    have whole : c :: cs = textOf (scan .initial c cs) ++ [] := by
      rw [blank, List.append_nil]
      simp [textOf]
    rw [tokens, pieces_scan whole, blank]
    rfl

theorem Expr.not_blank_of_alone? {options : Options} {source : List Char} {e : Expr}
    (h : alone? options source = some e) : Text.trim source ≠ [] := by
  intro blank
  obtain ⟨s, read, -⟩ := alone?_eq_some.mp h
  rw [Lexer.tokens_of_blank (Text.isBlank_of_trim blank)] at read
  exact parser_endOfFile rfl read

namespace TokenStream

theorem toList_ofList_of_content {source : List Char} {own : List Token}
    (h : own.map Token.content = (Lexer.tokens source).map Token.content) :
    (ofList own).toList = own := by
  obtain ⟨init, whole, -⟩ := (laid_tokens source).ends
  rw [whole, List.map_append, List.map_eq_append_iff] at h
  obtain ⟨init', last, rfl, -, last_eq⟩ := h
  obtain ⟨t, rfl, content⟩ := List.map_eq_singleton_iff.mp last_eq
  exact toList_ofList (Token.kind_of_content content)

end TokenStream

namespace TextNode

theorem moved (options : Options) (t : Token) (start : Nat) (source : List Char) :
    Scope.Moved (.of source) ⟨.ofList (Lexer.tokens source), options, none⟩
      ⟨.ofList (holeTokens t start source), options, some (.of source)⟩ := by
  have alone := TokenStream.toList_ofList_of_content (rfl : (Lexer.tokens source).map _ = _)
  have quoted := TokenStream.toList_ofList_of_content (holeTokens_content t start source)
  refine ⟨?_, fun i j line => ?_, rfl, rfl, rfl⟩
  · rw [alone, quoted, holeTokens_content]
  · dsimp only at line ⊢
    by_cases verbatim : isVerbatim t
    · have embedded := quoted.trans (holeTokens_embed verbatim start source)
      rw [← alone, ← List.map_id (TokenStream.toList _)] at embedded
      have embedded (i : Nat) := TokenStream.get_congr embedded i
      simp only [id_eq] at embedded
      rw [embedded, embedded]
      simp only [Token.embed, Token.line, Position.embed] at line ⊢
      rw [line]
    · have here (i : Nat) : ((TokenStream.ofList (holeTokens t start source)).get i).place =
          t.place := by
        have member := TokenStream.get_mem (.ofList (holeTokens t start source)) i
        rw [quoted] at member
        exact holeTokens_place verbatim _ member
      rw [Token.line, Token.line, here, here]

theorem readHole_of_alone? {options : Options} {source : List Char} {e : Expr}
    (alone : Expr.alone? options source = some e) (t : Token) (start : Nat) :
    ∃ e', readHole options t start source = .ok e' ∧ Expr.Same (.of source) e e' := by
  obtain ⟨s, read, ends⟩ := Expr.alone?_eq_some.mp alone
  have moved := moved options t start source
  rcases Expr.parser_follows moved .initial read with ⟨e', second, same⟩ | ⟨stalled, -⟩
  · refine ⟨e', ?_, same⟩
    have last : ((TokenStream.ofList (holeTokens t start source)).get s.cursor).kind =
        .endOfFile := (moved.kind s.cursor).symm.trans ends
    have whole : holeParser source
        ⟨.ofList (holeTokens t start source), options, some (.of source)⟩ .initial = .ok e' s := by
      rw [holeParser, bind_of_ok second, bind_of_ok current_apply, last]
      rfl
    rw [Quotation.of] at whole
    rw [readHole, run, whole]
  · exact absurd ends (stalled.kind_ne rfl)

end TextNode

end PulseSyntax
