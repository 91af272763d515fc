import PulseSyntax.Proofs.Expr.Edges
import PulseSyntax.Proofs.Expr.Stands
import PulseSyntax.Proofs.Outline.Fragments

namespace PulseSyntax

/-- The span goes over the tokens from index `i` up to `j`, but for parentheses that open before it
    and parentheses that close after it. -/
def TokenStream.Trims (stream : TokenStream) (i j : Nat) (a : Span) : Prop :=
  ∃ first last, i ≤ first ∧ first ≤ last ∧ last < j ∧
    (∀ k, i ≤ k → k < first → (stream.get k).kind = .symbol .openParen) ∧
    (∀ k, last < k → k < j → (stream.get k).kind = .symbol .closeParen) ∧
    a = ⟨(stream.get first).span.start, (stream.get last).span.stop⟩

namespace TokenStream.Trims

variable {stream : TokenStream} {i j k l : Nat} {a b : Span}

theorem lt (h : stream.Trims i j a) : i < j := by
  obtain ⟨first, last, hi, hl, hj, -⟩ := h
  omega

theorem token (stream : TokenStream) (i : Nat) : stream.Trims i (i + 1) (stream.get i).span :=
  ⟨i, i, Nat.le_refl _, Nat.le_refl _, Nat.lt_succ_self _, fun _ _ _ => by omega,
    fun _ _ _ => by omega, rfl⟩

theorem group (h : stream.Trims (i + 1) j a) (ho : (stream.get i).kind = .symbol .openParen)
    (hc : (stream.get j).kind = .symbol .closeParen) : stream.Trims i (j + 1) a := by
  obtain ⟨first, last, hi, hl, hj, before, after, rfl⟩ := h
  refine ⟨first, last, by omega, hl, by omega, fun k hk hk' => ?_, fun k hk hk' => ?_, rfl⟩
  · rcases Nat.eq_or_lt_of_le hk with rfl | lt
    · exact ho
    · exact before k lt hk'
  · rcases Nat.eq_or_lt_of_le (Nat.le_of_lt_succ hk') with rfl | lt
    · exact hc
    · exact after k hk lt

theorem cover (ordered : stream.Ordered) (h : stream.Trims i j a) (h' : stream.Trims k l b)
    (apart : j ≤ k) : stream.Trims i l (a.cover b) := by
  obtain ⟨first, last, hi, hl, hj, before, -, rfl⟩ := h
  obtain ⟨first', last', hi', hl', hj', -, after, rfl⟩ := h'
  refine ⟨first, last', hi, by omega, hj', before, after, ?_⟩
  have starts := ordered.start_le_start (show first ≤ first' by omega)
  have stops := ordered.stop_le_stop (show last ≤ last' by omega)
  simp [Span.cover, Nat.min_eq_left starts, Nat.max_eq_right stops]

theorem liesIn (h : stream.Trims i j a) (ordered : stream.Ordered)
    (after : i ≤ k) (before : k < j) (opening : (stream.get k).kind ≠ .symbol .openParen)
    (closing : (stream.get k).kind ≠ .symbol .closeParen) : (stream.get k).span.LiesIn a := by
  obtain ⟨first, last, -, -, -, parens, parens', rfl⟩ := h
  have least : first ≤ k := by
    by_contra less
    exact opening (parens k after (by omega))
  have most : k ≤ last := by
    by_contra more
    exact closing (parens' k (by omega) before)
  exact ⟨ordered.start_le_start least, ordered.proper k, ordered.stop_le_stop most⟩

end TokenStream.Trims

namespace Expr

variable {scope : Scope} {piece : Piece} {i j : Nat}

/-- The span of the piece goes over its tokens, but for parentheses at its ends. Of the body of a
    function it is the last part. -/
def Piece.Trims (scope : Scope) (i j : Nat) : Piece → Prop
  | .expr e | .item e => scope.stream.Trims i j e.span
  | .body _ close => ∃ k, i ≤ k ∧ scope.stream.Trims k j close
  | .params _ | .items _ | .key _ | .member _ | .members _ => True

theorem Stands.trims (ordered : scope.stream.Ordered) (h : Stands scope piece i j) :
    piece.Trims scope i j := by
  have token {i : Nat} := TokenStream.Trims.token scope.stream i
  induction h with
  | name | importName => exact token
  | literal read =>
    have own := literalOf?_span read
    simpa only [Piece.Trims, own] using token
  | group ho _ hc ih => exact ih.group ho hc
  | array _ inner | object _ inner =>
    exact token.cover ordered token (inner.edges ordered)
  | arrow list _ _ inner _ ih | asyncArrow _ _ list _ _ inner _ ih =>
    have params : _ ≤ _ := list.edges ordered
    obtain ⟨k, le, last⟩ := ih
    exact token.cover ordered last (by omega)
  | parsedBody _ _ ih => exact ⟨_, Nat.le_refl _, ih⟩
  | item _ ih => exact ih
  | block first delimits =>
    have le := delimits.matched.le
    exact ⟨_, by omega, token⟩
  | property operand _ _ ih =>
    exact ih.cover ordered token (Nat.le_succ _)
  | index _ dotted _ inner _ ih =>
    have := dotted.le
    have : scope.stream.Edges _ _ _ := inner.edges ordered
    have := this.lt
    exact ih.cover ordered token (by omega)
  | call _ dotted _ inner _ ih =>
    have := dotted.le
    have : _ ≤ _ := inner.edges ordered
    exact ih.cover ordered token (by omega)
  | updateAfter _ _ _ ih => exact ih.cover ordered token (Nat.le_refl _)
  | unary _ _ ih | updateBefore _ _ _ ih | spreadItem _ _ ih =>
    exact token.cover ordered ih (Nat.le_refl _)
  | binary _ _ _ left right | assignment _ _ _ _ left right =>
    exact left.cover ordered right (Nat.le_succ _)
  | conditional _ _ _ _ _ test one other =>
    have := one.lt
    exact test.cover ordered other (by omega)
  | _ => trivial

theorem stood_of_reads {e : Expr} (h : scope.Reads e) : ∀ node ∈ e.nodes, Stood scope node := by
  obtain ⟨s, t, read⟩ := h
  have own := parser_sound scope s read
  exact List.forall_mem_cons.mpr ⟨own.stood, own.inner_stood⟩

end Expr

end PulseSyntax
