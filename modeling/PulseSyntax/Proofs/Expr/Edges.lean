import PulseSyntax.Proofs.Expr.Stands
import PulseSyntax.Proofs.Source.Slice

namespace PulseSyntax

/-- The span starts with one of the tokens from index `i` up to `j`, and stops with one of them. -/
structure TokenStream.Edges (stream : TokenStream) (i j : Nat) (a : Span) : Prop where
  start : ∃ k, i ≤ k ∧ k < j ∧ a.start = (stream.get k).span.start
  stop : ∃ k, a.stop = (stream.get k).span.stop
  proper : a.start ≤ a.stop

namespace TokenStream

variable {stream : TokenStream} {i j k l : Nat} {a b : Span}

theorem get_mem_tokenize (source : String) (i : Nat) :
    (ofList (tokenize source)).get i ∈ tokenize source := by
  have member := get_mem (ofList (tokenize source)) i
  rwa [toList_ofList_tokenize] at member

theorem get_standsIn (source : String) (i : Nat) :
    ((ofList (tokenize source)).get i).StandsIn source.toList :=
  (laid_tokens source.toList).standsIn _ (get_mem_tokenize source i)

namespace Edges

theorem token (ordered : stream.Ordered) (i : Nat) : stream.Edges i (i + 1) (stream.get i).span :=
  ⟨⟨i, Nat.le_refl _, Nat.lt_succ_self _, rfl⟩, ⟨i, rfl⟩, ordered.proper i⟩

theorem widen (h : stream.Edges i j a) (before : k ≤ i) (after : j ≤ l) : stream.Edges k l a := by
  obtain ⟨⟨m, first, last, start⟩, stop, proper⟩ := h
  exact ⟨⟨m, by omega, by omega, start⟩, stop, proper⟩

theorem cover (h : stream.Edges i j a) (h' : stream.Edges i j b) : stream.Edges i j (a.cover b) where
  start := by
    rcases Nat.le_total a.start b.start with le | le
    · simpa [Span.cover, Nat.min_eq_left le] using h.start
    · simpa [Span.cover, Nat.min_eq_right le] using h'.start
  stop := by
    rcases Nat.le_total b.stop a.stop with le | le
    · simpa [Span.cover, Nat.max_eq_left le] using h.stop
    · simpa [Span.cover, Nat.max_eq_right le] using h'.stop
  proper := by
    have := h.proper
    simp only [Span.cover]
    omega

theorem tokens (ordered : stream.Ordered) (hk : i ≤ k) (hk' : k < j) (hl : i ≤ l) (hl' : l < j) :
    stream.Edges i j ((stream.get k).span.cover (stream.get l).span) :=
  ((token ordered k).widen hk hk').cover ((token ordered l).widen hl hl')

theorem lt (h : stream.Edges i j a) : i < j := by
  obtain ⟨⟨k, _, _, _⟩, -, -⟩ := h
  omega

theorem start_lt {source : String} (h : (ofList (tokenize source)).Edges i j a) (le : j ≤ k)
    (inside : ((ofList (tokenize source)).get k).kind ≠ .endOfFile) :
    a.start < ((ofList (tokenize source)).get k).span.start := by
  obtain ⟨⟨m, _, last, start⟩, -, -⟩ := h
  have ordered := ordered_tokenize source
  have later := lt_size_of_kind_ne inside
  have disjoint := ordered.disjoint (show m < k by omega) (by omega)
  have nonempty := ordered.nonempty (i := m) fun atEnd => by
    have beyond := size_le_of_endOfFile atEnd
    omega
  omega

theorem slice {source : String} (h : (ofList (tokenize source)).Edges i j a) :
    ∃ own, Text.slice? source.toList a.start a.stop = some own := by
  obtain ⟨⟨k, -, -, start⟩, ⟨l, stop⟩, proper⟩ := h
  obtain ⟨first, taken, -⟩ := Text.takeBytes?_of_slice? (get_standsIn source k).raw
  obtain ⟨second, -, taken'⟩ := Text.takeBytes?_of_slice? (get_standsIn source l).raw
  rw [← start] at taken
  rw [← stop] at taken'
  obtain ⟨own, -, slice⟩ := Text.slice?_of_takeBytes? taken taken' proper
  exact ⟨own, slice⟩

end Edges

end TokenStream

namespace Expr

variable {scope : Scope} {piece : Piece} {i j : Nat}

/-- A span of the piece has its ends among the tokens of the piece. -/
def Piece.Edges (scope : Scope) (i j : Nat) : Piece → Prop
  | .expr e | .item e => scope.stream.Edges i j e.span
  | .body _ close => scope.stream.Edges i j close
  | .params _ | .items _ | .key _ | .member _ | .members _ => i ≤ j

theorem Dotted.le {optional : Bool} (h : Dotted scope optional i j) : i ≤ j := by
  cases h with
  | plain => exact Nat.le_refl _
  | optional => exact Nat.le_succ _

theorem literalOf?_span {t : Token} {e : Expr} (h : literalOf? t = some e) : e.span = t.span := by
  unfold literalOf? at h
  split at h <;> cases h <;> rfl

theorem Stands.edges (ordered : scope.stream.Ordered) (h : Stands scope piece i j) :
    piece.Edges scope i j := by
  have token {i j k : Nat} (hi : i ≤ k) (hj : k < j) :
      scope.stream.Edges i j (scope.stream.get k).span :=
    (TokenStream.Edges.token ordered k).widen hi hj
  induction h with
  | name | importName => exact .token ordered _
  | literal read =>
    have own := literalOf?_span read
    simpa only [Piece.Edges, own] using token (Nat.le_refl _) (Nat.lt_succ_self _)
  | group _ _ _ ih => exact ih.widen (Nat.le_succ _) (Nat.le_succ _)
  | array _ _ _ le | object _ _ _ le =>
    simp only [Piece.Edges] at le
    exact .tokens ordered (Nat.le_refl _) (by omega) (by omega) (Nat.lt_succ_self _)
  | arrow _ _ _ _ le ih | asyncArrow _ _ _ _ _ _ le ih =>
    simp only [Piece.Edges] at le ih
    have lt := ih.lt
    exact (token (Nat.le_refl _) (by omega)).cover (ih.widen (by omega) (Nat.le_refl _))
  | parsedBody _ _ ih | item _ ih => exact ih
  | block first delimits =>
    have le := delimits.matched.le
    exact token (by omega) (Nat.lt_succ_self _)
  | property _ _ _ ih =>
    have lt := ih.lt
    exact (ih.widen (Nat.le_refl _) (by omega)).cover (token (by omega) (by omega))
  | index _ dotted _ _ _ ih inner =>
    have := dotted.le
    have := ih.lt
    have := inner.lt
    exact (ih.widen (Nat.le_refl _) (by omega)).cover (token (by omega) (Nat.lt_succ_self _))
  | call _ dotted _ _ _ ih inner =>
    have := dotted.le
    have := ih.lt
    simp only [Piece.Edges] at inner
    exact (ih.widen (Nat.le_refl _) (by omega)).cover (token (by omega) (Nat.lt_succ_self _))
  | updateAfter _ _ _ ih =>
    have lt := ih.lt
    exact (ih.widen (Nat.le_refl _) (by omega)).cover (token (by omega) (by omega))
  | unary _ _ ih | updateBefore _ _ _ ih | spreadItem _ _ ih =>
    have lt := ih.lt
    exact (token (Nat.le_refl _) (by omega)).cover (ih.widen (by omega) (Nat.le_refl _))
  | binary _ _ _ left right | assignment _ _ _ _ left right =>
    have := left.lt
    have := right.lt
    exact (left.widen (Nat.le_refl _) (by omega)).cover (right.widen (by omega) (Nat.le_refl _))
  | conditional _ _ _ _ _ test one other =>
    have := test.lt
    have := one.lt
    have := other.lt
    exact (test.widen (Nat.le_refl _) (by omega)).cover (other.widen (by omega) (Nat.le_refl _))
  | bareParam | plainKey | shorthand => exact Nat.le_succ _
  | noItems | noMembers => exact Nat.le_refl _
  | paramList _ _ _ le =>
    simp only [Piece.Edges] at le ⊢
    omega
  | lastItem _ ih => exact Nat.le_of_lt ih.lt
  | lastMember _ ih => exact ih
  | computedKey _ _ _ ih | spreadMember _ _ ih =>
    have := ih.lt
    simp only [Piece.Edges]
    omega
  | moreItems _ _ _ first rest =>
    have := first.lt
    simp only [Piece.Edges] at rest ⊢
    omega
  | keyed _ _ _ first rest =>
    have := rest.lt
    simp only [Piece.Edges] at first ⊢
    omega
  | moreMembers _ _ _ first rest =>
    simp only [Piece.Edges] at first rest ⊢
    omega

end Expr

end PulseSyntax
