import PulseSyntax.Proofs.Outline.Fragments
import PulseSyntax.Proofs.Parser.Yields

namespace PulseSyntax

open PulseSyntax.Parser

namespace TokenStream.Open

variable {scope : Scope} {s : ParserState} {i depth : Nat} {kind : TokenKind}

theorem read (o : scope.stream.Open i s.cursor depth)
    (hk : (scope.stream.get s.cursor).kind = kind) (plain : kind.isBrace = false) :
    scope.stream.Open i (s.next scope).cursor depth := by
  by_cases he : (scope.stream.get s.cursor).kind = .endOfFile
  · rw [ParserState.next, if_pos he]
    exact o
  · rw [ParserState.next, if_neg he]
    exact o.snoc he (openBraces?_plain (hk ▸ plain))

theorem readName (o : scope.stream.Open i s.cursor depth)
    (name : (scope.stream.get s.cursor).kind.isName) :
    scope.stream.Open i (s.next scope).cursor depth :=
  o.read rfl (TokenKind.not_isBrace_of_isName name)

theorem readTwo {kind' : TokenKind} (o : scope.stream.Open i s.cursor depth)
    (hk : (scope.stream.get s.cursor).kind = kind) (he : kind ≠ .endOfFile)
    (plain : kind.isBrace = false) (hk' : (scope.stream.get (s.cursor + 1)).kind = kind')
    (plain' : kind'.isBrace = false) :
    scope.stream.Open i ((s.next scope).next scope).cursor depth := by
  have second : (scope.stream.get (s.next scope).cursor).kind = kind' := by
    rwa [ParserState.next_of_kind hk he]
  exact (o.read hk plain).read second plain'

theorem opening (o : scope.stream.Open i s.cursor depth)
    (hk : (scope.stream.get s.cursor).kind = .symbol .openBrace) :
    scope.stream.Open i (s.next scope).cursor (depth + 1) := by
  rw [ParserState.next_of_kind hk (by simp)]
  exact o.snoc (by simp [hk]) (openBraces?_opening hk)

theorem closing (o : scope.stream.Open i s.cursor (depth + 1))
    (hk : (scope.stream.get s.cursor).kind = .symbol .closeBrace) :
    scope.stream.Open i (s.next scope).cursor depth := by
  rw [ParserState.next_of_kind hk (by simp)]
  exact o.snoc (by simp [hk]) (openBraces?_closing hk)

end TokenStream.Open

namespace Parser

variable {α β σ : Type} {scope : Scope}

/-- An answer of which `P` holds, where as many braces are open since index `i`. -/
structure Leaves (scope : Scope) (i depth : Nat) (P : α → Prop) (a : α) (t : ParserState) :
    Prop where
  braces : scope.stream.Open i t.cursor depth
  answer : P a

/-- Where the parser succeeds it has read braces in pairs, and `P` holds of its answer. -/
def Balances (scope : Scope) (P : α → Prop) (p : Parser α) : Prop :=
  ∀ ⦃i depth s⦄, scope.stream.Open i s.cursor depth → Yields p scope s (Leaves scope i depth P)

namespace Balances

variable {P : α → Prop} {p : Parser α} {i depth : Nat} {s : ParserState}

theorem step (h : Balances scope P p) (o : scope.stream.Open i s.cursor depth)
    {Q : α → ParserState → Prop}
    (goOn : ∀ a t, scope.stream.Open i t.cursor depth → P a → Q a t) : Yields p scope s Q :=
  (h o).mono fun a t left => goOn a t left.braces left.answer

theorem stepOnward (h : Balances scope P p) (o : scope.stream.Open i s.cursor depth)
    {Q : α → ParserState → Prop}
    (goOn : ∀ a t, scope.stream.Open i t.cursor depth → P a → s.cursor ≤ t.cursor → Q a t) :
    Yields p scope s Q := fun a t ok =>
  goOn a t (h o ok).braces (h o ok).answer (h (.refl _ _) ok).braces.le

theorem deeper (h : Balances scope P p) : Balances scope P (deeper p) := by
  intro i depth s o a t ok
  obtain ⟨u, inner, rfl⟩ := deeper_eq_ok.mp ok
  have left := h (s := { s with depth := s.depth + 1 }) o inner
  exact ⟨left.braces, left.answer⟩

theorem withLevels {p : Nat → Parser α} (h : ∀ levels, Balances scope P (p levels)) :
    Balances scope P (withLevels p) :=
  fun _ _ s o => h (scope.options.maxDepth - s.depth) o

theorem loop {P : σ → Prop} {step : σ → Parser (ForInStep σ)}
    (h : ∀ a, P a → Balances scope (fun next => P next.value) (step a)) {a : σ} (first : P a) :
    Balances scope P (loop step a) := by
  intro i depth s o
  refine yields_loop (fun b t left => ?_) ⟨o, first⟩
  exact (h b left.answer).step left.braces fun next u o holds => ⟨o, holds⟩

theorem chain {step : α → Parser (Option α)}
    (h : ∀ a, P a → Balances scope (fun next => ∀ b ∈ next, P b) (step a)) {first : α}
    (start : P first) : Balances scope P (chain step first) := by
  refine loop (fun a holds i depth s o => ?_) start
  refine yields_bind.mpr ((h a holds).step o fun next t o all => ?_)
  cases next with
  | none => exact yields_pure.mpr ⟨o, holds⟩
  | some b => exact yields_pure.mpr ⟨o, all b rfl⟩

theorem manyAfter {item : Array α → Parser α} (close : Symbol)
    (h : ∀ before, Balances scope P (item before)) :
    Balances scope (∀ a ∈ ·, P a) (manyAfter close item) := by
  intro i depth s o
  refine yields_bind.mpr ((loop (P := fun items => ∀ a ∈ items, P a) (fun items all => ?_)
    (by simp)).step o fun items t o all => ?_)
  · intro i depth s o
    simp only [yields_bind, yields_current, yields_ite, yields_pure]
    exact ⟨fun _ => ⟨o, all⟩, fun _ => (h items).step o fun a t o holds =>
      ⟨o, Array.forall_mem_push.mpr ⟨holds, all⟩⟩⟩
  · exact yields_pure.mpr ⟨o, by simpa using all⟩

theorem commaSeparatedAfter {item : Array α → Parser α} (close : Symbol)
    (h : ∀ before, Balances scope P (item before)) :
    Balances scope (∀ a ∈ ·, P a) (commaSeparatedAfter close item) := by
  intro i depth s o
  refine yields_bind.mpr ((loop (P := fun items => ∀ a ∈ items, P a) (fun items all => ?_)
    (by simp)).step o fun items t o all => ?_)
  · intro i depth s o
    simp [commaRound]
    refine ⟨fun _ => ⟨o, all⟩, fun _ => (h items).step o fun a t o holds => ?_⟩
    have all' := Array.forall_mem_push.mpr ⟨holds, all⟩
    exact ⟨fun comma => ⟨o.read comma rfl, all'⟩, fun _ => ⟨o, all'⟩⟩
  · exact yields_pure.mpr ⟨o, by simpa using all⟩

theorem commaSeparated (close : Symbol) (h : Balances scope P p) :
    Balances scope (∀ a ∈ ·, P a) (commaSeparated close p) :=
  commaSeparatedAfter close fun _ => h

end Balances

theorem balances_pure {P : α → Prop} {a : α} (h : P a) : Balances scope P (pure a) :=
  fun _ _ _ o => yields_pure.mpr ⟨o, h⟩

theorem balances_skipSeparators : Balances scope (fun _ => True) skipSeparators := by
  refine .loop (fun _ _ i depth s o => ?_) trivial
  simp only [yields_bind, yields_current, yields_ite, yields_advance, yields_pure,
    Bool.or_eq_true, beq_iff_eq]
  exact ⟨fun separator => ⟨separator.elim (o.read · rfl) (o.read · rfl), trivial⟩,
    fun _ => ⟨o, trivial⟩⟩

namespace Balances

variable {P : α → Prop} {p : Parser α}

theorem entry (h : Balances scope P p) : Balances scope P (entry p) := by
  intro i depth s o
  refine yields_bind.mpr (h.step o fun a t o holds => ?_)
  refine yields_bind.mpr (balances_skipSeparators.step o fun _ t o _ => ?_)
  exact yields_pure.mpr ⟨o, holds⟩

theorem foldEntries {P : σ → Prop} {add : σ → Parser σ}
    (h : ∀ state, P state → Balances scope P (add state)) {state : σ} (first : P state) :
    Balances scope P (foldEntries add state) := by
  refine loop (fun state holds i depth s o => ?_) first
  simp only [yields_bind, yields_current, yields_ite, yields_pure]
  exact ⟨fun _ => ⟨o, holds⟩, fun _ => (h state holds).entry.step o fun _ _ o holds => ⟨o, holds⟩⟩

end Balances

theorem yields_braced {P : α → Prop} {item : Parser α} (h : Balances scope P item)
    {s : ParserState} {Q : List α × Span → ParserState → Prop}
    (goOn : ∀ items (t : ParserState), (∀ a ∈ items, P a) →
      (scope.stream.get s.cursor).kind = .symbol .openBrace →
      scope.stream.Open (s.next scope).cursor t.cursor 0 →
      (scope.stream.get t.cursor).kind = .symbol .closeBrace →
      Q (items, (scope.stream.get s.cursor).span.cover (scope.stream.get t.cursor).span)
        (t.next scope)) :
    Yields (braced item) scope s Q := by
  simp only [braced, many, yields_bind, yields_expectSymbol, yields_pure]
  intro opening
  refine (Balances.manyAfter _ fun _ => h).step (.refl _ _) fun items t o all closing => ?_
  exact goOn items t all opening o closing

theorem Balances.braced {P : α → Prop} {item : Parser α} (h : Balances scope P item) :
    Balances scope (∀ a ∈ ·.1, P a) (braced item) := by
  intro i depth s o
  refine yields_braced h fun items t all opening inner closing => ⟨?_, all⟩
  have whole := (o.opening opening).trans inner
  rw [Nat.zero_add] at whole
  exact whole.closing closing

theorem yields_rawBlock {i depth : Nat} {s : ParserState} (o : scope.stream.Open i s.cursor depth)
    {Q : TokenRange → ParserState → Prop}
    (goOn : ∀ r (t : ParserState), scope.stream.Open i t.cursor depth → scope.Delimits r →
      s.cursor < r.start → t.cursor = r.stop + 1 → Q r t) : Yields rawBlock scope s Q := by
  simp only [rawBlock, yields_bind, yields_expectSymbol, yields_cursor, yields_advance, yields_pure]
  intro opening
  have first := ParserState.next_of_kind opening (by simp)
  refine (yields_loop_until
    (I := fun depth u => scope.stream.Open (s.next scope).cursor u.cursor depth)
    (Q := fun _ u => scope.stream.Open (s.next scope).cursor u.cursor 0 ∧
      (scope.stream.get u.cursor).kind = .symbol .closeBrace) ?_ (.refl _ _)).mono ?_
  · intro inside u inner
    simp
    refine ⟨fun atEnd closing => ?_, fun he => ⟨?_, fun more => ⟨?_, fun noOpening => ⟨?_, ?_⟩⟩⟩⟩
    · rw [atEnd] at closing
      cases closing
    · rintro closing rfl
      exact ⟨inner, closing⟩
    · exact fun opening => ⟨inner.opening opening, ParserState.next_progress he⟩
    · intro closing
      obtain ⟨outer, rfl⟩ := Nat.exists_eq_succ_of_ne_zero (more closing)
      exact ⟨inner.closing closing, ParserState.next_progress he⟩
    · intro noClosing
      refine ⟨inner.read rfl ?_, ParserState.next_progress he⟩
      exact TokenKind.not_isBrace_of_ne noOpening noClosing
  · rintro - t ⟨inner, closing⟩
    have whole := (o.opening opening).trans inner
    rw [Nat.zero_add] at whole
    refine goOn _ _ (whole.closing closing) ⟨?_, ?_, closing, inner⟩ ?_ ?_
    · simp [first]
    · simpa [first] using opening
    · simp [first]
    · simp [ParserState.next_of_kind closing]

end Parser

end PulseSyntax
