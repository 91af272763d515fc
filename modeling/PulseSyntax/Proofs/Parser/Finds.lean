import PulseSyntax.Proofs.Parser.Balance
import PulseSyntax.Proofs.Parser.Course
import PulseSyntax.Proofs.Token.Spelled

namespace PulseSyntax

open PulseSyntax.Parser

/-- The tokens from an index on are spelled, up to the brace that closes the block around them. -/
def Scope.IsSpelled (scope : Scope) (first : Nat) : Prop :=
  ∀ ⦃k braces⦄, scope.stream.Open first k braces →
    (scope.stream.get k).own.IsSpelled ((scope.stream.get (k - 1)).kind == .symbol .atSign)

/-- A parser stands in the block that starts at an index, at some depth and with some braces open in
    it. -/
structure ParserState.InBlock (scope : Scope) (first depth braces : Nat) (s : ParserState) :
    Prop where
  depth : s.depth = depth
  braces : scope.stream.Open first s.cursor braces
  noAt : (scope.stream.get (s.cursor - 1)).kind ≠ .symbol .atSign

namespace ParserState.InBlock

variable {scope : Scope} {first depth braces : Nat} {s : ParserState} {kind : TokenKind}

theorem next_depth (o : s.InBlock scope first depth braces) : (s.next scope).depth = depth := by
  unfold ParserState.next
  split <;> exact o.depth

theorem spelled (o : s.InBlock scope first depth braces) (h : scope.IsSpelled first) :
    (scope.stream.get s.cursor).own.IsSpelled false := by
  have here := h o.braces
  rwa [beq_eq_false_iff_ne.mpr o.noAt] at here

theorem next_noAt (hk : (scope.stream.get s.cursor).kind ≠ .symbol .atSign)
    (o : s.InBlock scope first depth braces) :
    (scope.stream.get ((s.next scope).cursor - 1)).kind ≠ .symbol .atSign := by
  by_cases he : (scope.stream.get s.cursor).kind = .endOfFile
  · rw [ParserState.next, if_pos he]
    exact o.noAt
  · rw [ParserState.next, if_neg he]
    exact hk

theorem read (o : s.InBlock scope first depth braces)
    (hk : (scope.stream.get s.cursor).kind = kind) (plain : kind.isBrace = false)
    (noAt : kind ≠ .symbol .atSign) : (s.next scope).InBlock scope first depth braces :=
  ⟨o.next_depth, o.braces.read hk plain, o.next_noAt (hk ▸ noAt)⟩

theorem opening (o : s.InBlock scope first depth braces)
    (hk : (scope.stream.get s.cursor).kind = .symbol .openBrace) :
    (s.next scope).InBlock scope first depth (braces + 1) :=
  ⟨o.next_depth, o.braces.opening hk, o.next_noAt (by simp [hk])⟩

theorem closing (o : s.InBlock scope first depth (braces + 1))
    (hk : (scope.stream.get s.cursor).kind = .symbol .closeBrace) :
    (s.next scope).InBlock scope first depth braces :=
  ⟨o.next_depth, o.braces.closing hk, o.next_noAt (by simp [hk])⟩

theorem readWord (o : s.InBlock scope first depth braces)
    (hk : (scope.stream.get s.cursor).kind = .identifier ∨
      (scope.stream.get s.cursor).kind.isKeyword) :
    (s.next scope).InBlock scope first depth braces := by
  refine o.read rfl (TokenKind.not_isBrace_of_word hk) fun atSign => ?_
  rw [atSign] at hk
  rcases hk with hk | hk <;> cases hk

theorem readName (o : s.InBlock scope first depth braces)
    (hk : (scope.stream.get s.cursor).kind.isName) :
    (s.next scope).InBlock scope first depth braces := by
  refine o.read rfl (TokenKind.not_isBrace_of_isName hk) fun atSign => ?_
  rw [atSign] at hk
  cases hk

theorem readPlain (o : s.InBlock scope first depth braces)
    (hk : ∀ sign, (scope.stream.get s.cursor).kind ≠ .symbol sign) :
    (s.next scope).InBlock scope first depth braces :=
  o.read rfl (TokenKind.not_isBrace_of_ne (hk _) (hk _)) (hk _)

end ParserState.InBlock

namespace Parser

variable {α β σ : Type} {scope : Scope} {first depth : Nat}

theorem Yields.and {p : Parser α} {s : ParserState} {Q R : α → ParserState → Prop}
    (h : Yields p scope s Q) (h' : Yields p scope s R) :
    Yields p scope s fun a t => Q a t ∧ R a t := fun _ _ ok => ⟨h ok, h' ok⟩

/-- Where the parser succeeds within the block, it stays there, and `P` holds of its answer. -/
def Finds (scope : Scope) (first depth : Nat) (P : α → Prop) (p : Parser α) : Prop :=
  ∀ ⦃braces s⦄, s.InBlock scope first depth braces →
    Yields p scope s fun a t => t.InBlock scope first depth braces ∧ P a

namespace Finds

variable {P : α → Prop} {p : Parser α} {braces : Nat} {s : ParserState}

theorem step (h : Finds scope first depth P p) (o : s.InBlock scope first depth braces)
    {Q : α → ParserState → Prop}
    (goOn : ∀ a t, t.InBlock scope first depth braces → P a → Q a t) : Yields p scope s Q :=
  (h o).mono fun a t ⟨o, holds⟩ => goOn a t o holds

theorem deeper (h : Finds scope first (depth + 1) P p) : Finds scope first depth P (deeper p) := by
  intro braces s o a t ok
  obtain ⟨u, inner, rfl⟩ := deeper_eq_ok.mp ok
  have inside : ParserState.InBlock scope first (depth + 1) braces { s with depth := s.depth + 1 } :=
    ⟨congrArg (· + 1) o.depth, o.braces, o.noAt⟩
  obtain ⟨left, holds⟩ := h inside inner
  exact ⟨⟨congrArg (· - 1) left.depth, left.braces, left.noAt⟩, holds⟩

theorem withLevels {p : Nat → Parser α}
    (h : Finds scope first depth P (p (scope.options.maxDepth - depth))) :
    Finds scope first depth P (withLevels p) := by
  intro braces s o a t ok
  rw [Parser.withLevels, o.depth] at ok
  exact h o ok

theorem commaSeparated (close : Symbol) (h : Finds scope first depth P p) :
    Finds scope first depth (∀ a ∈ ·, P a) (commaSeparated close p) := by
  intro braces s o
  refine yields_bind.mpr ((yields_loop (I := fun (items : Array α) (u : ParserState) =>
    u.InBlock scope first depth braces ∧ ∀ a ∈ items, P a) (fun items u inv => ?_)
    ⟨o, by simp⟩).mono fun items u inv => ?_)
  · obtain ⟨o, all⟩ := inv
    simp [commaRound]
    refine ⟨fun _ => ⟨o, all⟩, fun _ => h.step o fun a t o holds => ?_⟩
    have all' := Array.forall_mem_push.mpr ⟨holds, all⟩
    simp only [Array.mem_push] at all'
    exact ⟨fun comma => ⟨o.read comma rfl (by simp), all'⟩, fun _ => ⟨o, all'⟩⟩
  · exact yields_pure.mpr ⟨inv.1, by simpa using inv.2⟩

section

variable {I : α → Prop} {step : α → Parser (Option α)} {start : α}

theorem chainRound (h : ∀ a, I a → Finds scope first depth (∀ b ∈ ·, I b) (step a)) {a : α}
    (holds : I a) : Finds scope first depth (fun next => I next.value) (chainRound step a) := by
  intro braces s o
  refine yields_bind.mpr ((h a holds).step o fun next t o all => ?_)
  cases next with
  | none => exact yields_pure.mpr ⟨o, holds⟩
  | some b => exact yields_pure.mpr ⟨o, all b rfl⟩

theorem chain (h : ∀ a, I a → Finds scope first depth (∀ b ∈ ·, I b) (step a)) (holds : I start) :
    Finds scope first depth I (chain step start) := by
  intro braces s o
  exact yields_loop (I := fun a (u : ParserState) => u.InBlock scope first depth braces ∧ I a)
    (fun a u inv => chainRound h inv.2 inv.1) ⟨o, holds⟩

theorem chainAfter (h : ∀ a, I a → Finds scope first depth (∀ b ∈ ·, I b) (step a))
    (found : Yields (step start) scope s fun next t =>
      t.InBlock scope first depth braces ∧ ∃ a, next = some a ∧ I a) :
    Yields (Parser.chain step start) scope s fun a t => t.InBlock scope first depth braces ∧ I a := by
  refine yields_bind.mpr (yields_bind.mpr (found.mono ?_))
  rintro _ t ⟨o, a, rfl, holds⟩
  refine yields_pure.mpr (yields_iterate (I := fun a (u : ParserState) =>
    u.InBlock scope first depth braces ∧ I a) (fun a u inv => chainRound h inv.2 inv.1) _ ⟨o, holds⟩)

end

end Finds

theorem yields_chain_until {c : Course} {step : α → Parser (Option α)}
    {I Q : α → ParserState → Prop} (h : c.Extending step)
    (round : ∀ a t, I a t → Yields (step a) c.scope t fun next u =>
      match next with
      | none => Q a u
      | some b => I b u) {a : α} {s : ParserState} (depth : s.depth = c.depth) (inv : I a s) :
    Yields (chain step a) c.scope s Q := by
  refine yields_loop_until (I := fun a t => I a t ∧ t.depth = c.depth) (fun a t inv => ?_) ⟨inv, depth⟩
  obtain ⟨inv, depth⟩ := inv
  refine yields_bind.mpr fun next u ok => ?_
  have kept := round a t inv ok
  have proceeds := h a t depth
  cases next with
  | none => exact yields_pure.mpr kept
  | some b =>
    have reaches := proceeds.reaches ok
    have progress := proceeds.progress ok ⟨b, rfl⟩
    exact yields_pure.mpr ⟨⟨kept, reaches.depth.trans depth⟩, progress, reaches.lt_size progress⟩

end Parser

end PulseSyntax
