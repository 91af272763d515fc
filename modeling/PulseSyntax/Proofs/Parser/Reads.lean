import PulseSyntax.Proofs.Parser.Run

namespace PulseSyntax

/-- The state that is reached from another by reading tokens. -/
structure ParserState.Reaches (scope : Scope) (s t : ParserState) : Prop where
  depth : t.depth = s.depth
  cursor : s.cursor ≤ t.cursor
  inside : ∀ i, s.cursor ≤ i → i < t.cursor → (scope.stream.get i).kind ≠ .endOfFile

namespace ParserState.Reaches

variable {scope : Scope} {s t u : ParserState}

theorem refl (scope : Scope) (s : ParserState) : Reaches scope s s :=
  ⟨rfl, Nat.le_refl _, fun _ _ _ => by omega⟩

theorem trans (h : Reaches scope s t) (h' : Reaches scope t u) : Reaches scope s u where
  depth := h'.depth.trans h.depth
  cursor := Nat.le_trans h.cursor h'.cursor
  inside i from_s to_u := by
    rcases Nat.lt_or_ge i t.cursor with first | second
    · exact h.inside i from_s first
    · exact h'.inside i second to_u

theorem ahead_one (h : (scope.stream.get s.cursor).kind ≠ .endOfFile) :
    Reaches scope s (s.ahead 1) where
  depth := rfl
  cursor := Nat.le_succ _
  inside i from_s to_next := by
    have same : i = s.cursor := by simp only [ahead_cursor] at to_next; omega
    exact same ▸ h

theorem lt_size (h : Reaches scope s t) (progress : s.cursor < t.cursor) :
    t.cursor < scope.stream.size := by
  have last := h.inside (t.cursor - 1) (by omega) (by omega)
  have bound := TokenStream.lt_size_of_kind_ne last
  omega

end ParserState.Reaches

namespace Parser

open ParserState

variable {α β σ : Type}

/-- Whatever it answers, the parser only reads on. -/
def ReadsOn (p : Parser α) : Prop := ∀ scope s, Reaches scope s (p scope s).state

theorem ReadsOn.of_ok {p : Parser α} (h : ReadsOn p) {scope : Scope} {s t : ParserState} {a : α}
    (hp : p scope s = .ok a t) : Reaches scope s t := by
  have reaches := h scope s
  rwa [hp] at reaches

theorem readsOn_pure (a : α) : ReadsOn (pure a) := fun scope s => .refl scope s

theorem ReadsOn.bind {p : Parser α} {f : α → Parser β} (hp : ReadsOn p)
    (hf : ∀ a, ReadsOn (f a)) : ReadsOn (p >>= f) := by
  intro scope s
  have first := hp scope s
  rw [bind_apply]
  cases h : p scope s with
  | ok a t =>
    rw [h] at first
    exact first.trans (hf a scope t)
  | error e t =>
    rw [h] at first
    exact first

theorem readsOn_scope : ReadsOn Parser.scope := fun scope s => .refl scope s

theorem readsOn_cursor : ReadsOn cursor := fun scope s => .refl scope s

theorem readsOn_current : ReadsOn current := fun scope s => .refl scope s

theorem readsOn_previous : ReadsOn previous := fun scope s => .refl scope s

theorem readsOn_is (kind : TokenKind) : ReadsOn (is kind) := fun scope s => .refl scope s

theorem readsOn_fail (cause : Cause) : ReadsOn (fail cause : Parser α) := fun scope s =>
  .refl scope s

theorem readsOn_failAtToken (cause : Token → Cause) : ReadsOn (failAtToken cause : Parser α) :=
  readsOn_current.bind fun _ => readsOn_fail _

theorem readsOn_advance : ReadsOn advance := by
  intro scope s
  by_cases atEnd : (scope.stream.get s.cursor).kind = .endOfFile
  · simp only [advance, atEnd, ↓reduceIte]
    exact .refl scope s
  · rw [advance_apply atEnd]
    exact .ahead_one atEnd

theorem readsOn_eat (kind : TokenKind) : ReadsOn (eat kind) := by
  refine (readsOn_is kind).bind fun here => ?_
  cases here with
  | true => exact readsOn_advance.bind fun _ => readsOn_pure true
  | false => exact readsOn_pure false

theorem readsOn_expect (kind : TokenKind) : ReadsOn (expect kind) := by
  refine (readsOn_is kind).bind fun here => ?_
  cases here with
  | true => exact readsOn_advance
  | false => exact readsOn_failAtToken _

theorem ReadsOn.deeper {p : Parser α} (hp : ReadsOn p) : ReadsOn (deeper p) := by
  intro scope s
  have inner := hp scope { s with depth := s.depth + 1 }
  unfold Parser.deeper
  cases h : p scope { s with depth := s.depth + 1 } with
  | ok _ t | error _ t =>
    rw [h] at inner
    refine ⟨?_, inner.cursor, inner.inside⟩
    have entered : t.depth = s.depth + 1 := inner.depth
    simp only [Reply.state, entered, Nat.add_sub_cancel]

theorem ReadsOn.withLevels {p : Nat → Parser α} (hp : ∀ levels, ReadsOn (p levels)) :
    ReadsOn (withLevels p) := fun scope s => hp (scope.options.maxDepth - s.depth) scope s

theorem ReadsOn.iterate {step : σ → Parser (ForInStep σ)} (h : ∀ a, ReadsOn (step a))
    (rounds : Nat) (a : σ) : ReadsOn (iterate step rounds a) := by
  induction rounds generalizing a with
  | zero => exact readsOn_pure a
  | succ rounds ih =>
    refine (h a).bind fun next => ?_
    cases next with
    | done b => exact readsOn_pure b
    | yield b => exact ih b

theorem ReadsOn.loop {step : σ → Parser (ForInStep σ)} (h : ∀ a, ReadsOn (step a)) (a : σ) :
    ReadsOn (loop step a) := fun scope s =>
  ReadsOn.iterate h (scope.stream.size - s.cursor + 1) a scope s

/-- What a repetition answers is what its step was done with, in a state where an invariant of the
    rounds before still holds. -/
theorem iterate_ok {step : σ → Parser (ForInStep σ)} {scope : Scope}
    {I : σ → ParserState → Prop} (reads : ∀ a, ReadsOn (step a))
    (keep : ∀ {a b s t}, I a s → step a scope s = .ok (.yield b) t →
      I b t ∧ s.cursor < t.cursor)
    {rounds : Nat} {a b : σ} {s t : ParserState} (enough : scope.stream.size - s.cursor < rounds)
    (inv : I a s) (h : iterate step rounds a scope s = .ok b t) :
    ∃ c u, I c u ∧ Reaches scope s u ∧ step c scope u = .ok (.done b) t := by
  induction rounds generalizing a s with
  | zero => omega
  | succ rounds ih =>
    obtain ⟨next, u, first, rest⟩ := bind_eq_ok.mp h
    cases next with
    | done c =>
      cases rest
      exact ⟨a, s, inv, .refl scope s, first⟩
    | yield c =>
      obtain ⟨inv', progress⟩ := keep inv first
      have reaches := (reads a).of_ok first
      have bound := reaches.lt_size progress
      obtain ⟨d, v, final, onward, done⟩ := ih (by omega) inv' rest
      exact ⟨d, v, final, reaches.trans onward, done⟩

theorem loop_ok {step : σ → Parser (ForInStep σ)} {scope : Scope}
    {I : σ → ParserState → Prop} (reads : ∀ a, ReadsOn (step a))
    (keep : ∀ {a b s t}, I a s → step a scope s = .ok (.yield b) t →
      I b t ∧ s.cursor < t.cursor)
    {a b : σ} {s t : ParserState} (inv : I a s) (h : loop step a scope s = .ok b t) :
    ∃ c u, I c u ∧ Reaches scope s u ∧ step c scope u = .ok (.done b) t :=
  iterate_ok reads keep (Nat.lt_succ_self _) inv h

theorem iterate_keeps {step : σ → Parser (ForInStep σ)} {scope : Scope} {I : σ → Prop}
    (keep : ∀ {a next s t}, I a → step a scope s = .ok next t → I next.value)
    {rounds : Nat} {a b : σ} {s t : ParserState} (inv : I a)
    (h : iterate step rounds a scope s = .ok b t) : I b := by
  induction rounds generalizing a s with
  | zero =>
    cases h
    exact inv
  | succ rounds ih =>
    obtain ⟨next, u, first, rest⟩ := bind_eq_ok.mp h
    have kept := keep inv first
    cases next with
    | done c =>
      cases rest
      exact kept
    | yield c => exact ih kept rest

theorem loop_keeps {step : σ → Parser (ForInStep σ)} {scope : Scope} {I : σ → Prop}
    (keep : ∀ {a next s t}, I a → step a scope s = .ok next t → I next.value)
    {a b : σ} {s t : ParserState} (inv : I a) (h : loop step a scope s = .ok b t) : I b :=
  iterate_keeps keep inv h

end Parser

end PulseSyntax
