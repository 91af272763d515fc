import PulseSyntax.Proofs.Parser.Entries
import PulseSyntax.Proofs.Parser.Linked

/-!
Two runs over sequences of tokens that are not the same in one place. Before the place and beyond it
there is a link between them, and what the first run reads across the place the second one reads as well
where it does so at the place itself. A repetition crosses the place in one of its rounds.
-/

namespace PulseSyntax

open PulseSyntax.Parser

/-- Two ways along the tokens of two scopes that are not the same in one place, before it and beyond
    it. -/
structure Scope.Crossing (a b : Scope) where
  before : a.Link b
  beyond : a.Link b
  left : before.left = beyond.left
  right : before.right = beyond.right
  free : beyond.bound = none

namespace Scope.Crossing

open Scope.Link

variable {a b : Scope} {C : a.Crossing b} {α β ε ζ σ : Type} {n m : Nat} {s t u : ParserState}
variable {e : (TokenRange → TokenRange) → α → ε} {e' : (TokenRange → TokenRange) → β → ζ}
variable {p q : Parser α} {f g : α → Parser β}

/-- The first run leads from before the place beyond it, and the second to the state that corresponds. -/
def Crosses (C : a.Crossing b) (e : (TokenRange → TokenRange) → α → ε) (p q : Parser α)
    (s : ParserState) : Prop :=
  ∀ ⦃x t⦄, p a s = .ok x t → C.beyond.On t.cursor ∧
    ∃ y, q b (C.before.moved s) = .ok y (C.beyond.moved t) ∧ e C.beyond.left x = e C.beyond.right y

theorem within (i : Nat) : Within C.beyond.bound i := fun g here => by
  rw [C.free] at here
  cases here

theorem crosses_after {x : α} (h : C.before.Copies n e p q s) (on : C.before.On s.cursor)
    (ok : p a s = .ok x t) (within : Within C.before.bound (t.cursor + n))
    (hf : ∀ y, C.before.On t.cursor → e C.beyond.left x = e C.beyond.right y →
      C.Crosses e' (f x) (g y) t) : C.Crosses e' (p >>= f) (q >>= g) s := by
  obtain ⟨there, y, second, same⟩ := (h ok).2 on within
  rw [C.left, C.right] at same
  intro z v whole
  rw [bind_of_ok ok] at whole
  rw [bind_of_ok second]
  exact hf y there same whole

theorem Crosses.bind (h : C.Crosses e p q s)
    (hf : ∀ x y t, p a s = .ok x t → e C.beyond.left x = e C.beyond.right y →
      C.beyond.Copies n e' (f x) (g y) t) : C.Crosses e' (p >>= f) (q >>= g) s := by
  intro z v whole
  obtain ⟨x, t, first, rest⟩ := bind_eq_ok.mp whole
  obtain ⟨on, y, second, same⟩ := h first
  obtain ⟨there, w, third, alike⟩ := (hf x y t first same rest).2 on (within _)
  exact ⟨there, w, by rw [bind_of_ok second, third], alike⟩

theorem Crosses.map {f : α → β} (h : C.Crosses e p q s)
    (hf : ∀ x y, e C.beyond.left x = e C.beyond.right y →
      e' C.beyond.left (f x) = e' C.beyond.right (f y)) : C.Crosses e' (f <$> p) (f <$> q) s :=
  h.bind (n := 0) fun x y _ _ same => copies_pure (hf x y same)

theorem Crosses.entry (h : C.Crosses e p q s) : C.Crosses e (entry p) (entry q) s :=
  h.bind fun _ _ _ _ same => (copies_skipSeparators (n := 0)).bind fun _ _ _ _ _ => copies_pure same

section

variable {f g : Token → Parser α} {sign : Symbol} {word : Keyword}

theorem crosses_current (on : C.before.On s.cursor) (within : Within C.before.bound (s.cursor + 1))
    (h : C.Crosses e (f (a.stream.get s.cursor)) (g (a.stream.get s.cursor)) s) :
    C.Crosses e (current >>= f) (current >>= g) s := by
  intro x t ok
  rw [bind_of_ok current_apply] at ok
  rw [bind_of_ok current_apply, moved_cursor, ← C.before.token on within]
  exact h ok

theorem crosses_expect {kind : TokenKind} (real : kind ≠ .endOfFile)
    (plain : kind ≠ .symbol .atSign) (on : C.before.On s.cursor)
    (within : Within C.before.bound (s.cursor + 1))
    (h : C.before.On (s.cursor + 1) →
      C.Crosses e (f (a.stream.get s.cursor)) (g (a.stream.get s.cursor)) (s.ahead 1)) :
    C.Crosses e (expect kind >>= f) (expect kind >>= g) s := by
  intro x t ok
  obtain ⟨token, u, first, rest⟩ := bind_eq_ok.mp ok
  obtain ⟨found, rfl, rfl⟩ := (expect_eq_ok real).mp first
  obtain ⟨there, next⟩ := moved_ahead on within (unforked (by rwa [found]) on) (by rwa [found])
  have token := C.before.token on within
  rw [bind_of_ok (expect_apply (by rwa [moved_cursor, ← token]) real), moved_cursor, ← token, next]
  exact h there rest

theorem crosses_expectSymbol (plain : sign ≠ .atSign) (on : C.before.On s.cursor)
    (within : Within C.before.bound (s.cursor + 1))
    (h : C.before.On (s.cursor + 1) →
      C.Crosses e (f (a.stream.get s.cursor)) (g (a.stream.get s.cursor)) (s.ahead 1)) :
    C.Crosses e (expectSymbol sign >>= f) (expectSymbol sign >>= g) s :=
  crosses_expect (by simp) (by simpa using plain) on within h

theorem crosses_expectKeyword (on : C.before.On s.cursor)
    (within : Within C.before.bound (s.cursor + 1))
    (h : C.before.On (s.cursor + 1) →
      C.Crosses e (f (a.stream.get s.cursor)) (g (a.stream.get s.cursor)) (s.ahead 1)) :
    C.Crosses e (expectKeyword word >>= f) (expectKeyword word >>= g) s :=
  crosses_expect (by simp) (by simp) on within h

theorem crosses_pass (real : (a.stream.get s.cursor).kind ≠ .endOfFile)
    (plain : (a.stream.get s.cursor).kind ≠ .symbol .atSign) (on : C.before.On s.cursor)
    (within : Within C.before.bound (s.cursor + 1))
    (h : C.before.On (s.cursor + 1) →
      C.Crosses e (f (a.stream.get s.cursor)) (g (a.stream.get s.cursor)) (s.ahead 1)) :
    C.Crosses e (advance >>= f) (advance >>= g) s := by
  intro x t ok
  rw [bind_of_ok (advance_apply real)] at ok
  obtain ⟨there, next⟩ := moved_ahead on within (unforked plain on) real
  have token := C.before.token on within
  rw [bind_of_ok (advance_apply (by rwa [moved_cursor, ← token])), moved_cursor, ← token, next]
  exact h there ok

theorem crosses_eatSymbol {f g : Bool → Parser α} (plain : sign ≠ .atSign) (on : C.before.On s.cursor)
    (within : Within C.before.bound (s.cursor + 1))
    (yes : (a.stream.get s.cursor).kind = .symbol sign → C.before.On (s.cursor + 1) →
      C.Crosses e (f true) (g true) (s.ahead 1))
    (no : (a.stream.get s.cursor).kind ≠ .symbol sign → C.Crosses e (f false) (g false) s) :
    C.Crosses e (eatSymbol sign >>= f) (eatSymbol sign >>= g) s := by
  have regroup (f : Bool → Parser α) : eatSymbol sign >>= f = _ := Track.eat_bind (by simp) f
  have regroup' (f : Bool → Parser α) : is (.symbol sign) >>= f =
      current >>= fun t => f (t.kind == .symbol sign) := rfl
  rw [regroup, regroup, regroup', regroup']
  refine crosses_current on within ?_
  by_cases found : (a.stream.get s.cursor).kind = .symbol sign
  · rw [if_pos (beq_iff_eq.mpr found), if_pos (beq_iff_eq.mpr found)]
    exact crosses_pass (by simp [found]) (by simpa [found] using plain) on within (yes found)
  · rw [if_neg (by simpa using found), if_neg (by simpa using found)]
    exact no found

end

section

variable {d : (TokenRange → TokenRange) → σ → ε} {step : σ → Parser (ForInStep σ)} {x y w : σ}

theorem crosses_loop (turning : ∀ scope depth, (Scope.course scope depth).Turning step)
    (before : ∀ x y s, d C.before.left x = d C.before.right y →
      C.before.Copies n (round d) (step x) (step y) s)
    (beyond : ∀ x y s, d C.beyond.left x = d C.beyond.right y →
      C.beyond.Copies m (round d) (step x) (step y) s)
    (rounds : Rounds step a x s w u) (on : C.before.On s.cursor)
    (within : Within C.before.bound (u.cursor + n))
    (cross : ∀ w', C.before.On u.cursor → d C.beyond.left w = d C.beyond.right w' →
      C.Crosses (round d) (step w) (step w') u)
    (same : d C.beyond.left x = d C.beyond.right y) : C.Crosses d (loop step x) (loop step y) s := by
  intro z t ok
  have all := (turning a s.depth).repeats (a := x) rfl (C.before.inside on).1
  have last : Parser.Repeats step a w u (.ok z t) := ok ▸ rounds.repeats all
  obtain ⟨there, w', copied, alike⟩ := copies_rounds turning before rounds on within
    (by rwa [C.left, C.right])
  rw [C.left, C.right] at alike
  cases last with
  | done inside read =>
    obtain ⟨final, next, second, same⟩ := cross w' there alike read
    obtain ⟨y', rfl, last⟩ := exists_done same
    exact ⟨final, y', copied.loop second, last⟩
  | @yield _ v _ t' _ inside read rest =>
    obtain ⟨across, next, second, same⟩ := cross w' there alike read
    obtain ⟨v', rfl, further⟩ := exists_yield same
    obtain ⟨final, w₂, u₂, y', run, done, last⟩ :=
      copies_repeats turning beyond rest across (Crossing.within _) further
    have onward := (turning b s.depth w' (C.before.moved u)
      (rounds.reaches (turning a s.depth)).depth).progress second ⟨v', rfl⟩
    exact ⟨final, y', (copied.trans (.head second (C.before.inside there).2 onward run)).loop done,
      last⟩

end

theorem crosses_entry {p q : Parser α} {x : α} (copies : C.before.Copies 0 e p q s)
    (on : C.before.On s.cursor) (ok : p a s = .ok x t) (within : Within C.before.bound t.cursor)
    (skip : C.Crosses (fun _ => id) skipSeparators skipSeparators t) :
    C.Crosses e (entry p) (entry q) s :=
  crosses_after copies on ok within fun _ _ same => skip.bind (n := 0) fun _ _ _ _ _ => copies_pure same

section

variable {d : (TokenRange → TokenRange) → σ → ζ} {add : σ → Parser σ} {x y w : σ}

theorem crosses_foldEntries
    (moving : ∀ scope depth x, (Scope.course scope depth).Moving (add x))
    (copies : ∀ (T : a.Link b) x y s, d T.left x = d T.right y → T.Copies 0 d (add x) (add y) s)
    (rounds : Rounds (entryRound add) a x s w u) (on : C.before.On s.cursor)
    (within : Within C.before.bound (u.cursor + 1))
    (more : ¬ Filling.EndsBlock (a.stream.get u.cursor).kind)
    (cross : ∀ w', C.before.On u.cursor → d C.beyond.left w = d C.beyond.right w' →
      C.Crosses d (entry (add w)) (entry (add w')) u)
    (same : d C.beyond.left x = d C.beyond.right y) :
    C.Crosses d (foldEntries add x) (foldEntries add y) s := by
  have entry (T : a.Link b) (x y : σ) (s : ParserState) (same : d T.left x = d T.right y) :
      T.Copies 1 (round d) (entryRound add x) (entryRound add y) s :=
    copies_entryRound same ((copies T x y s same).mono (Nat.zero_le 1))
  refine crosses_loop (fun scope depth => Course.turning_entryRound (moving scope depth))
    (entry C.before) (entry C.beyond) rounds on within (fun w' there alike => ?_) same
  have list : (a.stream.get u.cursor).kind == .symbol .closeBrace ||
      (a.stream.get u.cursor).kind == .endOfFile ↔ Filling.EndsBlock (a.stream.get u.cursor).kind := by
    simp [Filling.EndsBlock]
  refine crosses_current there within ?_
  rw [if_neg (list.not.mpr more), if_neg (list.not.mpr more)]
  exact (cross w' there alike).bind (n := 0) fun _ _ _ _ last => copies_yield last

end

end Scope.Crossing

end PulseSyntax
