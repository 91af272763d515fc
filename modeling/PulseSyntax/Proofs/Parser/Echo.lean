import PulseSyntax.Expr.Parser
import PulseSyntax.Proofs.Parser.Reads
import PulseSyntax.Proofs.Parser.Twin

/-!
Two runs of which the second gives back what the first does, whether that succeeds or fails. They
meet the same tokens at different places, so the places are all that differs in their answers.
-/

namespace PulseSyntax

open PulseSyntax.Parser

structure Cause.Alike (c d : Cause) : Prop where
  message : c.message = d.message
  kind : c.kind = d.kind

theorem Cause.Alike.refl (c : Cause) : c.Alike c := ⟨rfl, rfl⟩

namespace Scope.Track

variable {a b : Scope} (T : a.Track b) {α β ε ζ σ : Type}

inductive Replied (e : α → ε) : Reply α → Reply α → Prop
  | ok {x y : α} {t : ParserState} (same : e x = e y) : Replied e (.ok x t) (.ok y (T.moved t))
  | error {f g : ParseError} {t : ParserState} (alike : f.cause.Alike g.cause) :
    Replied e (.error f t) (.error g (T.moved t))

/-- Where the first run starts at an index or later and stays within the limit, the second answers
    alike. -/
structure Echo (first : Nat) (e : α → ε) (p q : Parser α) : Prop where
  reads : ReadsOn p
  replied : ∀ s, first ≤ s.cursor → (p a s).state.cursor ≤ T.limit → T.Replied e (p a s) (q b (T.moved s))

variable {T} {first : Nat} {e : α → ε} {d : β → ζ} {p q p' q' : Parser α}

section

theorem replied_bind {f g : α → Parser β} {s : ParserState} (reads : ReadsOn p)
    (h : (p a s).state.cursor ≤ T.limit → T.Replied e (p a s) (q b (T.moved s)))
    (hf : ∀ x y, e x = e y → T.Echo first d (f x) (g y)) (start : first ≤ s.cursor)
    (within : ((p >>= f) a s).state.cursor ≤ T.limit) :
    T.Replied d ((p >>= f) a s) ((q >>= g) b (T.moved s)) := by
  rw [bind_apply] at within ⊢
  rw [bind_apply]
  cases read : p a s with
  | ok x t =>
    rw [read] at within h
    have later : t.cursor ≤ T.limit := Nat.le_trans ((hf x x rfl).reads a t).cursor within
    have replied := h later
    generalize q b (T.moved s) = second at replied
    cases replied with
    | ok same => exact (hf _ _ same).replied t (Nat.le_trans start (reads.of_ok read).cursor) within
  | error f t =>
    rw [read] at within h
    have replied := h within
    generalize q b (T.moved s) = second at replied
    cases replied with
    | error alike => exact .error alike

theorem Echo.bind {f g : α → Parser β} (h : T.Echo first e p q)
    (hf : ∀ x y, e x = e y → T.Echo first d (f x) (g y)) :
    T.Echo first d (p >>= f) (q >>= g) where
  reads := h.reads.bind fun x => (hf x x rfl).reads
  replied _ start within := replied_bind h.reads (h.replied _ start) hf start within

theorem echo_pure {x y : α} (same : e x = e y) : T.Echo first e (pure x) (pure y) :=
  ⟨readsOn_pure x, fun _ _ _ => .ok same⟩

theorem echo_fail {c c' : Cause} (alike : c.Alike c') :
    T.Echo first e (fail c : Parser α) (fail c') := ⟨readsOn_fail c, fun _ _ _ => .error alike⟩

theorem Echo.ite {condition : Prop} [Decidable condition] (h : T.Echo first e p q)
    (h' : T.Echo first e p' q') :
    T.Echo first e (if condition then p else p') (if condition then q else q') := by
  split
  · exact h
  · exact h'

theorem Echo.deeper (h : T.Echo first e p q) : T.Echo first e (deeper p) (deeper q) where
  reads := h.reads.deeper
  replied s start within := by
    have inner := h.replied { s with depth := s.depth + 1 } start
    unfold Parser.deeper at within ⊢
    rw [show { T.moved s with depth := (T.moved s).depth + 1 } =
      T.moved { s with depth := s.depth + 1 } from rfl]
    generalize p a { s with depth := s.depth + 1 } = reply at within inner
    generalize q b (T.moved { s with depth := s.depth + 1 }) = second at inner
    cases reply with
    | ok x t =>
      cases inner within with
      | ok same => exact .ok same
    | error f t =>
      cases inner within with
      | error alike => exact .error alike

theorem Echo.withLevels {p q : Nat → Parser α} (h : ∀ levels, T.Echo first e (p levels) (q levels)) :
    T.Echo first e (withLevels p) (withLevels q) where
  reads := .withLevels fun levels => (h levels).reads
  replied s start within := by
    have replied := (h (a.options.maxDepth - s.depth)).replied s start within
    unfold Parser.withLevels
    rwa [← T.options]

end

section

variable {f g : Token → Parser α} (free : T.Free first)

include free

theorem echo_current (h : ∀ t u, t.content = u.content → T.Echo first e (f t) (g u)) :
    T.Echo first e (current >>= f) (current >>= g) where
  reads := readsOn_current.bind fun t => (h t t rfl).reads
  replied s start within := by
    rw [bind_of_ok current_apply] at within ⊢
    rw [bind_of_ok current_apply]
    have le := Nat.le_trans ((h _ _ rfl).reads a s).cursor within
    exact (h _ _ (free.content start le)).replied s start within

theorem echo_failAtToken {cause cause' : Token → Cause}
    (alike : ∀ t u, t.content = u.content → (cause t).Alike (cause' u)) :
    T.Echo first e (failAtToken cause : Parser α) (failAtToken cause') := by
  refine echo_current free fun t u content => echo_fail ?_
  rw [← Token.kind_of_content content]
  split
  · exact ⟨Token.text_of_content content, rfl⟩
  · exact alike t u content

theorem echo_is (kind : TokenKind) : T.Echo first id (is kind) (is kind) := by
  refine echo_current free fun t u content => echo_pure ?_
  rw [Token.kind_of_content content]

theorem echo_advance : T.Echo first Token.content advance advance where
  reads := readsOn_advance
  replied s start within := by
    have le := Nat.le_trans (readsOn_advance a s).cursor within
    have content : (a.stream.get s.cursor).content = (b.stream.get (T.moved s).cursor).content :=
      free.content start le
    by_cases atEnd : (a.stream.get s.cursor).kind = .endOfFile
    · have other := (Token.kind_of_content content).symm.trans atEnd
      simp only [advance, atEnd, other, ↓reduceIte]
      exact .ok content
    · have other : (b.stream.get (T.moved s).cursor).kind ≠ .endOfFile :=
        Token.kind_of_content content ▸ atEnd
      rw [advance_apply atEnd, advance_apply other, ← T.moved_ahead]
      exact .ok content

omit free in
theorem describe_congr {t u : Token} (content : t.content = u.content) :
    t.describe = u.describe := by
  rw [Token.describe, Token.describe, Token.kind_of_content content, Token.raw_of_content content]

theorem echo_expect (kind : TokenKind) : T.Echo first Token.content (expect kind) (expect kind) := by
  refine (echo_is free kind).bind fun here _ same => ?_
  obtain rfl : here = _ := same
  refine .ite (echo_advance free) (echo_failAtToken free fun t u content => ?_)
  refine ⟨congrArg ("Expected " ++ kind.describe ++ ", found " ++ ·) (describe_congr content), ?_⟩
  change Cause.misfitKind t = Cause.misfitKind u
  rw [Cause.misfitKind, Cause.misfitKind, Token.kind_of_content content]

theorem echo_eat (kind : TokenKind) : T.Echo first id (eat kind) (eat kind) := by
  refine (echo_is free kind).bind ?_
  rintro here _ (rfl : here = _)
  have passes : T.Echo first id (advance >>= fun _ => pure true) (advance >>= fun _ => pure true) :=
    (echo_advance free).bind fun _ _ _ => echo_pure rfl
  exact passes.ite (echo_pure rfl)

end

theorem echo_previous : T.Echo first (fun _ : Token => ()) previous previous :=
  ⟨readsOn_previous, fun _ _ _ => .ok rfl⟩

theorem echo_cursor {f g : Nat → Parser α} (reads : ReadsOn (cursor >>= f))
    (h : ∀ i, first ≤ i → i ≤ T.limit → T.Echo first e (f i) (g (i + T.shift))) :
    T.Echo first e (cursor >>= f) (cursor >>= g) where
  reads := reads
  replied s start within := by
    have le := Nat.le_trans (reads a s).cursor within
    exact (h _ start le).replied s start within

theorem echo_failTooDeep : T.Echo first e (failTooDeep : Parser α) failTooDeep where
  reads := readsOn_scope.bind fun _ => readsOn_fail _
  replied s _ _ := by
    refine .error ?_
    rw [← T.options]
    exact .refl _

section

variable {step step' : σ → Parser (ForInStep σ)} {d : σ → ε}

theorem Echo.loop (turning : ∀ depth, (a.course depth).Turning step)
    (h : ∀ x y, d x = d y → T.Echo first (round d) (step x) (step' y)) {x y : σ}
    (same : d x = d y) : T.Echo first d (loop step x) (loop step' y) where
  reads := .loop (fun x => (h x x rfl).reads) x
  replied s start within := by
    have inside : s.cursor < a.stream.size :=
      Nat.lt_of_le_of_lt (Nat.le_trans
        ((ReadsOn.loop (fun x => (h x x rfl).reads) x) a s).cursor within) T.inside
    suffices rounds : ∀ {x : σ} {s : ParserState} {reply : Reply σ}, Repeats step a x s reply →
        s.cursor ≤ reply.state.cursor ∧ (first ≤ s.cursor → reply.state.cursor ≤ T.limit →
          ∀ y, d x = d y → ∀ n, T.limit - s.cursor < n →
            T.Replied d reply (iterate step' n y b (T.moved s))) from
      (rounds ((turning s.depth).repeats rfl inside)).2 start within y same
        (b.stream.size - (s.cursor + T.shift) + 1) (by have := T.fits; omega)
    intro x s reply repeats
    induction repeats with
    | @done x z s t inside read =>
      refine ⟨((h x x rfl).reads.of_ok read).cursor, fun start within y same n enough => ?_⟩
      obtain ⟨n, rfl⟩ := Nat.exists_eq_succ_of_ne_zero (Nat.ne_of_gt (Nat.zero_lt_of_lt enough))
      have replied := (h x y same).replied s start (by rwa [read])
      rw [read] at replied
      rw [iterate, bind_apply]
      generalize step' y b (T.moved s) = second at replied
      cases replied with
      | @ok _ w _ alike =>
        cases w with
        | done => exact .ok (ForInStep.done.inj alike)
        | yield => cases alike
    | @failed x s t f inside read =>
      have onward := ((h x x rfl).reads a s).cursor
      rw [read] at onward
      refine ⟨onward, fun start within y same n enough => ?_⟩
      obtain ⟨n, rfl⟩ := Nat.exists_eq_succ_of_ne_zero (Nat.ne_of_gt (Nat.zero_lt_of_lt enough))
      have replied := (h x y same).replied s start (by rwa [read])
      rw [read] at replied
      rw [iterate, bind_apply]
      generalize step' y b (T.moved s) = second at replied
      cases replied with
      | error alike => exact .error alike
    | @yield x z s t reply inside read rest ih =>
      have progress := (turning s.depth x s rfl).progress read ⟨z, rfl⟩
      refine ⟨Nat.le_trans (Nat.le_of_lt progress) ih.1, fun start within y same n enough => ?_⟩
      obtain ⟨n, rfl⟩ := Nat.exists_eq_succ_of_ne_zero (Nat.ne_of_gt (Nat.zero_lt_of_lt enough))
      have later : t.cursor ≤ T.limit := Nat.le_trans ih.1 within
      have replied := (h x y same).replied s start (by rwa [read])
      rw [read] at replied
      rw [iterate, bind_apply]
      generalize step' y b (T.moved s) = second at replied
      cases replied with
      | @ok _ w _ alike =>
        cases w with
        | done => cases alike
        | yield w =>
          exact ih.2 (by omega) within w (ForInStep.yield.inj alike) n (by omega)

end

end Scope.Track

end PulseSyntax
