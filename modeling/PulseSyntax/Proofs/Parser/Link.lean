import PulseSyntax.Markup.Parser
import PulseSyntax.Proofs.Expr.Grammar
import PulseSyntax.Proofs.Parser.Moved
import PulseSyntax.Proofs.Parser.Track

/-!
Two runs over sequences of tokens that are the same but for some tokens in the middle. A link says at
which index of the second a token of the first stands, as far as a run may read. Where the first run
succeeds within the bound of the link, the second does as well, with the same answer apart from places.
-/

namespace PulseSyntax

open PulseSyntax.Parser

/-- No operand goes on with a token of this kind. -/
def TokenKind.Settled (kind : TokenKind) : Prop := kind.goesOnAt = 11 ∨ kind = .identifier

/-- Nothing that ends before the index goes on at it. -/
def TokenStream.Settles (stream : TokenStream) (i : Nat) : Prop :=
  (stream.get i).kind.goesOnAt = 11 ∨
    (stream.get i).kind = .identifier ∧ (stream.get (i + 1)).kind ≠ .symbol .arrow

theorem TokenStream.Settles.settled {stream : TokenStream} {i : Nat} (h : stream.Settles i) :
    (stream.get i).kind.Settled := h.imp_right And.left

/-- A further branch of a conditional has its head at an index, in so many tokens. -/
def Scope.BranchAt (scope : Scope) (i length : Nat) : Prop :=
  ∀ depth, MarkupNode.branchHead scope ⟨i, depth⟩ = .ok (some .elseIf) ⟨i + length, depth⟩

/-- The index is not beyond the bound, if there is one. -/
def Within (bound : Option Nat) (i : Nat) : Prop := ∀ g ∈ bound, i ≤ g

/-- Where the tokens of one scope stand in another one. -/
structure Scope.Link (a b : Scope) where
  move : Nat → Nat
  /-- The indices at which the first run may stand. -/
  On : Nat → Prop
  /-- Where the tokens that are the same in both end, if the first run may read on from there. -/
  bound : Option Nat
  /-- From the sign at such an index on the tokens differ, up to the end of the head of a branch. -/
  Forks : Nat → Prop
  left : TokenRange → TokenRange
  right : TokenRange → TokenRange
  same : bound ≠ none → left = right
  options : a.options = b.options
  quotation : a.quotation = b.quotation
  inside : ∀ {i}, On i → i < a.stream.size ∧ move i < b.stream.size
  token : ∀ {i}, On i → Within bound (i + 1) → a.stream.get i = b.stream.get (move i)
  next : ∀ {i}, On i → Within bound (i + 1) → ¬ Forks i → (a.stream.get i).kind ≠ .endOfFile →
    On (i + 1) ∧ move (i + 1) = move i + 1
  forks : ∀ {i}, On i → Forks i → ∃ n n', a.BranchAt i n ∧ b.BranchAt (move i) n' ∧ On (i + n) ∧
    move (i + n) = move i + n'
  settles : ∀ g ∈ bound, On g → a.stream.Settles g ∧ b.stream.Settles (move g)
  lines : ∀ {i}, On i → Within bound (i + 1) → UpdateOp.ofKind? (a.stream.get i).kind ≠ none →
    ((a.stream.get i).line = (a.stream.get (i - 1)).line ↔
      (b.stream.get (move i)).line = (b.stream.get (move i - 1)).line)
  arrows : ∀ {i}, On i → Within bound (i + 1) → (a.stream.get i).kind = .symbol .openParen →
    Expr.closesBeforeArrow 0 (a.stream.tokensFrom i) =
      Expr.closesBeforeArrow 0 (b.stream.tokensFrom (move i))
  body : ∀ {s t r}, rawBlock a s = .ok r t → On s.cursor → Within bound t.cursor → On t.cursor ∧
    ∃ r', rawBlock b ⟨move s.cursor, s.depth⟩ = .ok r' ⟨move t.cursor, t.depth⟩ ∧
      if a.quotation = none then left r = right r' else r = r'

theorem Within.mono {bound : Option Nat} {i j : Nat} (h : Within bound j) (le : i ≤ j) :
    Within bound i := fun g here => Nat.le_trans le (h g here)

theorem Within.before_or {bound : Option Nat} {i : Nat} (h : Within bound i) :
    Within bound (i + 1) ∨ bound = some i := by
  by_cases last : bound = some i
  · exact .inr last
  · refine .inl fun g here => Nat.lt_of_le_of_ne (h g here) ?_
    rintro rfl
    exact last here

namespace Scope.Link

variable {a b : Scope} (T : a.Link b) {α β γ ε ζ σ : Type}

def moved (s : ParserState) : ParserState := ⟨T.move s.cursor, s.depth⟩

@[simp] theorem moved_cursor (s : ParserState) : (T.moved s).cursor = T.move s.cursor := rfl

/-- From a state on the first run only reads on. Where it ends so many tokens before the bound, the
    second leads to the state that corresponds, with an answer in which `e` shows no difference but
    for the indices of tokens. -/
def Copies (n : Nat) (e : (TokenRange → TokenRange) → α → ε) (p q : Parser α) (s : ParserState) :
    Prop :=
  ∀ ⦃x t⦄, p a s = .ok x t → (T.bound ≠ none → s.cursor ≤ t.cursor) ∧
    (T.On s.cursor → Within T.bound (t.cursor + n) →
      T.On t.cursor ∧ ∃ y, q b (T.moved s) = .ok y (T.moved t) ∧ e T.left x = e T.right y)

variable {T} {n m : Nat} {e : (TokenRange → TokenRange) → α → ε}
variable {e' : (TokenRange → TokenRange) → β → ζ} {p q p' q' : Parser α} {s : ParserState}
variable {kind : TokenKind} {sign : Symbol}

theorem fork_sign {i : Nat} (on : T.On i) (forks : T.Forks i) :
    (a.stream.get i).kind = .symbol .atSign := by
  obtain ⟨n, -, branch, -⟩ := T.forks on forks
  have head := branch 0
  by_contra other
  rw [MarkupNode.branchHead, bind_of_ok peek_apply, bind_of_ok (isSymbol_apply _),
    beq_eq_false_iff_ne.mpr other] at head
  cases head

theorem unforked {i : Nat} (other : (a.stream.get i).kind ≠ .symbol .atSign) (on : T.On i) :
    ¬ T.Forks i := fun forks => other (fork_sign on forks)

theorem moved_ahead (on : T.On s.cursor) (within : Within T.bound (s.cursor + 1))
    (unforked : ¬ T.Forks s.cursor) (real : (a.stream.get s.cursor).kind ≠ .endOfFile) :
    T.On (s.cursor + 1) ∧ (T.moved s).ahead 1 = T.moved (s.ahead 1) := by
  obtain ⟨on, next⟩ := T.next on within unforked real
  exact ⟨on, by rw [moved, moved, ParserState.ahead_cursor, next]; rfl⟩

theorem beq_ahead {i : Nat} (on : T.On i) (within : Within T.bound i) (other : ¬ kind.Settled) :
    ((a.stream.get i).kind == kind) = ((b.stream.get (T.move i)).kind == kind) := by
  rcases within.before_or with before | last
  · rw [T.token on before]
  · obtain ⟨first, second⟩ := T.settles i last on
    have ne {found : TokenKind} (settled : found.Settled) : (found == kind) = false :=
      beq_eq_false_iff_ne.mpr fun same => other (same ▸ settled)
    rw [ne first.settled, ne second.settled]

section

theorem Copies.mono (h : T.Copies n e p q s) (le : n ≤ m) : T.Copies m e p q s := fun _ _ ok =>
  ⟨(h ok).1, fun on within => (h ok).2 on (within.mono (Nat.add_le_add_left le _))⟩

theorem refl (e : (TokenRange → TokenRange) → α → ε) (bounded : T.bound ≠ none) (x : α) :
    e T.left x = e T.right x := by
  rw [T.same bounded]

theorem Copies.before {x : α} {t : ParserState} (h : T.Copies n e p q s) (ok : p a s = .ok x t)
    (within : Within T.bound (t.cursor + m)) : Within T.bound (s.cursor + m) := fun g here =>
  Nat.le_trans (Nat.add_le_add_right ((h ok).1 (Option.ne_none_iff_exists'.mpr ⟨g, here⟩)) m)
    (within g here)

theorem Copies.andThen {f g : α → Parser β} (h : T.Copies (n + m) e p q s)
    (hf : ∀ x y t, p a s = .ok x t → e T.left x = e T.right y → T.Copies n e' (f x) (g y) t)
    (reads : ∀ x t, p a s = .ok x t → ∀ z u, f x a t = .ok z u → t.cursor + m ≤ u.cursor) :
    T.Copies n e' (p >>= f) (q >>= g) s := by
  intro z u ok
  obtain ⟨x, t, first, rest⟩ := bind_eq_ok.mp ok
  have onward := reads x t first z u rest
  refine ⟨fun bounded => ?_, fun on within => ?_⟩
  · exact Nat.le_trans ((h first).1 bounded) (Nat.le_of_add_right_le onward)
  · obtain ⟨there, y, second, same⟩ := (h first).2 on (within.mono (by omega))
    obtain ⟨last, w, third, alike⟩ := (hf x y t first same rest).2 there within
    exact ⟨last, w, by rw [bind_of_ok second, third], alike⟩

theorem Copies.bind {f g : α → Parser β} (h : T.Copies n e p q s)
    (hf : ∀ x y t, p a s = .ok x t → e T.left x = e T.right y → T.Copies n e' (f x) (g y) t) :
    T.Copies n e' (p >>= f) (q >>= g) s := by
  intro z u ok
  obtain ⟨x, t, first, rest⟩ := bind_eq_ok.mp ok
  have onward (bounded : T.bound ≠ none) : t.cursor ≤ u.cursor :=
    (hf x x t first (refl e bounded x) rest).1 bounded
  refine ⟨fun bounded => Nat.le_trans ((h first).1 bounded) (onward bounded), fun on within => ?_⟩
  have before : Within T.bound (t.cursor + n) := fun g here =>
    Nat.le_trans (Nat.add_le_add_right (onward (Option.ne_none_iff_exists'.mpr ⟨g, here⟩)) n)
      (within g here)
  obtain ⟨there, y, second, same⟩ := (h first).2 on before
  obtain ⟨last, w, third, alike⟩ := (hf x y t first same rest).2 there within
  exact ⟨last, w, by rw [bind_of_ok second, third], alike⟩

theorem copies_pure {x y : α} (same : e T.left x = e T.right y) :
    T.Copies n e (pure x) (pure y) s := by
  intro z t ok
  cases ok
  exact ⟨fun _ => Nat.le_refl _, fun on _ => ⟨on, y, rfl, same⟩⟩

theorem copies_of_fails (h : ∀ {x t}, p a s ≠ .ok x t) : T.Copies n e p q s :=
  fun _ _ ok => absurd ok h

theorem Copies.ite {condition : Prop} [Decidable condition]
    (h : condition → T.Copies n e p q s) (h' : ¬ condition → T.Copies n e p' q' s) :
    T.Copies n e (if condition then p else p') (if condition then q else q') s := by
  split
  · next yes => exact h yes
  · next no => exact h' no

theorem Copies.map {f : α → β} (h : T.Copies n e p q s)
    (hf : ∀ x y, e T.left x = e T.right y → e' T.left (f x) = e' T.right (f y)) :
    T.Copies n e' (f <$> p) (f <$> q) s :=
  h.bind fun x y _ _ same => copies_pure (hf x y same)

theorem Copies.deeper (h : T.Copies n e p q { s with depth := s.depth + 1 }) :
    T.Copies n e (deeper p) (deeper q) s := by
  intro x t ok
  obtain ⟨u, inner, rfl⟩ := deeper_eq_ok.mp ok
  refine ⟨(h inner).1, fun on within => ?_⟩
  obtain ⟨there, y, second, same⟩ := (h inner).2 on within
  exact ⟨there, y, deeper_eq_ok.mpr ⟨_, second, rfl⟩, same⟩

theorem Copies.withLevels {p q : Nat → Parser α} (h : ∀ levels, T.Copies n e (p levels) (q levels) s) :
    T.Copies n e (withLevels p) (withLevels q) s := by
  intro x t ok
  refine ⟨(h _ ok).1, fun on within => ?_⟩
  have run := (h _ ok).2 on within
  rwa [T.options] at run

theorem copies_of_moves (moves : ∀ {x t}, p a s = .ok x t → s.cursor < t.cursor)
    (h : T.On s.cursor → Within T.bound (s.cursor + 1) → T.Copies n e p q s) :
    T.Copies n e p q s := fun _ _ ok =>
  ⟨fun _ => Nat.le_of_lt (moves ok), fun on within =>
    (h on (within.mono (Nat.le_add_right_of_le (moves ok))) ok).2 on within⟩

end

section

variable {f g : Token → Parser α}

theorem copies_current (h : T.Copies (n + 1) e (f (a.stream.get s.cursor)) (g (a.stream.get s.cursor)) s) :
    T.Copies (n + 1) e (current >>= f) (current >>= g) s := by
  intro x t ok
  rw [bind_of_ok current_apply] at ok
  refine ⟨(h ok).1, fun on within => ?_⟩
  have before : Within T.bound (s.cursor + 1) :=
    (h.before ok within).mono (Nat.add_le_add_left (Nat.le_add_left 1 n) _)
  rw [bind_of_ok current_apply, moved_cursor, ← T.token on before]
  exact (h ok).2 on within

theorem copies_start (moving : (a.course s.depth).Moving (current >>= f))
    (h : T.Copies n e (f (a.stream.get s.cursor)) (g (a.stream.get s.cursor)) s) :
    T.Copies n e (current >>= f) (current >>= g) s := by
  refine copies_of_moves (fun ok => (moving s rfl).progress ok trivial) fun on before => ?_
  intro x t ok
  rw [bind_of_ok current_apply] at ok
  refine ⟨(h ok).1, fun on within => ?_⟩
  rw [bind_of_ok current_apply, moved_cursor, ← T.token on before]
  exact (h ok).2 on within

theorem copies_goesOn {x y : α} (same : e T.left x = e T.right y)
    (rest : ∀ t : Token, t.kind.Settled → f t = pure x ∧ g t = pure y)
    (h : T.Copies n e (f (a.stream.get s.cursor)) (g (a.stream.get s.cursor)) s) :
    T.Copies n e (current >>= f) (current >>= g) s := by
  intro z t ok
  rw [bind_of_ok current_apply] at ok
  refine ⟨(h ok).1, fun on within => ?_⟩
  have here : Within T.bound s.cursor := (h.before ok within).mono (Nat.le_add_right _ n)
  rcases here.before_or with before | last
  · rw [bind_of_ok current_apply, moved_cursor, ← T.token on before]
    exact (h ok).2 on within
  · obtain ⟨first, second⟩ := T.settles s.cursor last on
    rw [(rest _ first.settled).1] at ok
    cases ok
    refine ⟨on, y, ?_, same⟩
    rw [bind_of_ok current_apply, moved_cursor, (rest _ second.settled).2]
    rfl

theorem copies_peek (unforked : T.On s.cursor → ¬ T.Forks s.cursor)
    (real : (a.stream.get s.cursor).kind ≠ .endOfFile)
    (h : T.Copies (n + 2) e (f (a.stream.get (s.cursor + 1))) (g (a.stream.get (s.cursor + 1))) s) :
    T.Copies (n + 2) e (peek >>= f) (peek >>= g) s := by
  intro x t ok
  rw [bind_of_ok peek_apply] at ok
  refine ⟨(h ok).1, fun on within => ?_⟩
  have before : Within T.bound (s.cursor + 2) :=
    (h.before ok within).mono (Nat.add_le_add_left (Nat.le_add_left 2 n) _)
  obtain ⟨there, next⟩ := T.next on (before.mono (Nat.le_succ _)) (unforked on) real
  rw [bind_of_ok peek_apply, moved_cursor, ← next, ← T.token there before]
  exact (h ok).2 on within

/-- Whether the token after the next one is a sign that an operand goes on with, is the same in both
    where it is the first beyond the bound. -/
theorem copies_nextIs {f g : Bool → Parser α} (goesOn : ¬ (TokenKind.symbol sign).Settled)
    (real : (a.stream.get s.cursor).kind ≠ .endOfFile)
    (plain : (a.stream.get s.cursor).kind ≠ .symbol .atSign)
    (moving : ∀ next, (a.course s.depth).Moving (f next)) (h : ∀ next, T.Copies n e (f next) (g next) s) :
    T.Copies n e (peek >>= fun t => f (t.kind == .symbol sign))
      (peek >>= fun t => g (t.kind == .symbol sign)) s := by
  intro x t ok
  rw [bind_of_ok peek_apply] at ok
  refine ⟨(h _ ok).1, fun on within => ?_⟩
  have before : Within T.bound (s.cursor + 1) :=
    within.mono (Nat.le_add_right_of_le ((moving _ s rfl).progress ok trivial))
  obtain ⟨there, next⟩ := T.next on before (unforked plain on) real
  rw [bind_of_ok peek_apply, moved_cursor, ← next, ← beq_ahead there before goesOn]
  exact (h _ ok).2 on within

theorem copies_look {p q : Parser β} {f g : β → Parser α} (le : m ≤ n)
    (looks : ∃ v, p a s = .ok v s)
    (h : T.On s.cursor → Within T.bound (s.cursor + m) → ∀ v, p a s = .ok v s →
      q b (T.moved s) = .ok v (T.moved s))
    (hf : ∀ v, p a s = .ok v s → T.Copies n e (f v) (g v) s) :
    T.Copies n e (p >>= f) (q >>= g) s := by
  intro x t ok
  obtain ⟨v, look⟩ := looks
  rw [bind_of_ok look] at ok
  refine ⟨(hf v look ok).1, fun on within => ?_⟩
  have before : Within T.bound (s.cursor + m) :=
    ((hf v look).before ok within).mono (Nat.add_le_add_left le _)
  rw [bind_of_ok (h on before v look)]
  exact (hf v look ok).2 on within

theorem copies_peekAny (h : ∀ t u, T.Copies n e (f t) (g u) s) :
    T.Copies n e (peek >>= f) (peek >>= g) s := fun _ _ ok => h _ _ ok

theorem copies_previous (h : ∀ t u, T.Copies n e (f t) (g u) s) :
    T.Copies n e (previous >>= f) (previous >>= g) s := fun _ _ ok => h _ _ ok

theorem copies_is {f g : Bool → Parser α}
    (yes : (a.stream.get s.cursor).kind = kind → T.Copies (n + 1) e (f true) (g true) s)
    (no : (a.stream.get s.cursor).kind ≠ kind → T.Copies (n + 1) e (f false) (g false) s) :
    T.Copies (n + 1) e (is kind >>= f) (is kind >>= g) s := by
  have regroup (f : Bool → Parser α) : is kind >>= f = current >>= fun t => f (t.kind == kind) := rfl
  rw [regroup, regroup]
  refine copies_current ?_
  by_cases found : (a.stream.get s.cursor).kind = kind
  · rw [beq_iff_eq.mpr found]
    exact yes found
  · rw [beq_eq_false_iff_ne.mpr found]
    exact no found

theorem copies_startIs {f g : Bool → Parser α} (moving : (a.course s.depth).Moving (is kind >>= f))
    (yes : (a.stream.get s.cursor).kind = kind → T.Copies n e (f true) (g true) s)
    (no : (a.stream.get s.cursor).kind ≠ kind → T.Copies n e (f false) (g false) s) :
    T.Copies n e (is kind >>= f) (is kind >>= g) s := by
  have regroup (f : Bool → Parser α) : is kind >>= f = current >>= fun t => f (t.kind == kind) := rfl
  rw [regroup] at moving
  rw [regroup, regroup]
  refine copies_start moving ?_
  by_cases found : (a.stream.get s.cursor).kind = kind
  · rw [beq_iff_eq.mpr found]
    exact yes found
  · rw [beq_eq_false_iff_ne.mpr found]
    exact no found

theorem copies_isSymbol {f g : Bool → Parser α}
    (yes : (a.stream.get s.cursor).kind = .symbol sign → T.Copies (n + 1) e (f true) (g true) s)
    (no : (a.stream.get s.cursor).kind ≠ .symbol sign → T.Copies (n + 1) e (f false) (g false) s) :
    T.Copies (n + 1) e (isSymbol sign >>= f) (isSymbol sign >>= g) s := copies_is yes no

theorem copies_advance (real : (a.stream.get s.cursor).kind ≠ .endOfFile)
    (unforked : T.On s.cursor → ¬ T.Forks s.cursor)
    (h : T.Copies n e (f (a.stream.get s.cursor)) (g (a.stream.get s.cursor)) (s.ahead 1)) :
    T.Copies n e (advance >>= f) (advance >>= g) s := by
  intro x t ok
  rw [bind_of_ok (advance_apply real)] at ok
  refine ⟨fun bounded => Nat.le_of_succ_le ((h ok).1 bounded), fun on within => ?_⟩
  have before : Within T.bound (s.cursor + 1) :=
    (h.before ok within).mono (Nat.le_add_right _ n)
  obtain ⟨there, next⟩ := moved_ahead on before (unforked on) real
  have token := T.token on before
  rw [bind_of_ok (advance_apply (by rwa [moved_cursor, ← token])), moved_cursor, ← token, next]
  exact (h ok).2 there within

theorem copies_pass (real : (a.stream.get s.cursor).kind ≠ .endOfFile)
    (plain : (a.stream.get s.cursor).kind ≠ .symbol .atSign)
    (h : T.Copies n e (f (a.stream.get s.cursor)) (g (a.stream.get s.cursor)) (s.ahead 1)) :
    T.Copies n e (advance >>= f) (advance >>= g) s := copies_advance real (unforked plain) h

theorem copies_reads {p : Parser Token} (Fits : TokenKind → Prop)
    (reads : ∀ {scope : Scope} {s x t}, p scope s = .ok x t ↔
      Fits (scope.stream.get s.cursor).kind ∧ x = scope.stream.get s.cursor ∧ t = s.ahead 1)
    (real : ¬ Fits .endOfFile)
    (unforked : Fits (a.stream.get s.cursor).kind → T.On s.cursor → ¬ T.Forks s.cursor)
    (h : Fits (a.stream.get s.cursor).kind →
      T.Copies n e (f (a.stream.get s.cursor)) (g (a.stream.get s.cursor)) (s.ahead 1)) :
    T.Copies n e (p >>= f) (p >>= g) s := by
  intro x t ok
  obtain ⟨token, u, first, rest⟩ := bind_eq_ok.mp ok
  obtain ⟨found, rfl, rfl⟩ := reads.mp first
  have here : (a.stream.get s.cursor).kind ≠ .endOfFile := fun kind => real (kind ▸ found)
  have passes := copies_advance here (unforked found) (h found)
  have read : (advance >>= f) a s = .ok x t := by rw [bind_of_ok (advance_apply here), rest]
  refine ⟨(passes read).1, fun on within => ?_⟩
  have before : Within T.bound (s.cursor + 1) :=
    ((h found).before rest within).mono (Nat.le_add_right _ n)
  have same := T.token on before
  have answer := (passes read).2 on within
  rw [bind_of_ok (advance_apply (by rwa [moved_cursor, ← same]))] at answer
  have second : p b (T.moved s) = .ok _ _ := reads.mpr ⟨by rwa [moved_cursor, ← same], rfl, rfl⟩
  rwa [bind_of_ok second]

theorem copies_expectAny (real : kind ≠ .endOfFile)
    (unforked : (a.stream.get s.cursor).kind = kind → T.On s.cursor → ¬ T.Forks s.cursor)
    (h : (a.stream.get s.cursor).kind = kind →
      T.Copies n e (f (a.stream.get s.cursor)) (g (a.stream.get s.cursor)) (s.ahead 1)) :
    T.Copies n e (expect kind >>= f) (expect kind >>= g) s :=
  copies_reads (· = kind) (expect_eq_ok real) real.symm unforked h

theorem copies_expect (real : kind ≠ .endOfFile) (plain : kind ≠ .symbol .atSign)
    (h : (a.stream.get s.cursor).kind = kind →
      T.Copies n e (f (a.stream.get s.cursor)) (g (a.stream.get s.cursor)) (s.ahead 1)) :
    T.Copies n e (expect kind >>= f) (expect kind >>= g) s :=
  copies_expectAny real (fun found => unforked (found ▸ plain)) h

theorem copies_expectSymbol (plain : sign ≠ .atSign)
    (h : T.Copies n e (f (a.stream.get s.cursor)) (g (a.stream.get s.cursor)) (s.ahead 1)) :
    T.Copies n e (expectSymbol sign >>= f) (expectSymbol sign >>= g) s :=
  copies_expect (by simp) (by simpa using plain) fun _ => h

theorem copies_expectKeyword {word : Keyword}
    (h : T.Copies n e (f (a.stream.get s.cursor)) (g (a.stream.get s.cursor)) (s.ahead 1)) :
    T.Copies n e (expectKeyword word >>= f) (expectKeyword word >>= g) s :=
  copies_expect (by simp) (by simp) fun _ => h

theorem copies_eat {f g : Bool → Parser α} (real : kind ≠ .endOfFile)
    (plain : kind ≠ .symbol .atSign)
    (yes : (a.stream.get s.cursor).kind = kind → T.Copies (n + 1) e (f true) (g true) (s.ahead 1))
    (no : (a.stream.get s.cursor).kind ≠ kind → T.Copies (n + 1) e (f false) (g false) s) :
    T.Copies (n + 1) e (eat kind >>= f) (eat kind >>= g) s := by
  rw [Track.eat_bind real, Track.eat_bind real]
  refine copies_is (fun found => ?_) no
  exact copies_pass (by rwa [found]) (by rwa [found]) (yes found)

theorem copies_eatSymbol {f g : Bool → Parser α} (plain : sign ≠ .atSign)
    (yes : (a.stream.get s.cursor).kind = .symbol sign →
      T.Copies (n + 1) e (f true) (g true) (s.ahead 1))
    (no : (a.stream.get s.cursor).kind ≠ .symbol sign → T.Copies (n + 1) e (f false) (g false) s) :
    T.Copies (n + 1) e (eatSymbol sign >>= f) (eatSymbol sign >>= g) s :=
  copies_eat (by simp) (by simpa using plain) yes no

theorem copies_startEat {f g : Bool → Parser α} (plain : sign ≠ .atSign)
    (moving : (a.course s.depth).Moving (eatSymbol sign >>= f))
    (yes : T.Copies n e (f true) (g true) (s.ahead 1)) (no : T.Copies n e (f false) (g false) s) :
    T.Copies n e (eatSymbol sign >>= f) (eatSymbol sign >>= g) s := by
  have regroup (f : Bool → Parser α) : eatSymbol sign >>= f = _ := Track.eat_bind (by simp) f
  rw [regroup] at moving
  rw [regroup, regroup]
  refine copies_startIs moving (fun found => ?_) fun _ => no
  exact copies_pass (by simp [found]) (by simpa [found] using plain) yes

theorem Copies.closed {f : α → Token → β} (h : T.Copies (n + 1) e p q s) (plain : sign ≠ .atSign)
    (hf : ∀ x y t, e T.left x = e T.right y → e' T.left (f x t) = e' T.right (f y t)) :
    T.Copies n e' (p >>= fun x => expectSymbol sign >>= fun t => pure (f x t))
      (q >>= fun x => expectSymbol sign >>= fun t => pure (f x t)) s := by
  refine h.andThen (fun x y t _ same => copies_expectSymbol plain (copies_pure (hf x y _ same))) ?_
  intro x t _ z u ok
  obtain ⟨_, v, close, last⟩ := bind_eq_ok.mp ok
  obtain ⟨-, -, rfl⟩ := (expect_eq_ok (by simp)).mp close
  cases last
  exact Nat.le_refl _

end

end Scope.Link

end PulseSyntax
