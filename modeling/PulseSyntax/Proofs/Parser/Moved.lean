import PulseSyntax.Proofs.Parser.Yields
import PulseSyntax.Proofs.Token.Body
import PulseSyntax.Proofs.Token.Order

/-!
Two runs over the same tokens at different places. Places matter in one way: an update operator on a
later line than its operand does not belong to it. If the second run has all such tokens on one
line, the first may stop before an operator that the second takes in; nothing then reads on from
there, so a first run that comes to its end is followed by the second throughout.
-/

namespace PulseSyntax

/-- The tokens of a source on its own, and those of an interpolation that holds it. What stood on
    one line still does. -/
structure Scope.Moved (q : Quotation) (a b : Scope) : Prop where
  tokens : a.stream.toList.map Token.content = b.stream.toList.map Token.content
  lines : ∀ i j, (a.stream.get i).line = (a.stream.get j).line →
    (b.stream.get i).line = (b.stream.get j).line
  options : a.options = b.options
  alone : a.quotation = none
  quoted : b.quotation = some q

/-- An update operator stands at the cursor, on a later line than the token before it. -/
def Scope.Stalled (scope : Scope) (s : ParserState) : Prop :=
  UpdateOp.ofKind? (scope.stream.get s.cursor).kind ≠ none ∧
    (scope.stream.get s.cursor).line ≠ (scope.stream.get (s.cursor - 1)).line

theorem Scope.Stalled.kind_ne {scope : Scope} {s : ParserState} (h : scope.Stalled s)
    {kind : TokenKind} (other : UpdateOp.ofKind? kind = none) :
    (scope.stream.get s.cursor).kind ≠ kind := fun same => h.1 (same ▸ other)

namespace Scope.Moved

variable {q : Quotation} {a b : Scope}

theorem size (h : Moved q a b) : a.stream.size = b.stream.size := TokenStream.size_congr h.tokens

theorem content (h : Moved q a b) (i : Nat) :
    (a.stream.get i).content = (b.stream.get i).content := TokenStream.get_congr h.tokens i

theorem kind (h : Moved q a b) (i : Nat) : (a.stream.get i).kind = (b.stream.get i).kind :=
  Token.kind_of_content (h.content i)

theorem tokensFrom (h : Moved q a b) (i : Nat) :
    (a.stream.tokensFrom i).map Token.content = (b.stream.tokensFrom i).map Token.content := by
  rw [TokenStream.tokensFrom_eq, TokenStream.tokensFrom_eq, List.map_drop, List.map_drop, h.tokens]

end Scope.Moved

namespace Parser

variable {α β γ δ σ τ : Type} {q : Quotation} {a b : Scope}

/-- Wherever the first run succeeds, the second does as well, with a related answer and in the same
    state; or else the first has stalled, with an answer as told. -/
def Follows (a b : Scope) (R : α → β → Prop) (P : α → Prop) (p : Parser α) (p' : Parser β) : Prop :=
  ∀ s, Yields p a s fun x t => (∃ y, p' b s = .ok y t ∧ R x y) ∨ a.Stalled t ∧ P x

/-- A parser that does not read on from where the run has stalled. -/
def Stays (a : Scope) (P : α → Prop) (p : Parser α) : Prop :=
  ∀ s, a.Stalled s → Yields p a s fun x t => a.Stalled t ∧ P x

/-- The answer of a parser that may stall, and of one that never does. -/
def Maybe (_ : α) : Prop := True

def Never (_ : α) : Prop := False

section

variable {P : α → Prop} {Q : β → Prop} {p : Parser α}

theorem stays_pure {x : α} (h : P x) : Stays a P (pure x) := fun _ stalled =>
  yields_pure.mpr ⟨stalled, h⟩

theorem stays_expectSymbol {sign : Symbol} (other : UpdateOp.ofKind? (.symbol sign) = none)
    (f : Token → Parser β) : Stays a Q (expectSymbol sign >>= f) := by
  intro s stalled
  rw [yields_bind, yields_expectSymbol]
  intro kind
  exact absurd kind (stalled.kind_ne other)

theorem stays_eatSymbol {sign : Symbol} (other : UpdateOp.ofKind? (.symbol sign) = none)
    {f : Bool → Parser β} (h : Stays a Q (f false)) : Stays a Q (eatSymbol sign >>= f) := by
  intro s stalled
  rw [yields_bind, yields_eatSymbol]
  exact ⟨fun kind => absurd kind (stalled.kind_ne other), fun _ => h s stalled⟩

theorem stays_current {f : Token → Parser β}
    (h : ∀ t, UpdateOp.ofKind? t.kind ≠ none → Stays a Q (f t)) : Stays a Q (current >>= f) := by
  intro s stalled
  rw [yields_bind, yields_current]
  exact h _ stalled.1 s stalled

theorem Stays.bind {f : α → Parser β} (h : Stays a P p) (hf : ∀ x, P x → Stays a Q (f x)) :
    Stays a Q (p >>= f) := by
  intro s stalled
  rw [yields_bind]
  exact (h s stalled).mono fun x t ⟨stalled, here⟩ => hf x here t stalled

theorem Stays.iterate {step : σ → Parser (ForInStep σ)} (h : ∀ x, Stays a Maybe (step x)) (n : Nat)
    (x : σ) : Stays a Maybe (iterate step n x) := by
  intro s stalled
  have keeps (y : σ) (t : ParserState) (stalled : a.Stalled t) :
      Yields (step y) a t fun _ u => a.Stalled u :=
    (h y t stalled).mono fun _ _ stays => stays.1
  exact (yields_iterate (I := fun _ t => a.Stalled t) keeps n stalled).mono
    fun _ _ stalled => ⟨stalled, trivial⟩

theorem Stays.chainRound {step : α → Parser (Option α)} (h : ∀ x, Stays a Maybe (step x)) (x : α) :
    Stays a Maybe (chainRound step x) := by
  refine (h x).bind fun next _ => ?_
  cases next <;> exact stays_pure trivial

theorem Stays.chain {step : α → Parser (Option α)} (h : ∀ x, Stays a Maybe (step x)) (x : α) :
    Stays a Maybe (chain step x) := fun s stalled =>
  Stays.iterate (Stays.chainRound h) (a.stream.size - s.cursor + 1) x s stalled

end

section

variable {R : α → β → Prop} {S : γ → δ → Prop} {P : α → Prop} {Q : γ → Prop}
variable {p : Parser α} {p' : Parser β}

theorem Follows.bind {f : α → Parser γ} {f' : β → Parser δ} (h : Follows a b R P p p')
    (hf : ∀ x y, R x y → Follows a b S Q (f x) (f' y)) (stays : ∀ x, P x → Stays a Q (f x)) :
    Follows a b S Q (p >>= f) (p' >>= f') := by
  intro s z u ok
  obtain ⟨x, t, first, rest⟩ := bind_eq_ok.mp ok
  rcases h s first with ⟨y, second, related⟩ | ⟨stalled, here⟩
  · rcases hf x y related t rest with ⟨z', last, same⟩ | stalled
    · exact .inl ⟨z', by rw [bind_of_ok second, last], same⟩
    · exact .inr stalled
  -- The second run may be ahead by now, but the first is not going to read on.
  · exact .inr (stays x here t stalled rest)

theorem Follows.step {f : α → Parser γ} {f' : β → Parser δ} (h : Follows a b R Never p p')
    (hf : ∀ x y, R x y → Follows a b S Q (f x) (f' y)) : Follows a b S Q (p >>= f) (p' >>= f') :=
  h.bind hf fun _ never => never.elim

theorem follows_pure {x : α} {y : β} (h : R x y) : Follows a b R P (pure x) (pure y) := by
  intro s
  rw [yields_pure]
  exact .inl ⟨y, rfl, h⟩

theorem follows_of_fails (h : ∀ {s x t}, p a s ≠ .ok x t) : Follows a b R P p p' :=
  fun _ _ _ ok => absurd ok h

theorem Follows.ite {condition : Prop} [Decidable condition] {r : Parser α} {r' : Parser β}
    (h : condition → Follows a b R P p p') (h' : ¬condition → Follows a b R P r r') :
    Follows a b R P (if condition then p else r) (if condition then p' else r') := by
  split
  · next yes => exact h yes
  · next no => exact h' no

theorem Follows.deeper (h : Follows a b R P p p') : Follows a b R P (deeper p) (deeper p') := by
  intro s x t ok
  obtain ⟨u, inner, rfl⟩ := deeper_eq_ok.mp ok
  rcases h _ inner with ⟨y, second, related⟩ | stalled
  · exact .inl ⟨y, deeper_eq_ok.mpr ⟨u, second, rfl⟩, related⟩
  · exact .inr stalled

end

section

variable {P : Token → Prop} {kind : TokenKind}

theorem follows_peekAt (h : a.Moved q b) (offset : Nat) :
    Follows a b (fun t u => t.content = u.content) P (peekAt offset) (peekAt offset) := by
  intro s
  rw [yields_peekAt]
  exact .inl ⟨_, rfl, h.content _⟩

theorem follows_current (h : a.Moved q b) :
    Follows a b (fun t u => t.content = u.content) P current current := follows_peekAt h 0

theorem follows_peek (h : a.Moved q b) :
    Follows a b (fun t u => t.content = u.content) P peek peek := follows_peekAt h 1

theorem follows_previous {P : Token → Prop} :
    Follows a b (fun _ _ => True) P previous previous := by
  intro s
  rw [yields_previous]
  exact .inl ⟨_, rfl, trivial⟩

theorem follows_cursor {P : Nat → Prop} : Follows a b Eq P cursor cursor := by
  intro s
  rw [yields_cursor]
  exact .inl ⟨_, rfl, rfl⟩

theorem follows_advance (h : a.Moved q b) :
    Follows a b (fun t u => t.content = u.content) P advance advance := by
  intro s
  rw [yields_advance]
  refine .inl ⟨b.stream.get s.cursor, ?_, h.content _⟩
  rw [ParserState.next, h.kind]
  rfl

theorem follows_is (h : a.Moved q b) (kind : TokenKind) {P : Bool → Prop} :
    Follows a b Eq P (is kind) (is kind) := by
  intro s
  rw [yields_is, h.kind]
  exact .inl ⟨_, rfl, rfl⟩

theorem follows_expect (h : a.Moved q b) (kind : TokenKind) :
    Follows a b (fun t u => t.content = u.content) P (expect kind) (expect kind) := by
  refine (follows_is h kind).step fun found _ same => ?_
  rw [← same]
  exact .ite (fun _ => follows_advance h) fun _ => follows_of_fails failAtToken_ne_ok

theorem follows_expectSymbol (h : a.Moved q b) (sign : Symbol) :
    Follows a b (fun t u => t.content = u.content) P (expectSymbol sign) (expectSymbol sign) :=
  follows_expect h _

theorem follows_eat (h : a.Moved q b) (kind : TokenKind) {P : Bool → Prop} :
    Follows a b Eq P (eat kind) (eat kind) := by
  refine (follows_is h kind).step fun found _ same => ?_
  rw [← same]
  refine .ite (fun _ => (follows_advance h).step fun _ _ _ => ?_) fun _ => follows_pure rfl
  exact follows_pure rfl

end

section

/-- Rounds of two repetitions after which both go on, or both are done, with related states. -/
inductive SameRound (R : σ → τ → Prop) : ForInStep σ → ForInStep τ → Prop where
  | done {x : σ} {y : τ} (h : R x y) : SameRound R (.done x) (.done y)
  | yield {x : σ} {y : τ} (h : R x y) : SameRound R (.yield x) (.yield y)

variable {R : σ → τ → Prop} {P : ForInStep σ → Prop} {Q : σ → Prop}
variable {step : σ → Parser (ForInStep σ)} {step' : τ → Parser (ForInStep τ)}

theorem Follows.iterate (h : ∀ x y, R x y → Follows a b (SameRound R) P (step x) (step' y))
    (done : ∀ x, P (.done x) → Q x)
    (yield : ∀ n x, P (.yield x) → Stays a Q (Parser.iterate step n x)) (n : Nat) {x : σ} {y : τ}
    (related : R x y) :
    Follows a b R Q (Parser.iterate step n x) (Parser.iterate step' n y) := by
  induction n generalizing x y with
  | zero => exact follows_pure related
  | succ n ih =>
    refine (h x y related).bind (fun _ _ same => ?_) fun next here => ?_
    · cases same with
      | done related => exact follows_pure related
      | yield related => exact ih related
    · cases next with
      | done z => exact stays_pure (done z here)
      | yield z => exact yield n z here

theorem Follows.loop (moved : a.Moved q b)
    (h : ∀ x y, R x y → Follows a b (SameRound R) P (step x) (step' y))
    (done : ∀ x, P (.done x) → Q x)
    (yield : ∀ n x, P (.yield x) → Stays a Q (Parser.iterate step n x)) {x : σ} {y : τ}
    (related : R x y) : Follows a b R Q (Parser.loop step x) (Parser.loop step' y) := by
  intro s
  have run := Follows.iterate h done yield (a.stream.size - s.cursor + 1) related s
  have same : Parser.loop step' y b s =
      Parser.iterate step' (a.stream.size - s.cursor + 1) y b s := by
    rw [moved.size]
    rfl
  rw [← same] at run
  exact run

end

section

variable {R : α → β → Prop}

theorem Follows.chain (moved : a.Moved q b) {step : α → Parser (Option α)}
    {step' : β → Parser (Option β)}
    (h : ∀ x y, R x y → Follows a b (Option.Rel R) Maybe (step x) (step' y))
    (stays : ∀ x, Stays a Maybe (step x)) {x : α} {y : β} (related : R x y) :
    Follows a b R Maybe (Parser.chain step x) (Parser.chain step' y) := by
  refine .loop moved (P := Maybe) (fun x y related => ?_) (fun _ _ => trivial)
    (fun n x _ => Stays.iterate (Stays.chainRound stays) n x) related
  refine (h x y related).bind (fun next next' same => ?_) fun next _ => ?_
  · cases same with
    | some related => exact follows_pure (.yield related)
    | none => exact follows_pure (.done related)
  · cases next <;> exact stays_pure trivial

theorem Follows.commaSeparated (moved : a.Moved q b) (close : Symbol) {item : Parser α}
    {item' : Parser β} (h : Follows a b R Maybe item item') :
    Follows a b (List.Forall₂ R) Maybe (Parser.commaSeparated close item)
      (Parser.commaSeparated close item') := by
  have comma : UpdateOp.ofKind? (.symbol .comma) = none := rfl
  refine Follows.bind (R := fun xs ys => List.Forall₂ R xs.toList ys.toList) (P := Maybe)
    (.loop moved (P := fun round => ∃ xs, round = .done xs) (fun xs ys related => ?_)
      (fun _ _ => trivial) (fun _ _ done => ?_) .nil)
    (fun xs ys related => follows_pure related) fun xs _ => stays_pure trivial
  · refine (follows_is moved _).step fun found _ same => ?_
    rw [← same]
    refine .ite (fun _ => follows_pure (.done related)) fun _ => h.bind (fun x y last => ?_)
      fun x _ => stays_eatSymbol comma (stays_pure ⟨_, rfl⟩)
    have more : List.Forall₂ R (xs.push x).toList (ys.push y).toList := by
      rw [Array.toList_push, Array.toList_push]
      exact List.rel_append related (.cons last .nil)
    refine (follows_eat moved _).step fun found _ same => ?_
    rw [← same]
    exact .ite (fun _ => follows_pure (.yield more)) fun _ => follows_pure (.done more)
  · obtain ⟨_, done⟩ := done
    cases done

theorem follows_rawBlock (moved : a.Moved q b) {P : TokenRange → Prop} :
    Follows a b Eq P rawBlock rawBlock := by
  refine (follows_expectSymbol moved _).step fun _ _ _ => follows_cursor.step fun start _ same => ?_
  rw [← same]
  refine Follows.step (R := Eq) (.loop moved (P := Never) (fun depth _ same => ?_)
    (fun _ never => never) (fun _ _ never => never.elim) rfl) fun _ _ _ =>
      follows_cursor.step fun stop _ same => (follows_advance moved).step fun _ _ _ => ?_
  · rw [← same]
    refine (follows_current moved).step fun t u content => ?_
    rw [← Token.kind_of_content content]
    refine .ite (fun _ => (follows_expectSymbol moved _).step fun _ _ _ => follows_pure (.done rfl))
      fun _ => .ite (fun _ => follows_pure (.done rfl)) fun _ => ?_
    refine (follows_advance moved).step fun _ _ _ => .ite (fun _ => follows_pure (.yield rfl))
      fun _ => .ite (fun _ => follows_pure (.yield rfl)) fun _ => follows_pure (.yield rfl)
  · rw [← same]
    exact follows_pure rfl

end

end Parser

end PulseSyntax
