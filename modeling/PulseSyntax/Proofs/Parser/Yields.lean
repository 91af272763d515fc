import PulseSyntax.Expr.Parser
import PulseSyntax.Proofs.Parser.Run

namespace PulseSyntax

/-- The state after the token at the cursor is read. At the end of the file it is the same. -/
def ParserState.next (scope : Scope) (s : ParserState) : ParserState :=
  if (scope.stream.get s.cursor).kind = .endOfFile then s else s.ahead 1

theorem ParserState.next_of_kind {scope : Scope} {s : ParserState} {kind : TokenKind}
    (hk : (scope.stream.get s.cursor).kind = kind) (he : kind ≠ .endOfFile) :
    s.next scope = s.ahead 1 :=
  if_neg (hk ▸ he)

theorem ParserState.le_next (scope : Scope) (s : ParserState) : s.cursor ≤ (s.next scope).cursor := by
  unfold next
  split
  · exact Nat.le_refl _
  · exact Nat.le_succ _

theorem ParserState.get_before_next {scope : Scope} {s : ParserState} {kind : TokenKind}
    (hk : (scope.stream.get s.cursor).kind = kind) (he : kind ≠ .endOfFile) :
    0 < (s.next scope).cursor ∧
      scope.stream.get ((s.next scope).cursor - 1) = scope.stream.get s.cursor := by
  rw [next_of_kind hk he]
  exact ⟨Nat.succ_pos _, rfl⟩

theorem ParserState.next_progress {scope : Scope} {s : ParserState}
    (he : (scope.stream.get s.cursor).kind ≠ .endOfFile) :
    s.cursor < (s.next scope).cursor ∧ (s.next scope).cursor < scope.stream.size := by
  rw [next_of_kind rfl he]
  exact ⟨Nat.lt_succ_self _, TokenStream.lt_size_of_kind_ne he⟩

namespace Parser

variable {α β σ : Type} {scope : Scope} {s t : ParserState}

/-- Wherever the parser succeeds, its answer and the state that it leaves are as told. -/
def Yields (p : Parser α) (scope : Scope) (s : ParserState) (Q : α → ParserState → Prop) : Prop :=
  ∀ ⦃a t⦄, p scope s = .ok a t → Q a t

theorem Yields.mono {p : Parser α} {Q R : α → ParserState → Prop} (h : Yields p scope s Q)
    (imp : ∀ a t, Q a t → R a t) : Yields p scope s R := fun a t ok => imp a t (h ok)

@[simp] theorem yields_true {p : Parser α} : Yields p scope s (fun _ _ => True) ↔ True :=
  iff_true_intro fun _ _ _ => trivial

section

variable {Q : α → ParserState → Prop} {R : β → ParserState → Prop} {p q : Parser α}

@[simp] theorem yields_bind {f : α → Parser β} :
    Yields (p >>= f) scope s R ↔ Yields p scope s fun a t => Yields (f a) scope t R := by
  constructor
  · intro h a t first b u rest
    exact h (bind_eq_ok.mpr ⟨a, t, first, rest⟩)
  · intro h b u ok
    obtain ⟨a, t, first, rest⟩ := bind_eq_ok.mp ok
    exact h first rest

@[simp] theorem yields_pure {a : α} : Yields (pure a) scope s Q ↔ Q a s := by
  constructor
  · exact fun h => h rfl
  · intro h b t ok
    cases ok
    exact h

@[simp] theorem yields_map {f : α → β} :
    Yields (f <$> p) scope s R ↔ Yields p scope s fun a t => R (f a) t := by
  change Yields (p >>= fun a => pure (f a)) scope s R ↔ _
  simp

@[simp] theorem yields_ite {condition : Prop} [Decidable condition] :
    Yields (if condition then p else q) scope s Q ↔
      (condition → Yields p scope s Q) ∧ (¬ condition → Yields q scope s Q) := by
  split <;> simp [*]

@[simp] theorem yields_fail {cause : Cause} : Yields (fail cause) scope s Q ↔ True :=
  iff_true_intro fun _ _ ok => absurd ok fail_ne_ok

@[simp] theorem yields_failAtToken {cause : Token → Cause} :
    Yields (failAtToken cause) scope s Q ↔ True :=
  iff_true_intro fun _ _ ok => absurd ok failAtToken_ne_ok

@[simp] theorem yields_failWanted {what : Wanted} : Yields (failWanted what) scope s Q ↔ True :=
  yields_failAtToken

@[simp] theorem yields_failAt {place : Place} {cause : Cause} :
    Yields (failAt place cause) scope s Q ↔ True :=
  iff_true_intro fun _ _ ok => nomatch ok

@[simp] theorem yields_failTooDeep : Yields failTooDeep scope s Q ↔ True :=
  iff_true_intro fun _ _ ok => absurd ok fail_ne_ok

end

section

variable {Q : Token → ParserState → Prop} {kind : TokenKind} {sign : Symbol} {word : Keyword}

theorem yields_of_apply {α : Type} {p : Parser α} {a : α} {Q : α → ParserState → Prop}
    (h : p scope s = .ok a t) : Yields p scope s Q ↔ Q a t := by
  constructor
  · exact fun yields => yields h
  · intro holds b u ok
    cases h.symm.trans ok
    exact holds

@[simp] theorem yields_peekAt {offset : Nat} :
    Yields (peekAt offset) scope s Q ↔ Q (scope.stream.get (s.cursor + offset)) s :=
  yields_of_apply rfl

@[simp] theorem yields_current : Yields current scope s Q ↔ Q (scope.stream.get s.cursor) s :=
  yields_of_apply rfl

@[simp] theorem yields_peek : Yields peek scope s Q ↔ Q (scope.stream.get (s.cursor + 1)) s :=
  yields_of_apply rfl

@[simp] theorem yields_previous :
    Yields previous scope s Q ↔ Q (scope.stream.get (s.cursor - 1)) s := yields_of_apply rfl

@[simp] theorem yields_scope {Q : Scope → ParserState → Prop} :
    Yields Parser.scope scope s Q ↔ Q scope s := yields_of_apply rfl

@[simp] theorem yields_cursor {Q : Nat → ParserState → Prop} :
    Yields cursor scope s Q ↔ Q s.cursor s := yields_of_apply rfl

@[simp] theorem yields_seek {target : Nat} {Q : Unit → ParserState → Prop} :
    Yields (seek target) scope s Q ↔ Q () { s with cursor := target } := yields_of_apply rfl

@[simp] theorem yields_is {Q : Bool → ParserState → Prop} :
    Yields (is kind) scope s Q ↔ Q ((scope.stream.get s.cursor).kind == kind) s :=
  yields_of_apply rfl

@[simp] theorem yields_isSymbol {Q : Bool → ParserState → Prop} :
    Yields (isSymbol sign) scope s Q ↔ Q ((scope.stream.get s.cursor).kind == .symbol sign) s :=
  yields_of_apply rfl

@[simp] theorem yields_isName {Q : Bool → ParserState → Prop} :
    Yields isName scope s Q ↔ Q (scope.stream.get s.cursor).kind.isName s := yields_of_apply rfl

@[simp] theorem yields_advance :
    Yields advance scope s Q ↔ Q (scope.stream.get s.cursor) (s.next scope) := yields_of_apply rfl

@[simp] theorem yields_expect :
    Yields (expect kind) scope s Q ↔
      ((scope.stream.get s.cursor).kind = kind → Q (scope.stream.get s.cursor) (s.next scope)) := by
  simp [expect]

@[simp] theorem yields_expectSymbol :
    Yields (expectSymbol sign) scope s Q ↔
      ((scope.stream.get s.cursor).kind = .symbol sign →
        Q (scope.stream.get s.cursor) (s.next scope)) := yields_expect

@[simp] theorem yields_expectKeyword :
    Yields (expectKeyword word) scope s Q ↔
      ((scope.stream.get s.cursor).kind = .keyword word →
        Q (scope.stream.get s.cursor) (s.next scope)) := yields_expect

@[simp] theorem yields_eat {Q : Bool → ParserState → Prop} :
    Yields (eat kind) scope s Q ↔
      ((scope.stream.get s.cursor).kind = kind → Q true (s.next scope)) ∧
        ((scope.stream.get s.cursor).kind ≠ kind → Q false s) := by
  simp [eat]

@[simp] theorem yields_eatSymbol {Q : Bool → ParserState → Prop} :
    Yields (eatSymbol sign) scope s Q ↔
      ((scope.stream.get s.cursor).kind = .symbol sign → Q true (s.next scope)) ∧
        ((scope.stream.get s.cursor).kind ≠ .symbol sign → Q false s) := yields_eat

@[simp] theorem yields_expectName :
    Yields expectName scope s Q ↔
      ((scope.stream.get s.cursor).kind.isName →
        Q (scope.stream.get s.cursor) (s.next scope)) := by
  have identifier : TokenKind.identifier.isName := by decide
  simp [expectName]
  grind

@[simp] theorem yields_expectStringOr :
    Yields (expectStringOr kind) scope s Q ↔
      ((scope.stream.get s.cursor).kind = .string ∨ (scope.stream.get s.cursor).kind = kind →
        Q (scope.stream.get s.cursor) (s.next scope)) := by
  simp [expectStringOr]
  grind

end

section

variable {step : σ → Parser (ForInStep σ)} {I : σ → ParserState → Prop}

theorem yields_iterate
    (keep : ∀ a t, I a t → Yields (step a) scope t fun next u => I next.value u)
    (rounds : Nat) {a : σ} (inv : I a s) : Yields (iterate step rounds a) scope s I := by
  induction rounds generalizing a s with
  | zero => exact yields_pure.mpr inv
  | succ rounds ih =>
    refine yields_bind.mpr ((keep a s inv).mono fun next t kept => ?_)
    cases next with
    | done b => exact yields_pure.mpr kept
    | yield b => exact ih kept

theorem yields_loop
    (keep : ∀ a t, I a t → Yields (step a) scope t fun next u => I next.value u) {a : σ}
    (inv : I a s) : Yields (loop step a) scope s I :=
  yields_iterate keep _ inv

/-- What a round of a repetition is to yield: it is done, or it keeps an invariant and reads on. -/
def Round (scope : Scope) (s : ParserState) (I Q : σ → ParserState → Prop) :
    ForInStep σ → ParserState → Prop
  | .done b, t => Q b t
  | .yield b, t => I b t ∧ s.cursor < t.cursor ∧ t.cursor < scope.stream.size

theorem yields_iterate_until {Q : σ → ParserState → Prop}
    (round : ∀ a t, I a t → Yields (step a) scope t (Round scope t I Q))
    {rounds : Nat} (enough : scope.stream.size - s.cursor < rounds) {a : σ} (inv : I a s) :
    Yields (iterate step rounds a) scope s Q := by
  induction rounds generalizing a s with
  | zero => omega
  | succ rounds ih =>
    refine yields_bind.mpr ((round a s inv).mono fun next t kept => ?_)
    cases next with
    | done b => exact yields_pure.mpr kept
    | yield b =>
      obtain ⟨inv, progress, inside⟩ := kept
      exact ih (by omega) inv

theorem yields_loop_until {Q : σ → ParserState → Prop}
    (round : ∀ a t, I a t → Yields (step a) scope t (Round scope t I Q)) {a : σ} (inv : I a s) :
    Yields (loop step a) scope s Q :=
  yields_iterate_until round (Nat.lt_succ_self _) inv

end

section

variable {α σ : Type} {scope : Scope}

/-- Whatever the parser answers, `P` holds of it. -/
def Gives (scope : Scope) (P : α → Prop) (p : Parser α) : Prop :=
  ∀ s, Yields p scope s fun a _ => P a

namespace Gives

variable {P : α → Prop} {p : Parser α}

theorem mono {P' : α → Prop} (h : Gives scope P p) (imp : ∀ a, P a → P' a) : Gives scope P' p :=
  fun s => (h s).mono fun a _ holds => imp a holds

theorem deeper (h : Gives scope P p) : Gives scope P (deeper p) := by
  intro s a t ok
  obtain ⟨u, inner, -⟩ := deeper_eq_ok.mp ok
  exact h _ inner

theorem withLevels {p : Nat → Parser α} (h : ∀ levels, Gives scope P (p levels)) :
    Gives scope P (withLevels p) :=
  fun s => h (scope.options.maxDepth - s.depth) s

theorem loop {I : σ → Prop} {step : σ → Parser (ForInStep σ)}
    (h : ∀ a, I a → Gives scope (fun next => I next.value) (step a)) {start : σ}
    (holds : I start) : Gives scope I (loop step start) :=
  fun _ => yields_loop (I := fun a _ => I a) (fun a t inv => h a inv t) holds

theorem chain {I : α → Prop} {step : α → Parser (Option α)}
    (h : ∀ a, I a → Gives scope (∀ b ∈ ·, I b) (step a)) {start : α} (holds : I start) :
    Gives scope I (chain step start) := by
  refine loop (fun a own s => yields_bind.mpr ((h a own s).mono fun next t all => ?_)) holds
  cases next with
  | none => exact yields_pure.mpr own
  | some b => exact yields_pure.mpr (all b rfl)

theorem manyAfter (close : Symbol) {item : Array α → Parser α}
    (h : ∀ before, Gives scope P (item before)) :
    Gives scope (∀ a ∈ ·, P a) (manyAfter close item) := by
  intro s
  refine yields_bind.mpr ((loop (I := fun items : Array α => ∀ a ∈ items, P a)
    (fun items all t => ?_) (by simp) s).mono fun items t all =>
      yields_pure.mpr (by simpa using all))
  simp only [yields_bind, yields_current, yields_ite, yields_pure]
  exact ⟨fun _ => all, fun _ => (h items t).mono fun a u holds =>
    Array.forall_mem_push.mpr ⟨holds, all⟩⟩

theorem commaSeparatedAfter_push {I : Array α → Prop} (close : Symbol) {item : Array α → Parser α}
    (h : ∀ before, I before → Gives scope (fun a => I (before.push a)) (item before))
    (holds : I #[]) : Gives scope (fun items => I items.toArray) (commaSeparatedAfter close item) := by
  intro s
  refine yields_bind.mpr ((loop (fun items own t => ?_) holds s).mono fun items t own =>
    yields_pure.mpr (by simpa using own))
  simp only [commaRound, yields_bind, yields_isSymbol, yields_ite, yields_pure, yields_eatSymbol]
  refine ⟨fun _ => own, fun _ => (h items own t).mono fun a u more => ?_⟩
  exact ⟨fun _ => ⟨fun _ => more, fun _ => more⟩, fun _ => ⟨fun _ => more, fun _ => more⟩⟩

theorem commaSeparatedAfter (close : Symbol) {item : Array α → Parser α}
    (h : ∀ before, Gives scope P (item before)) :
    Gives scope (∀ a ∈ ·, P a) (commaSeparatedAfter close item) := by
  refine (commaSeparatedAfter_push (I := (∀ a ∈ ·, P a)) close (fun before own => ?_) (by simp)).mono
    fun items own => by simpa using own
  exact (h before).mono fun a holds => Array.forall_mem_push.mpr ⟨holds, own⟩

theorem commaSeparated (close : Symbol) (h : Gives scope P p) :
    Gives scope (∀ a ∈ ·, P a) (commaSeparated close p) :=
  commaSeparatedAfter close fun _ => h

theorem entry (h : Gives scope P p) : Gives scope P (entry p) := fun s =>
  yields_bind.mpr ((h s).mono fun _ _ holds => yields_bind.mpr fun _ _ _ => yields_pure.mpr holds)

theorem braced (h : Gives scope P p) : Gives scope (∀ a ∈ ·.1, P a) (braced p) := by
  intro s
  simp only [Parser.braced, yields_bind, yields_expectSymbol, yields_pure]
  exact fun _ => (manyAfter _ (fun _ => h) _).mono fun items t all _ => all

theorem foldEntries {I : σ → Prop} {add : σ → Parser σ} (h : ∀ a, I a → Gives scope I (add a))
    {start : σ} (holds : I start) : Gives scope I (foldEntries add start) := by
  refine loop (fun a own s => ?_) holds
  simp only [yields_bind, yields_current, yields_ite, yields_pure]
  exact ⟨fun _ => own, fun _ => entry (h a own) s⟩

end Gives

end

end Parser

end PulseSyntax
