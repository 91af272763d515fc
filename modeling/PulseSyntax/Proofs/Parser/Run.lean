import PulseSyntax.Parser.Repeat
import PulseSyntax.Proofs.Token.Stream

namespace PulseSyntax

def ParserState.ahead (s : ParserState) (n : Nat) : ParserState := { s with cursor := s.cursor + n }

@[simp] theorem ParserState.ahead_cursor (s : ParserState) (n : Nat) :
    (s.ahead n).cursor = s.cursor + n := rfl

@[simp] theorem ParserState.ahead_ahead (s : ParserState) (m n : Nat) :
    (s.ahead m).ahead n = s.ahead (m + n) := by
  simp [ahead, Nat.add_assoc]

def ParserState.past (s : ParserState) (own : List Token) : ParserState := s.ahead own.length

@[simp] theorem ParserState.past_nil (s : ParserState) : s.past [] = s := rfl

theorem ParserState.past_cons (s : ParserState) (t : Token) (own : List Token) :
    s.past (t :: own) = (s.ahead 1).past own := by
  rw [past, past, ahead_ahead, List.length_cons, Nat.add_comm]

theorem ParserState.past_append (s : ParserState) (own more : List Token) :
    s.past (own ++ more) = (s.past own).past more := by
  rw [past, past, past, ahead_ahead, List.length_append]

namespace Scope

/-- The tokens from the cursor of a state on. -/
def remaining (scope : Scope) (s : ParserState) : List Token := scope.stream.tokensFrom s.cursor

variable {scope : Scope} {s : ParserState} {t : Token} {own rest : List Token}

theorem get_of_remaining (h : scope.remaining s = t :: rest) : scope.stream.get s.cursor = t :=
  TokenStream.get_of_tokensFrom h

theorem remaining_ahead (h : scope.remaining s = own ++ rest) :
    scope.remaining (s.ahead own.length) = rest :=
  TokenStream.tokensFrom_append h

theorem remaining_past (h : scope.remaining s = own ++ rest) :
    scope.remaining (s.past own) = rest :=
  remaining_ahead h

theorem remaining_ahead_one (h : scope.remaining s = t :: rest) :
    scope.remaining (s.ahead 1) = rest :=
  TokenStream.tokensFrom_succ h

theorem lt_size_of_remaining (h : scope.remaining s = t :: rest) :
    s.cursor < scope.stream.size := by
  rw [remaining, TokenStream.tokensFrom_eq] at h
  have some : 0 < (scope.stream.toList.drop s.cursor).length := by simp [h]
  rw [List.length_drop] at some
  exact Nat.lt_of_sub_pos some

theorem kind_of_remaining (h : scope.remaining s = rest) :
    (scope.stream.get s.cursor).kind = firstKind rest := by
  rw [← h, remaining, TokenStream.firstKind_tokensFrom]

end Scope

namespace Parser

variable {α β : Type} {scope : Scope} {s t : ParserState} {kind : TokenKind}

theorem bind_apply (p : Parser α) (f : α → Parser β) :
    (p >>= f) scope s =
      match p scope s with
      | .ok a next => f a scope next
      | .error e next => .error e next := rfl

theorem bind_of_ok {p : Parser α} {f : α → Parser β} {a : α} (h : p scope s = .ok a t) :
    (p >>= f) scope s = f a scope t := by
  rw [bind_apply, h]

theorem bind_eq_ok {p : Parser α} {f : α → Parser β} {b : β} :
    (p >>= f) scope s = .ok b t ↔ ∃ a u, p scope s = .ok a u ∧ f a scope u = .ok b t := by
  constructor
  · intro h
    rw [bind_apply] at h
    cases hp : p scope s with
    | ok a u => rw [hp] at h; exact ⟨a, u, rfl, h⟩
    | error e u => rw [hp] at h; cases h
  · rintro ⟨a, u, hp, hf⟩
    rw [bind_of_ok hp, hf]

@[simp] theorem pure_apply (a : α) : (pure a : Parser α) scope s = .ok a s := rfl

@[simp] theorem cursor_apply : cursor scope s = .ok s.cursor s := rfl

@[simp] theorem scope_apply : Parser.scope scope s = .ok scope s := rfl

@[simp] theorem current_apply : current scope s = .ok (scope.stream.get s.cursor) s := rfl

@[simp] theorem peekAt_apply (offset : Nat) :
    peekAt offset scope s = .ok (scope.stream.get (s.cursor + offset)) s := rfl

@[simp] theorem peek_apply : peek scope s = .ok (scope.stream.get (s.cursor + 1)) s := rfl

@[simp] theorem previous_apply :
    previous scope s = .ok (scope.stream.get (s.cursor - 1)) s := rfl

@[simp] theorem is_apply :
    is kind scope s = .ok ((scope.stream.get s.cursor).kind == kind) s := rfl

@[simp] theorem isSymbol_apply (sign : Symbol) :
    isSymbol sign scope s = .ok ((scope.stream.get s.cursor).kind == .symbol sign) s := rfl

theorem advance_apply (h : (scope.stream.get s.cursor).kind ≠ .endOfFile) :
    advance scope s = .ok (scope.stream.get s.cursor) (s.ahead 1) := by
  simp only [advance, h, ↓reduceIte, ParserState.ahead]

theorem fail_apply (cause : Cause) :
    (fail cause : Parser α) scope s = .error ⟨cause, (scope.stream.get s.cursor).place⟩ s := rfl

theorem fail_ne_ok {cause : Cause} {a : α} : (fail cause : Parser α) scope s ≠ .ok a t := by
  simp [fail_apply]

theorem failAt_ne_ok {place : Place} {cause : Cause} {a : α} :
    (failAt place cause : Parser α) scope s ≠ .ok a t := by
  simp [failAt]

theorem failAtToken_ne_ok {cause : Token → Cause} {a : α} :
    (failAtToken cause : Parser α) scope s ≠ .ok a t := by
  simp only [failAtToken, bind_of_ok current_apply]
  exact fail_ne_ok

theorem expect_apply (hk : (scope.stream.get s.cursor).kind = kind) (he : kind ≠ .endOfFile) :
    expect kind scope s = .ok (scope.stream.get s.cursor) (s.ahead 1) := by
  simp only [expect, bind_of_ok is_apply, hk, beq_self_eq_true, ↓reduceIte]
  exact advance_apply (hk ▸ he)

theorem expect_cons {token : Token} {rest : List Token} (h : scope.remaining s = token :: rest)
    (hk : token.kind = kind) (he : kind ≠ .endOfFile) :
    expect kind scope s = .ok token (s.ahead 1) := by
  have here := Scope.get_of_remaining h
  rw [expect_apply (by rw [here, hk]) he, here]

theorem expectSymbol_cons {token : Token} {rest : List Token} {sign : Symbol}
    (h : scope.remaining s = token :: rest) (hk : token.kind = .symbol sign) :
    expectSymbol sign scope s = .ok token (s.ahead 1) :=
  expect_cons h hk (by simp)

theorem expect_eq_ok (he : kind ≠ .endOfFile) {token : Token} :
    expect kind scope s = .ok token t ↔
      (scope.stream.get s.cursor).kind = kind ∧ token = scope.stream.get s.cursor ∧
        t = s.ahead 1 := by
  constructor
  · intro h
    by_cases hk : (scope.stream.get s.cursor).kind = kind
    · rw [expect_apply hk he, Reply.ok.injEq] at h
      exact ⟨hk, h.1.symm, h.2.symm⟩
    · simp only [expect, bind_of_ok is_apply, beq_eq_false_iff_ne.mpr hk, Bool.false_eq_true,
        ↓reduceIte] at h
      exact absurd h failAtToken_ne_ok
  · rintro ⟨hk, rfl, rfl⟩
    exact expect_apply hk he

theorem eat_apply (he : kind ≠ .endOfFile) :
    eat kind scope s =
      if (scope.stream.get s.cursor).kind = kind then .ok true (s.ahead 1) else .ok false s := by
  simp only [eat, bind_of_ok is_apply, beq_iff_eq]
  split
  · next hk => rw [bind_of_ok (advance_apply (hk ▸ he)), pure_apply]
  · rfl

theorem attempt_of_ok {p : Parser α} {a : α} (h : p scope s = .ok a t) :
    attempt p scope s = .ok (.ok a) t := by
  simp only [attempt, h]

theorem attempt_of_error {p : Parser α} {e : ParseError} (h : p scope s = .error e t) :
    attempt p scope s = .ok (.error e) t := by
  simp only [attempt, h]

@[simp] theorem seek_apply (target : Nat) :
    seek target scope s = .ok () { s with cursor := target } := rfl

theorem deeper_eq_ok {p : Parser α} {a : α} :
    deeper p scope s = .ok a t ↔
      ∃ u, p scope { s with depth := s.depth + 1 } = .ok a u ∧
        t = { u with depth := u.depth - 1 } := by
  unfold deeper
  constructor
  · intro h
    cases hp : p scope { s with depth := s.depth + 1 } with
    | ok b u =>
      rw [hp] at h
      cases h
      exact ⟨u, rfl, rfl⟩
    | error e u => rw [hp] at h; cases h
  · rintro ⟨u, hp, rfl⟩
    rw [hp]

theorem deeper_of_ok {p : Parser α} {a : α} {n : Nat}
    (h : p scope { s with depth := s.depth + 1 } = .ok a ⟨s.cursor + n, s.depth + 1⟩) :
    deeper p scope s = .ok a (s.ahead n) :=
  deeper_eq_ok.mpr ⟨_, h, rfl⟩

theorem advance_cons {token : Token} {rest : List Token} (h : scope.remaining s = token :: rest)
    (he : token.kind ≠ .endOfFile) : advance scope s = .ok token (s.ahead 1) := by
  have here := Scope.get_of_remaining h
  rw [advance_apply (by rwa [here]), here]

end Parser

namespace Parser

variable {α σ : Type} {scope : Scope}

/-- Rounds of a repetition lead from one value and state to another. -/
inductive Rounds (step : σ → Parser (ForInStep σ)) (scope : Scope) :
    σ → ParserState → σ → ParserState → Prop
  | refl (a : σ) (s : ParserState) : Rounds step scope a s a s
  | head {a b c : σ} {s t u : ParserState} (first : step a scope s = .ok (.yield b) t)
      (inside : s.cursor < scope.stream.size) (progress : s.cursor < t.cursor)
      (rest : Rounds step scope b t c u) : Rounds step scope a s c u

namespace Rounds

variable {step : σ → Parser (ForInStep σ)} {a b c : σ} {s t u : ParserState}

theorem trans (h : Rounds step scope a s b t) (h' : Rounds step scope b t c u) :
    Rounds step scope a s c u := by
  induction h with
  | refl => exact h'
  | head first inside progress _ ih => exact .head first inside progress (ih h')

theorem iterate (h : Rounds step scope a s b t) (last : step b scope t = .ok (.done c) u)
    {rounds : Nat} (enough : scope.stream.size - s.cursor < rounds) :
    iterate step rounds a scope s = .ok c u := by
  induction h generalizing rounds with
  | refl =>
    obtain ⟨rounds, rfl⟩ := Nat.exists_eq_succ_of_ne_zero (Nat.ne_of_gt (Nat.zero_lt_of_lt enough))
    rw [Parser.iterate, bind_of_ok last]
    rfl
  | head first inside progress _ ih =>
    obtain ⟨rounds, rfl⟩ := Nat.exists_eq_succ_of_ne_zero (Nat.ne_of_gt (Nat.zero_lt_of_lt enough))
    rw [Parser.iterate, bind_of_ok first]
    exact ih last (by omega)

theorem loop (h : Rounds step scope a s b t) (last : step b scope t = .ok (.done c) u) :
    loop step a scope s = .ok c u :=
  h.iterate last (Nat.lt_succ_self _)

end Rounds

section

variable {step : α → Parser (Option α)} {a b : α} {s t : ParserState}

theorem chainRound_of_some (h : step a scope s = .ok (some b) t) :
    chainRound step a scope s = .ok (.yield b) t := by
  rw [chainRound, bind_of_ok h]
  rfl

theorem chainRound_of_none (h : step a scope s = .ok none t) :
    chainRound step a scope s = .ok (.done a) t := by
  rw [chainRound, bind_of_ok h]
  rfl

theorem Rounds.chain (h : Rounds (chainRound step) scope a s b t)
    (last : step b scope t = .ok none t) : chain step a scope s = .ok b t :=
  h.loop (chainRound_of_none last)

end

/-- An item of a list with commas is read up to a comma or the closing symbol, which is not its
    first token. -/
structure ItemRead (scope : Scope) (item : Parser α) (close : Symbol)
    (own : List Token) (a : α) : Prop where
  first : ∃ t more, own = t :: more ∧ t.kind ≠ .symbol close
  read : ∀ ⦃s rest⦄, scope.remaining s = own ++ rest →
    firstKind rest = .symbol .comma ∨ firstKind rest = .symbol close →
    item scope s = .ok a (s.past own)

/-- A list with commas is read up to the closing symbol, whatever has been read of it before. -/
def ListRead (scope : Scope) (item : Parser α) (close : Symbol) (own : List Token)
    (as : List α) : Prop :=
  ∀ ⦃s rest⦄ before, scope.remaining s = own ++ rest → firstKind rest = .symbol close →
    ∃ items u, Rounds (commaRound close fun _ => item) scope before s items u ∧
      commaRound close (fun _ => item) items scope u =
        .ok (.done (before ++ as.toArray)) (s.past own)

section

variable {item : Parser α} {close : Symbol} {own more : List Token} {a : α}
  {as : List α} {comma : Token} {s : ParserState} {rest : List Token}

theorem ListRead.nil : ListRead scope item close [] [] := by
  intro s rest before tokens closes
  have here : (scope.stream.get s.cursor).kind = .symbol close :=
    (Scope.kind_of_remaining tokens).trans closes
  refine ⟨before, s, .refl _ _, ?_⟩
  rw [commaRound, bind_of_ok (isSymbol_apply _), here]
  simp

theorem ListRead.single (h : ItemRead scope item close own a) (other : close ≠ .comma) :
    ListRead scope item close own [a] := by
  intro s rest before tokens closes
  obtain ⟨t, more, rfl, open_⟩ := h.first
  have here := Scope.get_of_remaining tokens
  have after : (scope.stream.get (s.past (t :: more)).cursor).kind = .symbol close :=
    (Scope.kind_of_remaining (Scope.remaining_past tokens)).trans closes
  have noComma : eatSymbol .comma scope (s.past (t :: more)) = .ok false (s.past (t :: more)) := by
    rw [eatSymbol, eat_apply (by simp), if_neg (by simp [after, other])]
  refine ⟨before, s, .refl _ _, ?_⟩
  rw [commaRound, bind_of_ok (isSymbol_apply _), here, if_neg (by simpa using open_),
    bind_of_ok (h.read tokens (.inr closes)), bind_of_ok noComma]
  simp

theorem ListRead.cons (h : ItemRead scope item close own a) (hc : comma.kind = .symbol .comma)
    (list : ListRead scope item close more as) :
    ListRead scope item close (own ++ comma :: more) (a :: as) := by
  intro s rest before tokens closes
  rw [List.append_assoc, List.cons_append] at tokens
  have following := Scope.remaining_past tokens
  obtain ⟨items, u, rounds, done⟩ := list (before.push a) (Scope.remaining_ahead_one following) closes
  have read := h.read tokens (.inl hc)
  obtain ⟨t, rest', rfl, open_⟩ := h.first
  have here := Scope.get_of_remaining tokens
  have eaten : eatSymbol .comma scope (s.past (t :: rest')) =
      .ok true ((s.past (t :: rest')).ahead 1) := by
    rw [eatSymbol, eat_apply (by simp), if_pos]
    rw [Scope.get_of_remaining following, hc]
  refine ⟨items, u, .head ?_ (Scope.lt_size_of_remaining tokens) ?_ rounds, ?_⟩
  · rw [commaRound, bind_of_ok (isSymbol_apply _), here, if_neg (by simpa using open_),
      bind_of_ok read, bind_of_ok eaten]
    rfl
  · rw [ParserState.past, ParserState.ahead_ahead, ParserState.ahead_cursor, List.length_cons]
    omega
  · rw [done, ParserState.past_append, ParserState.past_cons _ comma]
    simp

theorem ListRead.commaSeparated (h : ListRead scope item close own as)
    (tokens : scope.remaining s = own ++ rest) (closes : firstKind rest = .symbol close) :
    commaSeparated close item scope s = .ok as (s.past own) := by
  obtain ⟨items, u, rounds, done⟩ := h #[] tokens closes
  rw [Parser.commaSeparated, commaSeparatedAfter, bind_of_ok (rounds.loop done)]
  simp

end

end Parser

end PulseSyntax
