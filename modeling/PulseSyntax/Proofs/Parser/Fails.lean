import PulseSyntax.Proofs.Parser.Course
import PulseSyntax.Proofs.Parser.Yields

namespace PulseSyntax

open PulseSyntax.Parser

/-- The error has the line and the column of a parenthesis that closes a directive, with the span of
    something before it. -/
def Cause.isApart : Cause → Bool
  | severalHandlers _ | modelBinding => true
  | _ => false

/-- What holds of the errors at the tokens of a sequence. -/
structure Sites where
  scope : Scope
  Holds : ParseError → Prop
  atToken : ∀ (i : Nat) (cause : Cause), cause.isApart = false →
    Holds ⟨cause, (scope.stream.get i).place⟩

namespace Sites

variable {α β σ : Type} {S : Sites} {s : ParserState}

/-- If the parser fails, it does so at one of the sites. -/
def Bound (S : Sites) (p : Parser α) (s : ParserState) : Prop :=
  ∀ ⦃e t⦄, p S.scope s = .error e t → S.Holds e

section

variable {p q : Parser α} {cause : Cause}

@[simp] theorem bound_bind {f : α → Parser β} :
    S.Bound (p >>= f) s ↔ S.Bound p s ∧ Yields p S.scope s fun a t => S.Bound (f a) t := by
  constructor
  · intro h
    refine ⟨fun e t failed => h (e := e) (t := t) ?_, fun a t ok e u failed => h (e := e) (t := u) ?_⟩
    · rw [bind_apply, failed]
    · rw [bind_of_ok ok, failed]
  · rintro ⟨first, rest⟩ e t failed
    rw [bind_apply] at failed
    cases answer : p S.scope s with
    | ok a u =>
      rw [answer] at failed
      exact rest answer failed
    | error e' u =>
      rw [answer] at failed
      cases failed
      exact first answer

theorem bound_of_ok {a : α} {t : ParserState} (h : p S.scope s = .ok a t) : S.Bound p s := by
  intro e u failed
  rw [h] at failed
  cases failed

@[simp] theorem bound_pure {a : α} : S.Bound (pure a) s := bound_of_ok rfl

@[simp] theorem bound_map {f : α → β} : S.Bound (f <$> p) s ↔ S.Bound p s := by
  change S.Bound (p >>= fun a => pure (f a)) s ↔ _
  simp

@[simp] theorem bound_ite {condition : Prop} [Decidable condition] :
    S.Bound (if condition then p else q) s ↔
      (condition → S.Bound p s) ∧ (¬ condition → S.Bound q s) := by
  split <;> simp [*]

@[simp] theorem bound_failAt {place : Place} :
    S.Bound (failAt place cause : Parser α) s ↔ S.Holds ⟨cause, place⟩ := by
  constructor
  · exact fun h => h rfl
  · intro holds e t failed
    cases failed
    exact holds

theorem bound_fail (together : cause.isApart = false) : S.Bound (fail cause : Parser α) s := by
  intro e t failed
  cases failed
  exact S.atToken s.cursor cause together

theorem bound_failAtToken {cause : Token → Cause} (together : ∀ t, (cause t).isApart = false) :
    S.Bound (failAtToken cause : Parser α) s := by
  refine bound_bind.mpr ⟨bound_of_ok current_apply, yields_current.mpr (bound_fail ?_)⟩
  split
  · rfl
  · exact together _

@[simp] theorem bound_failWanted {what : Wanted} : S.Bound (failWanted what : Parser α) s :=
  bound_failAtToken fun _ => rfl

@[simp] theorem bound_failTooDeep : S.Bound (failTooDeep : Parser α) s :=
  bound_bind.mpr ⟨bound_of_ok scope_apply, fun _ _ _ => bound_fail rfl⟩

@[simp] theorem bound_ofExcept {answer : Except ParseError α} :
    S.Bound (ofExcept answer) s ↔ ∀ e, answer = .error e → S.Holds e := by
  constructor
  · rintro h e rfl
    exact h (t := s) rfl
  · intro holds e t failed
    cases answer with
    | ok a => cases failed
    | error e' =>
      cases failed
      exact holds e rfl

@[simp] theorem bound_attempt : S.Bound (attempt p) s := by
  cases answer : p S.scope s with
  | ok a t => exact bound_of_ok (attempt_of_ok answer)
  | error e t => exact bound_of_ok (attempt_of_error answer)

theorem yields_attempt (h : S.Bound p s) :
    Yields (attempt p) S.scope s fun answer _ => ∀ e, answer = .error e → S.Holds e := by
  rintro _ t ok e rfl
  cases answer : p S.scope s with
  | ok a u =>
    rw [attempt_of_ok answer] at ok
    cases ok
  | error e' u =>
    rw [attempt_of_error answer] at ok
    cases ok
    exact h answer

end

section

variable {kind : TokenKind} {sign : Symbol} {word : Keyword}

@[simp] theorem bound_scope : S.Bound Parser.scope s := bound_of_ok scope_apply

@[simp] theorem bound_cursor : S.Bound cursor s := bound_of_ok cursor_apply

@[simp] theorem bound_seek {target : Nat} : S.Bound (seek target) s := bound_of_ok (seek_apply target)

@[simp] theorem bound_current : S.Bound current s := bound_of_ok current_apply

@[simp] theorem bound_peek : S.Bound peek s := bound_of_ok peek_apply

@[simp] theorem bound_previous : S.Bound previous s := bound_of_ok previous_apply

@[simp] theorem bound_is : S.Bound (is kind) s := bound_of_ok is_apply

@[simp] theorem bound_isSymbol : S.Bound (isSymbol sign) s := bound_of_ok (isSymbol_apply sign)

@[simp] theorem bound_isName : S.Bound isName s := bound_of_ok rfl

@[simp] theorem bound_advance : S.Bound advance s := bound_of_ok rfl

@[simp] theorem bound_eat : S.Bound (eat kind) s := by simp [eat]

@[simp] theorem bound_eatSymbol : S.Bound (eatSymbol sign) s := bound_eat

@[simp] theorem bound_expect : S.Bound (expect kind) s := by
  simp [expect]
  exact fun _ => bound_failAtToken fun _ => rfl

@[simp] theorem bound_expectSymbol : S.Bound (expectSymbol sign) s := bound_expect

@[simp] theorem bound_expectKeyword : S.Bound (expectKeyword word) s := bound_expect

@[simp] theorem bound_expectName : S.Bound expectName s := by simp [expectName]

@[simp] theorem bound_expectStringOr : S.Bound (expectStringOr kind) s := by simp [expectStringOr]

end

theorem bound_deeper {p : Parser α} (h : ∀ s, S.Bound p s) : S.Bound (deeper p) s := by
  intro e t failed
  unfold deeper at failed
  cases answer : p S.scope { s with depth := s.depth + 1 } with
  | ok a u =>
    rw [answer] at failed
    cases failed
  | error e' u =>
    rw [answer] at failed
    cases failed
    exact h _ answer

theorem bound_withLevels {p : Nat → Parser α} (h : ∀ levels s, S.Bound (p levels) s) :
    S.Bound (withLevels p) s := fun _ _ failed => h (S.scope.options.maxDepth - s.depth) s failed

section

variable {step : σ → Parser (ForInStep σ)}

theorem bound_loop (h : ∀ a s, S.Bound (step a) s) (a : σ) : S.Bound (loop step a) s := by
  suffices rounds : ∀ rounds a s, S.Bound (iterate step rounds a) s from
    fun e t failed => rounds _ a s failed
  intro rounds
  induction rounds with
  | zero => exact fun a s => bound_pure
  | succ rounds ih =>
    intro a s
    refine bound_bind.mpr ⟨h a s, fun next t _ => ?_⟩
    cases next with
    | done b => exact bound_pure
    | yield b => exact ih b t

theorem bound_chain {step : α → Parser (Option α)} (h : ∀ a s, S.Bound (step a) s) (first : α) :
    S.Bound (chain step first) s := by
  refine bound_loop (fun a s => bound_bind.mpr ⟨h a s, fun next t _ => ?_⟩) first
  cases next <;> exact bound_pure

variable {close : Symbol}

theorem bound_commaSeparatedAfter {item : Array α → Parser α} (h : ∀ before s, S.Bound (item before) s) :
    S.Bound (commaSeparatedAfter close item) s := by
  refine bound_bind.mpr ⟨bound_loop (fun items s => ?_) _, fun _ _ _ => bound_pure⟩
  simp [commaRound, h]

theorem bound_commaSeparated {item : Parser α} (h : ∀ s, S.Bound item s) :
    S.Bound (commaSeparated close item) s := bound_commaSeparatedAfter fun _ => h

theorem bound_manyAfter {item : Array α → Parser α} (h : ∀ before s, S.Bound (item before) s) :
    S.Bound (manyAfter close item) s := by
  rw [manyAfter_eq]
  refine bound_bind.mpr ⟨bound_loop (fun items s => ?_) _, fun _ _ _ => bound_pure⟩
  simp [manyRound, h]

@[simp] theorem bound_skipSeparators : S.Bound skipSeparators s := by
  rw [skipSeparators_eq]
  exact bound_loop (fun _ s => by simp [separatorRound]) ()

theorem bound_entry {item : Parser α} (h : ∀ s, S.Bound item s) (s : ParserState) :
    S.Bound (entry item) s := by simp [entry, h]

theorem bound_foldEntries {add : σ → Parser σ} (h : ∀ a s, S.Bound (add a) s) (a : σ) :
    S.Bound (foldEntries add a) s := by
  rw [foldEntries_eq]
  refine bound_loop (fun a s => ?_) a
  simp [entryRound, bound_entry (h a)]

theorem bound_braced {item : Parser α} (h : ∀ s, S.Bound item s) (s : ParserState) :
    S.Bound (braced item) s := by
  simp [braced, many, bound_manyAfter fun _ => h]

@[simp] theorem bound_rawBlock : S.Bound rawBlock s := by
  have tokens (depth : Nat) (s : ParserState) : S.Bound (rawToken depth) s := by simp [rawToken]
  simp [rawBlock_eq, bound_loop tokens]

end

end Sites

end PulseSyntax
