import PulseSyntax.Proofs.Expr.Grammar
import PulseSyntax.Proofs.Parser.Run

namespace PulseSyntax

namespace Expr

open PulseSyntax.Parser

structure Ends (level : Nat) (rest : List Token) : Prop where
  tighter : level < (firstKind rest).goesOnAt
  /-- A name before them does not turn out to stand before parameters. -/
  noParams : firstKind rest = .symbol .openParen → closesBeforeArrow 0 rest = false

namespace Ends

variable {level tight : Nat} {rest : List Token} {t : Token}

theorem mono (h : Ends level rest) (le : tight ≤ level) : Ends tight rest :=
  ⟨Nat.lt_of_le_of_lt le h.tighter, h.noParams⟩

theorem symbol {sign : Symbol} (hk : firstKind rest = .symbol sign) (other : sign ≠ .openParen)
    (tighter : level < (TokenKind.symbol sign).goesOnAt) : Ends level rest := by
  refine ⟨by rwa [hk], fun params => ?_⟩
  rw [hk] at params
  exact absurd (TokenKind.symbol.inj params) other

theorem other (h : Ends level rest) (le : tight ≤ level) : (firstKind rest).goesOnAt ≠ tight :=
  Nat.ne_of_gt (Nat.lt_of_le_of_lt le h.tighter)

theorem call {opening close : Token} {own : List Token} (h : Skips own)
    (ho : opening.kind = .symbol .openParen) (hc : close.kind = .symbol .closeParen)
    (ends : Ends 0 rest) : Ends 0 (opening :: own ++ close :: rest) := by
  refine ⟨by rw [List.cons_append, firstKind, ho]; decide, fun _ => ?_⟩
  rw [closesBeforeArrow_list h ho hc, beq_eq_false_iff_ne]
  intro arrow
  have tighter := ends.tighter
  rw [arrow] at tighter
  cases tighter

end Ends

/-- What may follow a phrase of a level. -/
def Follow.Allows : Follow → Nat → List Token → Prop
  | any, level, rest => Ends level rest
  | close, _, rest => Ends 10 rest
  | link, _, rest => (firstKind rest).goesOnAt = 1

namespace Follow.Allows

variable {follow : Follow} {level tight : Nat} {rest : List Token}

theorem mono (h : follow.Allows level rest) (le : tight ≤ level) : follow.Allows tight rest := by
  cases follow with
  | any => exact Ends.mono h le
  | _ => exact h

theorem loosest (h : follow.Allows level rest) (last : follow ≠ .any) : follow.Allows 10 rest := by
  cases follow with
  | any => exact absurd rfl last
  | _ => exact h

theorem other (h : follow.Allows level rest) (bound : level ≤ 10)
    (whole : follow = .link → 2 ≤ level) : (firstKind rest).goesOnAt ≠ level := by
  cases follow with
  | any => exact Ends.other h (Nat.le_refl level)
  | close => exact Ends.other h bound
  | link =>
    have := whole rfl
    exact (show _ = 1 from h) ▸ (by omega)

end Follow.Allows

def parserAt (nested : Nested) : Nat → Parser Expr
  | 0 => primary nested
  | 1 => linked nested
  | 2 => postfixed nested
  | 9 => conditionalAt nested
  | 10 => assignmentAt nested
  | level => binaryAt (unaryAt nested) (level - 3)

/-- The levels at which a phrase may go on with what it starts with at the same level. -/
def Chained (level : Nat) : Prop := level = 1 ∨ 4 ≤ level ∧ level ≤ 8

def stepAt (nested : Nested) (level : Nat) : Expr → Parser (Option Expr) :=
  if level = 1 then link nested else join (parserAt nested (level - 1)) (level - 3)

variable {nested : Nested} {scope : Scope} {s t : ParserState} {e : Expr} {level : Nat}

theorem parserAt_binary (nested : Nested) {l : Nat} (h : l ≤ 5) :
    parserAt nested (3 + l) = binaryAt (unaryAt nested) l := by
  rcases l with _ | _ | _ | _ | _ | _ | l
  all_goals first
    | rfl
    | omega

theorem parserAt_chained (nested : Nested) (h : Chained (level + 1)) :
    parserAt nested (level + 1) =
      (do chain (stepAt nested (level + 1)) (← parserAt nested level)) := by
  rcases h with one | ⟨low, high⟩
  · obtain rfl : level = 0 := by omega
    rfl
  · obtain ⟨l, rfl⟩ : ∃ l, level = 3 + l := ⟨level - 3, by omega⟩
    rw [Nat.add_assoc, parserAt_binary nested (by omega), binaryAt, stepAt, if_neg (by omega),
      show 3 + (l + 1) - 1 = 3 + l by omega, show 3 + (l + 1) - 3 = l + 1 by omega,
      parserAt_binary nested (by omega)]

theorem goesOnAt_of_binary {l : Nat} {kind : TokenKind} {op : BinaryOp}
    (h : BinaryOp.ofKind? l kind = some op) : kind.goesOnAt = 3 + l := by
  have found := List.find?_some h
  simp only [Bool.and_eq_true, beq_iff_eq] at found
  obtain ⟨rfl, rfl⟩ := found
  cases op <;> rfl

theorem goesOnAt_of_update {kind : TokenKind} {op : UpdateOp}
    (h : UpdateOp.ofKind? kind = some op) : kind.goesOnAt = 2 := by
  unfold UpdateOp.ofKind? at h
  split at h
  · rfl
  · rfl
  · cases h

theorem goesOnAt_of_assign {kind : TokenKind} {op : AssignOp}
    (h : AssignOp.ofKind? kind = some op) : kind.goesOnAt = 10 := by
  unfold AssignOp.ofKind? at h
  split at h
  case h_9 => cases h
  all_goals rfl

theorem stepAt_none (chained : Chained level)
    (other : (firstKind (scope.remaining s)).goesOnAt ≠ level) :
    stepAt nested level e scope s = .ok none s := by
  rw [← Scope.kind_of_remaining (rfl : scope.remaining s = _)] at other
  rcases chained with rfl | ⟨low, high⟩
  · rw [stepAt, if_pos rfl, link, bind_of_ok current_apply]
    change Parser.run _ scope s = _
    split
    case h_5 => rfl
    all_goals
      rename_i here
      rw [here] at other
      exact absurd rfl other
  · rw [stepAt, if_neg (by omega), join, bind_of_ok current_apply]
    cases op : BinaryOp.ofKind? (level - 3) (scope.stream.get s.cursor).kind with
    | none => rfl
    | some op =>
      have here := goesOnAt_of_binary op
      omega

/-- A phrase with a chain, as far as it is read before what goes on with it. Its head is read at a
    level and the chain at the next one. -/
def OpenAt (nested : Nested) (scope : Scope) (level : Nat) (s : ParserState) (e : Expr)
    (t : ParserState) : Prop :=
  ∃ head u, parserAt nested level scope s = .ok head u ∧
    Rounds (chainRound (stepAt nested (level + 1))) scope head u e t

theorem OpenAt.parserAt_succ (h : OpenAt nested scope level s e t) (chained : Chained (level + 1))
    (other : (firstKind (scope.remaining t)).goesOnAt ≠ level + 1) :
    parserAt nested (level + 1) scope s = .ok e t := by
  obtain ⟨head, u, first, rounds⟩ := h
  rw [parserAt_chained nested chained, bind_of_ok first]
  exact rounds.chain (stepAt_none chained other)

theorem parserAt_succ (read : parserAt nested level scope s = .ok e t) (bound : level < 10)
    (other : (firstKind (scope.remaining t)).goesOnAt ≠ level + 1)
    (plain : level ≤ 2 → (scope.stream.get s.cursor).kind.startsUnary = false) :
    parserAt nested (level + 1) scope s = .ok e t := by
  by_cases chained : Chained (level + 1)
  · exact OpenAt.parserAt_succ ⟨e, t, read, .refl _ _⟩ chained other
  rw [← Scope.kind_of_remaining (rfl : scope.remaining t = _)] at other
  obtain rfl | rfl | rfl | rfl : level = 1 ∨ level = 2 ∨ level = 8 ∨ level = 9 := by
    simp only [Chained, not_or, not_and] at chained
    omega
  · change postfixed nested scope s = _
    rw [postfixed, bind_of_ok (show linked nested scope s = _ from read), bind_of_ok current_apply]
    cases update : UpdateOp.ofKind? (scope.stream.get t.cursor).kind with
    | none => rfl
    | some op =>
      exact absurd (goesOnAt_of_update update) other
  · have noOperator := plain (by omega)
    simp only [TokenKind.startsUnary, Bool.or_eq_false_iff, Option.isSome_eq_false_iff,
      Option.isNone_iff_eq_none] at noOperator
    change unaryAt nested scope s = _
    rw [unaryAt, bind_of_ok current_apply, noOperator.1, noOperator.2]
    exact read
  · change conditionalAt nested scope s = _
    have noQuestion : (scope.stream.get t.cursor).kind ≠ .symbol .question := by
      intro here
      rw [here] at other
      exact absurd rfl other
    have eaten : eatSymbol .question scope t = .ok false t := by
      rw [eatSymbol, eat_apply (by simp), if_neg noQuestion]
    rw [conditionalAt,
      bind_of_ok (show binaryAt (unaryAt nested) BinaryOp.loosest scope s = _ from read),
      bind_of_ok eaten]
    rfl
  · change assignmentAt nested scope s = _
    rw [assignmentAt, bind_of_ok (show conditionalAt nested scope s = _ from read),
      bind_of_ok current_apply]
    cases assign : AssignOp.ofKind? (scope.stream.get t.cursor).kind with
    | none => rfl
    | some op =>
      exact absurd (goesOnAt_of_assign assign) other

end Expr

end PulseSyntax

namespace PulseSyntax.Expr

open PulseSyntax.Parser

variable {nested : Nested} {scope : Scope} {s : ParserState} {t : Token} {rest : List Token}
variable {e : Expr}

theorem literalOf?_eq_none (h : t.kind ∉ literalKinds) : literalOf? t = none := by
  cases found : literalOf? t with
  | none => rfl
  | some e => exact absurd (kind_of_literalOf? found) h

theorem primary_literal (h : literalOf? t = some e) (tokens : scope.remaining s = t :: rest) :
    primary nested scope s = .ok e (s.ahead 1) := by
  have here := Scope.get_of_remaining tokens
  have noEnd : t.kind ≠ .endOfFile := by
    have noEnd : ∀ kind ∈ literalKinds, kind ≠ .endOfFile := by decide
    exact noEnd _ (kind_of_literalOf? h)
  rw [primary, bind_of_ok current_apply, bind_of_ok peek_apply, here, h]
  change (advance >>= fun _ => pure e) scope s = _
  rw [bind_of_ok (advance_cons tokens noEnd), pure_apply]

theorem startsAsyncArrow_false (ends : Ends 0 rest) (tokens : scope.remaining s = t :: rest) :
    startsAsyncArrow t scope s = .ok false s := by
  have after := Scope.remaining_ahead_one tokens
  have next : (scope.stream.get (s.cursor + 1)).kind = firstKind rest :=
    Scope.kind_of_remaining after
  have tighter := ends.tighter
  unfold startsAsyncArrow
  split
  case isFalse => rfl
  rw [asyncArrowFollows, bind_of_ok peek_apply]
  change Parser.run _ scope s = _
  split
  · next kind =>
    rw [← next, kind] at tighter
    cases tighter
  · next kind =>
    have noParams := ends.noParams (next.symm.trans kind)
    rw [Parser.run, startsArrowAt, bind_of_ok scope_apply, bind_of_ok cursor_apply, pure_apply]
    rw [show scope.stream.tokensFrom (s.cursor + 1) = rest from after, noParams]
  · rfl

theorem startsAsyncArrow_symbol {sign : Symbol} (hk : t.kind = .symbol sign) :
    startsAsyncArrow t scope s = .ok false s := by
  rw [startsAsyncArrow, hk]
  rfl

theorem startsArrow_parens {next : Token} (hk : t.kind = .symbol .openParen) :
    startsArrow t next scope s = .ok (closesBeforeArrow 0 (scope.remaining s)) s := by
  rw [startsArrow, hk]
  rfl

theorem primary_of_starts {isAsync isArrow : Bool} (noLiteral : t.kind ∉ literalKinds)
    (tokens : scope.remaining s = t :: rest)
    (async : startsAsyncArrow t scope s = .ok isAsync s)
    (arrow : startsArrow t (scope.stream.get (s.cursor + 1)) scope s = .ok isArrow s) :
    primary nested scope s = (if isAsync then advance >>= fun _ => arrowFunction nested t.span true
      else if isArrow then arrowFunction nested t.span false
      else nameOrBrackets nested t (scope.stream.get (s.cursor + 1))) scope s := by
  have here := Scope.get_of_remaining tokens
  rw [primary, bind_of_ok current_apply, bind_of_ok peek_apply, here, literalOf?_eq_none noLiteral]
  dsimp only
  rw [bind_of_ok async]
  cases isAsync with
  | true => rfl
  | false =>
    simp only [Bool.false_eq_true, ↓reduceIte]
    rw [bind_of_ok arrow]

theorem primary_name (hk : t.kind.isName) (ends : Ends 0 rest)
    (tokens : scope.remaining s = t :: rest) :
    primary nested scope s = .ok (.ofName t) (s.ahead 1) := by
  have here := Scope.get_of_remaining tokens
  have next : (scope.stream.get (s.cursor + 1)).kind = firstKind rest :=
    Scope.kind_of_remaining (Scope.remaining_ahead_one tokens)
  have kinds := kind_of_isName hk
  have noLiteral : t.kind ∉ literalKinds := by
    rcases kinds with kind | ⟨word, kind, contextual⟩ <;> rw [kind]
    · decide
    · cases word <;> first | decide | cases contextual
  have noArrow : startsArrow t (scope.stream.get (s.cursor + 1)) scope s = .ok false s := by
    unfold startsArrow
    rw [next]
    rcases kinds with kind | ⟨word, kind, -⟩ <;> rw [kind]
    · have tighter := ends.tighter
      have other : firstKind rest ≠ .symbol .arrow := by
        intro arrow
        rw [arrow] at tighter
        cases tighter
      rw [if_pos (by rfl), beq_eq_false_iff_ne.mpr other]
      rfl
    · rfl
  have noEnd : t.kind ≠ .endOfFile := by
    intro kind
    rw [kind] at hk
    cases hk
  rw [primary_of_starts noLiteral tokens (startsAsyncArrow_false ends tokens) noArrow,
    if_neg (by simp), if_neg (by simp), nameOrBrackets, if_pos (by simp [readsAsName, hk]),
    bind_of_ok (advance_cons tokens noEnd), pure_apply]

theorem primary_symbol {sign : Symbol} (hk : t.kind = .symbol sign)
    (tokens : scope.remaining s = t :: rest) :
    primary nested scope s =
      (if sign = .openParen ∧ closesBeforeArrow 0 (t :: rest) then arrowFunction nested t.span false
      else nameOrBrackets nested t (scope.stream.get (s.cursor + 1))) scope s := by
  have noLiteral : t.kind ∉ literalKinds := by
    rw [hk]
    simp [literalKinds]
  have async : startsAsyncArrow t scope s = .ok false s := startsAsyncArrow_symbol hk
  by_cases parens : sign = .openParen
  · subst parens
    rw [primary_of_starts noLiteral tokens async (startsArrow_parens hk), tokens]
    simp
  · have noArrow : startsArrow t (scope.stream.get (s.cursor + 1)) scope s = .ok false s := by
      rw [startsArrow, hk, if_neg (by simp), if_neg (by simpa using parens), pure_apply]
    rw [primary_of_starts noLiteral tokens async noArrow]
    simp [parens]

theorem nameOrBrackets_symbol {sign : Symbol} (hk : t.kind = .symbol sign) (next : Token) :
    nameOrBrackets nested t next = (match TokenKind.symbol sign with
      | .symbol .openParen => grouped nested
      | .symbol .openBracket => arrayLiteral nested
      | .symbol .openBrace => objectLiteral nested
      | _ => failWanted .expression) := by
  have noName : readsAsName t next = false := by rw [readsAsName, hk]; rfl
  rw [nameOrBrackets, noName, hk]
  rfl

theorem primary_asyncArrow (hk : t.kind = .identifier) (raw : t.raw = "async")
    (next : firstKind rest = .symbol .openParen) (arrow : closesBeforeArrow 0 rest)
    (tokens : scope.remaining s = t :: rest) :
    primary nested scope s = arrowFunction nested t.span true scope (s.ahead 1) := by
  have after := Scope.remaining_ahead_one tokens
  have nextKind : (scope.stream.get (s.cursor + 1)).kind = .symbol .openParen :=
    (Scope.kind_of_remaining after).trans next
  have async : startsAsyncArrow t scope s = .ok true s := by
    rw [startsAsyncArrow, hk, raw, if_pos (by simp), asyncArrowFollows, bind_of_ok peek_apply,
      nextKind]
    change startsArrowAt 1 scope s = _
    rw [startsArrowAt, bind_of_ok scope_apply, bind_of_ok cursor_apply, pure_apply,
      show scope.stream.tokensFrom (s.cursor + 1) = rest from after, arrow]
  have noName : startsArrow t (scope.stream.get (s.cursor + 1)) scope s = .ok false s := by
    rw [startsArrow, hk, if_pos (by simp), nextKind]
    rfl
  rw [primary_of_starts (by rw [hk]; decide) tokens async noName, if_pos rfl,
    bind_of_ok (advance_cons tokens (by simp [hk]))]

end PulseSyntax.Expr
