import PulseSyntax.Proofs.Token.Sheltered
import PulseSyntax.Proofs.Token.Stream

namespace PulseSyntax

theorem Symbol.eq_of_isClosing {sign : Symbol} (h : sign.isClosing) :
    sign = .closeParen ∨ sign = .closeBracket ∨ sign = .closeBrace := by
  unfold isClosing at h
  split at h <;> simp_all

theorem Symbol.eq_of_closing? {sign close : Symbol} (h : sign.closing? = some close) :
    sign = .openParen ∧ close = .closeParen ∨ sign = .openBracket ∧ close = .closeBracket ∨
      sign = .openBrace ∧ close = .closeBrace := by
  unfold closing? at h
  split at h <;> simp_all

theorem due?_nil (due : List Symbol) : due? due [] = some due := rfl

namespace TokenKind

variable {kind : TokenKind} {sign close : Symbol} {due due' : List Symbol}

theorem due?_opening (opens : sign.closing? = some close) (due : List Symbol) :
    (symbol sign).due? due = some (close :: due) := by
  simp only [due?, opens]

theorem due?_closing (closes : sign.isClosing) (due : List Symbol) :
    (symbol sign).due? (sign :: due) = some due := by
  obtain rfl | rfl | rfl := Symbol.eq_of_isClosing closes <;> rfl

theorem due?_plain (plain : Expr.bracketStep kind = none) (due : List Symbol) :
    kind.due? due = some due := by
  cases kind with
  | symbol sign => cases sign <;> first | rfl | cases plain
  | _ => rfl

theorem due?_cases (step : kind.due? due = some due') :
    (∃ sign close, kind = .symbol sign ∧ sign.closing? = some close ∧ due' = close :: due) ∨
      (∃ sign, kind = .symbol sign ∧ sign.isClosing ∧ due = sign :: due') ∨
      Expr.bracketStep kind = none ∧ due' = due := by
  cases kind with
  | symbol sign =>
    by_cases closes : sign.isClosing
    · exact .inr (.inl ⟨sign, rfl, closes, due?_of_closing closes step⟩)
    · cases opens : sign.closing? with
      | some close =>
        rw [due?_opening opens] at step
        exact .inl ⟨sign, close, rfl, opens, (Option.some.inj step).symm⟩
      | none =>
        have plain : Expr.bracketStep (symbol sign) = none := by
          cases sign <;> first | rfl | exact absurd rfl closes | cases opens
        rw [due?_plain plain] at step
        exact .inr (.inr ⟨plain, (Option.some.inj step).symm⟩)
  | _ => exact .inr (.inr ⟨rfl, (Option.some.inj step).symm⟩)

theorem due?_of_braces {t : Token} {own : List Symbol} {n : Nat}
    (step : t.kind.due? (own ++ .closeBrace :: due) = some due')
    (braces : openBraces? (own.count .closeBrace) [t] = some n) :
    ∃ own', t.kind.due? own = some own' ∧ due' = own' ++ .closeBrace :: due ∧
      own'.count .closeBrace = n := by
  obtain ⟨sign, close, kind, opens, rfl⟩ | ⟨sign, kind, closes, top⟩ | ⟨plain, rfl⟩ := due?_cases step
  · refine ⟨close :: own, by rw [kind, due?_opening opens], rfl, ?_⟩
    obtain ⟨rfl, rfl⟩ | ⟨rfl, rfl⟩ | ⟨rfl, rfl⟩ := Symbol.eq_of_closing? opens <;>
      simp_all [openBraces?]
  · cases own with
    | nil =>
      obtain ⟨rfl, -⟩ := List.cons_eq_cons.mp top
      simp [openBraces?, kind] at braces
    | cons first own =>
      obtain ⟨rfl, rfl⟩ := List.cons_eq_cons.mp top
      refine ⟨own, by rw [kind, due?_closing closes], rfl, ?_⟩
      obtain rfl | rfl | rfl := Symbol.eq_of_isClosing closes <;> simp_all [openBraces?]
  · refine ⟨own, due?_plain plain own, rfl, ?_⟩
    have noBrace : t.kind.isBrace = false := by
      cases brace : t.kind.isBrace with
      | false => rfl
      | true =>
        rcases eq_of_isBrace brace with kind | kind <;>
        · rw [kind] at plain
          cases plain
    rw [openBraces?_plain noBrace] at braces
    exact Option.some.inj braces

end TokenKind

theorem due?_of_braces (own : List Symbol) {due due' : List Symbol} {tokens : List Token} {n : Nat}
    (closes : due? (own ++ .closeBrace :: due) tokens = some due')
    (braces : openBraces? (own.count .closeBrace) tokens = some n) :
    ∃ own', due? own tokens = some own' ∧ due' = own' ++ .closeBrace :: due ∧
      own'.count .closeBrace = n := by
  induction tokens generalizing own with
  | nil => exact ⟨own, rfl, (Option.some.inj closes).symm, Option.some.inj braces⟩
  | cons t tokens ih =>
    rw [due?_cons, Option.bind_eq_some_iff] at closes
    obtain ⟨middle, step, closes⟩ := closes
    rw [openBraces?_cons, Option.bind_eq_some_iff] at braces
    obtain ⟨between, first, braces⟩ := braces
    obtain ⟨own', here, rfl, rfl⟩ := TokenKind.due?_of_braces step first
    obtain ⟨last, rest, whole, count⟩ := ih own' closes braces
    exact ⟨last, by rw [due?_cons, here]; exact rest, whole, count⟩

namespace TokenStream

/-- These brackets are due to close at an index, and the tokens up to another one close them and
    all that they open. -/
structure Due (stream : TokenStream) (stop : Nat) (due : List Symbol) (i : Nat) : Prop where
  le : i ≤ stop
  closes : due? due (stream.between i stop) = some []

namespace Due

variable {stream : TokenStream} {stop i : Nat} {due : List Symbol}

theorem at_stop (h : stream.Due stop due stop) : due = [] := by
  have closes := h.closes
  rw [between_self, due?_nil] at closes
  exact Option.some.inj closes

theorem exists_of_wellNested {first : Nat} (nested : WellNested (stream.between first stop))
    (start : first ≤ i) (le : i ≤ stop) :
    ∃ due, due? [] (stream.between first i) = some due ∧ stream.Due stop due i := by
  rw [WellNested, stream.between_append start le, due?_append, Option.bind_eq_some_iff] at nested
  obtain ⟨due, before, after⟩ := nested
  exact ⟨due, before, le, after⟩

theorem step (h : stream.Due stop due i) (lt : i < stop) (inside : stop < stream.size) :
    ∃ due', (stream.get i).kind.due? due = some due' ∧ stream.Due stop due' (i + 1) := by
  have closes := h.closes
  rw [stream.between_append (Nat.le_succ i) lt, between_succ (by omega), List.singleton_append,
    due?_cons, Option.bind_eq_some_iff] at closes
  obtain ⟨due', step, rest⟩ := closes
  exact ⟨due', step, lt, rest⟩

theorem closing {sign : Symbol} (h : stream.Due stop (sign :: due) i)
    (hk : (stream.get i).kind = .symbol sign) (closes : sign.isClosing)
    (inside : stop < stream.size) : stream.Due stop due (i + 1) := by
  rcases Nat.eq_or_lt_of_le h.le with rfl | lt
  · exact absurd h.at_stop (List.cons_ne_nil _ _)
  · obtain ⟨due', step, next⟩ := h.step lt inside
    rw [hk, TokenKind.due?_closing closes] at step
    cases step
    exact next

section

variable (ends : Expr.bracketStep (stream.get stop).kind = some false)

include ends

theorem lt_size_of_ends : stop < stream.size := by
  refine Nat.lt_of_succ_lt (lt_size_of_kind_ne fun kind => ?_)
  rw [kind] at ends
  cases ends

theorem plain (h : stream.Due stop due i) (hk : Expr.bracketStep (stream.get i).kind = none) :
    stream.Due stop due (i + 1) := by
  rcases Nat.eq_or_lt_of_le h.le with rfl | lt
  · rw [hk] at ends
    cases ends
  · obtain ⟨due', step, next⟩ := h.step lt (lt_size_of_ends ends)
    rw [TokenKind.due?_plain hk] at step
    cases step
    exact next

theorem opening {sign close : Symbol} (h : stream.Due stop due i)
    (hk : (stream.get i).kind = .symbol sign) (opens : sign.closing? = some close) :
    stream.Due stop (close :: due) (i + 1) := by
  rcases Nat.eq_or_lt_of_le h.le with rfl | lt
  · rw [hk] at ends
    obtain ⟨rfl, -⟩ | ⟨rfl, -⟩ | ⟨rfl, -⟩ := Symbol.eq_of_closing? opens <;> cases ends
  · obtain ⟨due', step, next⟩ := h.step lt (lt_size_of_ends ends)
    rw [hk, TokenKind.due?_opening opens] at step
    cases step
    exact next

/-- Braces that have been matched by themselves close where what is between them nests well, since
    no other bracket may be open where the last of them closes. -/
theorem block {k : Nat} (h : stream.Due stop due i)
    (ho : (stream.get i).kind = .symbol .openBrace) (matched : stream.Open (i + 1) k 0)
    (hc : (stream.get k).kind = .symbol .closeBrace) : stream.Due stop due (k + 1) := by
  have size := lt_size_of_ends ends
  have inner : stream.Due stop (.closeBrace :: due) (i + 1) := h.opening ends ho rfl
  have upTo : k ≤ stop := by
    by_contra beyond
    obtain ⟨d, braces⟩ := matched.before inner.le (by omega)
    obtain ⟨own, -, whole, -⟩ := due?_of_braces [] inner.closes braces
    simp at whole
  have closes := inner.closes
  rw [stream.between_append matched.le upTo, due?_append, Option.bind_eq_some_iff] at closes
  obtain ⟨middle, first, rest⟩ := closes
  obtain ⟨own, -, rfl, count⟩ := due?_of_braces [] first matched.braces
  have atClose : stream.Due stop (own ++ .closeBrace :: due) k := ⟨upTo, rest⟩
  cases own with
  | nil => exact atClose.closing hc rfl size
  | cons sign own =>
    rcases Nat.eq_or_lt_of_le upTo with rfl | lt
    · exact absurd atClose.at_stop (List.cons_ne_nil _ _)
    · obtain ⟨due', step, -⟩ := atClose.step lt size
      rw [hc] at step
      obtain ⟨rfl, -⟩ := List.cons.inj (TokenKind.due?_of_closing rfl step)
      simp at count

end

end Due

end TokenStream

end PulseSyntax
