import PulseSyntax.Proofs.Parser.Filling

namespace PulseSyntax

open PulseSyntax.Parser

variable {scope : Scope} {s t : ParserState}

instance : LawfulMonad Parser := .mk' Parser
  (fun p => by
    funext scope s
    change (match p scope s with | .ok a t => .ok a t | .error e t => .error e t) = p scope s
    cases p scope s <;> rfl)
  (fun _ _ => rfl)
  (fun p f g => by
    funext scope s
    simp only [bind_apply]
    cases p scope s <;> rfl)

theorem Parser.map_eq_ok {α β : Type} {p : Parser α} {f : α → β} {b : β} :
    (f <$> p) scope s = .ok b t ↔ ∃ a, p scope s = .ok a t ∧ f a = b := by
  rw [← bind_pure_comp, bind_eq_ok]
  constructor
  · rintro ⟨a, u, read, last⟩
    cases last
    exact ⟨a, read, rfl⟩
  · rintro ⟨a, read, rfl⟩
    exact ⟨a, t, read, rfl⟩

theorem Parser.map_error {α β : Type} {p : Parser α} {f : α → β} {e : ParseError}
    (failed : p scope s = .error e t) : (f <$> p) scope s = .error e t := by
  rw [← bind_pure_comp, bind_apply, failed]

theorem Parser.failWanted_ne_ok {α : Type} {what : Wanted} {a : α} :
    (failWanted what : Parser α) scope s ≠ .ok a t := failAtToken_ne_ok

theorem Parser.entry_eq_ok {α : Type} {p : Parser α} {a : α} : entry p scope s = .ok a t ↔
    ∃ u, p scope s = .ok a u ∧ skipSeparators scope u = .ok () t := by
  rw [entry, bind_eq_ok]
  constructor
  · rintro ⟨a, u, read, rest⟩
    obtain ⟨_, v, skipped, last⟩ := bind_eq_ok.mp rest
    cases last
    exact ⟨u, read, skipped⟩
  · rintro ⟨u, read, skipped⟩
    exact ⟨a, u, read, bind_eq_ok.mpr ⟨(), t, skipped, rfl⟩⟩

theorem Parser.entry_error {α : Type} {p : Parser α} {e : ParseError}
    (failed : p scope s = .error e t) : entry p scope s = .error e t := by
  rw [entry, bind_apply, failed]

namespace Course

variable {α : Type} {p : Parser α} {a : α}

theorem reaches_of_moving (moving : ∀ c : Course, ¬ c.fits → c.Moving p)
    (ok : p scope s = .ok a t) : s.Reaches scope t ∧ s.cursor < t.cursor :=
  have proceeds := moving ⟨scope, s.depth, False⟩ id s rfl
  ⟨proceeds.reaches ok, proceeds.progress ok trivial⟩

end Course

namespace Filling

variable {σ ε κ : Type} {F : Filling σ ε κ} {item : Parser ε}

def EndsBlock (kind : TokenKind) : Prop := kind = .symbol .closeBrace ∨ kind = .endOfFile

instance (kind : TokenKind) : Decidable (EndsBlock kind) :=
  inferInstanceAs (Decidable (_ ∨ _))

theorem turns_entry [DecidableEq κ] {step more : σ → Parser (ForInStep σ)}
    (round : ∀ a scope s, step a scope s =
      if EndsBlock (scope.stream.get s.cursor).kind then .ok (.done a) s else more a scope s)
    (yields : ∀ {a next scope s t}, more a scope s = .ok next t ↔
      ∃ e, Parser.entry item scope s = .ok e t ∧ F.taken a (F.field e) = false ∧
        next = .yield (F.put a e))
    (starts : ∀ {scope s e t}, item scope s = .ok e t → ¬ EndsBlock (scope.stream.get s.cursor).kind)
    (advances : ∀ {scope s e t}, item scope s = .ok e t → s.Reaches scope t ∧ s.cursor < t.cursor) :
    F.Turns step (Parser.entry item) some EndsBlock where
  yield_iff {scope a b s t} := by
    simp only [Option.mem_some_iff, forall_eq', Option.elim_some]
    rw [round]
    constructor
    · split
      · exact nofun
      · intro ok
        obtain ⟨e, read, free, same⟩ := yields.mp ok
        cases same
        exact ⟨e, read, free, rfl⟩
    · rintro ⟨e, read, free, rfl⟩
      obtain ⟨u, first, -⟩ := Parser.entry_eq_ok.mp read
      rw [if_neg (starts first)]
      exact yields.mpr ⟨e, read, free, rfl⟩
  done {scope a b s t} ok := by
    rw [round] at ok
    split at ok
    · next ends =>
      cases ok
      exact ⟨rfl, rfl, ends⟩
    · obtain ⟨e, -, -, same⟩ := yields.mp ok
      cases same
  advances ok := by
    obtain ⟨u, first, skipped⟩ := Parser.entry_eq_ok.mp ok
    obtain ⟨reaches, progress⟩ := advances first
    have further := (Course.steady_skipSeparators (c := ⟨_, u.depth, False⟩) u rfl).reaches skipped
    exact ⟨reaches.trans further, Nat.lt_of_lt_of_le progress further.cursor⟩

end Filling

theorem entryRound_apply {σ : Type} (add : σ → Parser σ) (a : σ) (scope : Scope) (s : ParserState) :
    entryRound add a scope s =
      if Filling.EndsBlock (scope.stream.get s.cursor).kind then .ok (.done a) s
      else (Parser.entry (add a) >>= fun b => pure (.yield b)) scope s := by
  rw [entryRound, bind_of_ok current_apply]
  simp only [Filling.EndsBlock, Bool.or_eq_true, beq_iff_eq]
  exact apply_ite (fun p : Parser (ForInStep σ) => p scope s) _ _ _

namespace EntryReader

variable {σ ε : Type} {F : Filling σ ε Keyword} {R : EntryReader F} {es : List ε} {word : Keyword}
  {err : ParseError}

theorem turns_entryRound
    (noEnd : ∀ kind next, Filling.EndsBlock kind → R.field? kind next = none)
    (moving : ∀ c : Course, ¬ c.fits → c.Moving (R.add F.empty)) :
    F.Turns (entryRound R.add) (Parser.entry R.entry) some Filling.EndsBlock := by
  refine Filling.turns_entry (entryRound_apply R.add) (fun {a next scope s t} => ?_) (fun read ends => ?_)
    fun read => ?_
  · rw [bind_eq_ok]
    simp only [Parser.entry_eq_ok, add_eq_ok, pure_apply, Reply.ok.injEq]
    constructor
    · rintro ⟨_, u, ⟨v, ⟨e, read, free, rfl⟩, skipped⟩, rfl, rfl⟩
      exact ⟨e, ⟨v, read, skipped⟩, free, rfl⟩
    · rintro ⟨e, ⟨v, read, skipped⟩, free, rfl⟩
      exact ⟨_, t, ⟨v, ⟨e, read, free, rfl⟩, skipped⟩, rfl, rfl⟩
  · obtain ⟨word, here, -⟩ := entry_eq_ok.mp read
    rw [fieldAt?, noEnd _ _ ends] at here
    cases here
  · exact Course.reaches_of_moving moving (add_eq_ok.mpr ⟨_, read, Filling.taken_empty, rfl⟩)

theorem entryRound_error (noEnd : ∀ kind next, Filling.EndsBlock kind → R.field? kind next = none)
    {a : σ} (here : R.fieldAt? scope s = some word) (failed : R.add a scope s = .error err t) :
    entryRound R.add a scope s = .error err t := by
  have more : ¬ Filling.EndsBlock (scope.stream.get s.cursor).kind := by
    intro ends
    rw [fieldAt?, noEnd _ _ ends] at here
    cases here
  rw [entryRound_apply, if_neg more, bind_apply, Parser.entry_error failed]

/-- Where the parser of a block stands after its word and its opening brace. -/
structure OpensBlock (scope : Scope) (s : ParserState) (word : Keyword) : Prop where
  word : (scope.stream.get s.cursor).kind = .keyword word
  brace : (scope.stream.get (s.cursor + 1)).kind = .symbol .openBrace

/-- A block of entries in braces after a word. -/
def block (R : EntryReader F) (word : Keyword) (toBlock : σ → Span → α) : Parser α := do
  let start ← expectKeyword word
  let _ ← expectSymbol .openBrace
  let a ← loop (entryRound R.add) F.empty
  let close ← expectSymbol .closeBrace
  return toBlock a (start.span.cover close.span)

section

variable {α : Type} {toBlock : σ → Span → α} {parts : List (Parser.Part ε)}

theorem yields_block
    (turns : F.Turns (entryRound R.add) (Parser.entry R.entry) some Filling.EndsBlock) :
    Yields (R.block word toBlock) scope s fun b t =>
      OpensBlock scope s word ∧ ∃ parts u span, Parts scope (Parser.entry R.entry) (s.ahead 2) parts u ∧
        (scope.stream.get u.cursor).kind = .symbol .closeBrace ∧ t = u.ahead 1 ∧
        F.Distinct (Filling.entries some parts) ∧
        b = toBlock (F.fill (Filling.entries some parts)) span := by
  simp only [block, yields_bind, yields_expectKeyword, yields_expectSymbol, yields_pure]
  intro word
  rw [ParserState.next_of_kind word (by simp)]
  intro brace
  rw [ParserState.next_of_kind brace (by simp), ParserState.ahead_ahead]
  refine turns.yields_loop.mono ?_
  rintro _ u ⟨-, parts, read, distinct, rfl⟩ closes
  rw [ParserState.next_of_kind closes (by simp)]
  exact ⟨⟨word, brace⟩, parts, u, _, read, closes, rfl, distinct, rfl⟩

theorem block_error
    (turns : F.Turns (entryRound R.add) (Parser.entry R.entry) some Filling.EndsBlock)
    (noEnd : ∀ kind next, Filling.EndsBlock kind → R.field? kind next = none)
    (opens : OpensBlock scope s word) (read : Parts scope (Parser.entry R.entry) (s.ahead 2) parts t)
    (distinct : F.Distinct (Filling.entries some parts)) {key : Keyword} {u : ParserState}
    (here : R.fieldAt? scope t = some key)
    (failed : R.add (F.fill (Filling.entries some parts)) scope t = .error err u) :
    R.block word toBlock scope s = .error err u := by
  have entries := turns.loop_error read distinct (entryRound_error noEnd here failed)
  rw [block, expectKeyword, bind_of_ok (expect_apply opens.word (by simp)), expectSymbol,
    bind_of_ok (expect_apply opens.brace (by simp)), ParserState.ahead_ahead, bind_apply, entries]

end

end EntryReader

end PulseSyntax
