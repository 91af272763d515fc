import PulseSyntax.Proofs.Parser.Course
import PulseSyntax.Proofs.Parser.Run
import PulseSyntax.Proofs.Token.Spaced

namespace PulseSyntax

open PulseSyntax.Parser

namespace Piece

def lexemes (ps : List Piece) : List Lexeme := ps.filterMap lexeme?

variable {ps qs : List Piece} {l : Lexeme} {ls : List Lexeme}

@[simp] theorem lexemes_append : lexemes (ps ++ qs) = lexemes ps ++ lexemes qs :=
  List.filterMap_append

@[simp] theorem lexemes_spaced : lexemes (Lexeme.spaced ls) = ls := Lexeme.filterMap_spaced ls

@[simp] theorem lexemes_glued : lexemes (Lexeme.glued ls) = ls := Lexeme.filterMap_glued ls

theorem exists_placed (h : lexemes ps = l :: ls) (p : Position) :
    ∃ t ts, Lexer.placed p ps = t :: ts ∧ t.own = l ∧ ts.map Token.own = ls := by
  have own := Lexeme.placed_map_own p ps
  rw [← lexemes, h] at own
  obtain ⟨t, ts, placed, first, others⟩ := List.map_eq_cons_iff.mp own
  exact ⟨t, ts, placed, first, others⟩

theorem firstKind_placed (h : lexemes ps = l :: ls) (p : Position) (rest : List Token) :
    firstKind (Lexer.placed p ps ++ rest) = l.kind := by
  obtain ⟨t, ts, placed, rfl, -⟩ := exists_placed h p
  rw [placed]
  rfl

end Piece

namespace Parser

open Piece

variable {α β σ : Type}

/-- From the pieces the parser reads an answer of which `P` holds, before tokens that may follow. -/
def Restores (scope : Scope) (depth : Nat) (ps : List Piece) (follow : List Token → Prop)
    (p : Parser α) (P : α → Prop) : Prop :=
  ∀ pos s rest, s.depth = depth → scope.remaining s = Lexer.placed pos ps ++ rest → follow rest →
    ∃ a, p scope s = .ok a (s.past (Lexer.placed pos ps)) ∧ P a

variable {scope : Scope} {depth : Nat} {ps qs : List Piece} {follow after : List Token → Prop}
  {p : Parser α} {f : α → Parser β} {P : α → Prop} {Q : β → Prop} {l : Lexeme} {ls : List Lexeme}

namespace Restores

theorem pure {a : α} (holds : P a) : Restores scope depth [] follow (Pure.pure a) P :=
  fun _ _ _ _ _ _ => ⟨a, rfl, holds⟩

theorem mono {P' : α → Prop} (h : Restores scope depth ps follow p P) (imp : ∀ a, P a → P' a) :
    Restores scope depth ps follow p P' := by
  intro pos s rest here tokens follows
  obtain ⟨a, ok, holds⟩ := h pos s rest here tokens follows
  exact ⟨a, ok, imp a holds⟩

theorem before {follow' : List Token → Prop} (h : Restores scope depth ps follow p P)
    (imp : ∀ rest, follow' rest → follow rest) : Restores scope depth ps follow' p P :=
  fun pos s rest here tokens follows => h pos s rest here tokens (imp rest follows)

theorem bind (h : Restores scope depth ps follow p P)
    (next : ∀ pos rest, after rest → follow (Lexer.placed pos qs ++ rest))
    (h' : ∀ a, P a → Restores scope depth qs after (f a) Q) :
    Restores scope depth (ps ++ qs) after (p >>= f) Q := by
  intro pos s rest here tokens follows
  rw [Lexer.placed_append, List.append_assoc] at tokens
  obtain ⟨a, first, holds⟩ := h pos s _ here tokens (next _ rest follows)
  obtain ⟨b, second, holds'⟩ := h' a holds _ (s.past (Lexer.placed pos ps)) rest here
    (Scope.remaining_past tokens) follows
  refine ⟨b, ?_, holds'⟩
  rw [bind_of_ok first, second, Lexer.placed_append, ParserState.past_append]

theorem andThen (h : Restores scope depth ps (fun _ => True) p P)
    (h' : ∀ a, P a → Restores scope depth qs after (f a) Q) :
    Restores scope depth (ps ++ qs) after (p >>= f) Q := h.bind (fun _ _ _ => trivial) h'

theorem last (h : Restores scope depth ps follow p P) (imp : ∀ rest, after rest → follow rest)
    (h' : ∀ a, P a → Restores scope depth [] after (f a) Q) :
    Restores scope depth ps after (p >>= f) Q := by
  have whole : Restores scope depth (ps ++ []) after (p >>= f) Q := h.bind (fun _ => imp) h'
  rwa [List.append_nil] at whole

theorem map (h : Restores scope depth ps follow p P) {g : α → β} (imp : ∀ a, P a → Q (g a)) :
    Restores scope depth ps follow (g <$> p) Q := by
  intro pos s rest here tokens follows
  obtain ⟨a, ok, holds⟩ := h pos s rest here tokens follows
  refine ⟨g a, ?_, imp a holds⟩
  change (p >>= fun a => Pure.pure (g a)) scope s = _
  rw [bind_of_ok ok]
  rfl

theorem returns {g : α → β} (h : Restores scope depth ps follow p P) (imp : ∀ a, P a → Q (g a)) :
    Restores scope depth ps follow (p >>= fun a => Pure.pure (g a)) Q := h.map imp

theorem head (h : Restores scope depth (Lexeme.spaced [l]) (fun _ => True) p P)
    (h' : ∀ a, P a → Restores scope depth (Lexeme.spaced ls) after (f a) Q) :
    Restores scope depth (Lexeme.spaced (l :: ls)) after (p >>= f) Q := h.andThen h'

theorem look {R : α → Prop} (found : ∀ pos s rest, scope.remaining s = Lexer.placed pos ps ++ rest →
      follow rest → ∃ a, p scope s = .ok a s ∧ R a)
    (h : ∀ a, R a → Restores scope depth ps follow (f a) Q) :
    Restores scope depth ps follow (p >>= f) Q := by
  intro pos s rest here tokens follows
  obtain ⟨a, ok, holds⟩ := found pos s rest tokens follows
  rw [bind_of_ok ok]
  exact h a holds pos s rest here tokens follows

section

variable {f : Token → Parser β} {kind : TokenKind} {sign : Symbol}

theorem current (first : lexemes ps = l :: ls)
    (h : ∀ t, t.own = l → Restores scope depth ps follow (f t) Q) :
    Restores scope depth ps follow (current >>= f) Q := by
  refine look (fun pos s rest tokens _ => ⟨_, current_apply, ?_⟩) h
  obtain ⟨t, ts, placed, own, -⟩ := exists_placed first pos
  rw [placed] at tokens
  rw [Scope.get_of_remaining tokens, own]

theorem peek {l' : Lexeme} (first : lexemes ps = l :: l' :: ls)
    (h : ∀ t, t.own = l' → Restores scope depth ps follow (f t) Q) :
    Restores scope depth ps follow (peek >>= f) Q := by
  refine look (fun pos s rest tokens _ => ⟨_, peek_apply, ?_⟩) h
  obtain ⟨t, ts, placed, -, others⟩ := exists_placed first pos
  obtain ⟨u, us, rfl, own, -⟩ := List.map_eq_cons_iff.mp others
  rw [placed] at tokens
  have second : scope.stream.get (s.cursor + 1) = u :=
    Scope.get_of_remaining (Scope.remaining_ahead_one tokens)
  rw [second, own]

theorem previous (h : ∀ t, Restores scope depth ps follow (f t) Q) :
    Restores scope depth ps follow (previous >>= f) Q :=
  look (R := fun _ => True) (fun _ _ _ _ _ => ⟨_, previous_apply, trivial⟩) fun t _ => h t

theorem advance (one : lexemes ps = [l]) (noEnd : l.kind ≠ .endOfFile) :
    Restores scope depth ps follow advance fun t => t.own = l := by
  intro pos s rest _ tokens _
  obtain ⟨t, ts, placed, own, others⟩ := exists_placed one pos
  obtain rfl := List.map_eq_nil_iff.mp others
  rw [placed] at tokens ⊢
  refine ⟨t, advance_cons tokens ?_, own⟩
  rwa [show t.kind = l.kind from congrArg Lexeme.kind own]

theorem expect (one : lexemes ps = [l]) (hk : l.kind = kind) (noEnd : kind ≠ .endOfFile) :
    Restores scope depth ps follow (expect kind) fun t => t.own = l := by
  intro pos s rest _ tokens _
  obtain ⟨t, ts, placed, own, others⟩ := exists_placed one pos
  obtain rfl := List.map_eq_nil_iff.mp others
  rw [placed] at tokens ⊢
  exact ⟨t, expect_cons tokens ((congrArg Lexeme.kind own).trans hk) noEnd, own⟩

theorem expectName (one : lexemes ps = [l]) (name : l.kind.isName) :
    Restores scope depth ps follow expectName fun t => t.own = l := by
  have noEnd : l.kind ≠ .endOfFile := by
    intro same
    rw [same] at name
    cases name
  refine look (R := (· = true)) (fun pos s rest tokens _ => ⟨_, rfl, ?_⟩) ?_
  · exact (congrArg TokenKind.isName (Scope.kind_of_remaining tokens)).trans
      (by rwa [firstKind_placed one])
  · rintro _ rfl
    exact advance one noEnd

theorem expectSymbol (sign : Symbol) :
    Restores scope depth (Lexeme.spaced [.symbol sign]) follow (expectSymbol sign) fun _ => True :=
  (expect lexemes_spaced rfl (by simp [Lexeme.symbol])).mono fun _ _ => trivial

end

section

variable {f : Bool → Parser β} {kind : TokenKind} {sign : Symbol}

theorem is (first : lexemes ps = l :: ls)
    (h : Restores scope depth ps follow (f (l.kind == kind)) Q) :
    Restores scope depth ps follow (is kind >>= f) Q := by
  refine look (R := (· = (l.kind == kind))) (fun pos s rest tokens _ => ⟨_, is_apply, ?_⟩)
    (by rintro _ rfl; exact h)
  rw [Scope.kind_of_remaining tokens, firstKind_placed first]

theorem isSymbol (first : lexemes ps = l :: ls)
    (h : Restores scope depth ps follow (f (l.kind == .symbol sign)) Q) :
    Restores scope depth ps follow (isSymbol sign >>= f) Q := is first h

theorem eat_false (noEnd : kind ≠ .endOfFile)
    (other : ∀ pos rest, follow rest → firstKind (Lexer.placed pos ps ++ rest) ≠ kind)
    (h : Restores scope depth ps follow (f false) Q) :
    Restores scope depth ps follow (Parser.eat kind >>= f) Q := by
  refine look (R := (· = false)) (fun pos s rest tokens follows => ⟨false, ?_, rfl⟩)
    (by rintro _ rfl; exact h)
  rw [eat_apply noEnd, if_neg]
  rw [Scope.kind_of_remaining tokens]
  exact other pos rest follows

theorem eat_true (one : lexemes ps = [l]) (hk : l.kind = kind) (noEnd : kind ≠ .endOfFile)
    (h : Restores scope depth qs after (f true) Q) :
    Restores scope depth (ps ++ qs) after (Parser.eat kind >>= f) Q := by
  have eaten : Restores scope depth ps (fun _ => True) (Parser.eat kind) (· = true) := by
    intro pos s rest _ tokens _
    obtain ⟨t, ts, placed, own, others⟩ := exists_placed one pos
    obtain rfl := List.map_eq_nil_iff.mp others
    rw [placed] at tokens ⊢
    refine ⟨true, ?_, rfl⟩
    rw [eat_apply noEnd, if_pos]
    · rfl
    · rw [Scope.get_of_remaining tokens, ← hk]
      exact congrArg Lexeme.kind own
  exact eaten.andThen (by rintro _ rfl; exact h)

end

theorem deeper (h : Restores scope (depth + 1) ps follow p P) :
    Restores scope depth ps follow (deeper p) P := by
  intro pos s rest here tokens follows
  obtain ⟨a, ok, holds⟩ := h pos { s with depth := s.depth + 1 } rest (by rw [here]) tokens follows
  exact ⟨a, deeper_of_ok ok, holds⟩

theorem withLevels {p : Nat → Parser α}
    (h : Restores scope depth ps follow (p (scope.options.maxDepth - depth)) P) :
    Restores scope depth ps follow (withLevels p) P := by
  intro pos s rest here tokens follows
  obtain ⟨a, ok, holds⟩ := h pos s rest here tokens follows
  refine ⟨a, ?_, holds⟩
  rw [Parser.withLevels, here]
  exact ok

end Restores

/-- From the pieces rounds of a repetition lead on, to a value of which `P` holds. -/
def RestoresRounds (scope : Scope) (depth : Nat) (ps : List Piece) (follow : List Token → Prop)
    (step : σ → Parser (ForInStep σ)) (a : σ) (P : σ → Prop) : Prop :=
  ∀ pos s rest, s.depth = depth → scope.remaining s = Lexer.placed pos ps ++ rest → follow rest →
    ∃ b, Rounds step scope a s b (s.past (Lexer.placed pos ps)) ∧ P b

namespace RestoresRounds

variable {step : σ → Parser (ForInStep σ)} {a : σ} {P Q : σ → Prop}

theorem nil (holds : P a) : RestoresRounds scope depth [] follow step a P :=
  fun _ s _ _ _ _ => ⟨a, .refl a s, holds⟩

theorem cons (some : lexemes ps ≠ [])
    (h : Restores scope depth ps follow (step a) fun next => ∃ b, next = .yield b ∧ P b)
    (next : ∀ pos rest, after rest → follow (Lexer.placed pos qs ++ rest))
    (h' : ∀ b, P b → RestoresRounds scope depth qs after step b Q) :
    RestoresRounds scope depth (ps ++ qs) after step a Q := by
  intro pos s rest here tokens follows
  rw [Lexer.placed_append, List.append_assoc] at tokens
  obtain ⟨_, first, b, rfl, holds⟩ := h pos s _ here tokens (next _ rest follows)
  obtain ⟨c, rounds, holds'⟩ := h' b holds _ (s.past (Lexer.placed pos ps)) rest here
    (Scope.remaining_past tokens) follows
  obtain ⟨l, ls, same⟩ := List.exists_cons_of_ne_nil some
  obtain ⟨t, ts, placed, -⟩ := exists_placed same pos
  refine ⟨c, ?_, holds'⟩
  rw [Lexer.placed_append, ParserState.past_append]
  rw [placed] at tokens
  refine .head first (Scope.lt_size_of_remaining tokens) ?_ rounds
  rw [placed, ParserState.past, ParserState.ahead_cursor, List.length_cons]
  omega

theorem mono (h : RestoresRounds scope depth ps follow step a P) (imp : ∀ b, P b → Q b) :
    RestoresRounds scope depth ps follow step a Q := by
  intro pos s rest here tokens follows
  obtain ⟨b, rounds, holds⟩ := h pos s rest here tokens follows
  exact ⟨b, rounds, imp b holds⟩

theorem loop (h : RestoresRounds scope depth ps follow step a P)
    (next : ∀ pos rest, after rest → follow (Lexer.placed pos qs ++ rest))
    (h' : ∀ b, P b → Restores scope depth qs after (step b) fun next =>
      ∃ c, next = .done c ∧ Q c) :
    Restores scope depth (ps ++ qs) after (Parser.loop step a) Q := by
  intro pos s rest here tokens follows
  rw [Lexer.placed_append, List.append_assoc] at tokens
  obtain ⟨b, rounds, holds⟩ := h pos s _ here tokens (next _ rest follows)
  obtain ⟨_, last, c, rfl, holds'⟩ := h' b holds _ (s.past (Lexer.placed pos ps)) rest here
    (Scope.remaining_past tokens) follows
  refine ⟨c, ?_, holds'⟩
  rw [Lexer.placed_append, ParserState.past_append]
  exact rounds.loop last

end RestoresRounds

def RestoresEnd (scope : Scope) (depth : Nat) (ps : List Piece) (follow : List Token → Prop)
    (step : σ → Parser (ForInStep σ)) (a : σ) (P : σ → Prop) : Prop :=
  ∀ pos s rest, s.depth = depth → scope.remaining s = Lexer.placed pos ps ++ rest → follow rest →
    ∃ b t c, Rounds step scope a s b t ∧
      step b scope t = .ok (.done c) (s.past (Lexer.placed pos ps)) ∧ P c

namespace RestoresEnd

variable {step : σ → Parser (ForInStep σ)} {a : σ} {P Q : σ → Prop}

theorem last (h : Restores scope depth ps follow (step a) fun next => ∃ b, next = .done b ∧ P b) :
    RestoresEnd scope depth ps follow step a P := by
  intro pos s rest here tokens follows
  obtain ⟨_, ok, c, rfl, holds⟩ := h pos s rest here tokens follows
  exact ⟨a, s, c, .refl a s, ok, holds⟩

theorem cons (some : lexemes ps ≠ [])
    (h : Restores scope depth ps follow (step a) fun next => ∃ b, next = .yield b ∧ P b)
    (next : ∀ pos rest, after rest → follow (Lexer.placed pos qs ++ rest))
    (h' : ∀ b, P b → RestoresEnd scope depth qs after step b Q) :
    RestoresEnd scope depth (ps ++ qs) after step a Q := by
  intro pos s rest here tokens follows
  rw [Lexer.placed_append, List.append_assoc] at tokens
  obtain ⟨_, first, b, rfl, holds⟩ := h pos s _ here tokens (next _ rest follows)
  obtain ⟨c, t, d, rounds, done, holds'⟩ := h' b holds _ (s.past (Lexer.placed pos ps)) rest here
    (Scope.remaining_past tokens) follows
  obtain ⟨l, ls, same⟩ := List.exists_cons_of_ne_nil some
  obtain ⟨u, us, placed, -⟩ := exists_placed same pos
  refine ⟨c, t, d, ?_, ?_, holds'⟩
  · rw [placed] at tokens first rounds
    refine .head first (Scope.lt_size_of_remaining tokens) ?_ rounds
    rw [ParserState.past, ParserState.ahead_cursor, List.length_cons]
    omega
  · rw [Lexer.placed_append, ParserState.past_append]
    exact done

theorem mono (h : RestoresEnd scope depth ps follow step a P) (imp : ∀ b, P b → Q b) :
    RestoresEnd scope depth ps follow step a Q := by
  intro pos s rest here tokens follows
  obtain ⟨b, t, c, rounds, done, holds⟩ := h pos s rest here tokens follows
  exact ⟨b, t, c, rounds, done, imp c holds⟩

theorem loop (h : RestoresEnd scope depth ps follow step a P) :
    Restores scope depth ps follow (Parser.loop step a) P := by
  intro pos s rest here tokens follows
  obtain ⟨b, t, c, rounds, done, holds⟩ := h pos s rest here tokens follows
  exact ⟨c, rounds.loop done, holds⟩

end RestoresEnd

theorem Restores.chainRound {step : α → Parser (Option α)} {a : α}
    (h : Restores scope depth ps follow (step a) fun next => ∃ b, next = some b ∧ P b) :
    Restores scope depth ps follow (chainRound step a) fun next => ∃ b, next = .yield b ∧ P b := by
  intro pos s rest here tokens follows
  obtain ⟨_, ok, b, rfl, holds⟩ := h pos s rest here tokens follows
  exact ⟨.yield b, chainRound_of_some ok, b, rfl, holds⟩

theorem RestoresRounds.chain {step : α → Parser (Option α)} {a : α}
    (h : RestoresRounds scope depth ps follow (chainRound step) a P)
    (ends : ∀ b, P b → Restores scope depth [] follow (step b) (· = none)) :
    Restores scope depth ps follow (Parser.chain step a) P := by
  have whole : Restores scope depth (ps ++ []) follow (Parser.chain step a) P := by
    refine h.loop (fun _ rest follows => follows) fun b holds => ?_
    intro pos s rest here tokens follows
    obtain ⟨_, ok, rfl⟩ := ends b holds pos s rest here tokens follows
    exact ⟨.done b, chainRound_of_none ok, b, rfl, holds⟩
  rwa [List.append_nil] at whole

section

variable {ι : Type} {R : ι → α → Prop} {pieces : ι → List Piece} {items : List ι}
  {close : Symbol}

/-- What comes after an item: the next one, or what ends the list. -/
def Between (follows : ι → List Token → Prop) (pieces : ι → List Piece) (items : List ι) : Prop :=
  items.IsChain fun a b => ∀ pos rest, follows a (Lexer.placed pos (pieces b) ++ rest)

variable {item : Parser α} {follows : ι → List Token → Prop}

theorem restoresRounds_many
    (each : ∀ a ∈ items, Restores scope depth (pieces a) (follows a) item (R a))
    (starts : ∀ a ∈ items, ∃ l ls, lexemes (pieces a) = l :: ls ∧ l.kind ≠ .symbol close ∧
      l.kind ≠ .endOfFile)
    (between : Between follows pieces items)
    (last : ∀ a ∈ items, ∀ rest, firstKind rest = .symbol close → follows a rest)
    (before : Array α) :
    RestoresRounds scope depth (items.flatMap pieces) (firstKind · = .symbol close)
      (manyRound close fun _ => item) before
      fun found => ∃ as : List α, found = before ++ as.toArray ∧ List.Forall₂ R items as := by
  induction items generalizing before with
  | nil => exact .nil ⟨[], by simp⟩
  | cons a items ih =>
    obtain ⟨first, others⟩ := List.forall_mem_cons.mp each
    obtain ⟨⟨l, ls, same, noClose, noEnd⟩, starts⟩ := List.forall_mem_cons.mp starts
    obtain ⟨ended, last⟩ := List.forall_mem_cons.mp last
    obtain ⟨next, between⟩ := List.isChain_cons.mp between
    have round : Restores scope depth (pieces a) (follows a) (manyRound close (fun _ => item) before)
        fun next => ∃ found, next = .yield found ∧ ∃ b, found = before.push b ∧ R a b := by
      refine .current same fun t own => ?_
      have kind : t.kind = l.kind := congrArg Lexeme.kind own
      simp only [kind, Bool.or_eq_true, beq_iff_eq, noClose, noEnd, or_self, ↓reduceIte]
      exact first.map fun b holds => ⟨_, rfl, b, rfl, holds⟩
    rw [List.flatMap_cons]
    refine .cons (by simp [same]) round (fun pos rest closes => ?_) ?_
    · cases items with
      | nil => exact ended rest closes
      | cons b items =>
        rw [List.flatMap_cons, Lexer.placed_append, List.append_assoc]
        exact next b (by simp) _ _
    · rintro _ ⟨b, rfl, holds⟩
      refine (ih others starts between last (before.push b)).mono ?_
      rintro _ ⟨as, rfl, all⟩
      exact ⟨b :: as, by simp, .cons holds all⟩

theorem Restores.many (each : ∀ a ∈ items, Restores scope depth (pieces a) (follows a) item (R a))
    (starts : ∀ a ∈ items, ∃ l ls, lexemes (pieces a) = l :: ls ∧ l.kind ≠ .symbol close ∧
      l.kind ≠ .endOfFile)
    (between : Between follows pieces items)
    (last : ∀ a ∈ items, ∀ rest, firstKind rest = .symbol close → follows a rest) :
    Restores scope depth (items.flatMap pieces) (firstKind · = .symbol close)
      (Parser.many close item) fun as => List.Forall₂ R items as := by
  have whole : Restores scope depth (items.flatMap pieces ++ []) (firstKind · = .symbol close)
      (Parser.loop (manyRound close fun _ => item) #[]) fun found => List.Forall₂ R items found.toList := by
    refine (restoresRounds_many each starts between last #[]).loop (fun _ _ closes => closes) ?_
    rintro _ ⟨as, rfl, all⟩ pos s rest _ tokens closes
    have here : (scope.stream.get s.cursor).kind = .symbol close :=
      (Scope.kind_of_remaining tokens).trans closes
    refine ⟨.done as.toArray, ?_, as.toArray, rfl, by simpa using all⟩
    rw [manyRound, bind_of_ok current_apply, here]
    simp
  rw [List.append_nil] at whole
  exact whole.map fun _ holds => holds

def separated : List (List Piece) → List Piece
  | [] => []
  | [ps] => ps
  | ps :: others => ps ++ (Lexeme.spaced [.symbol .comma] ++ separated others)

theorem Restores.commaSeparated (other : close ≠ .comma)
    (each : ∀ a ∈ items, Restores scope depth (pieces a)
      (fun rest => firstKind rest = .symbol .comma ∨ firstKind rest = .symbol close) item (R a))
    (starts : ∀ a ∈ items, ∃ l ls, lexemes (pieces a) = l :: ls ∧ l.kind ≠ .symbol close) :
    Restores scope depth (separated (items.map pieces)) (firstKind · = .symbol close)
      (Parser.commaSeparated close item) fun as => List.Forall₂ R items as := by
  -- What a round reads of an item, before it looks for a comma.
  have item_read {a : ι} (member : a ∈ items) (before : Array α) {qs : List Piece}
      {after : List Token → Prop} {P : ForInStep (Array α) → Prop}
      (next : ∀ pos rest, after rest → firstKind (Lexer.placed pos qs ++ rest) = .symbol .comma ∨
        firstKind (Lexer.placed pos qs ++ rest) = .symbol close)
      (h : ∀ b, R a b → Restores scope depth qs after (do
        if ← eatSymbol .comma then return .yield (before.push b)
        else return .done (before.push b)) P) :
      Restores scope depth (pieces a ++ qs) after (commaRound close (fun _ => item) before) P := by
    obtain ⟨l, ls, same, open_⟩ := starts a member
    have first : lexemes (pieces a ++ qs) = l :: (ls ++ lexemes qs) := by
      rw [lexemes_append, same]
      rfl
    refine .isSymbol first ?_
    rw [beq_eq_false_iff_ne.mpr open_]
    exact (each a member).bind next h
  have rounds : RestoresEnd scope depth (separated (items.map pieces))
      (firstKind · = .symbol close) (commaRound close fun _ => item) #[]
      fun found => ∃ as : List α, found = #[] ++ as.toArray ∧ List.Forall₂ R items as := by
    generalize #[] = before
    induction items generalizing before with
    | nil =>
      refine .last ?_
      refine .look (R := (· = true)) (fun pos s rest tokens closes => ⟨_, isSymbol_apply _, ?_⟩) ?_
      · rw [Scope.kind_of_remaining tokens]
        exact beq_iff_eq.mpr closes
      · rintro _ rfl
        exact .pure ⟨before, rfl, [], by simp, .nil⟩
    | cons a items ih =>
      have ih := ih (fun b member => each b (.tail a member))
        (fun b member => starts b (.tail a member)) fun member => item_read (.tail a member)
      cases items with
      | nil =>
        have read : Restores scope depth (pieces a ++ []) (firstKind · = .symbol close)
            (commaRound close (fun _ => item) before) fun next => ∃ found, next = .done found ∧
              ∃ as : List α, found = before ++ as.toArray ∧ List.Forall₂ R [a] as := by
          refine item_read List.mem_cons_self before (fun _ _ closes => .inr closes) fun b holds =>
            .eat_false (by simp) (fun pos rest closes => ?_)
              (.pure ⟨_, rfl, [b], by simp, .cons holds .nil⟩)
          rw [show firstKind (Lexer.placed pos [] ++ rest) = _ from closes]
          simpa using other
        rw [List.append_nil] at read
        exact .last read
      | cons b items =>
        have comma : lexemes (Lexeme.spaced [.symbol .comma]) = [.symbol .comma] := lexemes_spaced
        have first : Restores scope depth (pieces a ++ Lexeme.spaced [.symbol .comma])
            (fun _ => True) (commaRound close (fun _ => item) before) fun next =>
              ∃ found, next = .yield found ∧ ∃ c, found = before.push c ∧ R a c := by
          refine item_read List.mem_cons_self before
            (fun pos rest _ => .inl (firstKind_placed comma pos rest)) fun c holds => ?_
          have eaten : Restores scope depth (Lexeme.spaced [.symbol .comma] ++ []) (fun _ => True)
              (do
                if ← eatSymbol .comma then return ForInStep.yield (before.push c)
                else return ForInStep.done (before.push c)) fun next =>
                ∃ found, next = .yield found ∧ ∃ c, found = before.push c ∧ R a c :=
            .eat_true comma rfl (by simp) (.pure ⟨_, rfl, c, rfl, holds⟩)
          rwa [List.append_nil] at eaten
        change RestoresEnd scope depth (pieces a ++ (Lexeme.spaced [.symbol .comma] ++ _)) _ _ _ _
        rw [← List.append_assoc]
        refine .cons ?_ first (fun _ _ _ => trivial) ?_
        · obtain ⟨l, ls, same, -⟩ := starts a List.mem_cons_self
          simp [same]
        · rintro _ ⟨c, rfl, holds⟩
          refine (ih (before.push c)).mono ?_
          rintro _ ⟨as, rfl, all⟩
          exact ⟨c :: as, by simp, .cons holds all⟩
  refine rounds.loop.map ?_
  rintro _ ⟨as, rfl, all⟩
  simpa using all

end

end Parser

end PulseSyntax
