import PulseSyntax.Proofs.Parser.Reads
import PulseSyntax.Expr.Parser

/-!
How parsers proceed. A parser that succeeds has passed no end of the file, one that fails still
stands inside the sequence, and the depth is as before. While no more tokens are left than levels
none runs out of levels, since each level is entered after a token has been read.
-/

namespace PulseSyntax

open PulseSyntax.Parser ParserState

def Cause.isTooDeep : Cause → Bool
  | tooDeep _ => true
  | _ => false

theorem Parser.exists_failAtToken {α : Type} {cause : Token → Cause}
    (shallow : ∀ t, (cause t).isTooDeep = false) (scope : Scope) (s : ParserState) :
    ∃ e, (failAtToken cause : Parser α) scope s = .error e s ∧ e.cause.isTooDeep = false := by
  refine ⟨_, rfl, ?_⟩
  dsimp only
  split
  · rfl
  · exact shallow _

theorem Parser.exists_failWanted {α : Type} (what : Wanted) (scope : Scope) (s : ParserState) :
    ∃ e, (failWanted what : Parser α) scope s = .error e s ∧ e.cause.isTooDeep = false :=
  exists_failAtToken (fun _ => rfl) scope s

/-- As many levels are left as tokens, but for `slack` of them. -/
structure Scope.HasRoom (scope : Scope) (slack : Nat) (s : ParserState) : Prop where
  inside : s.cursor < scope.stream.size
  levels : scope.stream.size + s.depth ≤ scope.options.maxDepth + s.cursor + slack

theorem Scope.HasRoom.mono {scope : Scope} {slack slack' : Nat} {s : ParserState}
    (room : scope.HasRoom slack s) (le : slack ≤ slack') : scope.HasRoom slack' s :=
  ⟨room.inside, Nat.le_trans room.levels (Nat.add_le_add_left le _)⟩

namespace ParserState.Reaches

variable {scope : Scope} {s t : ParserState}

theorem inside_of_inside (h : Reaches scope s t) (inside : s.cursor < scope.stream.size) :
    t.cursor < scope.stream.size := by
  rcases Nat.eq_or_lt_of_le h.cursor with same | progress
  · exact same ▸ inside
  · exact h.lt_size progress

theorem hasRoom (h : Reaches scope s t) {slack slack' : Nat} (room : scope.HasRoom slack s)
    (le : s.cursor + slack ≤ t.cursor + slack') : scope.HasRoom slack' t where
  inside := h.inside_of_inside room.inside
  levels := by
    have same := h.depth
    have levels := room.levels
    omega

end ParserState.Reaches

/-- The tokens that parsers read and the depth at which they stand, with a condition under which
    the texts among the tokens need no more levels than there are. -/
structure Course where
  scope : Scope
  depth : Nat
  fits : Prop

namespace Parser

variable {α σ : Type}

def manyRound (close : Symbol) (item : Array α → Parser α) (items : Array α) :
    Parser (ForInStep (Array α)) := do
  let kind := (← current).kind
  if kind == .symbol close || kind == .endOfFile then return .done items
  else return .yield (items.push (← item items))

theorem manyAfter_eq (close : Symbol) (item : Array α → Parser α) :
    manyAfter close item = do return (← loop (manyRound close item) #[]).toList := rfl

def separatorRound (_ : Unit) : Parser (ForInStep Unit) := do
  let kind := (← current).kind
  if kind == .symbol .comma || kind == .symbol .semicolon then
    let _ ← advance
    return .yield ()
  else return .done ()

theorem skipSeparators_eq : skipSeparators = loop separatorRound () := rfl

def entryRound (add : σ → Parser σ) (state : σ) : Parser (ForInStep σ) := do
  let kind := (← current).kind
  if kind == .symbol .closeBrace || kind == .endOfFile then return .done state
  else return .yield (← entry (add state))

theorem foldEntries_eq (add : σ → Parser σ) (state : σ) :
    foldEntries add state = loop (entryRound add) state := rfl

/-- One more token of a block that is not read, in which so many braces are open. -/
def rawToken (depth : Nat) : Parser (ForInStep Nat) := do
  let kind := (← current).kind
  if kind == .endOfFile then
    let _ ← expectSymbol .closeBrace
    return .done depth
  else if kind == .symbol .closeBrace && depth == 0 then return .done depth
  else
    let _ ← advance
    if kind == .symbol .openBrace then return .yield (depth + 1)
    else if kind == .symbol .closeBrace then return .yield (depth - 1)
    else return .yield depth

theorem rawBlock_eq : rawBlock = do
    let _ ← expectSymbol .openBrace
    let start ← cursor
    let _ ← loop rawToken 0
    let stop ← cursor
    let _ ← advance
    return ⟨start, stop⟩ := rfl

/-- What a repetition answers after as many rounds as it takes, each from a token of the sequence on. -/
inductive Repeats (step : σ → Parser (ForInStep σ)) (scope : Scope) :
    σ → ParserState → Reply σ → Prop
  | done {a b : σ} {s t : ParserState} (inside : s.cursor < scope.stream.size)
    (round : step a scope s = .ok (.done b) t) : Repeats step scope a s (.ok b t)
  | failed {a : σ} {s t : ParserState} {e : ParseError} (inside : s.cursor < scope.stream.size)
    (round : step a scope s = .error e t) : Repeats step scope a s (.error e t)
  | yield {a b : σ} {s t : ParserState} {reply : Reply σ} (inside : s.cursor < scope.stream.size)
    (round : step a scope s = .ok (.yield b) t) (rest : Repeats step scope b t reply) :
    Repeats step scope a s reply

end Parser

namespace Course

variable {α β σ : Type}

def deeper (c : Course) : Course := { c with depth := c.depth + 1 }

/-- Where a parser may stop with an error. -/
structure Stops (c : Course) (slack : Nat) (s : ParserState) (e : ParseError) (t : ParserState) :
    Prop where
  depth : t.depth = s.depth
  inside : s.cursor < c.scope.stream.size → t.cursor < c.scope.stream.size
  shallow : c.fits → c.scope.HasRoom slack s → e.cause.isTooDeep = false

theorem Stops.refl {c : Course} {slack : Nat} {s : ParserState} {e : ParseError}
    (shallow : c.fits → e.cause.isTooDeep = false) : c.Stops slack s e s :=
  ⟨rfl, id, fun fits _ => shallow fits⟩

/-- A parser reads on from a state. With an answer that `moved` holds of it has read a token. It
    does not run out of levels if there is room for all tokens but `slack`. -/
structure Proceeds (c : Course) (slack : Nat) (moved : α → Prop) (p : Parser α) (s : ParserState) :
    Prop where
  reaches : ∀ {a t}, p c.scope s = .ok a t → Reaches c.scope s t
  progress : ∀ {a t}, p c.scope s = .ok a t → moved a → s.cursor < t.cursor
  stops : ∀ {e t}, p c.scope s = .error e t → c.Stops slack s e t

/-- From every state of the course the parser reads on. -/
def Steady (c : Course) (p : Parser α) : Prop :=
  ∀ s, s.depth = c.depth → c.Proceeds 0 (fun _ => False) p s

/-- The parser reads a token at least. -/
def Moving (c : Course) (p : Parser α) : Prop :=
  ∀ s, s.depth = c.depth → c.Proceeds 0 (fun _ => True) p s

/-- The parser reads a token at least, before it enters a level. -/
def Starting (c : Course) (p : Parser α) : Prop :=
  ∀ s, s.depth = c.depth → c.Proceeds 1 (fun _ => True) p s

/-- A round after which a repetition goes on has read a token. -/
def Turning (c : Course) (step : σ → Parser (ForInStep σ)) : Prop :=
  ∀ a s, s.depth = c.depth → c.Proceeds 0 (fun next => ∃ b, next = .yield b) (step a) s

/-- To extend a value takes a token. -/
def Extending (c : Course) (step : α → Parser (Option α)) : Prop :=
  ∀ a s, s.depth = c.depth → c.Proceeds 0 (fun next => ∃ b, next = some b) (step a) s

variable {c : Course}

namespace Proceeds

variable {slack slack' : Nat} {moved moved' : α → Prop} {p : Parser α} {s : ParserState}

theorem mono (h : c.Proceeds slack moved p s) (le : slack' ≤ slack)
    (imp : ∀ a, moved' a → moved a) : c.Proceeds slack' moved' p s where
  reaches := h.reaches
  progress ok holds := h.progress ok (imp _ holds)
  stops failed := {
    depth := (h.stops failed).depth
    inside := (h.stops failed).inside
    shallow := fun fits room => (h.stops failed).shallow fits (room.mono le) }

/-- What follows need not read a token if the parser before it has, and only then may the parser
    before it have used up slack. -/
theorem bind {f : α → Parser β} {then_ : β → Prop} (h : c.Proceeds slack moved p s)
    (at_depth : s.depth = c.depth)
    (hf : ∀ a t, t.depth = c.depth → p c.scope s = .ok a t →
      (moved a ∧ slack ≤ 1 ∧ c.Proceeds 0 (fun _ => False) (f a) t) ∨
        (slack = 0 ∧ c.Proceeds 0 then_ (f a) t)) :
    c.Proceeds slack then_ (p >>= f) s := by
  have onward {a : α} {t : ParserState} (first : p c.scope s = .ok a t) :=
    hf a t ((h.reaches first).depth.trans at_depth) first
  refine ⟨?_, ?_, ?_⟩
  · intro b u ok
    obtain ⟨a, t, first, rest⟩ := bind_eq_ok.mp ok
    have reaches := h.reaches first
    rcases onward first with ⟨_, _, after⟩ | ⟨_, after⟩ <;> exact reaches.trans (after.reaches rest)
  · intro b u ok holds
    obtain ⟨a, t, first, rest⟩ := bind_eq_ok.mp ok
    rcases onward first with ⟨has, _, after⟩ | ⟨_, after⟩
    · exact Nat.lt_of_lt_of_le (h.progress first has) (after.reaches rest).cursor
    · exact Nat.lt_of_le_of_lt (h.reaches first).cursor (after.progress rest holds)
  · intro e u failed
    rw [bind_apply] at failed
    cases first : p c.scope s with
    | error e' t =>
      rw [first] at failed
      cases failed
      exact h.stops first
    | ok a t =>
      rw [first] at failed
      have reaches := h.reaches first
      obtain ⟨stops, le⟩ : c.Stops 0 t e u ∧ s.cursor + slack ≤ t.cursor := by
        rcases onward first with ⟨has, le, after⟩ | ⟨rfl, after⟩
        · exact ⟨after.stops failed, Nat.le_trans (Nat.add_le_add_left le _) (h.progress first has)⟩
        · exact ⟨after.stops failed, reaches.cursor⟩
      exact ⟨stops.depth.trans reaches.depth, fun inside => stops.inside
        (reaches.inside_of_inside inside), fun fits room => stops.shallow fits
          (reaches.hasRoom room le)⟩

theorem congr {q : Parser α} (h : c.Proceeds slack moved q s)
    (same : p c.scope s = q c.scope s) : c.Proceeds slack moved p s :=
  ⟨fun ok => h.reaches (same ▸ ok), fun ok => h.progress (same ▸ ok),
    fun failed => h.stops (same ▸ failed)⟩

theorem reading {f : α → Parser β} {then_ : β → Prop} {a : α} {t : ParserState}
    (h : p c.scope s = .ok a t) (reaches : Reaches c.scope s t)
    (hf : c.Proceeds slack then_ (f a) t) : c.Proceeds slack then_ (p >>= f) s := by
  have same : (p >>= f) c.scope s = f a c.scope t := bind_of_ok h
  refine ⟨fun ok => reaches.trans (hf.reaches (same ▸ ok)), fun ok holds => ?_, fun failed => ?_⟩
  · exact Nat.lt_of_le_of_lt reaches.cursor (hf.progress (same ▸ ok) holds)
  · have stops := hf.stops (same ▸ failed)
    exact ⟨stops.depth.trans reaches.depth, fun inside => stops.inside
      (reaches.inside_of_inside inside), fun fits room => stops.shallow fits
        (reaches.hasRoom room (Nat.add_le_add_right reaches.cursor _))⟩

theorem look {f : α → Parser β} {then_ : β → Prop} {a : α} (h : p c.scope s = .ok a s)
    (hf : c.Proceeds slack then_ (f a) s) : c.Proceeds slack then_ (p >>= f) s :=
  hf.congr (bind_of_ok h)

theorem atCurrent {f : Token → Parser β} {then_ : β → Prop}
    (h : c.Proceeds slack then_ (f (c.scope.stream.get s.cursor)) s) :
    c.Proceeds slack then_ (current >>= f) s := look current_apply h

theorem atPeek {f : Token → Parser β} {then_ : β → Prop}
    (h : c.Proceeds slack then_ (f (c.scope.stream.get (s.cursor + 1))) s) :
    c.Proceeds slack then_ (peek >>= f) s := look peek_apply h

theorem atIs {kind : TokenKind} {f : Bool → Parser β} {then_ : β → Prop}
    (h : c.Proceeds slack then_ (f ((c.scope.stream.get s.cursor).kind == kind)) s) :
    c.Proceeds slack then_ (is kind >>= f) s := look is_apply h

theorem pure {a : α} (unmoved : ¬ moved a) : c.Proceeds slack moved (pure a) s where
  reaches ok := by cases ok; exact .refl _ _
  progress ok holds := by cases ok; exact absurd holds unmoved
  stops failed := nomatch failed

theorem done {a : α} :
    c.Proceeds slack (fun next => ∃ b, next = .yield b) (Pure.pure (ForInStep.done a)) s :=
  .pure nofun

theorem none : c.Proceeds slack (fun next => ∃ b : α, next = some b) (Pure.pure none) s :=
  .pure nofun

theorem error {e : ParseError} (h : p c.scope s = .error e s)
    (shallow : c.fits → e.cause.isTooDeep = false) : c.Proceeds slack moved p s where
  reaches ok := by rw [h] at ok; cases ok
  progress ok := by rw [h] at ok; cases ok
  stops failed := by
    rw [h] at failed
    cases failed
    exact .refl shallow

theorem fail {cause : Cause} (shallow : cause.isTooDeep = false) :
    c.Proceeds slack moved (fail cause) s := error (fail_apply cause) fun _ => shallow

theorem failAtToken {cause : Token → Cause} (shallow : ∀ t, (cause t).isTooDeep = false) :
    c.Proceeds slack moved (failAtToken cause) s :=
  let ⟨_, answer, shallow⟩ := exists_failAtToken shallow c.scope s
  error answer fun _ => shallow

theorem failWanted {what : Wanted} : c.Proceeds slack moved (failWanted what) s :=
  failAtToken fun _ => rfl

theorem ite {condition : Prop} [Decidable condition] {q : Parser α}
    (h : condition → c.Proceeds slack moved p s) (h' : ¬ condition → c.Proceeds slack moved q s) :
    c.Proceeds slack moved (if condition then p else q) s := by
  split
  · exact h ‹_›
  · exact h' ‹_›

theorem of_reaches {a : α} {t : ParserState} (h : p c.scope s = .ok a t)
    (reaches : Reaches c.scope s t) (progress : moved a → s.cursor < t.cursor) :
    c.Proceeds slack moved p s where
  reaches ok := by
    rw [h] at ok
    cases ok
    exact reaches
  progress ok := by
    rw [h] at ok
    cases ok
    exact progress
  stops failed := by rw [h] at failed; cases failed

theorem advance {moved : Token → Prop}
    (he : (c.scope.stream.get s.cursor).kind ≠ .endOfFile) :
    c.Proceeds slack moved advance s :=
  of_reaches (advance_apply he) (.ahead_one he) fun _ => Nat.lt_succ_self _

end Proceeds

section

variable {p q : Parser α} {f : α → Parser β}

theorem Starting.moving (h : c.Starting p) : c.Moving p := fun s hs =>
  (h s hs).mono (Nat.zero_le _) fun _ => id

theorem Moving.steady (h : c.Moving p) : c.Steady p := fun s hs =>
  (h s hs).mono (Nat.le_refl _) fun _ => False.elim

theorem Starting.steady (h : c.Starting p) : c.Steady p := h.moving.steady

theorem Proceeds.andThen {slack : Nat} {moved : β → Prop} {s : ParserState}
    (h : c.Proceeds slack (fun _ => True) p s) (hs : s.depth = c.depth) (le : slack ≤ 1)
    (hf : ∀ a, c.Steady (f a)) : c.Proceeds slack moved (p >>= f) s :=
  h.bind hs fun a t ht _ => .inl ⟨trivial, le, hf a t ht⟩

theorem Proceeds.token {slack : Nat} {moved : β → Prop} {f : Token → Parser β} {s : ParserState}
    (he : (c.scope.stream.get s.cursor).kind ≠ .endOfFile) (hs : s.depth = c.depth)
    (le : slack ≤ 1) (hf : c.Steady (f (c.scope.stream.get s.cursor))) :
    c.Proceeds slack moved (Parser.advance >>= f) s := by
  have read : c.Proceeds slack (fun _ => True) Parser.advance s := .advance he
  refine read.bind hs fun a t ht ok => ?_
  rw [advance_apply he] at ok
  cases ok
  exact .inl ⟨trivial, le, hf _ ht⟩

theorem Moving.proceeds {moved : β → Prop} {s : ParserState} (h : c.Moving p)
    (hs : s.depth = c.depth) (hf : ∀ a, c.Steady (f a)) : c.Proceeds 0 moved (p >>= f) s :=
  (h s hs).andThen hs (Nat.zero_le _) hf

theorem Steady.bind (h : c.Steady p) (hf : ∀ a, c.Steady (f a)) : c.Steady (p >>= f) :=
  fun s hs => (h s hs).bind hs fun a t ht _ => .inr ⟨rfl, hf a t ht⟩

theorem Steady.andMoving (h : c.Steady p) (hf : ∀ a, c.Moving (f a)) : c.Moving (p >>= f) :=
  fun s hs => (h s hs).bind hs fun a t ht _ => .inr ⟨rfl, hf a t ht⟩

theorem Moving.bind (h : c.Moving p) (hf : ∀ a, c.Steady (f a)) : c.Moving (p >>= f) :=
  fun _ hs => h.proceeds hs hf

theorem Starting.bind (h : c.Starting p) (hf : ∀ a, c.Steady (f a)) : c.Starting (p >>= f) :=
  fun s hs => (h s hs).andThen hs (Nat.le_refl _) hf

theorem Steady.map (f : α → β) (h : c.Steady p) : c.Steady (f <$> p) :=
  h.bind fun _ => fun _ _ => .pure id

theorem Steady.ite {condition : Prop} [Decidable condition] (h : c.Steady p) (h' : c.Steady q) :
    c.Steady (if condition then p else q) := by
  split
  · exact h
  · exact h'

theorem Starting.ite {condition : Prop} [Decidable condition] (h : c.Starting p)
    (h' : c.Starting q) : c.Starting (if condition then p else q) := fun s hs =>
  .ite (fun _ => h s hs) fun _ => h' s hs

theorem Starting.afterPeek {f : Token → Parser β} (hf : ∀ t, c.Starting (f t)) :
    c.Starting (peek >>= f) := fun s hs => .atPeek (hf _ s hs)

theorem steady_pure (a : α) : c.Steady (pure a) := fun _ _ => .pure id

theorem steady_look (h : ∀ s, ∃ a, p c.scope s = .ok a s) : c.Steady p := fun s _ =>
  let ⟨_, ok⟩ := h s
  .of_reaches ok (.refl _ _) False.elim

theorem steady_scope : c.Steady Parser.scope := steady_look fun _ => ⟨_, rfl⟩

theorem steady_cursor : c.Steady cursor := steady_look fun _ => ⟨_, rfl⟩

theorem steady_current : c.Steady current := steady_look fun _ => ⟨_, rfl⟩

theorem steady_peek : c.Steady peek := steady_look fun _ => ⟨_, rfl⟩

theorem steady_previous : c.Steady previous := steady_look fun _ => ⟨_, rfl⟩

theorem steady_is (kind : TokenKind) : c.Steady (is kind) := steady_look fun _ => ⟨_, rfl⟩

theorem starting_fail {cause : Cause} (shallow : cause.isTooDeep = false) :
    c.Starting (fail cause : Parser α) := fun _ _ => .fail shallow

theorem starting_failAtToken {cause : Token → Cause} (shallow : ∀ t, (cause t).isTooDeep = false) :
    c.Starting (failAtToken cause : Parser α) := fun _ _ => .failAtToken shallow

theorem starting_failWanted (what : Wanted) : c.Starting (failWanted what : Parser α) :=
  starting_failAtToken fun _ => rfl

theorem steady_fail {cause : Cause} (shallow : cause.isTooDeep = false) :
    c.Steady (fail cause : Parser α) := (starting_fail shallow).steady

theorem starting_failAt {cause : Cause} (place : Place) (shallow : cause.isTooDeep = false) :
    c.Starting (failAt place cause : Parser α) := fun _ _ => .error rfl fun _ => shallow

theorem steady_advance : c.Steady advance := by
  intro s _
  by_cases he : (c.scope.stream.get s.cursor).kind = .endOfFile
  · have same : Parser.advance c.scope s = .ok (c.scope.stream.get s.cursor) s := by
      simp only [Parser.advance, he, ↓reduceIte]
    exact .of_reaches same (.refl _ _) False.elim
  · exact .advance he

theorem proceeds_eat {kind : TokenKind} (he : kind ≠ .endOfFile) (s : ParserState) :
    c.Proceeds 0 (· = true) (eat kind) s := by
  by_cases here : (c.scope.stream.get s.cursor).kind = kind
  · have read : eat kind c.scope s = .ok true (s.ahead 1) := by rw [eat_apply he, if_pos here]
    exact .of_reaches read (.ahead_one (here ▸ he)) fun _ => Nat.lt_succ_self _
  · have passed : eat kind c.scope s = .ok false s := by rw [eat_apply he, if_neg here]
    exact .of_reaches passed (.refl _ _) nofun

theorem steady_eat {kind : TokenKind} (he : kind ≠ .endOfFile) : c.Steady (eat kind) := fun s _ =>
  (proceeds_eat he s).mono (Nat.le_refl _) fun _ => False.elim

theorem steady_eatSymbol (sign : Symbol) : c.Steady (eatSymbol sign) := steady_eat (by simp)

theorem starting_expect {kind : TokenKind} (he : kind ≠ .endOfFile) : c.Starting (expect kind) := by
  intro s _
  refine .atIs (.ite (fun here => .advance ?_) fun _ => .failAtToken fun _ => rfl)
  rw [beq_iff_eq.mp here]
  exact he

theorem starting_expectSymbol (sign : Symbol) : c.Starting (expectSymbol sign) :=
  starting_expect (by simp)

theorem starting_expectKeyword (word : Keyword) : c.Starting (expectKeyword word) :=
  starting_expect (by simp)

theorem isName_ne {kind : TokenKind} (h : kind.isName = true) : kind ≠ .endOfFile := by
  rintro rfl
  cases h

theorem starting_expectName : c.Starting expectName := fun s hs =>
  .look rfl (.ite (fun name => .advance (isName_ne name)) fun _ => starting_expect (by simp) s hs)

theorem starting_expectStringOr {kind : TokenKind} (he : kind ≠ .endOfFile) :
    c.Starting (expectStringOr kind) := by
  intro s hs
  refine .atIs (.ite (fun here => .advance ?_) fun _ => starting_expect he s hs)
  rw [beq_iff_eq.mp here]
  nofun

theorem Starting.deeper (h : c.deeper.Starting p) : c.Moving (Parser.deeper p) := by
  intro s hs
  have inner := h { s with depth := s.depth + 1 } (congrArg (· + 1) hs)
  refine ⟨?_, ?_, ?_⟩
  · intro a t ok
    obtain ⟨u, first, rfl⟩ := deeper_eq_ok.mp ok
    have reaches := inner.reaches first
    have entered : u.depth = s.depth + 1 := reaches.depth
    exact ⟨by simp [entered], reaches.cursor, reaches.inside⟩
  · intro a t ok _
    obtain ⟨u, first, rfl⟩ := deeper_eq_ok.mp ok
    have progress := inner.progress first trivial
    exact progress
  · intro e t failed
    unfold Parser.deeper at failed
    cases first : p c.scope { s with depth := s.depth + 1 } with
    | ok a u => rw [first] at failed; cases failed
    | error e' u =>
      rw [first] at failed
      cases failed
      have stops := inner.stops first
      have entered : u.depth = s.depth + 1 := stops.depth
      have below (room : c.scope.HasRoom 0 s) :
          c.scope.HasRoom 1 { s with depth := s.depth + 1 } := ⟨room.inside, by
        have levels := room.levels
        simp only
        omega⟩
      exact ⟨by simp [entered], stops.inside, fun fits room => stops.shallow fits (below room)⟩

theorem moving_failTooDeep (none : c.fits → c.scope.options.maxDepth ≤ c.depth) :
    c.Moving (failTooDeep : Parser α) := by
  intro s hs
  refine ⟨fun ok => absurd ok fail_ne_ok, fun ok => absurd ok fail_ne_ok, fun failed => ?_⟩
  cases failed
  refine ⟨rfl, id, fun fits room => ?_⟩
  have inside := room.inside
  have levels := room.levels
  have out := none fits
  omega

end

section

variable {step : σ → Parser (ForInStep σ)}

theorem Turning.iterate (h : c.Turning step) (rounds : Nat) (a : σ) :
    c.Steady (iterate step rounds a) := by
  induction rounds generalizing a with
  | zero => exact steady_pure a
  | succ rounds ih =>
    refine Steady.bind (fun s hs => (h a s hs).mono (Nat.le_refl _) fun _ => False.elim) fun next => ?_
    cases next with
    | done b => exact steady_pure b
    | yield b => exact ih b

theorem Turning.steady (h : c.Turning step) (a : σ) : c.Steady (loop step a) := fun s hs =>
  (h.iterate (c.scope.stream.size - s.cursor + 1) a s hs).congr rfl

theorem Turning.repeats (h : c.Turning step) {a : σ} {s : ParserState} (hs : s.depth = c.depth)
    (inside : s.cursor < c.scope.stream.size) :
    Repeats step c.scope a s (loop step a c.scope s) := by
  suffices enough : ∀ rounds, c.scope.stream.size - s.cursor < rounds →
      Repeats step c.scope a s (Parser.iterate step rounds a c.scope s) from
    enough _ (Nat.lt_succ_self _)
  intro rounds
  induction rounds generalizing a s with
  | zero => exact fun none => absurd none (Nat.not_lt_zero _)
  | succ rounds ih =>
    intro enough
    rw [Parser.iterate, bind_apply]
    cases answer : step a c.scope s with
    | error e t => exact .failed inside answer
    | ok next t =>
      cases next with
      | done b => exact .done inside answer
      | yield b =>
        have reaches := (h a s hs).reaches answer
        have progress := (h a s hs).progress answer ⟨b, rfl⟩
        have further := reaches.lt_size progress
        exact .yield inside answer (ih (reaches.depth.trans hs) further (by omega))

theorem Extending.turning {step : α → Parser (Option α)} (h : c.Extending step) :
    c.Turning (chainRound step) := by
  intro a s hs
  refine (h a s hs).bind hs fun next t _ _ => ?_
  cases next with
  | none => exact .inr ⟨rfl, .pure nofun⟩
  | some b => exact .inl ⟨⟨b, rfl⟩, Nat.zero_le _, .pure id⟩

theorem Extending.steady {step : α → Parser (Option α)} (h : c.Extending step) (first : α) :
    c.Steady (chain step first) := h.turning.steady first

end

section

variable {item : Array α → Parser α} {close : Symbol}

theorem turning_commaRound (h : ∀ before, c.Steady (item before)) :
    c.Turning (commaRound close item) := by
  intro items s hs
  refine .atIs (.ite (fun _ => .done) fun _ => ?_)
  refine (h items s hs).bind hs fun a t ht _ => .inr ⟨rfl, ?_⟩
  refine (proceeds_eat (by simp) t).bind ht fun eaten u _ _ => ?_
  cases eaten with
  | true => exact .inl ⟨rfl, Nat.zero_le _, .pure id⟩
  | false => exact .inr ⟨rfl, .done⟩

theorem steady_commaSeparatedAfter (h : ∀ before, c.Steady (item before)) :
    c.Steady (commaSeparatedAfter close item) :=
  ((turning_commaRound h).steady _).bind fun _ => steady_pure _

theorem steady_commaSeparated {item : Parser α} (h : c.Steady item) :
    c.Steady (commaSeparated close item) := steady_commaSeparatedAfter fun _ => h

theorem turning_manyRound (h : ∀ before, c.Moving (item before)) :
    c.Turning (manyRound close item) := fun items _ hs =>
  .atCurrent (.ite (fun _ => .done) fun _ => (h items).proceeds hs fun _ => steady_pure _)

theorem steady_manyAfter (h : ∀ before, c.Moving (item before)) : c.Steady (manyAfter close item) :=
  ((turning_manyRound h).steady _).bind fun _ => steady_pure _

theorem turning_separatorRound : c.Turning separatorRound := by
  intro _ s hs
  refine .atCurrent (.ite (fun separator => ?_) fun _ => .done)
  have inside : (c.scope.stream.get s.cursor).kind ≠ .endOfFile := by
    intro atEnd
    simp [atEnd] at separator
  exact .token inside hs (Nat.zero_le _) (steady_pure _)

theorem steady_skipSeparators : c.Steady skipSeparators := turning_separatorRound.steady ()

theorem Moving.entry {item : Parser α} (h : c.Moving item) : c.Moving (entry item) :=
  h.bind fun _ => steady_skipSeparators.bind fun _ => steady_pure _

theorem turning_entryRound {add : σ → Parser σ} (h : ∀ state, c.Moving (add state)) :
    c.Turning (entryRound add) := fun state _ hs =>
  .atCurrent (.ite (fun _ => .done) fun _ => (h state).entry.proceeds hs fun _ => steady_pure _)

theorem steady_foldEntries {add : σ → Parser σ} (h : ∀ state, c.Moving (add state)) (state : σ) :
    c.Steady (foldEntries add state) := (turning_entryRound h).steady state

theorem Moving.braced {item : Parser α} (h : c.Moving item) : c.Starting (braced item) :=
  (starting_expectSymbol _).bind fun _ => (steady_manyAfter fun _ => h).bind fun _ =>
    (starting_expectSymbol _).steady.bind fun _ => steady_pure _

theorem turning_rawToken : c.Turning rawToken := by
  intro depth s hs
  refine .atCurrent (.ite (fun _ => ?_) fun inside => .ite (fun _ => .done) fun _ => ?_)
  · exact (starting_expectSymbol _).moving.proceeds hs fun _ => steady_pure _
  · refine .token (by simpa using inside) hs (Nat.zero_le _) ?_
    exact .ite (steady_pure _) (.ite (steady_pure _) (steady_pure _))

theorem starting_rawBlock : c.Starting rawBlock :=
  (starting_expectSymbol _).bind fun _ => steady_cursor.bind fun _ =>
    (turning_rawToken.steady 0).bind fun _ => steady_cursor.bind fun _ =>
      steady_advance.bind fun _ => steady_pure _

end

end Course

end PulseSyntax
