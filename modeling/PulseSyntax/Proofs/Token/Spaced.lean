import PulseSyntax.Proofs.Expr.Grammar
import PulseSyntax.Proofs.Expr.Print
import PulseSyntax.Proofs.Token.Seam

namespace PulseSyntax

namespace Lexer

def placed : Position → List Piece → List Token
  | _, [] => []
  | p, piece :: rest => (piece.token? p).toList ++ placed (p.after piece.text) rest

@[simp] theorem placed_nil (p : Position) : placed p [] = [] := rfl

theorem placed_append (p : Position) (ps qs : List Piece) :
    placed p (ps ++ qs) = placed p ps ++ placed (p.after (textOf ps)) qs := by
  induction ps generalizing p with
  | nil => rfl
  | cons piece ps ih =>
    rw [List.cons_append, placed, placed, ih, textOf_cons, Position.after_append, List.append_assoc]

theorem place_eq_placed (p : Position) (ps : List Piece) :
    place p ps = placed p ps ++ [.endOfFile (p.after (textOf ps))] := by
  induction ps generalizing p with
  | nil => rfl
  | cons piece ps ih =>
    rw [place, placed, ih, textOf_cons, Position.after_append, List.append_assoc]

theorem mem_of_mem_placed {p : Position} {ps : List Piece} {t : Token} (member : t ∈ placed p ps) :
    .lexeme t.kind t.value t.raw.toList ∈ ps := by
  induction ps generalizing p with
  | nil => cases member
  | cons piece ps ih =>
    rcases List.mem_append.mp member with own | later
    · cases piece with
      | trivia => cases own
      | lexeme kind value text =>
        obtain rfl := List.mem_singleton.mp own
        rw [String.toList_ofList]
        exact List.mem_cons_self
    · exact List.mem_cons_of_mem _ (ih later)

theorem exists_of_mem_placed {p : Position} {ps : List Piece} {t : Token}
    (member : t ∈ placed p ps) : ∃ text, .lexeme t.kind t.value text ∈ ps :=
  ⟨_, mem_of_mem_placed member⟩

end Lexer

def Piece.space : Piece := .trivia [' ']

namespace Lexeme

def piece (l : Lexeme) : Piece := .lexeme l.kind l.value l.raw.toList

def token (l : Lexeme) (p : Position) : Token := ⟨l.kind, l.value, l.raw, p.place l.raw.toList⟩

def spaced (ls : List Lexeme) : List Piece := ls.flatMap fun l => [l.piece, .space]

@[simp] theorem text_piece (l : Lexeme) : l.piece.text = l.raw.toList := rfl

@[simp] theorem token?_piece (l : Lexeme) (p : Position) : l.piece.token? p = some (l.token p) := by
  simp [piece, Piece.token?, token]

@[simp] theorem spaced_nil : spaced [] = [] := rfl

@[simp] theorem spaced_cons (l : Lexeme) (ls : List Lexeme) :
    spaced (l :: ls) = l.piece :: .space :: spaced ls := rfl

@[simp] theorem spaced_append (ls ms : List Lexeme) : spaced (ls ++ ms) = spaced ls ++ spaced ms :=
  List.flatMap_append

/-- The position after a lexeme and its space. -/
def stop (l : Lexeme) (p : Position) : Position := p.after (l.raw.toList ++ [' '])

theorem placed_cons (p : Position) (l : Lexeme) (ls : List Lexeme) :
    Lexer.placed p (spaced (l :: ls)) = l.token p :: Lexer.placed (l.stop p) (spaced ls) := by
  rw [spaced_cons, Lexer.placed, Lexer.placed, token?_piece, stop, Position.after_append]
  rfl

def glued (ls : List Lexeme) : List Piece := ls.map piece ++ [.space]

end Lexeme

/-- The lexeme of a token, with all that is written. -/
def Token.own (t : Token) : Lexeme := ⟨t.kind, t.value, t.raw⟩

def Piece.lexeme? : Piece → Option Lexeme
  | trivia _ => none
  | lexeme kind value text => some ⟨kind, value, String.ofList text⟩

namespace Lexeme

@[simp] theorem lexeme?_piece (l : Lexeme) : l.piece.lexeme? = some l := by
  simp [piece, Piece.lexeme?]

theorem placed_map_own (p : Position) (ps : List Piece) :
    (Lexer.placed p ps).map Token.own = ps.filterMap Piece.lexeme? := by
  induction ps generalizing p with
  | nil => rfl
  | cons piece ps ih =>
    rw [Lexer.placed, List.map_append, ih]
    cases piece <;> rfl

@[simp] theorem filterMap_spaced (ls : List Lexeme) :
    (spaced ls).filterMap Piece.lexeme? = ls := by
  induction ls with
  | nil => rfl
  | cons l ls ih =>
    rw [spaced_cons, List.filterMap_cons_some (lexeme?_piece l),
      List.filterMap_cons_none rfl, ih]

@[simp] theorem filterMap_glued (ls : List Lexeme) :
    (glued ls).filterMap Piece.lexeme? = ls := by
  have own : Piece.lexeme? ∘ piece = some := funext lexeme?_piece
  rw [glued, List.filterMap_append, List.filterMap_map, own, List.filterMap_some]
  exact List.append_nil ls

def IsStable (among : Context → Prop) (l : Lexeme) : Prop :=
  ∃ c cs, l.raw.toList = c :: cs ∧
    ∀ ctx rest, among ctx → Lexer.scan ctx c (cs ++ ' ' :: rest) = [l.piece]

theorem IsStable.mono {among within : Context → Prop} {l : Lexeme} (h : l.IsStable among)
    (le : ∀ ctx, within ctx → among ctx) : l.IsStable within := by
  obtain ⟨c, cs, raw, reads⟩ := h
  exact ⟨c, cs, raw, fun ctx rest here => reads ctx rest (le ctx here)⟩

end Lexeme

namespace Context

/-- The lexer reads markup, with some parentheses open, and has not just read an `@`. -/
structure InView (parens : Nat) (ctx : Context) : Prop where
  block : ctx.block = some .view
  parens : ctx.parens = parens
  noAt : ctx.lastKind ≠ some (.symbol .atSign)

/-- The lexer reads neither a style block nor the start of a node. -/
structure InCode (ctx : Context) : Prop where
  noStyle : ctx.inStyle = false
  noMarkup : ctx.inMarkup = false

variable {parens : Nat} {ctx : Context}

theorem InView.noStyle (h : ctx.InView parens) : ctx.inStyle = false := by
  rw [inStyle, h.block]
  rfl

theorem InView.inMarkup (h : ctx.InView 0) : ctx.inMarkup := by
  simp [Context.inMarkup, h.block, h.parens, h.noAt]

theorem InView.inCode (h : ctx.InView (parens + 1)) : ctx.InCode :=
  ⟨h.noStyle, by simp [Context.inMarkup, h.parens]⟩

theorem InView.exists_blocks (h : ctx.InView parens) :
    ∃ outer, ctx.blocks = some .view :: outer := by
  have block := h.block
  cases blocks : ctx.blocks with
  | nil => simp [Context.block, blocks] at block
  | cons first outer =>
    simp only [Context.block, blocks, List.head?_cons, Option.join_some] at block
    exact ⟨outer, by rw [block]⟩

def past (ctx : Context) (l : Lexeme) : Context := (ctx.after l.piece).after .space

theorem past_blocks (ctx : Context) (l : Lexeme) :
    (ctx.past l).blocks = (ctx.afterKind l.kind).blocks := rfl

theorem past_parens (ctx : Context) (l : Lexeme) :
    (ctx.past l).parens = (ctx.afterKind l.kind).parens := rfl

@[simp] theorem past_lastKind (ctx : Context) (l : Lexeme) : (ctx.past l).lastKind = some l.kind :=
  afterKind_lastKind ctx l.kind

end Context

namespace Lexer

/-- In a context the lexer reads the pieces back, whatever follows them, and goes on in the next. -/
def Scans (ctx : Context) (ps : List Piece) (next : Context) : Prop :=
  ∀ p rest, place p (pieces ctx 0 (textOf ps ++ rest)) =
    placed p ps ++ place (p.after (textOf ps)) (pieces next 0 rest)

theorem Scans.nil (ctx : Context) : Scans ctx [] ctx := fun _ _ => rfl

theorem Scans.append {ctx middle next : Context} {ps qs : List Piece} (h : Scans ctx ps middle)
    (h' : Scans middle qs next) : Scans ctx (ps ++ qs) next := by
  intro p rest
  rw [textOf_append, List.append_assoc, h, h', placed_append, Position.after_append,
    List.append_assoc]

/-- The lexer reads the pieces of a view back, whatever follows them. Some parentheses are open
    before them and some after them. -/
def ReadsBack (before after : Nat) (ps : List Piece) : Prop :=
  ∀ ctx : Context, ctx.InView before →
    ∃ next : Context, next.InView after ∧ next.blocks = ctx.blocks ∧
      ∀ p rest, place p (pieces ctx 0 (textOf ps ++ rest)) =
        placed p ps ++ place (p.after (textOf ps)) (pieces next 0 rest)

namespace ReadsBack

variable {m n k : Nat} {ps qs : List Piece}

theorem nil : ReadsBack n n [] := fun ctx here => ⟨ctx, here, rfl, Scans.nil ctx⟩

theorem append (h : ReadsBack m n ps) (h' : ReadsBack n k qs) : ReadsBack m k (ps ++ qs) := by
  intro ctx here
  obtain ⟨middle, there, blocks, first⟩ := h ctx here
  obtain ⟨next, beyond, blocks', second⟩ := h' middle there
  exact ⟨next, beyond, blocks'.trans blocks, Scans.append first second⟩

end ReadsBack

theorem isBlank_space : Text.isBlank ' ' := by decide

theorem place_scan {ctx : Context} {ps : List Piece} {c : Char} {cs rest : List Char}
    (text : textOf ps = c :: cs) (scanned : scan ctx c (cs ++ ' ' :: rest) = ps) (p : Position) :
    place p (pieces ctx 0 (textOf (ps ++ [.space]) ++ rest)) =
      placed p (ps ++ [.space]) ++ place (p.after (textOf (ps ++ [.space])))
        (pieces ((ps ++ [Piece.space]).foldl Context.after ctx) 0 rest) := by
  have whole : c :: (cs ++ ' ' :: rest) = textOf (scan ctx c (cs ++ ' ' :: rest)) ++ ' ' :: rest := by
    rw [scanned, text, List.cons_append]
  have split : textOf (ps ++ [.space]) ++ rest = c :: (cs ++ ' ' :: rest) := by
    rw [textOf_append, text]
    simp [Piece.space]
  rw [split, pieces_scan whole, scanned, place_append, place_blank isBlank_space, placed_append,
    textOf_append, Position.after_append, List.foldl_append, place_eq_placed, List.dropLast_concat]
  simp [placed, Piece.space, Piece.token?]

variable {n : Nat} {l : Lexeme} {ps : List Piece}

theorem scans_lexeme {among : Context → Prop} (stable : l.IsStable among) {ctx : Context}
    (here : among ctx) : Scans ctx (Lexeme.spaced [l]) (ctx.past l) := by
  obtain ⟨c, cs, raw, scanned⟩ := stable
  have text : textOf [l.piece] = c :: cs := by
    rw [textOf_cons, Lexeme.text_piece, raw, textOf_nil, List.append_nil]
  exact fun p rest => place_scan text (scanned ctx rest here) p

theorem readsBack_lexeme {m : Nat} (stable : l.IsStable (Context.InView n))
    (noBrace : l.kind.isBrace = false) (noAt : l.kind ≠ .symbol .atSign)
    (parens : ∀ ctx : Context, ctx.parens = n → (ctx.afterKind l.kind).parens = m) :
    ReadsBack n m (Lexeme.spaced [l]) := by
  intro ctx here
  have blocks : (ctx.past l).blocks = ctx.blocks := ctx.afterKind_blocks_of_plain noBrace
  refine ⟨ctx.past l, ⟨?_, parens ctx here.parens, ?_⟩, blocks, scans_lexeme stable here⟩
  · rw [Context.block, blocks]
    exact here.block
  · rw [Context.past_lastKind]
    exact fun same => noAt (Option.some.inj same)

theorem startsSelector_space (ctx : Context) (c : Char) (rest : List Char) :
    startsSelector ctx c (' ' :: rest) = false := by
  have noStart : Word.isSelectorStart ' ' = false := by decide
  simp [startsSelector, noStart]

theorem stable_symbol {sign : Symbol} (other : sign ≠ .atSign) :
    (Lexeme.symbol sign).IsStable (·.inStyle = false) := by
  cases sign
  case atSign => exact absurd rfl other
  case dot =>
    refine ⟨_, _, rfl, fun ctx rest _ => ?_⟩
    have plain := startsSelector_space ctx '.' rest
    change scanDot ctx (' ' :: rest) = _
    rw [scanDot, plain]
    rfl
  case hash =>
    refine ⟨_, _, rfl, fun ctx rest noStyle => ?_⟩
    have plain := startsSelector_space ctx '#' rest
    change scanHash ctx (' ' :: rest) = _
    rw [scanHash, noStyle, plain]
    rfl
  all_goals
    refine ⟨_, _, rfl, fun ctx rest noStyle => ?_⟩
    simp only [scan, scanToken, noStyle]
    rfl

namespace ReadsBack

variable {opening close : Lexeme}

theorem parens (h : ReadsBack (n + 1) (n + 1) ps) (ho : opening.kind = .symbol .openParen)
    (hc : close.kind = .symbol .closeParen) (so : opening.IsStable (Context.InView n))
    (sc : close.IsStable (Context.InView (n + 1))) :
    ReadsBack n n (Lexeme.spaced [opening] ++ ps ++ Lexeme.spaced [close]) := by
  have first : ReadsBack n (n + 1) (Lexeme.spaced [opening]) :=
    readsBack_lexeme so (by rw [ho]; rfl) (by simp [ho]) fun ctx same => by
      rw [ho]
      exact congrArg (· + 1) same
  have last : ReadsBack (n + 1) n (Lexeme.spaced [close]) :=
    readsBack_lexeme sc (by rw [hc]; rfl) (by simp [hc]) fun ctx same => by
      rw [hc]
      exact congrArg (· - 1) same
  exact (first.append h).append last

theorem braces (h : ReadsBack n n ps) (ho : opening.kind = .symbol .openBrace)
    (hc : close.kind = .symbol .closeBrace) (so : opening.IsStable (Context.InView n))
    (sc : close.IsStable (Context.InView n)) :
    ReadsBack n n (Lexeme.spaced [opening] ++ ps ++ Lexeme.spaced [close]) := by
  intro ctx here
  obtain ⟨outer, blocks⟩ := here.exists_blocks
  have opened : ctx.opened = some .view := by rw [Context.opened, blocks]
  have inner : (ctx.past opening).InView n := by
    refine ⟨?_, ?_, by simp [ho]⟩
    · rw [Context.block, Context.past_blocks, ho]
      exact opened
    · rw [Context.past_parens, ho]
      simp [Context.afterKind, blocks, here.parens]
  obtain ⟨next, last, same, inside⟩ := h _ inner
  have closed : (next.past close).blocks = ctx.blocks := by
    rw [Context.past_blocks, hc]
    rw [Context.past_blocks, ho] at same
    exact congrArg List.tail same
  refine ⟨next.past close, ⟨?_, ?_, by simp [hc]⟩, closed,
    ((scans_lexeme so here).append inside).append (scans_lexeme sc last)⟩
  · rw [Context.block, closed]
    exact here.block
  · rw [Context.past_parens, hc]
    exact last.parens

end ReadsBack

end Lexer

namespace Lexer

variable {n : Nat}

theorem afterKind_parens_of_plain {kind : TokenKind} (noBracket : Expr.bracketStep kind = none)
    (ctx : Context) : (ctx.afterKind kind).parens = ctx.parens := by
  unfold Context.afterKind
  split <;> first | rfl | cases noBracket

theorem not_isBrace_of_plain {kind : TokenKind} (noBracket : Expr.bracketStep kind = none) :
    kind.isBrace = false := by
  unfold TokenKind.isBrace
  split <;> first | rfl | cases noBracket

theorem readsBack_code {kinds : List TokenKind} (pairs : InPairs kinds) {ls : List Lexeme}
    (same : ls.map Lexeme.kind = kinds) (stable : ∀ l ∈ ls, l.IsStable Context.InCode) :
    ReadsBack (n + 1) (n + 1) (Lexeme.spaced ls) := by
  have inView {l : Lexeme} {m : Nat} (h : l.IsStable Context.InCode) :
      l.IsStable (Context.InView (m + 1)) := h.mono fun _ here => here.inCode
  induction pairs generalizing ls n with
  | nil =>
    rw [List.map_eq_nil_iff.mp same]
    exact .nil
  | plain noBracket noAt _ _ ih =>
    obtain ⟨l, ls, rfl, rfl, rest⟩ := List.map_eq_cons_iff.mp same
    obtain ⟨first, others⟩ := List.forall_mem_cons.mp stable
    have one : ReadsBack (n + 1) (n + 1) (Lexeme.spaced [l]) :=
      readsBack_lexeme (inView first) (not_isBrace_of_plain noBracket) noAt fun ctx open_ =>
        (afterKind_parens_of_plain noBracket ctx).trans open_
    exact one.append (ih rest others)
  | @enclosed open_ close _ _ pair _ _ inside ih =>
    obtain ⟨before, after, rfl, first, last⟩ := List.map_eq_append_iff.mp same
    obtain ⟨opening, before, rfl, ho, own⟩ := List.map_eq_cons_iff.mp first
    obtain ⟨closing, after, rfl, hc, rest⟩ := List.map_eq_cons_iff.mp last
    simp only [List.cons_append, List.mem_cons, List.mem_append] at stable
    have so := stable opening (.inl rfl)
    have sc := stable closing (.inr (.inr (.inl rfl)))
    have own (n : Nat) : ReadsBack (n + 1) (n + 1) (Lexeme.spaced before) :=
      inside own fun l member => stable l (.inr (.inl member))
    have group : ReadsBack (n + 1) (n + 1)
        (Lexeme.spaced [opening] ++ Lexeme.spaced before ++ Lexeme.spaced [closing]) := by
      unfold Symbol.closing? at pair
      split at pair <;> cases pair
      · exact (own (n + 1)).parens ho hc (inView so) (inView sc)
      · have bracket {l : Lexeme} (h : l.IsStable Context.InCode) {sign : Symbol}
            (kind : l.kind = .symbol sign) (sides : sign = .openBracket ∨ sign = .closeBracket) :
            ReadsBack (n + 1) (n + 1) (Lexeme.spaced [l]) := by
          refine readsBack_lexeme (inView h) ?_ ?_ fun ctx open_ => ?_ <;> rw [kind] <;>
            rcases sides with rfl | rfl
          all_goals first | rfl | decide | exact open_
        exact ((bracket so ho (.inl rfl)).append (own n)).append (bracket sc hc (.inr rfl))
      · exact (own n).braces ho hc (inView so) (inView sc)
    have more := ih rest (n := n) fun l member => stable l (.inr (.inr (.inr member)))
    simpa using group.append more

end Lexer

end PulseSyntax
