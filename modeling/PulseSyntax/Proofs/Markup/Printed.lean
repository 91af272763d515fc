import PulseSyntax.Proofs.Expr.Writable
import PulseSyntax.Proofs.Markup.Escapes
import PulseSyntax.Proofs.Parser.Restores
import PulseSyntax.Proofs.Program.Unplaced
import PulseSyntax.Proofs.Token.Compound

namespace PulseSyntax

open PulseSyntax.Parser PulseSyntax.Piece Lexeme Lexer Word

namespace Lexeme

def inParens (ps : List Piece) : List Piece :=
  spaced [symbol .openParen] ++ (ps ++ spaced [symbol .closeParen])

def inBraces (ps : List Piece) : List Piece :=
  spaced [symbol .openBrace] ++ (ps ++ spaced [symbol .closeBrace])

def hyphenated (words : List (List Char)) : List Lexeme :=
  (words.map fun text => word (String.ofList text)).intersperse (symbol .minus)

def bare? (text : String) : Option Lexeme :=
  if ["true", "false", "null"].contains text then some (word text)
  else match text.toList with
  | [] => none
  | c :: cs =>
    match Lexer.scan .initial c (cs ++ [' ']) with
    | [.lexeme kind value own] =>
      if (kind == .number || kind == .bigInt) && own == c :: cs then some ⟨kind, value, text⟩
      else none
    | _ => none

end Lexeme

namespace Expr

def printed (e : Expr) : List PulseSyntax.Piece := spaced (e.spell false true)

def printedArguments (es : List Expr) : List PulseSyntax.Piece :=
  inParens (separated (es.map printed))

end Expr

namespace TextNode

def quoted (t : TextNode) : Lexeme :=
  ⟨.string, .text (String.ofList ((t.parts.flatMap TextPart.segments).flatMap TextSegment.value)),
    String.ofList (Quoted.enclose '"' (t.parts.flatMap TextPart.written))⟩

def alone (t : TextNode) : Lexeme :=
  match t.parts with
  | [.literal text] => (bare? text).getD t.quoted
  | _ => t.quoted

end TextNode

def printedName (name : String) : List Piece := glued (hyphenated (name.toList.splitOn '-'))

namespace ElementProp

def printed : ElementProp → List Piece
  | named name value shorthand _ =>
    printedName name ++
      if shorthand then [] else spaced [symbol .eq] ++ inBraces value.printed
  | spread argument _ => spaced [symbol .spread] ++ argument.printed

def printedList (props : List ElementProp) : List Piece :=
  if props.isEmpty then [] else inParens (separated (props.map printed))

end ElementProp

def printedHead (name : String) (modifiers : List String) : List Piece :=
  glued (head name.toList (modifiers.map String.toList))

def EventHandler.printed (h : EventHandler) : List Piece :=
  printedHead h.event h.modifiers ++
    match h.handler with
    | none => []
    | some e => Expr.printedArguments [e]

def A11yAttribute.printed (a : A11yAttribute) : List Piece :=
  printedName a.name ++ (spaced [symbol .eq] ++ a.value.printed)

def Directive.printed : Directive → List Piece
  | event handler _ => handler.printed
  | model modifiers binding _ =>
    printedHead "model" (modifiers.map ModelModifier.name) ++ inParens binding.printed
  | a11y attributes _ =>
    printedHead "a11y" [] ++ inParens (separated (attributes.map A11yAttribute.printed))
  | live priority _ => printedHead "live" [] ++ inParens (spaced [quoted priority])
  | focusTrap none _ => printedHead "focusTrap" []
  | focusTrap (some e) _ => printedHead "focusTrap" [] ++ inParens e.printed
  | srOnly _ => printedHead "srOnly" []
  | boundary target _ => printedHead target.name []

def Directive.isBoundary : Directive → Bool
  | boundary .. => true
  | _ => false

namespace LoopHead

def printedIndex (h : LoopHead) : List Piece :=
  match h.index with
  | none => []
  | some index => spaced [symbol .comma, word index]

def printedKey (h : LoopHead) : List Piece :=
  match h.key with
  | none => []
  | some key => spaced [selector "key".toList] ++ inParens key.printed

def printed (h : LoopHead) : List Piece :=
  printedHead h.keyword.name [] ++
    (inParens (spaced [word h.item] ++ (h.printedIndex ++
      (spaced [word h.iteration.name] ++ h.iterable.printed))) ++ h.printedKey)

end LoopHead

namespace MarkupNode

/-- The directives and texts of an element end with a boundary, of which a block would be. -/
def endsOpen (directives : List Directive) (texts : List TextNode) : Bool :=
  texts.isEmpty && directives.getLast?.any Directive.isBoundary

def isOpen : MarkupNode → Bool
  | element _ _ directives texts _ _ => endsOpen directives texts
  | _ => false

mutual

def printed : MarkupNode → List Piece
  | element tag props directives texts children _ =>
    spaced [.selector tag.toList] ++
      (ElementProp.printedList props ++
        (directives.flatMap Directive.printed ++
          (spaced (texts.map TextNode.quoted) ++
            if endsOpen directives texts then [] else inBraces (printedAll children))))
  | text t => spaced [t.alone]
  | conditional condition consequent branches alternate _ =>
    printedHead "if" [] ++
      (inParens condition.printed ++
        (inBraces (printedAll consequent) ++
          (printedBranches branches ++ printedAlternate alternate)))
  | loop head body _ => head.printed ++ inBraces (printedAll body)
  | event handler children _ => handler.printed ++ inBraces (printedAll children)
  | boundary target children _ => printedHead target.name [] ++ inBraces (printedAll children)
  | slot name fallback _ =>
    spaced (word "slot" :: (name.map Lexeme.quoted).toList) ++ inBraces (printedAll fallback)
  | link path options caption children _ =>
    printedHead "link" [] ++
      (Expr.printedArguments (path :: options.toList) ++
        (spaced (caption.map TextNode.quoted).toList ++ inBraces (printedAll children)))
  | outlet container _ =>
    printedHead "outlet" [] ++
      match container with
      | none => []
      | some e => Expr.printedArguments [e]
  | navigate path options _ =>
    printedHead "navigate" [] ++ Expr.printedArguments (path :: options.toList)
  | back _ => printedHead "back" []
  | forward _ => printedHead "forward" []

def printedAll : List MarkupNode → List Piece
  | [] => []
  | node :: nodes => printed node ++ printedAll nodes

def printedBranch : Branch → List Piece
  | .mk condition consequent _ =>
    printedHead "else-if" [] ++ (inParens condition.printed ++ inBraces (printedAll consequent))

def printedBranches : List Branch → List Piece
  | [] => []
  | branch :: branches => printedBranch branch ++ printedBranches branches

def printedAlternate : Option (List MarkupNode) → List Piece
  | none => []
  | some nodes => printedHead "else" [] ++ inBraces (printedAll nodes)

end

theorem printedAll_eq (nodes : List MarkupNode) : printedAll nodes = nodes.flatMap printed := by
  induction nodes with
  | nil => rfl
  | cons node nodes ih => rw [printedAll, ih, List.flatMap_cons]

theorem printedBranches_eq (branches : List Branch) :
    printedBranches branches = branches.flatMap printedBranch := by
  induction branches with
  | nil => rfl
  | cons branch branches ih => rw [printedBranches, ih, List.flatMap_cons]

end MarkupNode

def ViewBlock.printed (block : ViewBlock) : List Piece :=
  spaced [word "view"] ++ inBraces (block.children.flatMap MarkupNode.printed)

def TextNode.content (t : TextNode) : TextNode := { t.unplaced id with raw := "" }

namespace MarkupNode

mutual

def content : MarkupNode → MarkupNode
  | element tag props directives texts children _ =>
    element tag (props.map (ElementProp.unplaced id)) (directives.map (Directive.unplaced id))
      (texts.map TextNode.content) (contentAll children) default
  | text t => text t.content
  | conditional condition consequent branches alternate _ =>
    conditional (condition.erased id) (contentAll consequent) (contentBranches branches)
      (contentAlternate alternate) default
  | loop head body _ => loop (head.unplaced id) (contentAll body) default
  | event handler children _ => event (handler.unplaced id) (contentAll children) default
  | boundary target children _ => boundary target (contentAll children) default
  | slot name fallback _ => slot name (contentAll fallback) default
  | link path options caption children _ =>
    link (path.erased id) (options.map (Expr.erased id)) (caption.map TextNode.content)
      (contentAll children) default
  | outlet container _ => outlet (container.map (Expr.erased id)) default
  | navigate path options _ => navigate (path.erased id) (options.map (Expr.erased id)) default
  | back _ => back default
  | forward _ => forward default

def contentAll : List MarkupNode → List MarkupNode
  | [] => []
  | node :: nodes => content node :: contentAll nodes

def contentBranch : Branch → Branch
  | .mk condition consequent _ => .mk (condition.erased id) (contentAll consequent) default

def contentBranches : List Branch → List Branch
  | [] => []
  | branch :: branches => contentBranch branch :: contentBranches branches

def contentAlternate : Option (List MarkupNode) → Option (List MarkupNode)
  | none => none
  | some nodes => some (contentAll nodes)

end

theorem contentAll_eq (nodes : List MarkupNode) : contentAll nodes = nodes.map content := by
  induction nodes with
  | nil => rfl
  | cons node nodes ih => rw [contentAll, ih, List.map_cons]

theorem contentBranches_eq (branches : List Branch) :
    contentBranches branches = branches.map contentBranch := by
  induction branches with
  | nil => rfl
  | cons branch branches ih => rw [contentBranches, ih, List.map_cons]

theorem contentAlternate_eq (alternate : Option (List MarkupNode)) :
    contentAlternate alternate = alternate.map contentAll := by
  cases alternate <;> rfl

end MarkupNode

def ViewBlock.content (block : ViewBlock) : ViewBlock :=
  ⟨block.children.map MarkupNode.content, default⟩

namespace Lexeme

theorem stable_keyword {name : String} {k : Keyword} (h : IsWord name.toList)
    (found : Keyword.ofSpelling? name = some k) : (word name).IsStable (·.inStyle = false) := by
  obtain ⟨c, cs, text, start, parts⟩ := h
  refine ⟨c, cs, by rw [raw_word, text], fun ctx rest noStyle => ?_⟩
  have spelled : String.ofList (c :: cs) = name := by rw [← text, String.ofList_toList]
  rw [scan_start ctx start, scan_word noStyle parts not_isPart_space, spelled, piece_word, found, text]

theorem bare?_stable {text : String} {l : Lexeme} (h : bare? text = some l) :
    l.IsStable (·.inStyle = false) ∧ l.raw = text ∧
      l.kind ∈ [.number, .bigInt, .keyword .true_, .keyword .false_, .keyword .null] := by
  unfold bare? at h
  split at h
  · next listed =>
    cases h
    simp only [List.contains_eq_mem, List.mem_cons, List.not_mem_nil, or_false,
      decide_eq_true_eq] at listed
    rcases listed with rfl | rfl | rfl
    all_goals
      exact ⟨stable_keyword ⟨_, _, rfl, by decide, by simp; decide⟩ rfl, rfl, by decide⟩
  · split at h
    · cases h
    next c cs same =>
    split at h
    next kind value own scanned =>
      split at h
      next number =>
        simp only [Bool.and_eq_true, Bool.or_eq_true, beq_iff_eq] at number
        obtain ⟨isNumber, rfl⟩ := number
        cases h
        have found := scanned_scan .initial c (cs ++ [' '])
        generalize Lexer.scan .initial c (cs ++ [' ']) = ps at scanned found
        have stable (starts : Numeral.startsHere c (cs ++ [' ']))
            (counts : Numeral.scan c (cs ++ [' ']) = [.lexeme kind value (c :: cs)]) :
            (⟨kind, value, text⟩ : Lexeme).IsStable fun _ => True := by
          rw [← String.ofList_toList (s := text), same]
          exact stable_number starts counts
        have kind_of {kind' : TokenKind} {value' : TokenValue} {own : List Char}
            (same : [Piece.lexeme kind' value' own] = [.lexeme kind value (c :: cs)]) :
            kind' = kind := (Piece.lexeme.inj (List.cons.inj same).1).1
        cases found with
        | number starts =>
          refine ⟨(stable starts scanned).mono fun _ _ => trivial, rfl, ?_⟩
          rcases isNumber with rfl | rfl <;> simp
        | bare h =>
          subst scanned
          rcases isNumber with rfl | rfl <;> simp at h
        | symbol =>
          unfold scanSymbol at scanned
          split at scanned <;> rw [← kind_of scanned] at isNumber <;> simp at isNumber
        | string =>
          unfold Quoted.scanString at scanned
          split at scanned <;> rw [← kind_of scanned] at isNumber <;> simp at isNumber
        | template =>
          unfold Quoted.scanTemplate at scanned
          split at scanned <;> rw [← kind_of scanned] at isNumber <;> simp at isNumber
      · cases h
    · cases h

end Lexeme

theorem Context.InView.after_plain {ctx : Context} {n : Nat} {l : Lexeme} (here : ctx.InView n)
    (noBracket : Expr.bracketStep l.kind = none) (noAt : l.kind ≠ .symbol .atSign) :
    (ctx.after l.piece).InView n ∧ (ctx.after l.piece).blocks = ctx.blocks := by
  have blocks : (ctx.after l.piece).blocks = ctx.blocks :=
    ctx.afterKind_blocks_of_plain (not_isBrace_of_plain noBracket)
  refine ⟨⟨?_, (afterKind_parens_of_plain noBracket ctx).trans here.parens, fun same => noAt ?_⟩, blocks⟩
  · rw [Context.block, blocks]
    exact here.block
  · exact Option.some.inj ((ctx.afterKind_lastKind l.kind).symm.trans same)

namespace Lexer

theorem Scans.touching {ctx next : Context} {l : Lexeme} {ps : List Piece} {c : Char}
    {own : List Char} (raw : l.raw.toList = c :: own)
    (scanned : ∀ rest, Lexer.scan ctx c (own ++ (textOf ps ++ rest)) = [l.piece])
    (h : Scans (ctx.after l.piece) ps next) : Scans ctx (l.piece :: ps) next := by
  intro p rest
  have piece : l.piece = .lexeme l.kind l.value (c :: own) := by rw [Lexeme.piece, raw]
  have first := place_lexeme (piece ▸ scanned rest) p
  rw [textOf_cons, text_piece, raw, List.append_assoc, first, ← piece, h, placed, token?_piece,
    Option.toList_some, List.singleton_append, List.cons_append, text_piece, raw,
    Position.after_append]
  rw [Lexeme.token, raw, ← raw, String.ofList_toList]

theorem scan_hyphen {ctx : Context} (noStyle : ctx.inStyle = false) {c : Char} (start : isStart c)
    (rest : List Char) : Lexer.scan ctx '-' (c :: rest) = [(Lexeme.symbol .minus).piece] := by
  have other (d : Char) (noStart : isStart d = false) : c ≠ d := by
    rintro rfl
    rw [noStart] at start
    cases start
  have found : Symbol.longest? ('-' :: c :: rest) = some .minus := by
    have minus : c ≠ '-' := other '-' (by decide)
    have eq : c ≠ '=' := other '=' (by decide)
    simp [Symbol.longest?, Symbol.all, Symbol.startsText, Symbol.spelling, minus.symm, eq.symm]
  have scanned : Lexer.scan ctx '-' (c :: rest) = scanSymbol '-' (c :: rest) := by
    simp only [Lexer.scan, scanToken, noStyle]
    rfl
  rw [scanned, scanSymbol, found]
  rfl

namespace ReadsBack

variable {n : Nat} {ps : List Piece}

theorem inParens (h : ReadsBack (n + 1) (n + 1) ps) : ReadsBack n n (inParens ps) := by
  have group : ReadsBack n n
      (spaced [.symbol .openParen] ++ ps ++ spaced [.symbol .closeParen]) := h.parens rfl rfl
    ((stable_symbol (by decide)).mono fun _ here => here.noStyle)
    ((stable_symbol (by decide)).mono fun _ here => here.noStyle)
  rwa [List.append_assoc] at group

theorem inBraces (h : ReadsBack n n ps) : ReadsBack n n (inBraces ps) := by
  have group : ReadsBack n n
      (spaced [.symbol .openBrace] ++ ps ++ spaced [.symbol .closeBrace]) := h.braces rfl rfl
    ((stable_symbol (by decide)).mono fun _ here => here.noStyle)
    ((stable_symbol (by decide)).mono fun _ here => here.noStyle)
  rwa [List.append_assoc] at group

theorem plain {l : Lexeme} (stable : l.IsStable (Context.InView n))
    (noBracket : Expr.bracketStep l.kind = none) (noAt : l.kind ≠ .symbol .atSign) :
    ReadsBack n n (spaced [l]) :=
  readsBack_lexeme stable (not_isBrace_of_plain noBracket) noAt fun ctx open_ =>
    (afterKind_parens_of_plain noBracket ctx).trans open_

theorem word {name : String} (h : IsWord name.toList) :
    ReadsBack (n + 1) (n + 1) (spaced [Lexeme.word name]) := by
  refine plain ((stable_word h).mono fun _ here => here.inCode) ?_ ?_
  all_goals rcases kind_word name with kind | ⟨k, kind⟩ <;> simp [kind, Expr.bracketStep]

theorem symbol {sign : Symbol} (noBracket : Expr.bracketStep (.symbol sign) = none)
    (noAt : sign ≠ .atSign) : ReadsBack n n (spaced [Lexeme.symbol sign]) :=
  plain ((stable_symbol noAt).mono fun _ here => here.noStyle) noBracket (by simpa [Lexeme.symbol])

theorem hyphenated_cons (name next : List Char) (names : List (List Char)) :
    glued (Lexeme.hyphenated (name :: next :: names)) =
      (Lexeme.word (String.ofList name)).piece :: (Lexeme.symbol .minus).piece ::
        glued (Lexeme.hyphenated (next :: names)) := rfl

theorem exists_textOf_hyphenated {name : List Char} (h : IsWord name) (names : List (List Char)) :
    ∃ c more, textOf (glued (Lexeme.hyphenated (name :: names))) = c :: more ∧ isStart c := by
  obtain ⟨c, cs, rfl, start, -⟩ := h
  have first (ps : List Piece) : textOf ((Lexeme.word (String.ofList (c :: cs))).piece :: ps) =
      c :: (cs ++ textOf ps) := by
    rw [textOf_cons, text_piece, raw_word, String.toList_ofList, List.cons_append]
  cases names with
  | nil => exact ⟨c, _, first _, start⟩
  | cons next names => exact ⟨c, _, first _, start⟩

theorem separated {items : List (List Piece)} (each : ∀ ps ∈ items, ReadsBack n n ps) :
    ReadsBack n n (separated items) := by
  induction items with
  | nil => exact nil
  | cons ps items ih =>
    obtain ⟨first, others⟩ := List.forall_mem_cons.mp each
    cases items with
    | nil => exact first
    | cons next items => exact first.append ((symbol rfl (by decide)).append (ih others))

theorem hyphenated {names : List (List Char)} (words : ∀ name ∈ names, IsWord name)
    (some : names ≠ []) : ReadsBack (n + 1) (n + 1) (glued (Lexeme.hyphenated names)) := by
  have spelled {name : List Char} (h : IsWord name) : IsWord (String.ofList name).toList := by
    rwa [String.toList_ofList]
  induction names with
  | nil => exact absurd rfl some
  | cons name names ih =>
    obtain ⟨first, others⟩ := List.forall_mem_cons.mp words
    cases names with
    | nil => exact word (spelled first)
    | cons next names =>
      intro ctx here
      have wordKind : Expr.bracketStep (Lexeme.word (String.ofList name)).kind = none ∧
          (Lexeme.word (String.ofList name)).kind ≠ .symbol .atSign := by
        rcases kind_word (String.ofList name) with kind | ⟨k, kind⟩ <;>
          simp [kind, Expr.bracketStep]
      obtain ⟨second, blocks⟩ := here.after_plain wordKind.1 wordKind.2
      obtain ⟨third, blocks'⟩ :=
        second.after_plain (show Expr.bracketStep (Lexeme.symbol .minus).kind = none from rfl)
          (by decide)
      obtain ⟨last, beyond, blocks'', scans⟩ := ih others (by simp) _ third
      obtain ⟨c, cs, rfl, start, parts⟩ := first
      obtain ⟨d, more, text, start'⟩ := exists_textOf_hyphenated (others next (by simp)) names
      have whole (rest : List Char) : textOf ((Lexeme.symbol .minus).piece ::
          glued (Lexeme.hyphenated (next :: names))) ++ rest = '-' :: d :: (more ++ rest) := by
        rw [textOf_cons, text]
        rfl
      refine ⟨last, beyond, blocks''.trans (blocks'.trans blocks), ?_⟩
      rw [hyphenated_cons]
      have hyphen : Scans (ctx.after (Lexeme.word (String.ofList (c :: cs))).piece)
          ((Lexeme.symbol .minus).piece :: glued (Lexeme.hyphenated (next :: names))) last := by
        refine Scans.touching rfl (fun rest => ?_) scans
        rw [text]
        exact scan_hyphen second.noStyle start' _
      refine Scans.touching (by rw [raw_word, String.toList_ofList]) (fun rest => ?_) hyphen
      rw [whole, scan_start ctx start, scan_word here.noStyle parts (by decide), piece_word,
        String.toList_ofList]
      cases Keyword.ofSpelling? (String.ofList (c :: cs)) with
      | some k => rfl
      | none => simp [here.inCode.noMarkup]

end ReadsBack

end Lexer

namespace Expr

variable {levels n : Nat} {e : Expr} {es : List Expr}

theorem Spells.readsBack {phrase : Phrase} {text : List Lexeme} (h : Spells levels phrase text) :
    Lexer.ReadsBack (n + 1) (n + 1) (spaced text) := by
  obtain ⟨_, -, derives⟩ := h.derives .origin
  have own : (placed .origin (spaced text)).map Token.own = text :=
    (placed_map_own _ _).trans (filterMap_spaced text)
  have kinds : text.map Lexeme.kind = (placed .origin (spaced text)).map Token.kind := by
    rw [← congrArg (List.map Lexeme.kind) own, List.map_map]
    rfl
  exact readsBack_code derives.inPairs kinds fun l member => (h.code l member).stable

/-- The expression can be written within so many levels. -/
def IsWritableIn (levels : Nat) (e : Expr) : Prop := e.IsWritable ∧ e.room false true < levels

def ItemIsWritableIn (levels : Nat) (e : Expr) : Prop :=
  e.unspread.IsWritable ∧ e.room false true < levels

theorem IsWritableIn.readsBack (h : e.IsWritableIn levels) :
    Lexer.ReadsBack (n + 1) (n + 1) e.printed :=
  (h.1.readsBack.alone (Nat.le_refl _)).readsBack

theorem ItemIsWritableIn.readsBack (h : e.ItemIsWritableIn levels) :
    Lexer.ReadsBack (n + 1) (n + 1) e.printed :=
  (ReadsBack.item h.1.readsBack (Nat.le_refl _)).readsBack

end Expr

/-- The name is one of an attribute: a name, and words with hyphens before them. -/
def IsAttributeName (name : String) : Prop :=
  ∃ (first : List Char) (others : List (List Char)),
    name.toList = first ++ (others.map ('-' :: ·)).flatten ∧ IsWord first ∧
      (word (String.ofList first)).kind.isName ∧ ∀ text ∈ others, IsWord text

theorem printedName_eq {name : String} {first : List Char} {others : List (List Char)}
    (same : name.toList = first ++ (others.map ('-' :: ·)).flatten)
    (words : ∀ text ∈ first :: others, IsWord text) :
    printedName name = glued (hyphenated (first :: others)) := by
  have noHyphen : ∀ text ∈ first :: others, '-' ∉ text := by
    intro text member inside
    obtain ⟨c, cs, rfl, start, parts⟩ := words text member
    rcases List.mem_cons.mp inside with rfl | later
    · exact absurd start (by decide)
    · exact absurd (parts _ later) (by decide)
  rw [printedName, same, ← intercalate_cons, List.splitOn_intercalate '-' noHyphen (by simp)]

instance (text : List Char) : Decidable (IsWord text) :=
  decidable_of_iff (text.head?.any isStart ∧ text.tail.all isPart) <| by
    cases text with
    | nil => simp [IsWord]
    | cons c cs => simp [IsWord]

theorem isDirective_elseIf : IsDirective "else-if".toList := by
  refine ⟨by decide, fun d rest noPart noHyphen => ?_⟩
  have letters : isPart 'e' ∧ isPart 'l' ∧ isPart 's' ∧ isPart 'i' ∧ isPart 'f' :=
    ⟨by decide, by decide, by decide, by decide, by decide⟩
  have letter : Text.isAlphabetic 'i' := by decide
  simp [directiveTail, letters, letter, noPart, noHyphen]

namespace ElementProp

/-- The property can be written within so many levels; one that stands alone is `true`. -/
def IsWritable (levels : Nat) : ElementProp → Prop
  | named name value true _ =>
    IsAttributeName name ∧ ∃ span, value = .literal (.bool true) "true" span
  | named name value false _ => IsAttributeName name ∧ value.IsWritableIn levels
  | spread argument _ => argument.IsWritableIn levels

end ElementProp

/-- The names that are no events: those of other directives, and that of a branch. -/
def EventHandler.reserved : List String :=
  ["else-if", "client", "server", "model", "a11y", "live", "focusTrap", "srOnly"]

structure EventHandler.IsWritable (levels : Nat) (h : EventHandler) : Prop where
  name : IsDirective h.event.toList
  plain : (Lexeme.directive h.event.toList).kind = .identifier
  free : h.event ∉ reserved
  modifiers : ∀ name ∈ h.modifiers, IsWord name.toList
  handler : ∀ e ∈ h.handler, e.ItemIsWritableIn levels

def Directive.IsWritable (levels : Nat) : Directive → Prop
  | event handler _ => handler.IsWritable levels
  | model _ binding _ => binding.isAssignable ∧ binding.IsWritableIn levels
  | a11y attributes _ => ∀ a ∈ attributes, IsAttributeName a.name ∧ a.value.IsWritableIn levels
  | focusTrap options _ => ∀ e ∈ options, e.IsWritableIn levels
  | live .. | srOnly _ | boundary .. => True

structure LoopHead.IsWritable (levels : Nat) (h : LoopHead) : Prop where
  item : IsWord h.item.toList ∧ (word h.item).kind = .identifier
  index : ∀ name ∈ h.index, IsWord name.toList ∧ (word name).kind = .identifier
  iterable : h.iterable.IsWritableIn levels
  key : ∀ e ∈ h.key, e.IsWritableIn levels

/-- The text has no interpolation: it has no part, or one of characters. -/
def TextNode.IsPlain (t : TextNode) : Prop :=
  t.parts = [] ∨ ∃ text, text ≠ "" ∧ t.parts = [.literal text]

namespace Lexer.ReadsBack

variable {n levels : Nat}

theorem attributeName {name : String} (h : IsAttributeName name) :
    ReadsBack (n + 1) (n + 1) (printedName name) := by
  obtain ⟨first, others, same, isWord, -, words⟩ := h
  have words : ∀ text ∈ first :: others, IsWord text := List.forall_mem_cons.mpr ⟨isWord, words⟩
  rw [printedName_eq same words]
  exact hyphenated words (by simp)

theorem directiveHead {name : String} {modifiers : List String} (h : IsDirective name.toList)
    (words : ∀ name ∈ modifiers, IsWord name.toList) :
    ReadsBack n n (printedHead name modifiers) :=
  readsBack_head h (by simpa using words)

theorem plainHead (name : String) (h : IsWord name.toList) : ReadsBack n n (printedHead name []) :=
  directiveHead h.isDirective (by simp)

theorem arguments {es : List Expr} (h : ∀ e ∈ es, e.ItemIsWritableIn levels) :
    ReadsBack n n (Expr.printedArguments es) := by
  refine inParens (separated fun ps member => ?_)
  obtain ⟨e, here, rfl⟩ := List.mem_map.mp member
  exact (h e here).readsBack

theorem elementProp {p : ElementProp} (h : p.IsWritable levels) :
    ReadsBack (n + 1) (n + 1) p.printed := by
  cases p with
  | spread argument span => exact (symbol rfl (by decide)).append h.readsBack
  | named name value shorthand span =>
    cases shorthand with
    | true => exact (attributeName h.1).append nil
    | false =>
      exact (attributeName h.1).append ((symbol rfl (by decide)).append (inBraces h.2.readsBack))

theorem elementProps {ps : List ElementProp} (h : ∀ p ∈ ps, p.IsWritable levels) :
    ReadsBack n n (ElementProp.printedList ps) := by
  unfold ElementProp.printedList
  split
  · exact nil
  · refine inParens (separated fun own member => ?_)
    obtain ⟨p, here, rfl⟩ := List.mem_map.mp member
    exact elementProp (h p here)

theorem eventHandler {h : EventHandler} (writable : h.IsWritable levels) :
    ReadsBack n n h.printed := by
  rw [EventHandler.printed]
  refine (directiveHead writable.name writable.modifiers).append ?_
  cases own : h.handler with
  | none => exact nil
  | some e => exact arguments (by simpa using writable.handler e own)

theorem string (text : String) : ReadsBack n n (spaced [Lexeme.quoted text]) :=
  plain ((stable_quoted text).mono fun _ _ => trivial) rfl (by simp [Lexeme.quoted])

theorem directive {d : Directive} (h : d.IsWritable levels) : ReadsBack n n d.printed := by
  cases d with
  | event handler span => exact eventHandler h
  | model modifiers binding span =>
    have words (m : ModelModifier) : IsWord m.name.toList := by cases m <;> decide
    have model : IsWord "model".toList := by decide
    exact (directiveHead model.isDirective (by simpa using fun m _ => words m)).append
      (inParens h.2.readsBack)
  | a11y attributes span =>
    refine (plainHead "a11y" (by decide)).append (inParens (separated fun own member => ?_))
    obtain ⟨a, here, rfl⟩ := List.mem_map.mp member
    exact (attributeName (h a here).1).append ((symbol rfl (by decide)).append (h a here).2.readsBack)
  | live priority span => exact (plainHead "live" (by decide)).append (inParens (string priority))
  | focusTrap options span =>
    cases options with
    | none => exact plainHead "focusTrap" (by decide)
    | some e => exact (plainHead "focusTrap" (by decide)).append (inParens (h e rfl).readsBack)
  | srOnly span => exact plainHead "srOnly" (by decide)
  | boundary target span => exact plainHead target.name (by cases target <;> decide)

theorem list {ls : List Lexeme} (each : ∀ l ∈ ls, ReadsBack n n (spaced [l])) :
    ReadsBack n n (spaced ls) := by
  induction ls with
  | nil => exact nil
  | cons l ls ih =>
    obtain ⟨first, others⟩ := List.forall_mem_cons.mp each
    exact first.append (ih others)

theorem selector {text : List Char} (stable : (Lexeme.selector text).IsStable (·.inMarkup)) :
    ReadsBack 0 0 (spaced [Lexeme.selector text]) :=
  plain (stable.mono fun _ here => here.inMarkup) rfl (by simp [Lexeme.selector])

theorem condition {e : Expr} (h : e.IsWritableIn levels) : ReadsBack n n (Lexeme.inParens e.printed) :=
  inParens h.readsBack

theorem loopHead {h : LoopHead} (writable : h.IsWritable levels) : ReadsBack 0 0 h.printed := by
  have index : ReadsBack 1 1 h.printedIndex := by
    unfold LoopHead.printedIndex
    split
    · exact nil
    · next index own =>
      exact (symbol rfl (by decide)).append (word (writable.index index own).1)
  have key : ReadsBack 0 0 h.printedKey := by
    unfold LoopHead.printedKey
    split
    · exact nil
    · next key own =>
      have isWord : IsWord "key".toList := by decide
      exact (selector (stable_plain isWord (by decide))).append (condition (writable.key key own))
  have iteration : ReadsBack 1 1 (spaced [Lexeme.word h.iteration.name]) :=
    word (by cases h.iteration <;> decide)
  exact (plainHead _ (by cases h.keyword <;> decide)).append ((inParens ((word writable.item.1).append
    (index.append (iteration.append writable.iterable.readsBack)))).append key)

end Lexer.ReadsBack

namespace TextNode

open Quoted

variable {t : TextNode}

theorem IsPlain.writable (h : t.IsPlain) (options : Options) :
    TextPart.AreWritable options t.parts := by
  rcases h with parts | ⟨text, some, parts⟩
  all_goals
    rw [parts]
    refine ⟨⟨?_, ?_, ?_⟩, ?_, ?_, ?_⟩
  all_goals simp [some]

theorem IsPlain.stable_quoted (h : t.IsPlain) : t.quoted.IsStable fun _ => True := by
  refine ⟨'"', t.parts.flatMap TextPart.written ++ ['"'], by simp [quoted, enclose],
    fun ctx rest _ => ?_⟩
  rw [Lexer.scan_quote ctx (.inl rfl), List.append_assoc, List.singleton_append,
    (h.writable .standard).spells.scanString]
  simp [quoted, piece]

def aloneKinds : List TokenKind :=
  [.string, .number, .bigInt, .keyword .true_, .keyword .false_, .keyword .null]

theorem IsPlain.alone_cases (h : t.IsPlain) : t.alone = t.quoted ∨
    ∃ text, t.parts = [.literal text] ∧ bare? text = some t.alone := by
  unfold alone
  rcases h with parts | ⟨text, -, parts⟩
  · rw [parts]
    exact .inl rfl
  · rw [parts]
    dsimp only
    cases own : bare? text with
    | none => exact .inl rfl
    | some l => exact .inr ⟨text, rfl, own⟩

theorem IsPlain.stable_alone (h : t.IsPlain) : t.alone.IsStable (·.inStyle = false) := by
  rcases h.alone_cases with same | ⟨text, -, own⟩
  · rw [same]
    exact h.stable_quoted.mono fun _ _ => trivial
  · exact (bare?_stable own).1

theorem IsPlain.kind_alone (h : t.IsPlain) : t.alone.kind ∈ aloneKinds := by
  rcases h.alone_cases with same | ⟨text, -, own⟩
  · rw [same]
    exact List.mem_cons_self
  · exact List.mem_cons_of_mem _ (bare?_stable own).2.2

end TextNode

namespace Lexer.ReadsBack

variable {n : Nat}

theorem text {t : TextNode} (h : t.IsPlain) : ReadsBack n n (spaced [t.quoted]) :=
  plain (h.stable_quoted.mono fun _ _ => trivial) rfl (by simp [TextNode.quoted])

theorem texts {ts : List TextNode} (h : ∀ t ∈ ts, t.IsPlain) :
    ReadsBack n n (spaced (ts.map TextNode.quoted)) := by
  refine list fun l member => ?_
  obtain ⟨t, here, rfl⟩ := List.mem_map.mp member
  exact text (h t here)

theorem alone {t : TextNode} (h : t.IsPlain) : ReadsBack n n (spaced [t.alone]) := by
  have kind := h.kind_alone
  refine plain (h.stable_alone.mono fun _ here => here.noStyle) ?_ fun same => ?_
  · have plain : ∀ kind ∈ TextNode.aloneKinds, Expr.bracketStep kind = none := by decide
    exact plain _ kind
  · rw [same] at kind
    exact absurd kind (by decide)

end Lexer.ReadsBack

end PulseSyntax
