import PulseSyntax.Proofs.Token.Stable

namespace PulseSyntax

namespace Word

def IsDirective (text : List Char) : Prop :=
  text.head?.any isStart ∧
    ∀ d rest, isPart d = false → d ≠ '-' → directiveTail (text ++ d :: rest) = text

theorem directiveTail_of_stop {d : Char} (noPart : isPart d = false) (noHyphen : d ≠ '-')
    (rest : List Char) : directiveTail (d :: rest) = [] := by
  simp [directiveTail, noPart, noHyphen]

theorem IsWord.isDirective {text : List Char} (h : IsWord text) : IsDirective text := by
  obtain ⟨c, cs, rfl, start, parts⟩ := h
  refine ⟨by simpa using start, fun d rest noPart noHyphen => ?_⟩
  have tail : directiveTail (cs ++ d :: rest) = cs := by
    induction cs with
    | nil => exact directiveTail_of_stop noPart noHyphen rest
    | cons e cs ih =>
      obtain ⟨part, parts⟩ := List.forall_mem_cons.mp parts
      simp [directiveTail, part, ih parts]
  simp [directiveTail, isPart_of_isStart start, tail]

theorem directiveTail_again {d : Char} (noPart : isPart d = false) (noHyphen : d ≠ '-')
    (cs rest : List Char) : directiveTail (directiveTail cs ++ d :: rest) = directiveTail cs := by
  fun_induction directiveTail cs with
  | case1 => exact directiveTail_of_stop noPart noHyphen rest
  | case2 c cs part ih =>
    have next : isPart c || (c == '-' &&
        (directiveTail cs ++ d :: rest).head?.any Text.isAlphabetic) := by
      rw [Bool.or_eq_true, Bool.and_eq_true] at part ⊢
      refine part.imp id fun both => ?_
      obtain ⟨hyphen, letter⟩ := both
      refine ⟨hyphen, ?_⟩
      cases cs with
      | nil => cases letter
      | cons e cs =>
        have alphabetic : Text.isAlphabetic e := by simpa using letter
        simp [directiveTail, isPart, alphabetic]
    rw [List.cons_append, directiveTail, if_pos next, ih]
  | case3 => exact directiveTail_of_stop noPart noHyphen rest

theorem isDirective_directiveTail {cs : List Char} (start : cs.head?.any isStart) :
    IsDirective (directiveTail cs) := by
  refine ⟨?_, fun d rest noPart noHyphen => directiveTail_again noPart noHyphen cs rest⟩
  cases cs with
  | nil => cases start
  | cons c cs =>
    have first : isStart c := by simpa using start
    simp [directiveTail, isPart_of_isStart first, first]

def modifierText (names : List (List Char)) : List Char := names.flatMap ('.' :: ·)

variable {names : List (List Char)}

theorem not_isPart_point : isPart '.' = false := by decide

theorem modifierRun_part {c : Char} (part : isPart c) (cs : List Char) :
    modifierRun (c :: cs) = c :: modifierRun cs := by
  rw [modifierRun, if_pos (by simp [part])]

theorem modifierRun_again (words : ∀ name ∈ names, IsWord name) (rest : List Char) :
    modifierRun (modifierText names ++ ' ' :: rest) = modifierText names := by
  induction names with
  | nil => simp [modifierText, modifierRun, not_isPart_space]
  | cons name names ih =>
    obtain ⟨⟨c, cs, rfl, start, parts⟩, others⟩ := List.forall_mem_cons.mp words
    have own (text after : List Char) (parts : ∀ d ∈ text, isPart d) :
        modifierRun (text ++ after) = text ++ modifierRun after := by
      induction text with
      | nil => rfl
      | cons d text ih =>
        obtain ⟨part, parts⟩ := List.forall_mem_cons.mp parts
        rw [List.cons_append, modifierRun_part part, ih parts, List.cons_append]
    have all : ∀ d ∈ c :: cs, isPart d :=
      List.forall_mem_cons.mpr ⟨isPart_of_isStart start, parts⟩
    have text : modifierText ((c :: cs) :: names) ++ ' ' :: rest =
        '.' :: ((c :: cs) ++ (modifierText names ++ ' ' :: rest)) := by
      simp [modifierText]
    rw [text, modifierRun, if_pos (by simp [start]), own _ _ all, ih others]
    simp [modifierText]

theorem exists_modifierRun (x : List Char) : ∃ own names, modifierRun x = own ++ modifierText names ∧
    (∀ d ∈ own, isPart d) ∧ ∀ name ∈ names, IsWord name := by
  fun_induction modifierRun x with
  | case1 => exact ⟨[], [], rfl, by simp, by simp⟩
  | case2 c cs more ih =>
    obtain ⟨own, names, run, parts, words⟩ := ih
    by_cases part : isPart c
    · exact ⟨c :: own, names, by rw [run]; rfl, by simpa [part] using parts, words⟩
    · obtain ⟨rfl, d, cs, rfl, start⟩ : c = '.' ∧ ∃ d ds, cs = d :: ds ∧ isStart d := by
        cases cs with
        | nil => simp [part] at more
        | cons d ds => simpa [part] using more
      rw [modifierRun_part (isPart_of_isStart start)] at run ⊢
      cases own with
      | nil =>
        have point : d = '.' := by
          cases names with
          | nil => simp [modifierText] at run
          | cons name names => exact (List.cons.inj run).1
        rw [point] at start
        exact absurd start (by decide)
      | cons e own =>
        obtain ⟨rfl, same⟩ := List.cons.inj run
        refine ⟨[], (d :: own) :: names, ?_, by simp, ?_⟩
        · rw [same]
          simp [modifierText]
        · exact List.forall_mem_cons.mpr ⟨⟨d, own, rfl, start, fun c member => parts c (by simp [member])⟩,
            words⟩
  | case3 => exact ⟨[], [], rfl, by simp, by simp⟩

theorem exists_modifiers (cs : List Char) : ∃ names,
    modifierRun (cs.drop (directiveTail cs).length) = modifierText names ∧
      ∀ name ∈ names, IsWord name := by
  have ends : ∀ d ∈ (cs.drop (directiveTail cs).length).head?, isPart d = false := by
    fun_induction directiveTail cs with
    | case1 => simp
    | case2 c cs part ih => exact ih
    | case3 c cs stops =>
      simp only [Bool.or_eq_true, not_or] at stops
      simpa using stops.1
  generalize cs.drop (directiveTail cs).length = x at ends
  obtain ⟨own, names, run, parts, words⟩ := exists_modifierRun x
  cases own with
  | nil => exact ⟨names, run, words⟩
  | cons c own =>
    obtain ⟨after, whole⟩ := modifierRun_starts x
    have first : x.head? = some c := by rw [← whole, run]; rfl
    exact absurd (parts c List.mem_cons_self) (by rw [ends c first]; decide)

end Word

namespace Lexeme

open Word

def modifier (name : List Char) : Lexeme :=
  ⟨.modifier, .text (String.ofList name), String.ofList ('.' :: name)⟩

def directive (name : List Char) : Lexeme :=
  ⟨(word (String.ofList name)).kind, .text (String.ofList name), String.ofList name⟩

theorem modifiers_modifierText {names : List (List Char)} (words : ∀ name ∈ names, IsWord name) :
    modifiers (modifierText names) = names.map fun name => (modifier name).piece := by
  have split : (modifierText names).splitBy (fun _ next => next != '.') =
      names.map ('.' :: ·) := by
    have flat : modifierText names = (names.map ('.' :: ·)).flatten := by
      rw [modifierText, List.flatMap_def]
    rw [flat]
    refine List.splitBy_flatten (by simp) (fun text member => ?_) ?_
    · obtain ⟨name, inside, rfl⟩ := List.mem_map.mp member
      obtain ⟨c, cs, rfl, start, parts⟩ := words name inside
      have all : ∀ d ∈ c :: cs, isPart d :=
        List.forall_mem_cons.mpr ⟨isPart_of_isStart start, parts⟩
      have noPoint : ∀ d ∈ c :: cs, (d != '.') = true := by
        intro d member
        rw [bne_iff_ne]
        rintro rfl
        exact absurd (all '.' member) (by decide)
      exact (List.pairwise_cons.mpr
        ⟨noPoint, List.pairwise_of_forall_mem_list fun _ _ d member => noPoint d member⟩).isChain
    · refine (List.pairwise_of_forall_mem_list fun text first next second => ?_).isChain
      obtain ⟨name, -, rfl⟩ := List.mem_map.mp first
      obtain ⟨other, -, rfl⟩ := List.mem_map.mp second
      exact ⟨by simp, by simp, by simp⟩
  rw [modifiers, split, List.map_map]
  refine List.map_congr_left fun name _ => ?_
  simp [modifier, piece]

def head (name : List Char) (modifiers : List (List Char)) : List Lexeme :=
  symbol .atSign :: directive name :: modifiers.map modifier

theorem plain_head {name : List Char} {modifiers : List (List Char)} :
    ∀ l ∈ head name modifiers, Expr.bracketStep l.kind = none := by
  simp only [head, List.forall_mem_cons, List.forall_mem_map]
  refine ⟨rfl, ?_, fun _ _ => rfl⟩
  rcases kind_word (String.ofList name) with kind | ⟨k, kind⟩ <;>
    simp [directive, kind, Expr.bracketStep]

theorem textOf_head (name : List Char) (modifiers : List (List Char)) :
    Lexer.textOf ((head name modifiers).map piece) = '@' :: (name ++ modifierText modifiers) := by
  rw [Lexer.textOf, List.flatMap_map]
  simp only [text_piece]
  simp [head, modifierText, List.flatMap_map, symbol, Symbol.spelling, directive, modifier]

end Lexeme

namespace Lexer

open Word

variable {name : List Char} {modifiers : List (List Char)} {n : Nat}

theorem scanAt_eq {ctx : Context} (noStyle : ctx.inStyle = false) {cs : List Char}
    (start : cs.head?.any isStart) (words : ∀ name ∈ modifiers, IsWord name)
    (run : modifierRun (cs.drop (directiveTail cs).length) = modifierText modifiers) :
    scanAt ctx cs = (Lexeme.head (directiveTail cs) modifiers).map Lexeme.piece := by
  have kind : ((Keyword.ofSpelling? (String.ofList (directiveTail cs))).map
      TokenKind.keyword).getD .identifier = (Lexeme.directive (directiveTail cs)).kind := by
    rw [Lexeme.directive, Lexeme.word]
    cases Keyword.ofSpelling? (String.ofList (directiveTail cs)) <;> rfl
  rw [scanAt, if_neg (by rw [start]; decide), noStyle]
  simp only [Bool.false_eq_true, ↓reduceIte, run, kind, Lexeme.modifiers_modifierText words]
  simp [Piece.word, Piece.symbol, Lexeme.head, Lexeme.piece, Lexeme.directive, Lexeme.symbol,
    Function.comp_def]

theorem scanAt_head {ctx : Context} (noStyle : ctx.inStyle = false) (h : IsDirective name)
    (words : ∀ name ∈ modifiers, IsWord name) (rest : List Char) :
    scanAt ctx (name ++ modifierText modifiers ++ ' ' :: rest) =
      (Lexeme.head name modifiers).map Lexeme.piece := by
  obtain ⟨start, ends⟩ := h
  obtain ⟨d, next, following, noPart, noHyphen⟩ : ∃ d next,
      modifierText modifiers ++ ' ' :: rest = d :: next ∧ isPart d = false ∧ d ≠ '-' := by
    cases modifiers with
    | nil => exact ⟨' ', rest, rfl, not_isPart_space, by decide⟩
    | cons name names => exact ⟨'.', _, rfl, not_isPart_point, by decide⟩
  have own := ends d next noPart noHyphen
  rw [← following, ← List.append_assoc] at own
  have starts : (name ++ modifierText modifiers ++ ' ' :: rest).head?.any isStart := by
    cases name with
    | nil => cases start
    | cons => exact start
  have scanned := scanAt_eq noStyle starts words
  rw [own, List.append_assoc, List.drop_left, ← List.append_assoc] at scanned
  exact scanned (modifierRun_again words rest)

theorem foldl_after_plain {ls : List Lexeme} (plain : ∀ l ∈ ls, Expr.bracketStep l.kind = none)
    (ctx : Context) :
    ((Lexeme.glued ls).foldl Context.after ctx).blocks = ctx.blocks ∧
      ((Lexeme.glued ls).foldl Context.after ctx).parens = ctx.parens := by
  induction ls generalizing ctx with
  | nil => exact ⟨rfl, rfl⟩
  | cons l ls ih =>
    obtain ⟨noBracket, others⟩ := List.forall_mem_cons.mp plain
    obtain ⟨blocks, parens⟩ := ih others (ctx.after l.piece)
    exact ⟨blocks.trans (ctx.afterKind_blocks_of_plain (not_isBrace_of_plain noBracket)),
      parens.trans (afterKind_parens_of_plain noBracket ctx)⟩

theorem lastKind_glued (ls : List Lexeme) (l : Lexeme) (ctx : Context) :
    ((Lexeme.glued (ls ++ [l])).foldl Context.after ctx).lastKind = some l.kind := by
  rw [Lexeme.glued, List.map_append, List.foldl_append, List.foldl_append]
  exact Context.afterKind_lastKind _ _

theorem exists_last_head (name : List Char) (modifiers : List (List Char)) :
    ∃ before last, Lexeme.head name modifiers = before ++ [last] ∧ last.kind ≠ .symbol .atSign := by
  rcases List.eq_nil_or_concat modifiers with rfl | ⟨before, last, rfl⟩
  · refine ⟨[.symbol .atSign], .directive name, rfl, ?_⟩
    rcases Lexeme.kind_word (String.ofList name) with kind | ⟨k, kind⟩ <;>
      simp [Lexeme.directive, kind]
  · exact ⟨.symbol .atSign :: .directive name :: before.map .modifier, .modifier last,
      by simp [Lexeme.head], by simp [Lexeme.modifier]⟩

theorem readsBack_head (h : IsDirective name) (words : ∀ name ∈ modifiers, IsWord name) :
    ReadsBack n n (Lexeme.glued (Lexeme.head name modifiers)) := by
  intro ctx here
  obtain ⟨blocks, parens⟩ := foldl_after_plain Lexeme.plain_head ctx
  refine ⟨_, ⟨?_, parens.trans here.parens, ?_⟩, blocks, fun p rest =>
    place_scan (Lexeme.textOf_head name modifiers) (scanAt_head here.noStyle h words rest) p⟩
  · exact (congrArg (fun blocks => blocks.head?.join) blocks).trans here.block
  · obtain ⟨before, last, same, noAt⟩ := exists_last_head name modifiers
    rw [same, lastKind_glued]
    exact fun same => noAt (Option.some.inj same)

end Lexer

end PulseSyntax
