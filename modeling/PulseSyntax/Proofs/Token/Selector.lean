import PulseSyntax.Proofs.Token.Stable

namespace PulseSyntax

namespace Word

theorem selectorTail_again {state : SelectorState} {cs after : List Char}
    (whole : selectorTail state cs ++ after = cs) (more : after ≠ []) (rest : List Char) :
    selectorTail state (selectorTail state cs ++ ' ' :: rest) = selectorTail state cs := by
  have stops : selectorTail .name (' ' :: rest) = [] := by
    simp [selectorTail, not_isPart_space]
  fun_induction selectorTail state cs with
  | case1 => exact absurd (List.append_eq_nil_iff.mp whole).2 more
  | case2 quote c cs ih =>
    rw [List.cons_append, selectorTail, ih (List.cons.inj whole).2]
  | case3 c cs part ih =>
    rw [List.cons_append, selectorTail, if_pos part, ih (List.cons.inj whole).2]
  | case4 c cs part starts ih =>
    have again := ih (List.cons.inj whole).2
    have next : (c == '.' || c == '#') &&
        (selectorTail .name cs ++ ' ' :: rest).head?.any isSelectorStart := by
      rw [Bool.and_eq_true] at starts ⊢
      refine ⟨starts.1, ?_⟩
      cases cs with
      | nil => cases starts.2
      | cons e cs =>
        have first : isSelectorStart e := by simpa using starts.2
        have taken : isPart e || e == '-' := by
          simp only [isSelectorStart, Bool.or_eq_true] at first
          simp only [isPart, Bool.or_eq_true]
          tauto
        rw [selectorTail, if_pos taken]
        simpa using first
    rw [List.cons_append, selectorTail, if_neg part, if_pos next, again]
  | case5 c cs part starts opens ih =>
    have noStart : ¬((c == '.' || c == '#') &&
        (selectorTail (.bracket none) cs ++ ' ' :: rest).head?.any isSelectorStart) := by
      obtain rfl : c = '[' := by simpa using opens
      simp
    rw [List.cons_append, selectorTail, if_neg part, if_neg noStart, if_pos opens,
      ih (List.cons.inj whole).2]
  | case6 => exact stops

end Word

namespace Lexeme

def selector (text : List Char) : Lexeme :=
  ⟨.selector, .text (String.ofList text), String.ofList text⟩

theorem piece_selector (text : List Char) : (selector text).piece = .word .selector text := by
  simp [selector, piece, Piece.word]

end Lexeme

namespace Lexer

open Word

variable {ctx : Context} {c : Char} {cs after : List Char}

theorem inStyle_of_inMarkup (h : ctx.inMarkup) : ctx.inStyle = false := by
  simp only [Context.inMarkup, Bool.and_eq_true, beq_iff_eq] at h
  rw [Context.inStyle, h.1.1]
  rfl

theorem selectorTail_start {e : Char} (first : isSelectorStart e) (cs : List Char) :
    selectorTail .name (e :: cs) = e :: selectorTail .name cs := by
  have taken : isPart e || e == '-' := by
    simp only [isSelectorStart, Bool.or_eq_true] at first
    simp only [isPart, Bool.or_eq_true]
    tauto
  rw [selectorTail, if_pos taken]

theorem not_isDigit_of_isSelectorStart {e : Char} (first : isSelectorStart e) :
    e.isDigit = false := by
  refine Bool.eq_false_iff.mpr fun digit => ?_
  simp only [Char.isDigit, Bool.and_eq_true, decide_eq_true_eq, ge_iff_le, UInt32.le_iff_toNat_le]
    at digit
  have small : e.toNat < 65 := Nat.lt_of_le_of_lt digit.2 (by decide)
  have noLetter : Text.isAlphabetic e = false := Text.CodePoints.contains_eq_false_of_lt small
  have other (d : Char) (apart : d.toNat < 48 ∨ 57 < d.toNat) : e ≠ d := by
    rintro rfl
    have low : 48 ≤ e.toNat := digit.1
    have high : e.toNat ≤ 57 := digit.2
    omega
  simp [isSelectorStart, noLetter, other '_' (by decide), other '-' (by decide)] at first

theorem scan_mark (markup : ctx.inMarkup) {e : Char} (mark : c = '#' ∨ c = '.')
    (first : isSelectorStart e) (cs : List Char) :
    scan ctx c (e :: cs) = Word.selector [c] (e :: cs) := by
  have selects : startsSelector ctx c (e :: cs) := by
    rcases mark with rfl | rfl <;> simpa [startsSelector, first] using markup
  rcases mark with rfl | rfl
  · change scanHash ctx _ = _
    rw [scanHash, inStyle_of_inMarkup markup, if_pos selects]
    rfl
  · have noNumber : Numeral.startsHere '.' (e :: cs) = false := by
      simp [Numeral.startsHere, not_isDigit_of_isSelectorStart first]
    have noPoint : '.' ≠ e := by
      rintro rfl
      exact absurd first (by decide)
    have noSpread : Symbol.spread.startsText ('.' :: e :: cs) = false := by
      simp [Symbol.startsText, Symbol.spelling, noPoint]
    have dot : scan ctx '.' (e :: cs) = scanDot ctx (e :: cs) := by
      simp only [scan, scanToken, noNumber]
      rfl
    rw [dot, scanDot, noSpread, if_pos selects]
    rfl

theorem stable_mark {e : Char} (mark : c = '#' ∨ c = '.') (first : isSelectorStart e)
    (whole : selectorTail .name cs ++ after = cs) (more : after ≠ []) :
    (Lexeme.selector (c :: selectorTail .name (e :: cs))).IsStable (·.inMarkup) := by
  rw [selectorTail_start first]
  refine ⟨c, e :: selectorTail .name cs, by simp [Lexeme.selector], fun ctx rest markup => ?_⟩
  rw [List.cons_append, scan_mark markup mark first, Word.selector, selectorTail_start first,
    selectorTail_again whole more rest, Lexeme.piece_selector]
  rfl

theorem continuesSelector_again (continues : continuesSelector cs) (rest : List Char) :
    continuesSelector (selectorTail .name cs ++ ' ' :: rest) := by
  have space : continuesSelector (' ' :: rest) := by simp [continuesSelector]
  cases cs with
  | nil => cases continues
  | cons d cs =>
    rw [continuesSelector] at continues
    split at continues
    · next mark =>
      have marked : d = '.' ∨ d = '#' := by simpa using mark
      obtain ⟨e, cs, rfl, first⟩ : ∃ e more, cs = e :: more ∧ isSelectorStart e := by
        cases cs with
        | nil => cases continues
        | cons e more => exact ⟨e, more, rfl, by simpa using continues⟩
      have noPart : ¬(isPart d || d == '-') := by rcases marked with rfl | rfl <;> decide
      have starts : (d == '.' || d == '#') && (e :: cs).head?.any isSelectorStart := by
        simpa [marked] using first
      rw [selectorTail, if_neg noPart, if_pos starts, selectorTail_start first]
      simp [continuesSelector, marked, first]
    · next noMark =>
      split at continues
      · next hyphen =>
        obtain rfl : d = '-' := by simpa using hyphen
        obtain ⟨e, cs, rfl, letter⟩ : ∃ e more, cs = e :: more ∧ Text.isAlphabetic e := by
          cases cs with
          | nil => cases continues
          | cons e more => exact ⟨e, more, rfl, by simpa using continues⟩
        have first : isSelectorStart e := by simp [isSelectorStart, letter]
        rw [selectorTail, if_pos (by simp), selectorTail_start first]
        simp [continuesSelector, letter]
      · next noHyphen =>
        have ends : d = '[' ∨ selectorTail .name (d :: cs) = [] := by
          simp only [Bool.or_eq_true, beq_iff_eq] at continues
          rcases continues with ((rfl | rfl) | rfl) | rfl
          · exact .inl rfl
          all_goals
            refine .inr ?_
            rw [selectorTail, if_neg (by decide), if_neg (by simp), if_neg (by decide)]
        rcases ends with rfl | none
        · rw [selectorTail, if_neg (by decide), if_neg (by simp), if_pos (by rfl)]
          simp [continuesSelector]
        · rw [none]
          exact space

theorem stable_name {word : List Char} (start : isStart c) (parts : ∀ d ∈ word, isPart d)
    (noKeyword : Keyword.ofSpelling? (String.ofList (c :: word)) = none)
    (noPart : ∀ d ∈ cs.head?, isPart d = false) (continues : continuesSelector cs)
    (whole : selectorTail .name cs ++ after = cs) (more : after ≠ []) :
    (Lexeme.selector (c :: word ++ selectorTail .name cs)).IsStable (·.inMarkup) := by
  refine ⟨c, word ++ selectorTail .name cs, by simp [Lexeme.selector], fun ctx rest markup => ?_⟩
  have again := selectorTail_again whole more rest
  have goesOn := continuesSelector_again continues rest
  obtain ⟨d, next, same, stops⟩ : ∃ d next, selectorTail .name cs ++ ' ' :: rest = d :: next ∧
      isPart d = false := by
    cases tail : selectorTail .name cs with
    | nil => exact ⟨' ', rest, rfl, not_isPart_space⟩
    | cons d next =>
      refine ⟨d, next ++ ' ' :: rest, rfl, noPart d ?_⟩
      rw [← whole, tail]
      rfl
  rw [same] at again goesOn
  rw [scan_start ctx start, List.append_assoc, same,
    scan_word (inStyle_of_inMarkup markup) parts stops, noKeyword]
  dsimp only
  rw [if_pos (by rw [markup, goesOn]; rfl), Word.selector, again, Lexeme.piece_selector]

theorem stable_plain {name : String} (h : IsWord name.toList)
    (noKeyword : Keyword.ofSpelling? name = none) :
    (Lexeme.selector name.toList).IsStable (·.inMarkup) := by
  obtain ⟨c, cs, text, start, parts⟩ := h
  have spelled : String.ofList (c :: cs) = name := by rw [← text, String.ofList_toList]
  have stops : selectorTail .name [' '] = [] := by decide
  have stable : (Lexeme.selector (c :: cs ++ selectorTail .name [' '])).IsStable (·.inMarkup) :=
    stable_name start parts (by rw [spelled, noKeyword]) (by simp [not_isPart_space]) (by decide)
      (by rw [stops]; exact List.nil_append [' ']) (by simp)
  rwa [stops, List.append_nil, ← text] at stable

end Lexer

end PulseSyntax
