import Mathlib.Data.List.Infix
import Mathlib.Data.List.SplitBy
import Mathlib.Data.List.TakeWhile
import PulseSyntax.Token.Lexer

namespace PulseSyntax

/-- Text that may stand between tokens, before `after`. -/
inductive Trivia (after : List Char) : List Char → Prop where
  | nil : Trivia after []
  | blank {c : Char} {gap : List Char} (isBlank : Text.isBlank c) (rest : Trivia after gap) :
      Trivia after (c :: gap)
  | lineComment {body gap : List Char} (oneLine : '\n' ∉ body)
      (ends : ∀ c, (gap ++ after).head? = some c → c = '\n') (rest : Trivia after gap) :
      Trivia after ('/' :: '/' :: (body ++ gap))
  | blockComment {body gap : List Char} (first : ¬ ['*', '/'] <:+: body ++ ['*'])
      (rest : Trivia after gap) : Trivia after ('/' :: '*' :: (body ++ '*' :: '/' :: gap))

theorem Trivia.append {after gap rest : List Char} (h : Trivia (rest ++ after) gap)
    (hr : Trivia after rest) : Trivia after (gap ++ rest) := by
  induction h with
  | nil => exact hr
  | blank isBlank _ ih => exact .blank isBlank ih
  | lineComment oneLine ends _ ih =>
    rw [List.cons_append, List.cons_append, List.append_assoc]
    exact .lineComment oneLine (by rwa [List.append_assoc]) ih
  | blockComment first _ ih =>
    rw [List.cons_append, List.cons_append, List.append_assoc, List.cons_append, List.cons_append]
    exact .blockComment first ih

theorem Trivia.blanks {after gap : List Char} (h : ∀ c ∈ gap, Text.isBlank c) :
    Trivia after gap := by
  induction gap with
  | nil => exact .nil
  | cons c gap ih =>
    exact .blank (h c (by simp)) (ih fun d member => h d (List.mem_cons_of_mem c member))

attribute [simp] Piece.text Piece.word Piece.symbol Piece.invalid

@[simp] theorem Lexer.textOf_nil : textOf [] = [] := rfl

@[simp] theorem Lexer.textOf_cons (piece : Piece) (pieces : List Piece) :
    textOf (piece :: pieces) = piece.text ++ textOf pieces := rfl

@[simp] theorem Lexer.textOf_append (left right : List Piece) :
    textOf (left ++ right) = textOf left ++ textOf right := List.flatMap_append

/-- A piece that may stand before `after`. -/
def Piece.Fits (after : List Char) : Piece → Prop
  | .trivia text => Trivia after text
  | .lexeme kind _ text => kind ≠ .endOfFile ∧ text ≠ []

/-- The pieces are cut off a text one after the other, and `after` is left. -/
inductive Cut : List Char → List Piece → List Char → Prop where
  | nil {text : List Char} : Cut text [] text
  | cons {piece : Piece} {rest : List Char} {pieces : List Piece} {after : List Char}
      (fits : piece.Fits rest) (tail : Cut rest pieces after) :
      Cut (piece.text ++ rest) (piece :: pieces) after

namespace Cut

open Lexer

theorem append {text middle after : List Char} {left right : List Piece}
    (hl : Cut text left middle) (hr : Cut middle right after) : Cut text (left ++ right) after := by
  induction hl with
  | nil => exact hr
  | cons fits _ ih => exact .cons fits (ih hr)

theorem text_eq {text after : List Char} {pieces : List Piece} (h : Cut text pieces after) :
    text = textOf pieces ++ after := by
  induction h with
  | nil => rfl
  | cons _ _ ih => rw [ih]; simp [textOf]

theorem nil_notMem {text after : List Char} {pieces : List Piece} (h : Cut text pieces after)
    {kind : TokenKind} {value : TokenValue} : .lexeme kind value [] ∉ pieces := by
  induction h with
  | nil => exact List.not_mem_nil
  | cons fits _ ih =>
    intro member
    rcases List.mem_cons.mp member with rfl | member
    · exact fits.2 rfl
    · exact ih member

theorem lexeme {text after : List Char} {kind : TokenKind} {value : TokenValue} {own : List Char}
    (hk : kind ≠ .endOfFile) (nonempty : own ≠ []) (h : own ++ after = text) :
    Cut text [.lexeme kind value own] after := by
  subst h
  exact .cons (show (Piece.lexeme kind value own).Fits after from ⟨hk, nonempty⟩) .nil

theorem trivia {text after gap : List Char} (fits : Trivia after gap) (h : gap ++ after = text) :
    Cut text [.trivia gap] after := by
  subst h
  exact .cons (show (Piece.trivia gap).Fits after from fits) .nil

end Cut

/-- A scan of a text cuts pieces off it and reads on. -/
def Scans (text : List Char) (pieces : List Piece) : Prop :=
  Lexer.textOf pieces ≠ [] ∧ ∃ after, Cut text pieces after

namespace Scans

open Lexer

theorem lexeme {text : List Char} {kind : TokenKind} {value : TokenValue} {own : List Char}
    (hk : kind ≠ .endOfFile) (nonempty : own ≠ []) (h : own <+: text) :
    Scans text [.lexeme kind value own] := by
  obtain ⟨after, h⟩ := h
  exact ⟨by simpa [textOf, Piece.text] using nonempty, after, Cut.lexeme hk nonempty h⟩

theorem symbol {text : List Char} {sign : Symbol} (h : sign.spelling.toList <+: text) :
    Scans text [.symbol sign] :=
  lexeme (by simp) (by cases sign <;> simp [Symbol.spelling]) h

theorem cons {kind : TokenKind} {value : TokenValue} {own rest : List Char} {pieces : List Piece}
    (hk : kind ≠ .endOfFile) (nonempty : own ≠ []) (h : ∃ after, Cut rest pieces after) :
    Scans (own ++ rest) (.lexeme kind value own :: pieces) := by
  obtain ⟨after, h⟩ := h
  refine ⟨by simp [textOf, Piece.text, nonempty], after, ?_⟩
  exact .cons (show (Piece.lexeme kind value own).Fits rest from ⟨hk, nonempty⟩) h

end Scans

namespace Numeral

theorem digitRun_starts (text : List Char) : digitRun text <+: text := List.takeWhile_prefix _

theorem fractionPart_starts (text : List Char) : fractionPart text <+: text := by
  unfold fractionPart
  split
  · split
    · exact (List.prefix_cons_inj _).mpr (digitRun_starts _)
    · exact List.nil_prefix
  · exact List.nil_prefix

theorem exponentPart_starts (text : List Char) : exponentPart text <+: text := by
  fun_cases exponentPart text with
  | case1 => exact (List.prefix_cons_inj _).mpr (digitRun_starts _)
  | case2 => exact (List.prefix_cons_inj _).mpr ((List.prefix_cons_inj _).mpr (digitRun_starts _))
  | case3 | case4 | case5 | case6 => exact List.nil_prefix

theorem DecimalText.read_text_starts (cs : List Char) : (DecimalText.read cs).text <+: cs := by
  obtain ⟨rest, whole⟩ := digitRun_starts cs
  have afterWhole : cs.drop (digitRun cs).length = rest := calc
    _ = (digitRun cs ++ rest).drop (digitRun cs).length := by rw [whole]
    _ = rest := List.drop_left
  obtain ⟨last, fraction⟩ := fractionPart_starts rest
  have afterFraction : rest.drop (fractionPart rest).length = last := calc
    _ = (fractionPart rest ++ last).drop (fractionPart rest).length := by rw [fraction]
    _ = last := List.drop_left
  obtain ⟨after, exponent⟩ := exponentPart_starts last
  refine ⟨after, ?_⟩
  simp only [text, read, afterWhole, afterFraction]
  rw [List.append_assoc, exponent, List.append_assoc, fraction, whole]

theorem DecimalText.read_text_ne_nil {c : Char} {cs : List Char} (h : startsHere c cs) :
    (DecimalText.read (c :: cs)).text ≠ [] := by
  simp only [startsHere, Bool.or_eq_true, Bool.and_eq_true, beq_iff_eq] at h
  by_cases digit : c.isDigit
  · simp [DecimalText.text, DecimalText.read, digitRun, digit]
  · obtain ⟨rfl, next⟩ : c = '.' ∧ cs.head?.any (·.isDigit) := by tauto
    simp [DecimalText.text, DecimalText.read, digitRun, fractionPart, next]

theorem hasBigMark_head {text : List Char} (h : hasBigMark text) : ['n'] <+: text := by
  unfold hasBigMark at h
  split at h
  · exact ⟨_, rfl⟩
  · simp at h

theorem append_mark_starts {own text : List Char} (h : own <+: text)
    (mark : hasBigMark (text.drop own.length)) : own ++ ['n'] <+: text := by
  obtain ⟨rest, rfl⟩ := h
  rw [List.drop_left] at mark
  exact (List.prefix_append_right_inj own).mpr (hasBigMark_head mark)

theorem scans_decimal {c : Char} {cs : List Char} (h : startsHere c cs) :
    Scans (c :: cs) (scanDecimal (c :: cs)) := by
  have own := DecimalText.read_text_starts (c :: cs)
  simp only [scanDecimal]
  split
  · next big =>
    simp only [Bool.and_eq_true] at big
    exact Scans.lexeme (by simp) (by simp) (append_mark_starts own big.2)
  · exact Scans.lexeme (by simp) (DecimalText.read_text_ne_nil h) own

theorem scans_radix (radix : Nat) (lead cs : List Char) (nonempty : lead ≠ []) :
    Scans (lead ++ cs) (scanRadix radix lead cs) := by
  have run : cs.takeWhile (fun c => isDigit radix c || c == '_') <+: cs := List.takeWhile_prefix _
  have own := (List.prefix_append_right_inj lead).mpr run
  simp only [scanRadix]
  split
  · next big =>
    refine Scans.lexeme (by simp) (by simp) ?_
    rw [List.append_assoc]
    exact (List.prefix_append_right_inj lead).mpr (append_mark_starts run big)
  · split
    · exact Scans.lexeme (by simp) (by simp [nonempty]) own
    · exact Scans.lexeme (by simp) (by simp [nonempty]) own

theorem scans_number {c : Char} {cs : List Char} (h : startsHere c cs) :
    Scans (c :: cs) (scan c cs) := by
  unfold scan
  split
  · split
    · exact scans_radix _ ['0', _] _ (by simp)
    · exact scans_decimal h
  · exact scans_decimal h

end Numeral

namespace Quoted

theorem stringBody?_starts {quote : Char} {skip : Nat} {cs text value : List Char}
    (h : stringBody? quote skip cs = some (text, value)) : text <+: cs := by
  fun_induction stringBody? quote skip cs generalizing text value with
  | case1 => simp at h
  | case2 skip c cs ih | case4 c cs _ _ part length _ ih | case5 c cs _ _ ih =>
    obtain ⟨⟨body, rest⟩, found, same⟩ := Option.map_eq_some_iff.mp h
    simp only [Prod.mk.injEq] at same
    rw [← same.1]
    exact (List.prefix_cons_inj c).mpr (ih found)
  | case3 c cs =>
    simp only [Option.some.injEq, Prod.mk.injEq] at h
    rw [← h.1]
    exact ⟨cs, rfl⟩

theorem scans_string (quote : Char) (cs : List Char) :
    Scans (quote :: cs) (scanString quote cs) := by
  unfold scanString
  split
  · next body =>
    have own := (List.prefix_cons_inj quote).mpr (stringBody?_starts body)
    exact Scans.lexeme (by simp) (by simp) own
  · exact Scans.lexeme (by simp) (by simp) (List.prefix_refl _)

theorem templateBody?_starts {depth : Nat} {cs text : List Char}
    (h : templateBody? depth cs = some text) : text ++ ['`'] <+: cs := by
  fun_induction templateBody? depth cs generalizing text with
  | case1 | case2 => simp at h
  | case3 _ c _ ih | case4 _ _ ih =>
    obtain ⟨body, found, rfl⟩ := Option.map_eq_some_iff.mp h
    exact (List.prefix_cons_inj _).mpr ((List.prefix_cons_inj _).mpr (ih found))
  | case5 cs =>
    obtain rfl : [] = text := by simpa using h
    exact ⟨cs, rfl⟩
  | case6 =>
    rename_i ih
    obtain ⟨body, found, rfl⟩ := Option.map_eq_some_iff.mp h
    exact (List.prefix_cons_inj _).mpr (ih found)

theorem scans_template (cs : List Char) : Scans ('`' :: cs) (scanTemplate cs) := by
  unfold scanTemplate
  split
  · next body =>
    have own := (List.prefix_cons_inj '`').mpr (templateBody?_starts body)
    exact Scans.lexeme (by simp) (by simp) own
  · exact Scans.lexeme (by simp) (by simp) (List.prefix_refl _)

end Quoted

def TokenKind.isHead : TokenKind → Bool
  | .identifier | .selector => true
  | _ => false

theorem TokenKind.eq_of_isHead {kind : TokenKind} (h : kind.isHead) :
    kind = .identifier ∨ kind = .selector := by
  cases kind <;> simp_all [isHead]

theorem selectorTail_starts (state : Word.SelectorState) (cs : List Char) :
    Word.selectorTail state cs <+: cs := by
  fun_induction Word.selectorTail state cs with
  | case1 => exact List.prefix_refl _
  | case2 _ _ _ ih | case3 _ _ _ ih | case4 _ _ _ _ ih | case5 _ _ _ _ _ ih =>
    exact (List.prefix_cons_inj _).mpr ih
  | case6 => exact List.nil_prefix

theorem directiveTail_starts (cs : List Char) : Word.directiveTail cs <+: cs := by
  fun_induction Word.directiveTail cs with
  | case1 => exact List.prefix_refl _
  | case2 _ _ _ ih => exact (List.prefix_cons_inj _).mpr ih
  | case3 => exact List.nil_prefix

theorem modifierRun_starts (cs : List Char) : Word.modifierRun cs <+: cs := by
  fun_induction Word.modifierRun cs with
  | case1 => exact List.prefix_refl _
  | case2 _ _ _ ih => exact (List.prefix_cons_inj _).mpr ih
  | case3 => exact List.nil_prefix

theorem scans_selector (start rest : List Char) (nonempty : start ≠ []) :
    Scans (start ++ rest) (Word.selector start rest) := by
  have own : start ++ Word.selectorTail .name rest <+: start ++ rest :=
    (List.prefix_append_right_inj start).mpr (selectorTail_starts .name rest)
  exact Scans.lexeme (by simp) (by simp [nonempty]) own

theorem isBlank_of_isInlineSpace {c : Char} (h : Word.isInlineSpace c) : Text.isBlank c := by
  simp only [Word.isInlineSpace, Bool.or_eq_true, beq_iff_eq] at h
  rcases h with rfl | rfl <;> decide

theorem trivia_of_trimEnd {after gap : List Char} (h : Text.trimEnd gap = []) :
    Trivia after gap := by
  apply Trivia.blanks
  intro c member
  simp only [Text.trimEnd, List.reverse_eq_nil_iff, List.dropWhile_eq_nil_iff] at h
  exact h c (by simpa using member)

theorem cut_urlArgument (rest : List Char) :
    ∃ after, Cut ('(' :: rest) (Word.urlArgument ('(' :: rest)) after := by
  have inline : Cut rest
      (if (rest.takeWhile Word.isInlineSpace).isEmpty then []
        else [.trivia (rest.takeWhile Word.isInlineSpace)])
      (rest.dropWhile Word.isInlineSpace) := by
    split
    · next empty =>
      have whole := List.takeWhile_append_dropWhile (p := Word.isInlineSpace) (l := rest)
      rw [List.isEmpty_iff.mp empty] at whole
      rw [← List.nil_append (List.dropWhile _ rest), whole]
      exact .nil
    · apply Cut.trivia _ List.takeWhile_append_dropWhile
      apply Trivia.blanks
      intro c member
      exact isBlank_of_isInlineSpace (List.mem_takeWhile_imp member)
  have opening : Cut ('(' :: rest) [.symbol .openParen] rest :=
    Cut.lexeme (by simp) (by simp [Symbol.spelling]) rfl
  have lead := opening.append inline
  simp only [Word.urlArgument, List.drop_succ_cons, List.drop_zero]
  rw [List.singleton_append] at lead
  generalize rest.dropWhile Word.isInlineSpace = argument at lead ⊢
  split
  · exact ⟨argument, lead⟩
  · have raw := List.takeWhile_append_dropWhile (p := fun c => c != ')' && c != '\n') (l := argument)
    split
    · exact ⟨argument, lead⟩
    · next nonempty =>
      split
      · next blank =>
        exact ⟨_, lead.append (Cut.trivia (trivia_of_trimEnd (List.isEmpty_iff.mp blank)) raw)⟩
      · exact ⟨_, lead.append (Cut.lexeme (by simp) (by simpa using nonempty) raw)⟩

theorem scans_word (ctx : Context) (c : Char) (cs : List Char) :
    Scans (c :: cs) (Word.scan ctx c cs) := by
  have whole := List.takeWhile_append_dropWhile
    (p := fun d => Word.isPart d || (ctx.inStyle && d == '-')) (l := cs)
  simp only [Word.scan]
  generalize cs.takeWhile _ = tail at whole ⊢
  generalize cs.dropWhile _ = rest at whole ⊢
  subst whole
  rw [← List.cons_append]
  split
  · next url =>
    obtain ⟨rest, rfl⟩ : ∃ tail, rest = '(' :: tail := by
      simp only [Bool.and_eq_true, beq_iff_eq] at url
      exact List.head?_eq_some_iff.mp url.2
    exact Scans.cons (by simp) (by simp) (cut_urlArgument rest)
  · split
    · exact Scans.lexeme (by simp) (by simp) (List.prefix_append _ _)
    · split
      · exact Scans.lexeme (by simp) (by simp) (List.prefix_append _ _)
      · split
        · exact scans_selector _ _ (by simp)
        · exact Scans.lexeme (by simp) (by simp) (List.prefix_append _ _)

theorem cut_modifiers (run after : List Char) : Cut (run ++ after) (Word.modifiers run) after := by
  have parts (texts : List (List Char)) (nonempty : ∀ text ∈ texts, text ≠ []) :
      Cut (texts.flatten ++ after)
        (texts.map fun text => .lexeme .modifier (.text (String.ofList (text.drop 1))) text)
        after := by
    induction texts with
    | nil => exact .nil
    | cons text texts ih =>
      rw [List.flatten_cons, List.append_assoc, List.map_cons]
      have fits : (Piece.lexeme .modifier (.text (String.ofList (text.drop 1))) text).Fits
          (texts.flatten ++ after) := ⟨by simp, nonempty text (by simp)⟩
      exact .cons fits (ih fun other member => nonempty other (List.mem_cons_of_mem text member))
  have cut := parts (run.splitBy fun _ next => next != '.')
    fun text member empty => List.nil_notMem_splitBy _ run (empty ▸ member)
  rwa [List.flatten_splitBy] at cut

theorem scans_at (ctx : Context) (cs : List Char) : Scans ('@' :: cs) (Word.scanAt ctx cs) := by
  simp only [Word.scanAt]
  split
  · exact Scans.symbol ⟨cs, rfl⟩
  · next start =>
    obtain ⟨rest, whole⟩ := directiveTail_starts cs
    have nonempty : Word.directiveTail cs ≠ [] := by
      cases cs with
      | nil => simp at start
      | cons d ds =>
        have part : Word.isPart d := by
          simp only [List.head?_cons, Option.any_some, Bool.not_eq_true', Bool.not_eq_false] at start
          simp only [Word.isStart, Bool.or_eq_true] at start
          simp only [Word.isPart, Bool.or_eq_true]
          tauto
        simp [Word.directiveTail, part]
    have following : cs.drop (Word.directiveTail cs).length = rest := calc
      _ = (Word.directiveTail cs ++ rest).drop (Word.directiveTail cs).length := by rw [whole]
      _ = rest := List.drop_left
    rw [following]
    refine @Scans.cons _ _ ['@'] cs _ (by simp) (by simp) ?_
    obtain ⟨after, run⟩ := modifierRun_starts rest
    have name (kind : TokenKind) (hk : kind ≠ .endOfFile) :
        Cut cs [.word kind (Word.directiveTail cs)] rest := Cut.lexeme hk nonempty whole
    split
    · exact ⟨rest, name .identifier (by simp)⟩
    · have tail := cut_modifiers (Word.modifierRun rest) after
      rw [run] at tail
      refine ⟨after, (name _ ?_).append tail⟩
      cases Keyword.ofSpelling? (String.ofList (Word.directiveTail cs)) <;> simp

namespace Lexer

theorem commentBody?_first {cs text : List Char} (h : commentBody? cs = some text) :
    ∃ body after, text = body ++ ['*', '/'] ∧ cs = text ++ after ∧
      ¬ ['*', '/'] <:+: body ++ ['*'] := by
  fun_induction commentBody? cs generalizing text with
  | case1 => simp at h
  | case2 cs =>
    simp only [Option.some.injEq] at h
    exact ⟨[], cs, h.symm, by simp [← h], by decide⟩
  | case3 c cs notEnd ih =>
    obtain ⟨text, found, rfl⟩ := Option.map_eq_some_iff.mp h
    obtain ⟨body, after, rfl, rfl, first⟩ := ih found
    refine ⟨c :: body, after, rfl, rfl, ?_⟩
    rw [List.cons_append, List.infix_cons_iff]
    rintro (start | inside)
    · rw [List.cons_prefix_cons] at start
      obtain ⟨rfl, next⟩ := start
      cases body with
      | nil => simp at next
      | cons d body =>
        rw [List.cons_append, List.cons_prefix_cons] at next
        exact notEnd _ rfl (by rw [← next.1]; rfl)
    · exact first inside

theorem scans_comment (cs : List Char) : Scans ('/' :: '*' :: cs) [scanComment cs] := by
  unfold scanComment
  split
  · next text found =>
    obtain ⟨body, after, rfl, rfl, first⟩ := commentBody?_first found
    refine ⟨by simp [textOf, Piece.text], after, Cut.trivia ?_ rfl⟩
    exact .blockComment first .nil
  · exact Scans.lexeme (by simp) (by simp) (List.prefix_refl _)

theorem scans_lineComment (cs : List Char) :
    Scans ('/' :: '/' :: cs) [.trivia ('/' :: '/' :: cs.takeWhile (· != '\n'))] := by
  have whole := List.takeWhile_append_dropWhile (p := (· != '\n')) (l := cs)
  refine ⟨by simp [textOf, Piece.text], cs.dropWhile (· != '\n'), Cut.trivia ?_ ?_⟩
  · have comment : Trivia (cs.dropWhile (· != '\n'))
        ('/' :: '/' :: (cs.takeWhile (· != '\n') ++ [])) := by
      refine .lineComment ?_ ?_ .nil
      · intro member
        simpa using List.mem_takeWhile_imp member
      · intro c next
        have stops := List.head?_dropWhile_not (· != '\n') cs
        rw [List.nil_append] at next
        simpa [next] using stops
    rwa [List.append_nil] at comment
  · rw [List.cons_append, List.cons_append, whole]

theorem scans_blanks {c : Char} (cs : List Char) (blank : Text.isBlank c) :
    Scans (c :: cs) [.trivia (c :: cs.takeWhile Text.isBlank)] := by
  refine ⟨by simp [textOf, Piece.text], cs.dropWhile Text.isBlank, Cut.trivia ?_ ?_⟩
  · apply Trivia.blanks
    intro d member
    rcases List.mem_cons.mp member with rfl | member
    · exact blank
    · exact List.mem_takeWhile_imp member
  · rw [List.cons_append, List.takeWhile_append_dropWhile]

theorem scans_symbol (c : Char) (cs : List Char) : Scans (c :: cs) (scanSymbol c cs) := by
  unfold scanSymbol
  split
  · next sign found =>
    have starts := Symbol.startsText_of_longest? found
    simp only [Symbol.startsText, Bool.and_eq_true, List.isPrefixOf_iff_prefix] at starts
    exact Scans.symbol starts.1
  · exact Scans.lexeme (by simp) (by simp) ⟨cs, rfl⟩

theorem colorDigits?_starts {cs digits : List Char} (h : colorDigits? cs = some digits) :
    digits <+: cs := by
  simp only [colorDigits?] at h
  split at h
  · obtain rfl := Option.some.inj h
    exact List.takeWhile_prefix _
  · cases h

theorem scans_hash (ctx : Context) (cs : List Char) : Scans ('#' :: cs) (scanHash ctx cs) := by
  unfold scanHash
  split
  · next digits found =>
    have own : digits <+: cs := by
      split at found
      · exact colorDigits?_starts found
      · cases found
    exact Scans.lexeme (by simp) (by simp) ((List.prefix_cons_inj '#').mpr own)
  · split
    · exact scans_selector ['#'] cs (by simp)
    · exact Scans.symbol ⟨cs, rfl⟩

theorem scans_dot (ctx : Context) (cs : List Char) : Scans ('.' :: cs) (scanDot ctx cs) := by
  unfold scanDot
  split
  · next spread =>
    simp only [Symbol.startsText, Bool.and_eq_true, List.isPrefixOf_iff_prefix] at spread
    exact Scans.symbol spread.1
  · split
    · exact scans_selector ['.'] cs (by simp)
    · exact Scans.symbol ⟨cs, rfl⟩

theorem scans_token (ctx : Context) (c : Char) (cs : List Char) :
    Scans (c :: cs) (scanToken ctx c cs) := by
  simp only [scanToken, beq_iff_eq, Bool.or_eq_true]
  split
  · exact scans_word ctx c cs
  · split
    · next number => exact Numeral.scans_number number
    · split
      · exact Quoted.scans_string c cs
      · split
        · next tick => subst tick; exact Quoted.scans_template cs
        · split
          · next atSign => subst atSign; exact scans_at ctx cs
          · split
            · next hash => subst hash; exact scans_hash ctx cs
            · split
              · next dot => subst dot; exact scans_dot ctx cs
              · split
                · exact scans_word ctx c cs
                · exact scans_symbol c cs

theorem scans_scan (ctx : Context) (c : Char) (cs : List Char) :
    Scans (c :: cs) (scan ctx c cs) := by
  simp only [scan, Bool.and_eq_true, beq_iff_eq]
  split
  · next blank => exact scans_blanks cs blank
  · split
    · next line =>
      obtain ⟨⟨rfl, next⟩, -⟩ := line
      obtain ⟨cs, rfl⟩ := List.head?_eq_some_iff.mp next
      exact scans_lineComment cs
    · split
      · next block =>
        obtain ⟨rfl, next⟩ := block
        obtain ⟨cs, rfl⟩ := List.head?_eq_some_iff.mp next
        exact scans_comment cs
      · exact scans_token ctx c cs

theorem pieces_skip (ctx : Context) (own rest : List Char) :
    pieces ctx own.length (own ++ rest) = pieces ctx 0 rest := by
  induction own with
  | nil => rfl
  | cons c own ih =>
    rw [List.length_cons, List.cons_append]
    exact ih

theorem pieces_scan {ctx : Context} {c : Char} {cs rest : List Char}
    (whole : c :: cs = textOf (scan ctx c cs) ++ rest) :
    pieces ctx 0 (c :: cs) =
      scan ctx c cs ++ pieces ((scan ctx c cs).foldl Context.after ctx) 0 rest := by
  obtain ⟨d, own, own_eq⟩ := List.exists_cons_of_ne_nil (scans_scan ctx c cs).1
  rw [own_eq, List.cons_append, List.cons.injEq] at whole
  simp only [pieces, own_eq, List.length_cons, Nat.add_sub_cancel]
  rw [whole.2, pieces_skip]

theorem place_lexeme {ctx : Context} {c : Char} {own rest : List Char} {kind : TokenKind}
    {value : TokenValue} (scanned : scan ctx c (own ++ rest) = [.lexeme kind value (c :: own)])
    (p : Position) :
    place p (pieces ctx 0 (c :: own ++ rest)) =
      ⟨kind, value, String.ofList (c :: own), p.place (c :: own)⟩ ::
        place (p.after (c :: own)) (pieces (ctx.after (.lexeme kind value (c :: own))) 0 rest) := by
  have whole : c :: own ++ rest = textOf (scan ctx c (own ++ rest)) ++ rest := by
    rw [scanned]
    simp [textOf, Piece.text]
  rw [List.cons_append] at whole ⊢
  rw [pieces_scan whole, scanned]
  rfl

theorem head?_place_scan {c : Char} {cs own : List Char} {kind : TokenKind} {value : TokenValue}
    {more : List Piece} (scanned : scan ctx c cs = .lexeme kind value own :: more) (p : Position) :
    (place p (pieces ctx 0 (c :: cs))).head?.map Token.kind = some kind := by
  rw [pieces, scanned]
  rfl

theorem cut_pieces (ctx : Context) (text : List Char) : Cut text (pieces ctx 0 text) [] := by
  induction h : text.length using Nat.strongRecOn generalizing ctx text with
  | ind n ih =>
    cases text with
    | nil => exact .nil
    | cons c cs =>
      obtain ⟨nonempty, rest, cut⟩ := scans_scan ctx c cs
      have whole := cut.text_eq
      rw [pieces_scan whole]
      refine cut.append (ih rest.length ?_ _ rest rfl)
      rw [← h, whole, List.length_append]
      exact Nat.lt_add_of_pos_left (List.length_pos_iff.mpr nonempty)

end Lexer

end PulseSyntax
