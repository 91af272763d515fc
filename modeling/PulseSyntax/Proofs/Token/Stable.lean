import PulseSyntax.Proofs.Expr.RoundTrip
import PulseSyntax.Proofs.Token.Reach.Literal
import PulseSyntax.Proofs.Token.Spaced

namespace PulseSyntax

namespace Text

theorem not_isStart_of_isBlank {c : Char} (h : isBlank c) : Word.isStart c = false :=
  (Stop.blank h).not_isStart

end Text

namespace Word

def IsWord (text : List Char) : Prop :=
  ∃ c cs, text = c :: cs ∧ isStart c ∧ ∀ d ∈ cs, isPart d

theorem not_isBlank_of_isStart {c : Char} (h : isStart c) : Text.isBlank c = false := by
  cases blank : Text.isBlank c with
  | false => rfl
  | true => rw [Text.not_isStart_of_isBlank blank] at h; cases h

theorem isPart_of_isStart {c : Char} (h : isStart c) : isPart c := by
  simp only [isStart, Bool.or_eq_true] at h
  simp only [isPart, Bool.or_eq_true]
  tauto

theorem not_isPart_space : isPart ' ' = false := by decide

theorem takeWhile_isPart {cs : List Char} (parts : ∀ d ∈ cs, isPart d) (d : Char)
    (stops : isPart d = false) (rest : List Char) : (cs ++ d :: rest).takeWhile isPart = cs := by
  rw [List.takeWhile_append_of_pos parts, List.takeWhile_cons_of_neg (by simp [stops]),
    List.append_nil]

theorem dropWhile_isPart {cs : List Char} (parts : ∀ d ∈ cs, isPart d) (d : Char)
    (stops : isPart d = false) (rest : List Char) :
    (cs ++ d :: rest).dropWhile isPart = d :: rest := by
  rw [List.dropWhile_append_of_pos parts, List.dropWhile_cons_of_neg (by simp [stops])]

theorem scan_noStyle {ctx : Context} (noStyle : ctx.inStyle = false) (c : Char) (cs : List Char) :
    scan ctx c cs = match Keyword.ofSpelling? (String.ofList (c :: cs.takeWhile isPart)) with
      | some k => [.lexeme (.keyword k) (keywordValue k) (c :: cs.takeWhile isPart)]
      | none => if ctx.inMarkup && continuesSelector (cs.dropWhile isPart) then
          selector (c :: cs.takeWhile isPart) (cs.dropWhile isPart)
        else [.word .identifier (c :: cs.takeWhile isPart)] := by
  cases word : Keyword.ofSpelling? (String.ofList (c :: cs.takeWhile isPart)) <;>
    simp only [scan, noStyle, Bool.false_and, Bool.or_false, Bool.false_eq_true, ↓reduceIte, word]

theorem scan_word {ctx : Context} (noStyle : ctx.inStyle = false) {c d : Char} {cs : List Char}
    (parts : ∀ e ∈ cs, isPart e) (stops : isPart d = false) (rest : List Char) :
    scan ctx c (cs ++ d :: rest) = match Keyword.ofSpelling? (String.ofList (c :: cs)) with
      | some k => [.lexeme (.keyword k) (keywordValue k) (c :: cs)]
      | none => if ctx.inMarkup && continuesSelector (d :: rest) then selector (c :: cs) (d :: rest)
        else [.word .identifier (c :: cs)] := by
  rw [scan_noStyle noStyle, takeWhile_isPart parts d stops, dropWhile_isPart parts d stops]

end Word

namespace Lexer

theorem scan_start (ctx : Context) {c : Char} (start : Word.isStart c) (cs : List Char) :
    scan ctx c cs = Word.scan ctx c cs := by
  have noSlash : c ≠ '/' := by
    rintro rfl
    exact absurd start (by decide)
  simp [scan, scanToken, Word.not_isBlank_of_isStart start, noSlash, start]

end Lexer

namespace Lexeme

open Word

theorem piece_word (name : String) : (word name).piece =
    match Keyword.ofSpelling? name with
    | some k => .lexeme (.keyword k) (keywordValue k) name.toList
    | none => .word .identifier name.toList := by
  unfold word
  cases Keyword.ofSpelling? name with
  | some k => rfl
  | none => simp [piece, Piece.word]

theorem stable_word {name : String} (h : IsWord name.toList) : (word name).IsStable Context.InCode := by
  obtain ⟨c, cs, text, start, parts⟩ := h
  refine ⟨c, cs, by rw [raw_word, text], fun ctx rest here => ?_⟩
  have spelled : String.ofList (c :: cs) = name := by rw [← text, String.ofList_toList]
  rw [Lexer.scan_start ctx start, scan_word here.noStyle parts not_isPart_space, spelled, piece_word]
  cases Keyword.ofSpelling? name with
  | some k => rw [text]
  | none => rw [here.noMarkup, text]; rfl

end Lexeme

namespace Numeral

theorem takeWhile_again {p : Char → Bool} {d : Char} (stops : p d = false) (x rest : List Char) :
    (x.takeWhile p ++ d :: rest).takeWhile p = x.takeWhile p := by
  rw [List.takeWhile_append_of_pos fun c member => List.mem_takeWhile_imp member,
    List.takeWhile_cons_of_neg (by simp [stops]), List.append_nil]

/-- The character goes on with no run of digits. -/
def EndsDigits (d : Char) : Prop := d.isDigit = false ∧ d ≠ '_'

structure EndsDecimal (d : Char) : Prop where
  digits : EndsDigits d
  noPoint : d ≠ '.'
  noExponent : d ≠ 'e' ∧ d ≠ 'E'

variable {d : Char}

theorem digitRun_again (h : EndsDigits d) (x rest : List Char) :
    digitRun (digitRun x ++ d :: rest) = digitRun x :=
  takeWhile_again (by simp [h.1, h.2]) x rest

theorem digitRun_head {x : List Char} (digit : x.head?.any Char.isDigit) (rest : List Char) :
    (digitRun x ++ rest).head?.any Char.isDigit := by
  cases x with
  | nil => cases digit
  | cons c x =>
    have first : c.isDigit := by simpa using digit
    simp [digitRun, first]

theorem fractionPart_again (h : EndsDigits d) (noPoint : d ≠ '.') (x rest : List Char) :
    fractionPart (fractionPart x ++ d :: rest) = fractionPart x := by
  have none : fractionPart (d :: rest) = [] :=
    fractionPart.eq_2 _ fun cs same => noPoint (List.cons.inj same).1
  fun_cases fractionPart x with
  | case1 x digit =>
    rw [List.cons_append, fractionPart, if_pos (digitRun_head digit _), digitRun_again h]
  | case2 => exact none
  | case3 => exact none

theorem exponentPart_again (h : EndsDigits d) (noLetter : d ≠ 'e' ∧ d ≠ 'E') (x rest : List Char) :
    exponentPart (exponentPart x ++ d :: rest) = exponentPart x := by
  have none : exponentPart (d :: rest) = [] := by simp [exponentPart, noLetter]
  fun_cases exponentPart x with
  | case1 e letter s x digit =>
    have first : digitRun (s :: x) = s :: digitRun x := by simp [digitRun, digit]
    have again := digitRun_again h (s :: x) rest
    rw [first, List.cons_append] at again
    rw [first, List.cons_append, List.cons_append, exponentPart, if_pos letter,
      if_pos digit, again]
  | case2 e letter s x digit signed =>
    have next : (s == '+' || s == '-') && (digitRun x ++ d :: rest).head?.any (·.isDigit) := by
      rw [Bool.and_eq_true] at signed ⊢
      exact ⟨signed.1, digitRun_head signed.2 _⟩
    rw [List.cons_append, List.cons_append, exponentPart, if_pos letter,
      if_neg digit, if_pos next, digitRun_again h]
  | case3 => exact none
  | case4 => exact none
  | case5 => exact none
  | case6 => exact none

theorem head_of_fractionPart (x : List Char) : ∀ c ∈ (fractionPart x).head?, c = '.' := by
  fun_cases fractionPart x <;> simp

theorem head_of_exponentPart (x : List Char) : ∀ c ∈ (exponentPart x).head?, c = 'e' ∨ c = 'E' := by
  fun_cases exponentPart x <;> simp_all

theorem DecimalText.read_again (h : EndsDecimal d) (x rest : List Char) :
    read ((read x).text ++ d :: rest) = read x := by
  generalize hf : fractionPart (x.drop (digitRun x).length) = fraction
  generalize he : exponentPart ((x.drop (digitRun x).length).drop fraction.length) = exponent
  have own : read x = ⟨digitRun x, fraction, exponent⟩ := by
    simp only [read, hf, he]
  have afterFraction : ∃ e more, exponent ++ d :: rest = e :: more ∧ EndsDigits e ∧ e ≠ '.' := by
    cases exponent with
    | nil => exact ⟨d, rest, rfl, h.digits, h.noPoint⟩
    | cons e more =>
      refine ⟨e, more ++ d :: rest, rfl, ?_⟩
      have letter := head_of_exponentPart _ e (by rw [he]; rfl)
      rcases letter with rfl | rfl <;> exact ⟨⟨by decide, by decide⟩, by decide⟩
  obtain ⟨e, more, following, digits, noPoint⟩ := afterFraction
  have afterWhole : ∃ e' more', fraction ++ e :: more = e' :: more' ∧ EndsDigits e' := by
    cases fraction with
    | nil => exact ⟨e, more, rfl, digits⟩
    | cons e' more' =>
      refine ⟨e', more' ++ e :: more, rfl, ?_⟩
      have point := head_of_fractionPart _ e' (by rw [hf]; rfl)
      subst point
      exact ⟨by decide, by decide⟩
  obtain ⟨e', more', after, digits'⟩ := afterWhole
  have whole : digitRun (digitRun x ++ (fraction ++ (exponent ++ d :: rest))) = digitRun x := by
    rw [following, after, digitRun_again digits']
  have middle : fractionPart (fraction ++ (exponent ++ d :: rest)) = fraction := by
    rw [following, ← hf, fractionPart_again digits noPoint]
  have last : exponentPart (exponent ++ d :: rest) = exponent := by
    rw [← he, exponentPart_again h.digits h.noExponent]
  rw [own, text, List.append_assoc, List.append_assoc, read, whole, List.drop_left, middle,
    List.drop_left, last]

theorem endsDecimal_space : EndsDecimal ' ' := ⟨⟨by decide, by decide⟩, by decide, by decide⟩

theorem endsDecimal_mark : EndsDecimal 'n' := ⟨⟨by decide, by decide⟩, by decide, by decide⟩

theorem scanDecimal_again {x : List Char} {kind : TokenKind} {value : TokenValue} {own : List Char}
    (h : scanDecimal x = [.lexeme kind value own]) (rest : List Char) :
    scanDecimal (own ++ ' ' :: rest) = [.lexeme kind value own] := by
  have noMark : hasBigMark (' ' :: rest) = false := rfl
  have mark : hasBigMark ('n' :: ' ' :: rest) = true := by
    simp [hasBigMark, Word.not_isPart_space]
  simp only [scanDecimal] at h
  split at h
  · next big =>
    cases h
    rw [Bool.and_eq_true] at big
    rw [List.append_assoc, List.singleton_append, scanDecimal,
      DecimalText.read_again endsDecimal_mark, List.drop_left, mark, big.1]
    rfl
  · cases h
    rw [scanDecimal, DecimalText.read_again endsDecimal_space, List.drop_left, noMark,
      Bool.and_false]
    rfl

theorem scanRadix_again {radix : Nat} {lead x : List Char} {kind : TokenKind} {value : TokenValue}
    {own : List Char} (h : scanRadix radix lead x = [.lexeme kind value (lead ++ own)])
    (rest : List Char) :
    scanRadix radix lead (own ++ ' ' :: rest) = [.lexeme kind value (lead ++ own)] := by
  have noMark : hasBigMark (' ' :: rest) = false := rfl
  have mark : hasBigMark ('n' :: ' ' :: rest) = true := by
    simp [hasBigMark, Word.not_isPart_space]
  have stops (d : Char) (noDigit : digitValue? d = none) (other : d ≠ '_') :
      (isDigit radix d || d == '_') = false := by
    simp [isDigit, noDigit, other]
  have again (d : Char) (noDigit : digitValue? d = none) (other : d ≠ '_') (more : List Char) :=
    takeWhile_again (p := fun c => isDigit radix c || c == '_') (stops d noDigit other) x more
  have ends := again ' ' (by decide) (by decide) rest
  have endsMark := again 'n' (by decide) (by decide) (' ' :: rest)
  simp only [scanRadix] at h ⊢
  split at h
  · next big =>
    simp only [List.cons.injEq, Piece.lexeme.injEq, List.append_assoc, List.append_cancel_left_eq,
      and_true] at h
    obtain ⟨rfl, rfl, rfl⟩ := h
    rw [List.append_assoc, List.singleton_append, endsMark, List.drop_left, if_pos mark,
      List.append_assoc]
  · split at h
    · next n found =>
      simp only [List.cons.injEq, Piece.lexeme.injEq, List.append_cancel_left_eq, and_true] at h
      obtain ⟨rfl, rfl, rfl⟩ := h
      rw [ends, List.drop_left, if_neg (by simp [noMark]), found]
    · next found =>
      simp only [Piece.invalid, List.cons.injEq, Piece.lexeme.injEq, List.append_cancel_left_eq,
        and_true] at h
      obtain ⟨rfl, rfl, rfl⟩ := h
      rw [ends, List.drop_left, if_neg (by simp [noMark]), found, Piece.invalid]

theorem exists_scanRadix (radix : Nat) (lead cs : List Char) :
    ∃ kind value own, scanRadix radix lead cs = [.lexeme kind value (lead ++ own)] := by
  simp only [scanRadix]
  split
  · exact ⟨_, _, _, by rw [List.append_assoc]⟩
  · split <;> exact ⟨_, _, _, rfl⟩

theorem scan_eq_decimal {c : Char} {cs : List Char} (h : c = '0' → cs.head?.bind radixOf? = none) :
    scan c cs = scanDecimal (c :: cs) := by
  unfold scan
  split
  · next r more =>
    rw [show radixOf? r = none from h rfl]
  · rfl

theorem scan_again {c : Char} {x own : List Char} {kind : TokenKind} {value : TokenValue}
    (starts : startsHere c x) (h : scan c x = [.lexeme kind value (c :: own)]) (rest : List Char) :
    scan c (own ++ ' ' :: rest) = [.lexeme kind value (c :: own)] := by
  obtain ⟨after, rfl⟩ : ∃ after, x = own ++ after := by
    obtain ⟨-, after, cut⟩ := scans_number starts
    rw [h] at cut
    exact ⟨after, by simpa using cut.text_eq⟩
  by_cases radix : c = '0' → (own ++ after).head?.bind radixOf? = none
  · rw [scan_eq_decimal radix] at h
    rw [scan_eq_decimal fun zero => ?_]
    · exact scanDecimal_again h rest
    · cases own with
      | nil => rfl
      | cons => exact radix zero
  · obtain ⟨rfl, noNone⟩ := Classical.not_imp.mp radix
    obtain ⟨n, found⟩ := Option.ne_none_iff_exists'.mp noNone
    obtain ⟨r, more, whole, found⟩ : ∃ r more, own ++ after = r :: more ∧ radixOf? r = some n := by
      cases whole : own ++ after with
      | nil => rw [whole] at found; cases found
      | cons r more => exact ⟨r, more, rfl, by rwa [whole] at found⟩
    have read (more : List Char) : scan '0' (r :: more) = scanRadix n ['0', r] more := by
      simp only [scan, found]
    rw [whole, read] at h
    obtain ⟨_, _, own', text⟩ := exists_scanRadix n ['0', r] more
    rw [h] at text
    obtain rfl : own = r :: own' := by
      have same := (List.cons.inj text).1
      simp only [Piece.lexeme.injEq, List.cons_append, List.nil_append, List.cons.injEq] at same
      exact same.2.2.2
    rw [List.cons_append, read]
    exact scanRadix_again h rest

end Numeral

end PulseSyntax
