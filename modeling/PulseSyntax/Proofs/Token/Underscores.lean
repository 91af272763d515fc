import PulseSyntax.Proofs.Number.Exact
import PulseSyntax.Proofs.Token.Literals
import PulseSyntax.Proofs.Token.Quoted

namespace PulseSyntax

namespace Numeral

def InRun (c : Char) : Prop := c.isDigit ∨ c = '_'

/-- The parts of a decimal literal: digits and underscores, and a digit first in a fraction and in an
    exponent. -/
structure DecimalText.Formed (d : DecimalText) : Prop where
  whole : ∀ c ∈ d.whole, InRun c
  fraction : d.fraction = [] ∨ ∃ s run, d.fraction = '.' :: s :: run ∧ s.isDigit ∧ ∀ c ∈ run, InRun c
  exponent : d.exponent = [] ∨ ∃ e sign s run, d.exponent = e :: (sign ++ s :: run) ∧
    (e = 'e' ∨ e = 'E') ∧ (sign = [] ∨ sign = ['+'] ∨ sign = ['-']) ∧ s.isDigit ∧ ∀ c ∈ run, InRun c

theorem digitRun_append {own rest : List Char} (all : ∀ c ∈ own, InRun c)
    (ends : ∀ c ∈ rest.head?, ¬ InRun c) : digitRun (own ++ rest) = own := by
  have own' : ∀ c ∈ own, (c.isDigit || c == '_') = true := fun c member => by
    simpa [InRun] using all c member
  rw [Numeral.digitRun, List.takeWhile_append_of_pos own']
  cases rest with
  | nil => simp
  | cons d rest =>
    rw [List.takeWhile_cons_of_neg (by simpa [InRun] using ends d rfl), List.append_nil]

theorem inRun_digitRun (text : List Char) : ∀ c ∈ digitRun text, InRun c := fun c member => by
  simpa [InRun] using List.mem_takeWhile_imp member

theorem digitRun_of_all {own : List Char} (all : ∀ c ∈ own, InRun c) : digitRun own = own := by
  have alone : digitRun (own ++ []) = own := digitRun_append all nofun
  rwa [List.append_nil] at alone

theorem fractionPart_of_head {text : List Char} (noPoint : ∀ c ∈ text.head?, c ≠ '.') :
    fractionPart text = [] := by
  fun_cases fractionPart text with
  | case1 => exact absurd rfl (noPoint '.' rfl)
  | case2 | case3 => rfl

theorem inRun_cons {s : Char} {run : List Char} (digit : s.isDigit) (all : ∀ c ∈ run, InRun c) :
    ∀ c ∈ s :: run, InRun c := List.forall_mem_cons.mpr ⟨.inl digit, all⟩

theorem digitRun_cons {c : Char} (digit : c.isDigit) (cs : List Char) :
    digitRun (c :: cs) = c :: digitRun cs := List.takeWhile_cons_of_pos (by simp [digit])

namespace DecimalText

theorem formed_read (text : List Char) : (read text).Formed := by
  have fraction (x : List Char) : fractionPart x = [] ∨
      ∃ s run, fractionPart x = '.' :: s :: run ∧ s.isDigit ∧ ∀ c ∈ run, InRun c := by
    fun_cases fractionPart x with
    | case1 cs next =>
      cases cs with
      | nil => cases next
      | cons s cs => exact .inr ⟨s, _, by rw [digitRun_cons next], next, inRun_digitRun cs⟩
    | case2 => exact .inl rfl
    | case3 => exact .inl rfl
  have exponent (x : List Char) : exponentPart x = [] ∨ ∃ e sign s run,
      exponentPart x = e :: (sign ++ s :: run) ∧ (e = 'e' ∨ e = 'E') ∧
        (sign = [] ∨ sign = ['+'] ∨ sign = ['-']) ∧ s.isDigit ∧ ∀ c ∈ run, InRun c := by
    fun_cases exponentPart x with
    | case1 e letter s r digit =>
      refine .inr ⟨e, [], s, _, by rw [digitRun_cons digit]; rfl, ?_, .inl rfl, digit, inRun_digitRun r⟩
      simpa using letter
    | case2 e letter s r _ next =>
      rw [Bool.and_eq_true, Bool.or_eq_true, beq_iff_eq, beq_iff_eq] at next
      obtain ⟨sign, next⟩ := next
      cases r with
      | nil => cases next
      | cons d r =>
        refine .inr ⟨e, [s], d, _, by rw [digitRun_cons next]; rfl, ?_, ?_, next, inRun_digitRun r⟩
        · simpa using letter
        · rcases sign with rfl | rfl <;> simp
    | case3 | case4 | case5 | case6 => exact .inl rfl
  exact ⟨inRun_digitRun text, fraction _, exponent _⟩

theorem Formed.read_text {d : DecimalText} (h : d.Formed) : read d.text = d := by
  obtain ⟨whole, fraction, exponent⟩ := d
  obtain ⟨inRun, formedFraction, formedExponent⟩ := h
  dsimp only at inRun formedFraction formedExponent
  have headExponent : ∀ c ∈ exponent.head?, ¬ InRun c ∧ c ≠ '.' := by
    obtain rfl | ⟨e, sign, s, run, rfl, rfl | rfl, -⟩ := formedExponent
    · nofun
    all_goals
      rintro c ⟨⟩
      simp [InRun]
  have headFraction : ∀ c ∈ (fraction ++ exponent).head?, ¬ InRun c := by
    obtain rfl | ⟨s, run, rfl, -⟩ := formedFraction
    · exact fun c first => (headExponent c first).1
    · rintro c ⟨⟩
      simp [InRun]
  have wholeRead : digitRun (whole ++ (fraction ++ exponent)) = whole :=
    digitRun_append inRun headFraction
  have fractionRead : fractionPart (fraction ++ exponent) = fraction := by
    obtain rfl | ⟨s, run, rfl, digit, all⟩ := formedFraction
    · exact fractionPart_of_head fun c first => (headExponent c first).2
    · have read := digitRun_append (inRun_cons digit all) fun c first => (headExponent c first).1
      rw [List.cons_append, fractionPart, if_pos (by exact digit), read]
  have exponentRead : exponentPart exponent = exponent := by
    obtain rfl | ⟨e, sign, s, run, rfl, letter, signs, digit, all⟩ := formedExponent
    · rfl
    · have mark : (e == 'e' || e == 'E') = true := by simpa using letter
      have read := digitRun_of_all (inRun_cons digit all)
      rcases signs with rfl | rfl | rfl <;> simp [exponentPart, mark, digit, read]
  rw [text, List.append_assoc, read, wholeRead, List.drop_left, fractionRead, List.drop_left,
    exponentRead]

end DecimalText

theorem withoutUnderscores_cons {c : Char} (other : c ≠ '_') (cs : List Char) :
    withoutUnderscores (c :: cs) = c :: withoutUnderscores cs :=
  List.filter_cons_of_pos (bne_iff_ne.mpr other)

theorem withoutUnderscores_append (x y : List Char) :
    withoutUnderscores (x ++ y) = withoutUnderscores x ++ withoutUnderscores y := List.filter_append ..

theorem withoutUnderscores_twice (x : List Char) :
    withoutUnderscores (withoutUnderscores x) = withoutUnderscores x := by
  simp [withoutUnderscores]

theorem ne_underscore {c : Char} (digit : c.isDigit) : c ≠ '_' := by
  rintro rfl
  cases digit

theorem inRun_withoutUnderscores {run : List Char} (all : ∀ c ∈ run, InRun c) :
    ∀ c ∈ withoutUnderscores run, InRun c := fun c member => all c (List.mem_of_mem_filter member)

namespace DecimalText

def without (d : DecimalText) : DecimalText :=
  ⟨withoutUnderscores d.whole, withoutUnderscores d.fraction, withoutUnderscores d.exponent⟩

theorem text_without (d : DecimalText) : d.without.text = withoutUnderscores d.text := by
  simp only [text, without, withoutUnderscores_append]

variable {d : DecimalText}

theorem Formed.without (h : d.Formed) : d.without.Formed where
  whole := inRun_withoutUnderscores h.whole
  fraction := by
    refine h.fraction.imp (fun none => by rw [DecimalText.without, none]; rfl) ?_
    rintro ⟨s, run, own, digit, all⟩
    refine ⟨s, withoutUnderscores run, ?_, digit, inRun_withoutUnderscores all⟩
    rw [DecimalText.without, own, withoutUnderscores_cons (by decide),
      withoutUnderscores_cons (ne_underscore digit)]
  exponent := by
    refine h.exponent.imp (fun none => by rw [DecimalText.without, none]; rfl) ?_
    rintro ⟨e, sign, s, run, own, letter, signs, digit, all⟩
    refine ⟨e, sign, s, withoutUnderscores run, ?_, letter, signs, digit, inRun_withoutUnderscores all⟩
    have visible : e ≠ '_' := by rcases letter with rfl | rfl <;> decide
    have same : withoutUnderscores sign = sign := by rcases signs with rfl | rfl | rfl <;> rfl
    rw [DecimalText.without, own, withoutUnderscores_cons visible, withoutUnderscores_append, same,
      withoutUnderscores_cons (ne_underscore digit)]

theorem exponentValue_digit {whole fraction : List Char} {e s : Char} (digit : s.isDigit)
    (run : List Char) : exponentValue ⟨whole, fraction, e :: s :: run⟩ =
      ofDigits 10 (withoutUnderscores (s :: run)) := by
  have plus : s ≠ '+' := by rintro rfl; cases digit
  have minus : s ≠ '-' := by rintro rfl; cases digit
  unfold exponentValue
  split <;> simp_all

theorem Formed.exponentValue_without (h : d.Formed) : d.without.exponentValue = d.exponentValue := by
  obtain ⟨whole, fraction, exponent⟩ := d
  obtain none | ⟨e, sign, s, run, own, letter, signs, digit, -⟩ := h.exponent
  · subst none
    rfl
  · subst own
    have visible : e ≠ '_' := by rcases letter with rfl | rfl <;> decide
    have first := ne_underscore digit
    have digits : withoutUnderscores (withoutUnderscores (s :: run)) = withoutUnderscores (s :: run) :=
      withoutUnderscores_twice _
    rcases signs with rfl | rfl | rfl
    · rw [List.nil_append, exponentValue_digit digit, DecimalText.without,
        withoutUnderscores_cons visible, withoutUnderscores_cons first, exponentValue_digit digit,
        ← withoutUnderscores_cons first, digits]
    all_goals
      rw [List.singleton_append, DecimalText.without, withoutUnderscores_cons visible,
        withoutUnderscores_cons (by decide)]
      simp only [exponentValue, digits]

theorem Formed.value_without (h : d.Formed) : d.without.value = d.value := by
  have places : withoutUnderscores (d.without.fraction.drop 1) =
      withoutUnderscores (d.fraction.drop 1) := by
    obtain none | ⟨s, run, own, -⟩ := h.fraction
    · rw [DecimalText.without, none]
      rfl
    · rw [DecimalText.without, own, withoutUnderscores_cons (by decide)]
      exact withoutUnderscores_twice _
  rw [value, value, places, h.exponentValue_without, DecimalText.without, withoutUnderscores_twice]

theorem Formed.radixOf?_eq_none (h : d.Formed) : ∀ c ∈ d.text, radixOf? c = none := by
  have inRun {c : Char} (h : InRun c) : radixOf? c = none := by
    rcases h with digit | rfl
    · exact Numeral.radixOf?_eq_none (.inl digit)
    · rfl
  have run {s : Char} {run : List Char} (digit : s.isDigit) (all : ∀ c ∈ run, InRun c) :
      ∀ c ∈ s :: run, radixOf? c = none := fun c member => inRun (inRun_cons digit all c member)
  rw [text]
  refine List.forall_mem_append.mpr ⟨List.forall_mem_append.mpr ⟨fun c m => inRun (h.whole c m), ?_⟩, ?_⟩
  · obtain none | ⟨s, rest, own, digit, all⟩ := h.fraction
    · simp [none]
    · rw [own]
      exact List.forall_mem_cons.mpr ⟨rfl, run digit all⟩
  · obtain none | ⟨e, sign, s, rest, own, letter, signs, digit, all⟩ := h.exponent
    · simp [none]
    · rw [own]
      refine List.forall_mem_cons.mpr ⟨?_, List.forall_mem_append.mpr ⟨?_, run digit all⟩⟩
      · rcases letter with rfl | rfl <;> rfl
      · rcases signs with rfl | rfl | rfl <;> simp [radixOf?]

end DecimalText

theorem DecimalText.exists_head {c : Char} {cs : List Char} (starts : startsHere c cs) :
    ∃ ds, (read (c :: cs)).without.text = c :: ds ∧ startsHere c ds := by
  by_cases digit : c.isDigit
  · have whole : (read (c :: cs)).whole = c :: digitRun cs := digitRun_cons digit cs
    rw [text, DecimalText.without, whole, withoutUnderscores_cons (ne_underscore digit)]
    exact ⟨_, rfl, by simp [startsHere, digit]⟩
  · obtain ⟨rfl, next⟩ : c = '.' ∧ cs.head?.any (·.isDigit) := by
      simpa [startsHere, digit] using starts
    cases cs with
    | nil => cases next
    | cons s r =>
      have whole : (read ('.' :: s :: r)).whole = [] := rfl
      have fraction : (read ('.' :: s :: r)).fraction = '.' :: s :: digitRun r := by
        rw [← digitRun_cons next r]
        exact if_pos next
      rw [text, DecimalText.without, whole, fraction, withoutUnderscores_cons (by decide),
        withoutUnderscores_cons (ne_underscore next)]
      have point : startsHere '.' (s :: withoutUnderscores (digitRun r) ++
          withoutUnderscores (read ('.' :: s :: r)).exponent) := by
        simpa [startsHere] using next
      exact ⟨_, rfl, point⟩

theorem scanDecimal_text {d : DecimalText} (h : d.Formed) :
    scanDecimal d.text = [.lexeme .number (.number d.value) d.text] := by
  have ends : d.text.drop d.text.length = [] := List.drop_length
  simp only [scanDecimal, h.read_text, ends, hasBigMark, Bool.and_false, Bool.false_eq_true,
    ↓reduceIte]

theorem scanDecimal_withoutUnderscores {c : Char} {cs own : List Char} {value : TokenValue}
    (starts : startsHere c cs) (h : scanDecimal (c :: cs) = [.lexeme .number value own]) :
    ∃ d ds, withoutUnderscores own = d :: ds ∧ startsHere d ds ∧
      scan d ds = [.lexeme .number value (d :: ds)] := by
  have formed := DecimalText.formed_read (c :: cs)
  obtain ⟨ds, text, first⟩ := DecimalText.exists_head starts
  have noRadix : c = '0' → ds.head?.bind radixOf? = none := by
    intro _
    cases ds with
    | nil => rfl
    | cons e ds => exact formed.without.radixOf?_eq_none e (by simp [text])
  have again := scanDecimal_text formed.without
  rw [formed.value_without, text] at again
  simp only [scanDecimal] at h
  split at h
  · cases h
  · cases h
    exact ⟨c, ds, by rw [← DecimalText.text_without, text], first,
      by rw [scan_eq_decimal noRadix, again]⟩

theorem scanRadix_withoutUnderscores {mark : Char} {radix : Nat} {rest own : List Char}
    {value : TokenValue} (named : radixOf? mark = some radix)
    (h : scan '0' (mark :: rest) = [.lexeme .number value own]) :
    ∃ digits, withoutUnderscores own = '0' :: mark :: digits ∧
      scan '0' (mark :: digits) = [.lexeme .number value ('0' :: mark :: digits)] := by
  let inRun (c : Char) : Bool := isDigit radix c || c == '_'
  have literal : IsRadixLiteral radix mark (rest.takeWhile inRun) :=
    ⟨named, fun _ member => (List.mem_takeWhile_imp member : inRun _ = true)⟩
  have ends : ∀ c ∈ (rest.dropWhile inRun).head?, inRun c = false := by
    intro c first
    have stops := List.head?_dropWhile_not inRun rest
    rw [first] at stops
    exact stops
  rw [← List.takeWhile_append_dropWhile (p := inRun) (l := rest), literal.scan ends] at h
  generalize rest.takeWhile inRun = run at literal h
  have visible : mark ≠ '_' := (radixOf?_eq_some named).2.2
  have alone : IsRadixLiteral radix mark (withoutUnderscores run) :=
    ⟨named, fun c member => literal.run c (List.mem_of_mem_filter member)⟩
  have again : scan '0' (mark :: (withoutUnderscores run ++ [])) = _ := alone.scan nofun
  rw [List.append_nil, withoutUnderscores_twice, if_neg (by decide)] at again
  refine ⟨withoutUnderscores run, ?_⟩
  split at h
  · cases h
  · split at h
    · next n small =>
      cases h
      rw [withoutUnderscores_cons (by decide), withoutUnderscores_cons visible, again, small]
      exact ⟨rfl, rfl⟩
    · cases h

theorem scan_withoutUnderscores {c : Char} {cs own : List Char} {value : TokenValue}
    (starts : startsHere c cs) (h : scan c cs = [.lexeme .number value own]) :
    ∃ d ds, withoutUnderscores own = d :: ds ∧ startsHere d ds ∧
      scan d ds = [.lexeme .number value (d :: ds)] := by
  by_cases radix : c = '0' → cs.head?.bind radixOf? = none
  · rw [scan_eq_decimal radix] at h
    exact scanDecimal_withoutUnderscores starts h
  · obtain ⟨rfl, noNone⟩ := Classical.not_imp.mp radix
    obtain ⟨n, found⟩ := Option.ne_none_iff_exists'.mp noNone
    cases cs with
    | nil => cases found
    | cons mark rest =>
      obtain ⟨digits, text, again⟩ := scanRadix_withoutUnderscores found h
      exact ⟨_, _, text, rfl, again⟩

/-- What the digits of a literal with a radix are read as: a number up to 64 bits, exact up to 53 and
    the nearest one of the format from there, and nothing valid otherwise. -/
structure ReadsDigits (radix : Nat) (digits : List Char) (kind : TokenKind) (value : TokenValue) :
    Prop where
  invalid : kind = .invalid ↔ digits = [] ∨ 2 ^ 64 ≤ positional radix digits
  number : kind = .number ↔ digits ≠ [] ∧ positional radix digits < 2 ^ 64
  nearest : kind = .number → ∃ m k, value = .number (.finite m k) ∧
    Binary64.IsNearest (positional radix digits) 1 m k ∧
    (positional radix digits < 2 ^ 53 → m * 2 ^ k = positional radix digits * 2 ^ 1074)

theorem IsRadixLiteral.reads {radix : Nat} {mark : Char} {run rest : List Char}
    (h : IsRadixLiteral radix mark run)
    (ends : ∀ c ∈ rest.head?, (isDigit radix c || c == '_') = false)
    (noMark : hasBigMark rest = false) :
    ∃ kind value, Numeral.scan '0' (mark :: (run ++ rest)) =
      [.lexeme kind value ('0' :: mark :: run)] ∧
        ReadsDigits radix (withoutUnderscores run) kind value := by
  rw [h.scan ends, if_neg (by simp [noMark])]
  cases small : ofDigitsBelow? radix (2 ^ 64) (withoutUnderscores run) with
  | none =>
    have bad := ofDigitsBelow?_eq_none.mp small
    refine ⟨_, _, rfl, iff_of_true rfl bad, iff_of_false nofun ?_, nofun⟩
    rintro ⟨some, below⟩
    exact bad.elim some (Nat.not_le.mpr below)
  | some n =>
    obtain ⟨good, rfl⟩ := ofDigitsBelow?_eq_some.mp small
    refine ⟨_, _, rfl, iff_of_false nofun ?_, iff_of_true rfl good, fun _ => ?_⟩
    · rintro (none | large)
      · exact good.1 none
      · exact Nat.not_le.mpr good.2 large
    · obtain ⟨m, k, rounded⟩ := Binary64.ofNat_finite good.2
      refine ⟨m, k, by rw [rounded], Binary64.ofRatio_nearest Nat.one_pos rounded, fun small => ?_⟩
      obtain ⟨m', k', own, exact_⟩ := Binary64.ofNat_exact small
      rw [rounded] at own
      cases own
      exact exact_

end Numeral

namespace Lexer

open Numeral

theorem tokens_number {c : Char} {cs : List Char} {kind : TokenKind} {value : TokenValue}
    (starts : startsHere c cs) (h : Numeral.scan c cs = [.lexeme kind value (c :: cs)]) :
    tokens (c :: cs) = [⟨kind, value, String.ofList (c :: cs), Position.origin.place (c :: cs)⟩,
      .endOfFile (Position.origin.after (c :: cs))] := by
  have scanned : scan .initial c (cs ++ []) = [.lexeme kind value (c :: cs)] := by
    rw [List.append_nil, scan_number starts, h]
  have read := place_lexeme scanned .origin
  rw [List.append_nil] at read
  exact read

theorem exists_scan_number {source : String} {t : Token} (member : t ∈ tokenize source)
    (kind : t.kind = .number) : ∃ c cs own, startsHere c cs ∧
      Numeral.scan c cs = [.lexeme .number t.value own] ∧ t.raw = String.ofList own := by
  obtain ⟨before, own, rest, whole, raw, -⟩ := exists_piece_of_mem member (by simp [kind])
  have inside : .lexeme t.kind t.value own ∈ pieces .initial 0 source.toList := by simp [whole]
  obtain ⟨ctx, c, cs, member⟩ := exists_scan_of_mem inside
  rw [kind] at member
  have scanned := scanned_scan ctx c cs
  generalize scan ctx c cs = ps at scanned member
  cases scanned with
  | bare h => exact absurd (h _ member) (by simp)
  | number starts =>
    obtain ⟨_, _, _, read, -⟩ := counts_number c cs
    rw [read, List.mem_singleton] at member
    exact ⟨c, cs, own, starts, by rw [read, member], raw⟩
  | symbol =>
    unfold scanSymbol at member
    split at member <;> simp at member
  | string =>
    unfold Quoted.scanString at member
    split at member <;> simp at member
  | template =>
    unfold Quoted.scanTemplate at member
    split at member <;> simp at member

/-- A literal with a radix is read whole, as the number that its digits denote. Any number of a source
    is the only token, with the same value, of its text without the underscores. -/
theorem scan_numerals :
    (∀ {radix : Nat} {mark : Char} {run rest : List Char}, IsRadixLiteral radix mark run →
      (∀ c ∈ rest.head?, (isDigit radix c || c == '_') = false) → hasBigMark rest = false →
      ∀ ctx, ∃ kind value,
        scan ctx '0' (mark :: (run ++ rest)) = [.lexeme kind value ('0' :: mark :: run)] ∧
          ReadsDigits radix (withoutUnderscores run) kind value) ∧
      ∀ {source : String} {t : Token}, t ∈ tokenize source → t.kind = .number →
        tokenize (String.ofList (withoutUnderscores t.raw.toList)) =
          [⟨.number, t.value, String.ofList (withoutUnderscores t.raw.toList),
              Position.origin.place (withoutUnderscores t.raw.toList)⟩,
            .endOfFile (Position.origin.after (withoutUnderscores t.raw.toList))] := by
  constructor
  · intro radix mark run rest literal ends noMark ctx
    rw [scan_number rfl]
    exact literal.reads ends noMark
  · intro source t member kind
    obtain ⟨c, cs, own, starts, read, raw⟩ := exists_scan_number member kind
    obtain ⟨d, ds, text, first, again⟩ := scan_withoutUnderscores starts read
    rw [raw, String.toList_ofList, text, tokenize, String.toList_ofList]
    exact tokens_number first again

theorem scan_numerals_underscores :
    (∃ kind value, scan .initial '0' "xFF_FF".toList = [.lexeme kind value "0xFF_FF".toList] ∧
      ReadsDigits 16 ['F', 'F', 'F', 'F'] kind value) ∧
    ∃ t ∈ tokenize "x 1_000.5_0e1", t.kind = .number ∧
      (tokenize "1000.50e1").map Token.value = [t.value, .none] := by
  constructor
  · exact scan_numerals.1
      (⟨rfl, List.all_eq_true.mp (by decide)⟩ : IsRadixLiteral 16 'x' "FF_FF".toList)
      (nofun : ∀ c ∈ ([] : List Char).head?, _) rfl .initial
  · generalize ht : (tokenize "x 1_000.5_0e1").getD 1 (.endOfFile .origin) = t
    have member : t ∈ tokenize "x 1_000.5_0e1" := by
      subst ht
      decide +kernel
    have kind : t.kind = .number := by
      subst ht
      decide +kernel
    have raw : withoutUnderscores t.raw.toList = "1000.50e1".toList := by
      subst ht
      decide +kernel
    have alone := scan_numerals.2 member kind
    rw [raw, String.ofList_toList] at alone
    exact ⟨t, member, kind, by rw [alone]; rfl⟩

end Lexer

end PulseSyntax
