import Mathlib.Data.Nat.Digits.Defs
import PulseSyntax.Proofs.Token.Quoted
import PulseSyntax.Proofs.Token.Spelled

namespace PulseSyntax

namespace Numeral

/-- The number that digits denote in a radix; the last of them counts ones. -/
def positional (radix : Nat) (digits : List Char) : Nat :=
  Nat.ofDigits radix (digits.map fun c => (digitValue? c).getD 0).reverse

theorem positional_append (radix : Nat) (digits : List Char) (c : Char) :
    positional radix (digits ++ [c]) = positional radix digits * radix + (digitValue? c).getD 0 := by
  simp only [positional, List.map_append, List.map_singleton, List.reverse_append,
    List.reverse_singleton, List.singleton_append, Nat.ofDigits_cons]
  rw [Nat.add_comm, Nat.mul_comm]

theorem ofDigits_eq (radix : Nat) (digits : List Char) :
    ofDigits radix digits = positional radix digits := by
  induction digits using List.reverseRecOn with
  | nil => rfl
  | append_singleton digits c ih =>
    rw [positional_append, ← ih, ofDigits, ofDigits, List.foldl_append]
    rfl

theorem ofDigitsBelow?_eq_none {radix bound : Nat} {digits : List Char} :
    ofDigitsBelow? radix bound digits = none ↔
      digits = [] ∨ bound ≤ positional radix digits := by
  simp only [ofDigitsBelow?, ofDigits_eq, ite_eq_left_iff, Bool.or_eq_true, List.isEmpty_iff,
    decide_eq_true_eq, reduceCtorEq, imp_false, not_not]

theorem ofDigitsBelow?_eq_some {radix bound n : Nat} {digits : List Char} :
    ofDigitsBelow? radix bound digits = some n ↔
      (digits ≠ [] ∧ positional radix digits < bound) ∧ positional radix digits = n := by
  simp only [ofDigitsBelow?, ofDigits_eq, Option.ite_none_left_eq_some, Bool.or_eq_true,
    List.isEmpty_iff, decide_eq_true_eq, not_or, Nat.not_le, Option.some.injEq, ne_eq]

theorem digitValue?_lt {c : Char} {n : Nat} (h : digitValue? c = some n) : n < 16 := by
  have toNat_le {c d : Char} (le : c ≤ d) : c.toNat ≤ d.toNat := UInt32.le_iff_toNat_le.mp le
  unfold digitValue? at h
  split at h
  · next range =>
    have high : c.toNat ≤ 57 := toNat_le range.2
    have value : c.toNat - 48 = n := Option.some.inj h
    omega
  split at h
  · next range =>
    have high : c.toNat ≤ 102 := toNat_le range.2
    have value : c.toNat - 97 + 10 = n := Option.some.inj h
    omega
  split at h
  · next range =>
    have high : c.toNat ≤ 70 := toNat_le range.2
    have value : c.toNat - 65 + 10 = n := Option.some.inj h
    omega
  · cases h

theorem positional_lt_of_eq {radix other : Nat} (less : radix < other) {digits : List Char}
    (same : positional radix digits = positional other digits) : positional radix digits < 16 := by
  rcases List.eq_nil_or_concat' digits with rfl | ⟨first, c, rfl⟩
  · exact Nat.succ_pos 15
  have le : positional radix first ≤ positional other first :=
    Nat.ofDigits_monotone _ (Nat.le_of_lt less)
  rw [positional_append, positional_append, Nat.add_right_cancel_iff] at same
  rw [positional_append]
  have none : positional radix first = 0 := by
    by_contra some
    have wide : positional radix first * radix < positional other first * other := by
      calc positional radix first * radix < positional radix first * other :=
            Nat.mul_lt_mul_of_pos_left less (Nat.pos_of_ne_zero some)
        _ ≤ positional other first * other := Nat.mul_le_mul_right other le
    omega
  rw [none, Nat.zero_mul, Nat.zero_add]
  cases value : digitValue? c with
  | none => decide
  | some n => exact digitValue?_lt value

/-- A zero, the letter of a radix, and digits of that radix with underscores among them. -/
structure IsRadixLiteral (radix : Nat) (mark : Char) (run : List Char) : Prop where
  mark : radixOf? mark = some radix
  run : ∀ c ∈ run, isDigit radix c || c == '_'

/-- What stands before the digits of a whole number literal, and its digits. -/
inductive IsWhole : Nat → List Char → List Char → Prop
  | decimal {d : Char} {run : List Char} : d.isDigit → (∀ c ∈ run, c.isDigit || c == '_') →
      IsWhole 10 [] (d :: run)
  | radix {radix : Nat} {mark : Char} {run : List Char} : IsRadixLiteral radix mark run →
      IsWhole radix ['0', mark] run

theorem radixOf?_eq_some {mark : Char} {radix : Nat} (h : radixOf? mark = some radix) :
    radix ≠ 10 ∧ radix ≤ 16 ∧ mark ≠ '_' := by
  unfold radixOf? at h
  simp only [Bool.or_eq_true, beq_iff_eq] at h
  split at h
  · next hex => rcases hex with rfl | rfl <;> cases h <;> decide
  split at h
  · next binary => rcases binary with rfl | rfl <;> cases h <;> decide
  split at h
  · next octal => rcases octal with rfl | rfl <;> cases h <;> decide
  · cases h

variable {radix : Nat} {mark : Char} {run rest : List Char}

theorem IsRadixLiteral.scan (h : IsRadixLiteral radix mark run)
    (ends : ∀ c ∈ rest.head?, (isDigit radix c || c == '_') = false) :
    scan '0' (mark :: (run ++ rest)) =
      if hasBigMark rest then
        [.lexeme .bigInt (.bigInt (String.ofList
          (((ofDigitsBelow? radix (2 ^ 128) (withoutUnderscores run)).map (Nat.toDigits 10)).getD
            (withoutUnderscores run) ++ ['n']))) ('0' :: mark :: (run ++ ['n']))]
      else match ofDigitsBelow? radix (2 ^ 64) (withoutUnderscores run) with
        | some n => [.lexeme .number (.number (.ofNat n)) ('0' :: mark :: run)]
        | none => [.invalid ("Invalid number literal '" ++
            String.ofList ('0' :: mark :: run) ++ "'") ('0' :: mark :: run)] := by
  have whole : (run ++ rest).takeWhile (fun c => isDigit radix c || c == '_') = run := by
    rw [List.takeWhile_append_of_pos h.run]
    cases rest with
    | nil => simp
    | cons c rest => rw [List.takeWhile_cons_of_neg (by simpa using ends c rfl), List.append_nil]
  simp only [Numeral.scan, h.mark, scanRadix, whole, List.drop_left, Nat.pow_eq]
  cases ofDigitsBelow? radix (2 ^ 128) (withoutUnderscores run) <;> rfl

theorem read_whole {own : List Char} (all : ∀ c ∈ own, c.isDigit || c == '_') (rest : List Char) :
    DecimalText.read (own ++ 'n' :: rest) = ⟨own, [], []⟩ := by
  have whole : digitRun (own ++ 'n' :: rest) = own := by
    rw [digitRun, List.takeWhile_append_of_pos all, List.takeWhile_cons_of_neg (by decide),
      List.append_nil]
  have noExponent : exponentPart ('n' :: rest) = [] := rfl
  have noFraction : fractionPart ('n' :: rest) = [] := rfl
  simp only [DecimalText.read, whole, List.drop_left, noFraction, List.length_nil, List.drop_zero,
    noExponent]

theorem scanDecimal_whole {own : List Char} (all : ∀ c ∈ own, c.isDigit || c == '_')
    (rest : List Char) :
    scanDecimal (own ++ 'n' :: rest) =
      if hasBigMark ('n' :: rest) then
        [.lexeme .bigInt (.bigInt (String.ofList (withoutUnderscores own ++ ['n']))) (own ++ ['n'])]
      else [.lexeme .number (.number (DecimalText.value ⟨own, [], []⟩)) own] := by
  simp only [scanDecimal, read_whole all, DecimalText.text, List.append_nil, List.isEmpty_nil,
    Bool.true_and, List.drop_left]

/-- The text is that of a number in decimal digits, with the mark. -/
def Denotes (text : List Char) (n : Nat) : Prop :=
  ∃ digits, text = digits ++ ['n'] ∧ digits ≠ [] ∧ (∀ c ∈ digits, c.isDigit) ∧ positional 10 digits = n

theorem denotes_toDigits (n : Nat) : Denotes (Nat.toDigits 10 n ++ ['n']) n := by
  refine ⟨_, rfl, Nat.toDigits_ne_nil, isDigit_of_mem_toDigits n, ?_⟩
  rw [← ofDigits_eq, ← withoutUnderscores_digits (isDigit_of_mem_toDigits n)]
  exact ofDigits_toDigits n

theorem denotes_digits {digits : List Char} {n : Nat} :
    Denotes (digits ++ ['n']) n ↔
      digits ≠ [] ∧ (∀ c ∈ digits, c.isDigit) ∧ positional 10 digits = n := by
  constructor
  · rintro ⟨own, same, denoted⟩
    rwa [List.append_cancel_right same]
  · exact fun denoted => ⟨digits, rfl, denoted⟩

theorem denotes_run {d : Char} (digit : d.isDigit) (all : ∀ c ∈ run, c.isDigit || c == '_') :
    Denotes (withoutUnderscores (d :: run) ++ ['n'])
      (positional 10 (withoutUnderscores (d :: run))) := by
  have noUnderscore : d ≠ '_' := by
    rintro rfl
    cases digit
  have own : withoutUnderscores (d :: run) = d :: withoutUnderscores run :=
    List.filter_cons_of_pos (bne_iff_ne.mpr noUnderscore)
  rw [denotes_digits, own]
  refine ⟨List.cons_ne_nil _ _, List.forall_mem_cons.mpr ⟨digit, fun c member => ?_⟩, rfl⟩
  obtain ⟨inRun, noUnderscore⟩ := List.mem_filter.mp member
  simpa [bne_iff_ne.mp noUnderscore] using all c inRun

theorem not_denotes_digits {digits : List Char} (named : radixOf? mark = some radix)
    (kept : ofDigitsBelow? radix (2 ^ 128) digits = none) :
    ¬ Denotes (digits ++ ['n']) (positional radix digits) := by
  intro denotes
  obtain ⟨some, -, same⟩ := denotes_digits.mp denotes
  have wide := (ofDigitsBelow?_eq_none.mp kept).resolve_left some
  have other := (radixOf?_eq_some named).1
  have single : positional radix digits < 16 := by
    rcases Nat.lt_or_gt_of_ne other with less | less
    · exact positional_lt_of_eq less same.symm
    · exact same ▸ positional_lt_of_eq less same
  omega

end Numeral

namespace Lexer

open Numeral

variable {radix : Nat} {mark d c : Char} {lead run rest cs own : List Char} {value : TokenValue}

theorem scan_decimal_bigInt (digit : d.isDigit) (all : ∀ c ∈ run, c.isDigit || c == '_')
    (ctx : Context) (yields : .lexeme .bigInt value own ∈ scan ctx d (run ++ 'n' :: rest)) :
    own = d :: run ++ ['n'] ∧
      value = .bigInt (String.ofList (withoutUnderscores (d :: run) ++ ['n'])) := by
  have noRadix : d = '0' → (run ++ 'n' :: rest).head?.bind radixOf? = none := by
    intro _
    cases run with
    | nil => rfl
    | cons e run =>
      have first := all e (.head _)
      rw [Bool.or_eq_true, beq_iff_eq] at first
      rcases first with digit | rfl
      · exact radixOf?_eq_none (.inl digit)
      · rfl
  have inRun : ∀ c ∈ d :: run, c.isDigit || c == '_' :=
    List.forall_mem_cons.mpr ⟨by simp [digit], all⟩
  rw [scan_number (by simp [startsHere, digit]), scan_eq_decimal noRadix, ← List.cons_append,
    scanDecimal_whole inRun] at yields
  split at yields
  · cases List.mem_singleton.mp yields
    exact ⟨rfl, rfl⟩
  · cases List.mem_singleton.mp yields

theorem scan_radix_bigInt (h : IsRadixLiteral radix mark run) (ctx : Context)
    (yields : .lexeme .bigInt value own ∈ scan ctx '0' (mark :: (run ++ 'n' :: rest))) :
    own = ['0', mark] ++ run ++ ['n'] ∧
      value = .bigInt (String.ofList
        (((ofDigitsBelow? radix (2 ^ 128) (withoutUnderscores run)).map (Nat.toDigits 10)).getD
          (withoutUnderscores run) ++ ['n'])) := by
  have ends : ∀ c ∈ ('n' :: rest).head?, (isDigit radix c || c == '_') = false := by
    intro c first
    cases first
    rfl
  rw [scan_number rfl, h.scan ends] at yields
  split at yields
  · cases List.mem_singleton.mp yields
    exact ⟨rfl, rfl⟩
  · split at yields <;> cases List.mem_singleton.mp yields

/-- A literal with the mark for numbers of any size is cut off whole. What it is kept as denotes the
    number that is written, if this is a decimal number or one of up to 128 bits in a radix; the digits
    of a larger one, or none at all, are kept as they stand and denote something else. -/
theorem scan_bigInt (whole : IsWhole radix lead run) (ctx : Context)
    (text : lead ++ run ++ 'n' :: rest = c :: cs)
    (yields : .lexeme .bigInt value own ∈ scan ctx c cs) :
    own = lead ++ run ++ ['n'] ∧ ∃ kept, value = .bigInt (String.ofList kept) ∧
      (Denotes kept (positional radix (withoutUnderscores run)) ↔
        lead = [] ∨ withoutUnderscores run ≠ [] ∧
          positional radix (withoutUnderscores run) < 2 ^ 128) := by
  cases whole with
  | decimal digit all =>
    cases text
    obtain ⟨rfl, rfl⟩ := scan_decimal_bigInt digit all ctx yields
    exact ⟨rfl, _, rfl, iff_of_true (denotes_run digit all) (.inl rfl)⟩
  | radix literal =>
    cases text
    rw [List.append_eq] at yields
    obtain ⟨rfl, rfl⟩ := scan_radix_bigInt literal ctx yields
    refine ⟨rfl, _, rfl, ?_⟩
    cases small : ofDigitsBelow? radix (2 ^ 128) (withoutUnderscores run) with
    | none =>
      refine iff_of_false (not_denotes_digits literal.mark small) ?_
      have large := ofDigitsBelow?_eq_none.mp small
      rintro (none | ⟨some, fits⟩)
      · cases none
      · exact large.elim some (Nat.not_le.mpr fits)
    | some n =>
      obtain ⟨fits, rfl⟩ := ofDigitsBelow?_eq_some.mp small
      exact iff_of_true (denotes_toDigits _) (.inr fits)

/-- With 33 digits in radix sixteen a literal is the first that is too wide: its digits are kept. -/
theorem scan_bigInt_wide :
    ∃ kept, .lexeme .bigInt (.bigInt (String.ofList kept))
        "0x100000000000000000000000000000000n".toList ∈
          scan .initial '0' "x100000000000000000000000000000000n".toList ∧
      ¬ Denotes kept (2 ^ 128) := by
  have whole : IsWhole 16 ['0', 'x'] "100000000000000000000000000000000".toList :=
    .radix ⟨rfl, List.all_eq_true.mp (by decide +kernel)⟩
  have scanned : scan .initial '0' "x100000000000000000000000000000000n".toList =
      [.lexeme .bigInt (.bigInt "100000000000000000000000000000000n")
        "0x100000000000000000000000000000000n".toList] := by decide +kernel
  have value : positional 16 (withoutUnderscores "100000000000000000000000000000000".toList) =
      2 ^ 128 := by decide +kernel
  have text : ['0', 'x'] ++ "100000000000000000000000000000000".toList ++ ['n'] =
      '0' :: "x100000000000000000000000000000000n".toList := by decide +kernel
  have yields := scanned ▸ List.mem_singleton_self (Piece.lexeme .bigInt
    (.bigInt "100000000000000000000000000000000n") "0x100000000000000000000000000000000n".toList)
  obtain ⟨-, kept, same, denotes⟩ := scan_bigInt whole .initial text yields
  rw [value] at denotes
  refine ⟨kept, same ▸ yields, fun own => ?_⟩
  rcases denotes.mp own with lead | ⟨-, below⟩
  · cases lead
  · exact Nat.lt_irrefl _ below

end Lexer

namespace Quoted

def namedEscapes : List (Char × Char) := [
  ('n', '\n'), ('t', '\t'), ('r', '\r'), ('b', '\x08'), ('f', '\x0c'), ('v', '\x0b'), ('0', '\x00')]

def escapeStarts : List Char := namedEscapes.map Prod.fst ++ ['x', 'u', '\n', '{', '}']

/-- The digits write the code of the character in hexadecimal. -/
structure WriteCode (digits : List Char) (c : Char) : Prop where
  hex : ∀ d ∈ digits, Numeral.isDigit 16 d
  code : Numeral.positional 16 digits = c.toNat

/-- The ways to write a character between quotes. -/
inductive EncodesChar (quote : Char) : List Char → Char → Prop where
  | plain {c : Char} (noBackslash : c ≠ '\\') (noQuote : c ≠ quote) : EncodesChar quote [c] c
  | named {letter c : Char} (named : (letter, c) ∈ namedEscapes) :
      EncodesChar quote ['\\', letter] c
  | bare {c : Char} (bare : c ∉ escapeStarts) : EncodesChar quote ['\\', c] c
  | short {digits : List Char} {c : Char} (code : WriteCode digits c) (two : digits.length = 2) :
      EncodesChar quote ('\\' :: 'x' :: digits) c
  | long {digits : List Char} {c : Char} (code : WriteCode digits c) (four : digits.length = 4) :
      EncodesChar quote ('\\' :: 'u' :: digits) c
  | braced {digits : List Char} {c : Char} (code : WriteCode digits c) (some : digits ≠ []) :
      EncodesChar quote ('\\' :: 'u' :: '{' :: (digits ++ ['}'])) c

/-- The ways to write a text between quotes: its characters one by one, with lines that go on
    anywhere between them. -/
inductive Encodes (quote : Char) : List Char → List Char → Prop where
  | nil : Encodes quote [] []
  | char {own text value : List Char} {c : Char} (first : EncodesChar quote own c)
      (others : Encodes quote text value) : Encodes quote (own ++ text) (c :: value)
  | lineGoesOn {text value : List Char} (others : Encodes quote text value) :
      Encodes quote ('\\' :: '\n' :: text) value

variable {quote c : Char} {digits rest : List Char}

theorem charOfCode?_toNat (c : Char) : charOfCode? c.toNat = some c := by
  have valid : c.toNat.isValidChar := c.valid
  rw [charOfCode?, dif_pos valid]
  rfl

theorem WriteCode.codeValue (h : WriteCode digits c) (some : digits ≠ []) :
    codeValue digits = [c] := by
  have noSign : digits.head? ≠ Option.some '+' := by
    intro sign
    exact absurd (h.hex '+' (List.mem_of_head? sign)) (by decide)
  have all : digits.all (Numeral.isDigit 16) := List.all_eq_true.mpr h.hex
  have nonempty : digits.isEmpty = false := by simpa using some
  simp only [Quoted.codeValue, beq_iff_eq, noSign, ↓reduceIte, nonempty, all, Bool.not_true,
    Bool.or_self, Bool.false_eq_true, Numeral.ofDigits_eq, h.code, Option.bind_some,
    charOfCode?_toNat]

theorem hexDigits_of_length {count : Nat} (all : ∀ d ∈ digits, Numeral.isDigit 16 d)
    (length : digits.length = count) (rest : List Char) :
    hexDigits count (digits ++ rest) = digits := by
  rw [hexDigits, List.take_left' length, List.takeWhile_eq_self_iff.mpr all]

theorem escape_of_bare (bare : c ∉ escapeStarts) (rest : List Char) :
    escape (c :: rest) = ([c], 1) := by
  simp only [escapeStarts, namedEscapes, List.map_cons, List.map_nil, List.cons_append,
    List.nil_append, List.mem_cons, List.not_mem_nil, or_false, not_or] at bare
  have unnamed : named? c = none := by simp [named?, bare]
  simp [escape, bare, unnamed]

theorem escape_short (code : WriteCode digits c) (two : digits.length = 2) (rest : List Char) :
    escape ('x' :: digits ++ rest) = ([c], ('x' :: digits).length) := by
  have some : digits ≠ [] := List.ne_nil_of_length_pos (by omega)
  rw [List.cons_append, escape, hexDigits_of_length code.hex two, code.codeValue some,
    List.length_cons, Nat.add_comm]

theorem escape_long (code : WriteCode digits c) (four : digits.length = 4) (rest : List Char) :
    escape ('u' :: digits ++ rest) = ([c], ('u' :: digits).length) := by
  have some : digits ≠ [] := List.ne_nil_of_length_pos (by omega)
  have noBrace : ∀ cs, digits ++ rest = '{' :: cs → False := by
    intro cs same
    cases digits with
    | nil => exact some rfl
    | cons d digits =>
      obtain rfl := (List.cons.inj same).1
      exact absurd (code.hex '{' List.mem_cons_self) (by decide)
  rw [List.cons_append, escape.eq_7 _ noBrace, hexDigits_of_length code.hex four,
    code.codeValue some, List.length_cons, Nat.add_comm]

theorem escape_braced (code : WriteCode digits c) (some : digits ≠ []) (rest : List Char) :
    escape ('u' :: '{' :: (digits ++ ['}']) ++ rest) =
      ([c], ('u' :: '{' :: (digits ++ ['}'])).length) := by
  have inside : ∀ d ∈ digits, (d != '}') = true := by
    intro d member
    rw [bne_iff_ne]
    rintro rfl
    exact absurd (code.hex '}' member) (by decide)
  have own : (digits ++ '}' :: rest).takeWhile (· != '}') = digits := by
    rw [List.takeWhile_append_of_pos inside, List.takeWhile_cons_of_neg (by simp), List.append_nil]
  have closed : digits.length < (digits ++ '}' :: rest).length := by simp
  have whole : 'u' :: '{' :: (digits ++ ['}']) ++ rest = 'u' :: '{' :: (digits ++ '}' :: rest) := by
    simp
  rw [whole, escape, own, if_pos closed, code.codeValue some]
  simp only [List.length_cons, List.length_append, List.length_nil]
  congr 1
  omega

theorem EncodesChar.spells {own : List Char} (noBackslash : quote ≠ '\\')
    (h : EncodesChar quote own c) : Spells quote own [c] := by
  cases h with
  | plain noEscape noQuote => exact .char noQuote noEscape
  | named named =>
    simp only [namedEscapes, List.mem_cons, Prod.mk.injEq, List.not_mem_nil, or_false] at named
    rcases named with ⟨rfl, rfl⟩ | ⟨rfl, rfl⟩ | ⟨rfl, rfl⟩ | ⟨rfl, rfl⟩ | ⟨rfl, rfl⟩ | ⟨rfl, rfl⟩ |
      ⟨rfl, rfl⟩ <;> exact .escape noBackslash fun _ => rfl
  | bare bare => exact .escape noBackslash (escape_of_bare bare)
  | short code two => exact .escape noBackslash (escape_short code two)
  | long code four => exact .escape noBackslash (escape_long code four)
  | braced code some => exact .escape noBackslash (escape_braced code some)

theorem Encodes.spells {text value : List Char} (noBackslash : quote ≠ '\\')
    (h : Encodes quote text value) : Spells quote text value := by
  induction h with
  | nil => exact .nil
  | char first _ ih => exact (first.spells noBackslash).append ih
  | lineGoesOn _ ih =>
    have continued : Spells quote ['\\', '\n'] [] := .escape noBackslash fun _ => rfl
    exact continued.append ih

end Quoted

namespace Lexer

open Quoted

/-- A literal that spells a text is one string token with that text as its value, whatever stands
    around it, and the tokens go on after it. -/
theorem place_encoded {quote : Char} (delimiter : quote = '"' ∨ quote = '\'') {text : List Char}
    {value : String} (h : Encodes quote text value.toList) (ctx : Context) (p : Position)
    (rest : List Char) :
    place p (pieces ctx 0 (enclose quote text ++ rest)) =
      ⟨.string, .text value, String.ofList (enclose quote text), p.place (enclose quote text)⟩ ::
        place (p.after (enclose quote text))
          (pieces { ctx with lastKind := some .string, lastChar := some quote } 0 rest) := by
  have noBackslash : quote ≠ '\\' := by rcases delimiter with rfl | rfl <;> decide
  rw [place_string delimiter (h.spells noBackslash), stringToken, String.ofList_toList]

/-- A digit after a code of two digits, a line that goes on, a code in braces, and the quote. -/
theorem place_encoded_mixed : ∃ text,
    text = ['\\', 'x', '4', '1', '1', '\\', '\n', '\\', 'u', '{', '1', 'F', '6', '0', '0', '}', '\\',
      '"'] ∧
    Encodes '"' text ['A', '1', '😀', '"'] ∧
    tokens (enclose '"' text) =
      [⟨.string, .text (String.ofList ['A', '1', '😀', '"']), String.ofList (enclose '"' text),
        ⟨1, 1, ⟨0, 20⟩⟩⟩, .endOfFile ⟨20, 2, 13⟩] := by
  have hex {digits : List Char} (all : digits.all (Numeral.isDigit 16)) :
      ∀ d ∈ digits, Numeral.isDigit 16 d := List.all_eq_true.mp all
  have encoded : Encodes '"' (['\\', 'x', '4', '1'] ++ (['1'] ++ ('\\' :: '\n' ::
      (['\\', 'u', '{', '1', 'F', '6', '0', '0', '}'] ++ (['\\', '"'] ++ [])))))
      ['A', '1', '😀', '"'] := by
    refine .char (.short ⟨hex (by decide), ?_⟩ rfl) (.char (.plain (by decide) (by decide))
      (.lineGoesOn
        (.char (@EncodesChar.braced _ ['1', 'F', '6', '0', '0'] _ ⟨hex (by decide), ?_⟩ (by decide))
          (.char (.bare (by decide)) .nil))))
    all_goals
      rw [← Numeral.ofDigits_eq]
      decide
  refine ⟨_, rfl, encoded, ?_⟩
  rw [← String.toList_ofList (l := ['A', '1', '😀', '"'])] at encoded
  have read := place_encoded (.inl rfl) encoded .initial .origin []
  rw [List.append_nil] at read
  exact read

end Lexer

end PulseSyntax
