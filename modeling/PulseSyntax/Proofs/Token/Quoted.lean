import PulseSyntax.Proofs.Source.Slice
import PulseSyntax.Proofs.Token.Kinds
import PulseSyntax.Proofs.Token.Reach.Literal
import PulseSyntax.Proofs.Token.Scan

namespace PulseSyntax

theorem Text.byteSize_le_of_prefix {a b : List Char} (h : a <+: b) : byteSize a ≤ byteSize b := by
  obtain ⟨rest, rfl⟩ := h
  rw [byteSize_append]
  omega

theorem Text.length_le_byteSize (text : List Char) : text.length ≤ byteSize text := by
  induction text with
  | nil => exact Nat.zero_le _
  | cons c cs ih =>
    have some := c.utf8Size_pos
    simp only [List.length_cons, byteSize]
    omega

namespace Numeral

theorem ofDigits_lt {radix : Nat} {digits : List Char} (h : ∀ c ∈ digits, isDigit radix c) :
    ofDigits radix digits < Nat.pow radix digits.length := by
  induction digits using List.reverseRecOn with
  | nil => exact Nat.one_pos
  | append_singleton digits c ih =>
    have before : ofDigits radix digits + 1 ≤ Nat.pow radix digits.length :=
      ih fun d member => h d (List.mem_append_left _ member)
    have last : (digitValue? c).getD 0 < radix := by
      have digit := h c (by simp)
      unfold isDigit at digit
      cases value : digitValue? c with
      | none => rw [value] at digit; cases digit
      | some n => rw [value] at digit; exact of_decide_eq_true digit
    have step : ofDigits radix (digits ++ [c]) =
        ofDigits radix digits * radix + (digitValue? c).getD 0 := by
      simp [ofDigits]
    have scaled := Nat.mul_le_mul_right radix before
    rw [Nat.add_mul, Nat.one_mul] at scaled
    rw [step, List.length_append, List.length_singleton]
    change _ < Nat.pow radix digits.length * radix
    omega

end Numeral

namespace Quoted

theorem toNat_of_charOfCode? {code : Nat} {c : Char} (h : charOfCode? code = some c) :
    c.toNat = code := by
  by_cases valid : code.isValidChar
  · rw [charOfCode?, dif_pos valid] at h
    cases h
    rfl
  · rw [charOfCode?, dif_neg valid] at h
    cases h

theorem utf8Size_le_of_toNat_lt {c : Char} {n : Nat} (some : 0 < n)
    (h : c.toNat < Nat.pow 16 n) : c.utf8Size ≤ n + 1 := by
  have most := c.utf8Size_le_four
  rcases Nat.lt_or_ge n 3 with few | many
  · have short : c.toNat < 256 :=
      Nat.lt_of_lt_of_le h (Nat.pow_le_pow_right (by decide) (show n ≤ 2 by omega))
    have two : c.utf8Size ≤ 2 := by
      have bound : c.val ≤ 0x7ff := by
        rw [UInt32.le_iff_toNat_le]
        change c.toNat ≤ 2047
        omega
      unfold Char.utf8Size
      dsimp only
      split
      · decide
      · split
        · exact Nat.le_refl _
        · contradiction
    omega
  · omega

theorem size_codeValue (code : List Char) :
    Text.byteSize (codeValue code) ≤ Text.byteSize code + 1 := by
  unfold codeValue
  extract_lets digits number
  split
  · next c value =>
    obtain ⟨n, found, value⟩ := Option.bind_eq_some_iff.mp value
    have part : digits.length ≤ code.length := by
      change (if _ then _ else _ : List Char).length ≤ _
      split
      · rw [List.length_drop]
        omega
      · exact Nat.le_refl _
    have size := Text.length_le_byteSize code
    change (if _ then _ else _) = _ at found
    split at found
    · cases found
    · next proper =>
      cases found
      simp only [Bool.or_eq_true, List.isEmpty_iff, Bool.not_eq_true', not_or, Bool.not_eq_false,
        List.all_eq_true] at proper
      have bound := Numeral.ofDigits_lt proper.2
      rw [← toNat_of_charOfCode? value] at bound
      have short := utf8Size_le_of_toNat_lt (List.length_pos_iff.mpr proper.1) bound
      simp only [Text.byteSize]
      omega
  · omega

theorem size_named (c : Char) : ((named? c).getD c).utf8Size ≤ c.utf8Size := by
  unfold named?
  have some := c.utf8Size_pos
  split <;> first | exact some | exact Nat.le_refl _

theorem size_escape {cs : List Char} (noOpen : cs.head? ≠ some '{') (noClose : cs.head? ≠ some '}') :
    Text.byteSize (escape cs).1 ≤ Text.byteSize (cs.take (escape cs).2) := by
  have code {count : Nat} (c : Char) (cs : List Char) :
      Text.byteSize (codeValue (hexDigits count cs)) ≤
        Text.byteSize ((c :: cs).take (1 + (hexDigits count cs).length)) := by
    have run : hexDigits count cs <+: cs :=
      (List.takeWhile_prefix _).trans (List.take_prefix _ _)
    have size := size_codeValue (hexDigits count cs)
    have some := c.utf8Size_pos
    rw [Nat.add_comm, List.take_succ_cons, ← List.prefix_iff_eq_take.mp run]
    simp only [Text.byteSize]
    omega
  fun_cases escape cs with
  | case1 => exact Nat.zero_le _
  | case2 => exact Nat.zero_le _
  | case3 => exact absurd rfl noOpen
  | case4 => exact absurd rfl noClose
  | case5 cs => exact code 'x' cs
  | case6 cs =>
    have run : cs.takeWhile (· != '}') <+: cs := List.takeWhile_prefix _
    have size := size_codeValue (cs.takeWhile (· != '}'))
    have taken : 'u' :: '{' :: cs.takeWhile (· != '}') <+: ('u' :: '{' :: cs).take
        (2 + (cs.takeWhile (· != '}')).length +
          if (cs.takeWhile (· != '}')).length < cs.length then 1 else 0) := by
      rw [Nat.add_assoc, Nat.add_comm 2]
      simp only [List.take_succ_cons, List.prefix_cons_inj]
      exact List.prefix_take_iff.mpr ⟨run, Nat.le_add_right _ _⟩
    have whole := Text.byteSize_le_of_prefix taken
    simp only [Text.byteSize] at whole
    refine Nat.le_trans size (Nat.le_trans ?_ whole)
    have some := 'u'.utf8Size_pos
    omega
  | case7 cs => exact code 'u' cs
  | case8 c cs => simpa [Text.byteSize] using size_named c

/-- With its backslash an escape is longer than what it stands for, but for those of braces, which
    stand for themselves. -/
theorem escape_shrinks (cs : List Char) :
    (∃ brace rest, (brace = '{' ∨ brace = '}') ∧ cs = brace :: rest ∧
        escape cs = (['\\', brace], 1)) ∨
      Text.byteSize (escape cs).1 < Text.byteSize ('\\' :: cs.take (escape cs).2) := by
  by_cases opening : cs.head? = some '{'
  · obtain ⟨rest, rfl⟩ := List.head?_eq_some_iff.mp opening
    exact .inl ⟨'{', rest, .inl rfl, rfl, rfl⟩
  by_cases closing : cs.head? = some '}'
  · obtain ⟨rest, rfl⟩ := List.head?_eq_some_iff.mp closing
    exact .inl ⟨'}', rest, .inr rfl, rfl, rfl⟩
  · exact .inr (Nat.lt_of_le_of_lt (size_escape opening closing) (Nat.lt_add_of_pos_left (by decide)))

/-- A part of a string, and what it stands for. -/
structure Part where
  text : List Char
  value : List Char

/-- A character that stands for itself, or a backslash with what its escape takes of the text after
    it. -/
inductive Part.IsRead (quote : Char) : Part → List Char → Prop where
  | char {c : Char} {rest : List Char} (noQuote : c ≠ quote) (noBackslash : c ≠ '\\') :
      IsRead quote ⟨[c], [c]⟩ rest
  | escape {own value rest : List Char} (read : Quoted.escape (own ++ rest) = (value, own.length)) :
      IsRead quote ⟨'\\' :: own, value⟩ rest

/-- The parts are read one after the other, up to the quote that closes the string. -/
inductive AreRead (quote : Char) : List Part → Prop where
  | nil : AreRead quote []
  | cons {part : Part} {others : List Part}
      (first : part.IsRead quote (others.flatMap Part.text ++ [quote]))
      (more : AreRead quote others) : AreRead quote (part :: others)

theorem Part.IsRead.size {quote : Char} {part : Part} {rest : List Char}
    (h : part.IsRead quote rest) :
    part.text = part.value ∨ Text.byteSize part.value < Text.byteSize part.text := by
  cases h with
  | char => exact .inl rfl
  | @escape own value _ read =>
    rcases escape_shrinks (own ++ rest) with ⟨brace, tail, -, text, kept⟩ | less
    · obtain ⟨rfl, length⟩ := Prod.mk.inj (read.symm.trans kept)
      obtain ⟨c, rfl⟩ := List.length_eq_one_iff.mp length
      obtain ⟨rfl, -⟩ := List.cons.inj text
      exact .inl rfl
    · rw [read, List.take_left] at less
      exact .inr less

theorem AreRead.size {quote : Char} {parts : List Part} (h : AreRead quote parts) :
    parts.flatMap Part.text = parts.flatMap Part.value ∨
      Text.byteSize (parts.flatMap Part.value) < Text.byteSize (parts.flatMap Part.text) := by
  induction h with
  | nil => exact .inl rfl
  | cons first _ ih =>
    simp only [List.flatMap_cons, Text.byteSize_append]
    rcases first.size with same | less
    · rcases ih with others | others
      · exact .inl (by rw [same, others])
      · exact .inr (by rw [same]; omega)
    · have others := ih.elim (fun same => Nat.le_of_eq (congrArg Text.byteSize same.symm)) Nat.le_of_lt
      exact .inr (by omega)

theorem stringBody?_parts {quote : Char} {skip : Nat} {cs text value : List Char}
    (h : stringBody? quote skip cs = some (text, value)) :
    ∃ parts, AreRead quote parts ∧ text.drop skip = parts.flatMap Part.text ++ [quote] ∧
      value = parts.flatMap Part.value := by
  fun_induction stringBody? quote skip cs generalizing text value with
  | case1 => cases h
  | case2 skip c cs ih =>
    obtain ⟨⟨body, rest⟩, found, same⟩ := Option.map_eq_some_iff.mp h
    cases same
    exact ih found
  | case3 c cs closing =>
    cases h
    rw [beq_iff_eq.mp closing]
    exact ⟨[], .nil, rfl, rfl⟩
  | case4 c cs noClosing backslash part length read ih =>
    obtain ⟨⟨body, rest⟩, found, same⟩ := Option.map_eq_some_iff.mp h
    cases same
    obtain rfl := beq_iff_eq.mp backslash
    obtain ⟨parts, areRead, others, rfl⟩ := ih found
    -- What the escape takes is within the string, so the string alone says what that is.
    obtain ⟨after, rfl⟩ := stringBody?_starts found
    have longer := (stringBody?_own found).1
    have again : escape body = (part, length) := by
      have own := escape_own (z := after) (by rw [read]; exact longer) []
      rwa [List.append_nil, read] at own
    refine ⟨⟨'\\' :: body.take length, part⟩ :: parts, .cons (.escape ?_) areRead, ?_, rfl⟩
    · rw [← others, List.take_append_drop, again, List.length_take_of_le (Nat.le_of_lt longer)]
    · rw [List.flatMap_cons, List.append_assoc, ← others, List.cons_append, List.take_append_drop]
      rfl
  | case5 c cs noClosing noBackslash ih =>
    obtain ⟨⟨body, rest⟩, found, same⟩ := Option.map_eq_some_iff.mp h
    cases same
    obtain ⟨parts, areRead, others, rfl⟩ := ih found
    rw [List.drop_zero] at others
    refine ⟨⟨[c], [c]⟩ :: parts, .cons (.char ?_ ?_) areRead, ?_, rfl⟩
    · simpa using noClosing
    · simpa using noBackslash
    · rw [others]
      rfl

end Quoted

namespace Lexer

theorem exists_scan_of_mem {ctx : Context} {skip : Nat} {text : List Char} {piece : Piece}
    (member : piece ∈ pieces ctx skip text) : ∃ ctx c cs, piece ∈ scan ctx c cs := by
  fun_induction pieces ctx skip text with
  | case1 => cases member
  | case2 _ _ _ _ ih => exact ih member
  | case3 ctx c cs next ih =>
    rcases List.mem_append.mp member with here | later
    · exact ⟨ctx, c, cs, here⟩
    · exact ih later

theorem string_of_mem {ctx : Context} {skip : Nat} {text own : List Char} {value : TokenValue}
    (member : .lexeme .string value own ∈ pieces ctx skip text) :
    ∃ quote cs body content, (quote = '"' ∨ quote = '\'') ∧
      Quoted.stringBody? quote 0 cs = some (body, content) ∧
      value = .text (String.ofList content) ∧ own = quote :: body := by
  obtain ⟨ctx, c, cs, member⟩ := exists_scan_of_mem member
  have scanned := scanned_scan ctx c cs
  generalize scan ctx c cs = ps at scanned member
  cases scanned with
  | bare h => exact absurd (h _ member) (by simp)
  | symbol =>
    unfold scanSymbol at member
    split at member <;> simp at member
  | number =>
    obtain ⟨_, _, _, read, counts⟩ := counts_number c cs
    cases counts <;> simp [read] at member
  | string quote =>
    unfold Quoted.scanString at member
    split at member
    · next body content read =>
      simp only [List.mem_singleton, Piece.lexeme.injEq, true_and] at member
      exact ⟨c, cs, body, content, quote, read, member.1, member.2⟩
    · simp at member
  | template =>
    unfold Quoted.scanTemplate at member
    split at member <;> simp at member

theorem template_of_mem {ctx : Context} {skip : Nat} {text own : List Char} {value : TokenValue}
    (member : .lexeme .template value own ∈ pieces ctx skip text) :
    ∃ cs content, Quoted.templateBody? 0 cs = some content ∧
      value = .text (String.ofList content) ∧ own = '`' :: content ++ ['`'] := by
  obtain ⟨ctx, c, cs, member⟩ := exists_scan_of_mem member
  have scanned := scanned_scan ctx c cs
  generalize scan ctx c cs = ps at scanned member
  cases scanned with
  | bare h => exact absurd (h _ member) (by simp)
  | symbol =>
    unfold scanSymbol at member
    split at member <;> simp at member
  | number =>
    obtain ⟨_, _, _, read, counts⟩ := counts_number c cs
    cases counts <;> simp [read] at member
  | string =>
    unfold Quoted.scanString at member
    split at member <;> simp at member
  | template =>
    unfold Quoted.scanTemplate at member
    split at member
    · next content read =>
      simp only [List.mem_singleton, Piece.lexeme.injEq, true_and] at member
      exact ⟨cs, content, read, member.1, member.2⟩
    · simp at member

theorem exists_piece_of_mem {p : Position} {ps : List Piece} {t : Token} (member : t ∈ place p ps)
    (inside : t.kind ≠ .endOfFile) :
    ∃ before own rest, ps = before ++ .lexeme t.kind t.value own :: rest ∧
      t.raw = String.ofList own ∧ t.place = (p.after (textOf before)).place own := by
  induction ps generalizing p with
  | nil =>
    rw [place, List.mem_singleton] at member
    exact absurd (congrArg Token.kind member) inside
  | cons piece ps ih =>
    rcases List.mem_append.mp member with here | later
    · cases piece with
      | trivia => cases here
      | lexeme kind value own =>
        obtain rfl := List.mem_singleton.mp here
        exact ⟨[], own, ps, rfl, rfl, rfl⟩
    · obtain ⟨before, own, rest, rfl, raw, at_place⟩ := ih later
      refine ⟨piece :: before, own, rest, rfl, raw, ?_⟩
      rw [textOf_cons, Position.after_append]
      exact at_place

end Lexer

namespace Quoted

/-- The text is read as the value within a string, whatever the rest of the string is. -/
def Spells (quote : Char) (text value : List Char) : Prop :=
  ∀ rest, stringBody? quote 0 (text ++ rest) =
    (stringBody? quote 0 rest).map fun (own, more) => (text ++ own, value ++ more)

variable {quote : Char}

theorem Spells.nil : Spells quote [] [] := by
  intro rest
  rw [List.nil_append]
  exact Option.map_id'.symm ▸ rfl

theorem Spells.append {text more value other : List Char} (h : Spells quote text value)
    (h' : Spells quote more other) : Spells quote (text ++ more) (value ++ other) := by
  intro rest
  rw [List.append_assoc, h, h', Option.map_map]
  refine congrArg (Option.map · _) (funext fun (own, tail) => ?_)
  simp

theorem Spells.flatMap {α : Type} {text value : α → List Char} {items : List α}
    (h : ∀ item ∈ items, Spells quote (text item) (value item)) :
    Spells quote (items.flatMap text) (items.flatMap value) := by
  induction items with
  | nil => exact .nil
  | cons item items ih =>
    rw [List.flatMap_cons, List.flatMap_cons]
    obtain ⟨first, others⟩ := List.forall_mem_cons.mp h
    exact first.append (ih others)

theorem Spells.char {c : Char} (noQuote : c ≠ quote) (noBackslash : c ≠ '\\') :
    Spells quote [c] [c] := by
  intro rest
  simp only [List.singleton_append, stringBody?, beq_iff_eq, noQuote, noBackslash, ↓reduceIte]

theorem Spells.plain {text : List Char} (noQuote : quote ∉ text) (noBackslash : '\\' ∉ text) :
    Spells quote text text := by
  induction text with
  | nil => exact .nil
  | cons c text ih =>
    rw [List.mem_cons, not_or] at noQuote noBackslash
    exact (Spells.char (Ne.symm noQuote.1) (Ne.symm noBackslash.1)).append
      (ih noQuote.2 noBackslash.2)

theorem stringBody?_skip (quote : Char) (own rest : List Char) :
    stringBody? quote own.length (own ++ rest) =
      (stringBody? quote 0 rest).map fun (text, value) => (own ++ text, value) := by
  induction own with
  | nil => exact Option.map_id'.symm ▸ rfl
  | cons c own ih =>
    rw [List.length_cons, List.cons_append, stringBody?, ih, Option.map_map]
    rfl

theorem Spells.escape {own value : List Char} (noQuote : quote ≠ '\\')
    (h : ∀ rest, Quoted.escape (own ++ rest) = (value, own.length)) :
    Spells quote ('\\' :: own) value := by
  intro rest
  simp [stringBody?, noQuote.symm, h, stringBody?_skip, Function.comp_def]

/-- The literal with this text between its quotes. -/
def enclose (quote : Char) (text : List Char) : List Char := quote :: text ++ [quote]

theorem Spells.scanString {text value : List Char} (h : Spells quote text value)
    (rest : List Char) :
    scanString quote (text ++ quote :: rest) =
      [.lexeme .string (.text (String.ofList value)) (enclose quote text)] := by
  have body : stringBody? quote 0 (text ++ quote :: rest) = some (text ++ [quote], value) := by
    rw [h, stringBody?, if_pos (beq_self_eq_true quote)]
    simp
  rw [Quoted.scanString, body]
  rfl

end Quoted

namespace Lexer

open Quoted

theorem scan_quote (ctx : Context) {quote : Char} (delimiter : quote = '"' ∨ quote = '\'')
    (cs : List Char) : scan ctx quote cs = scanString quote cs := by
  have visible : Text.isBlank quote = false := by rcases delimiter with rfl | rfl <;> decide
  have noWord : Text.isAlphabetic quote = false := by rcases delimiter with rfl | rfl <;> decide
  rcases delimiter with rfl | rfl <;>
    simp [scan, scanToken, Word.isStart, Numeral.startsHere, visible, noWord]

def stringToken (p : Position) (quote : Char) (text value : List Char) : Token :=
  ⟨.string, .text (String.ofList value), String.ofList (enclose quote text),
    p.place (enclose quote text)⟩

theorem place_string {quote : Char} (delimiter : quote = '"' ∨ quote = '\'')
    {text value : List Char} (h : Spells quote text value) (ctx : Context) (p : Position)
    (rest : List Char) :
    place p (pieces ctx 0 (enclose quote text ++ rest)) =
      stringToken p quote text value ::
        place (p.after (enclose quote text))
          (pieces { ctx with lastKind := some .string, lastChar := some quote } 0 rest) := by
  have scanned : scan ctx quote (text ++ [quote] ++ rest) =
      [.lexeme .string (.text (String.ofList value)) (enclose quote text)] := by
    rw [List.append_assoc, List.singleton_append, scan_quote ctx delimiter, h.scanString]
  have after : ctx.after (.lexeme .string (.text (String.ofList value)) (enclose quote text)) =
      { ctx with lastKind := some .string, lastChar := some quote } := by
    rw [Context.after, Piece.text, enclose, List.getLast?_concat]
    rfl
  rw [← after]
  exact place_lexeme scanned p

end Lexer

end PulseSyntax
