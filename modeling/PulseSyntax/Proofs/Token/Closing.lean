import PulseSyntax.Proofs.Token.Quoted

namespace PulseSyntax

namespace Quoted

/-- The text up to and with the first quote that no backslash takes along; `taken` says that one
    stands right before the text. -/
def upToQuote? (quote : Char) : (taken : Bool) → List Char → Option (List Char)
  | _, [] => none
  | true, c :: cs => (upToQuote? quote false cs).map (c :: ·)
  | false, c :: cs =>
    if c == quote then some [c] else (upToQuote? quote (c == '\\') cs).map (c :: ·)

/-- The code in braces that is the escape after a backslash. -/
def bracedCode? : List Char → Option (List Char)
  | 'u' :: '{' :: cs => some (cs.takeWhile (· != '}'))
  | _ => none

/-- The codes in braces among the escapes of a string. The first `skip` characters belong to an
    escape that has been read. -/
def bracedCodes : Nat → List Char → List (List Char)
  | _, [] => []
  | skip + 1, _ :: cs => bracedCodes skip cs
  | 0, c :: cs =>
    if c == '\\' then (bracedCode? cs).toList ++ bracedCodes (escape cs).2 cs else bracedCodes 0 cs

variable {quote c : Char} {taken : Bool} {own text rest : List Char}

theorem upToQuote?_starts (h : upToQuote? quote taken text = some own) : own <+: text := by
  fun_induction upToQuote? quote taken text generalizing own with
  | case1 => cases h
  | case2 c cs ih | case4 c cs _ ih =>
    obtain ⟨body, found, rfl⟩ := Option.map_eq_some_iff.mp h
    exact (List.prefix_cons_inj c).mpr (ih found)
  | case3 c cs =>
    cases h
    exact ⟨cs, rfl⟩

theorem upToQuote?_append (h : upToQuote? quote taken text = some own) (rest : List Char) :
    upToQuote? quote taken (text ++ rest) = some own := by
  fun_induction upToQuote? quote taken text generalizing own with
  | case1 => cases h
  | case2 c cs ih =>
    obtain ⟨body, found, rfl⟩ := Option.map_eq_some_iff.mp h
    rw [List.cons_append, upToQuote?, ih found]
    rfl
  | case3 c cs closes =>
    cases h
    rw [List.cons_append, upToQuote?, if_pos closes]
  | case4 c cs goesOn ih =>
    obtain ⟨body, found, rfl⟩ := Option.map_eq_some_iff.mp h
    rw [List.cons_append, upToQuote?, if_neg goesOn, ih found]
    rfl

theorem upToQuote?_cons (noQuote : c ≠ quote) (noBackslash : c ≠ '\\') (rest : List Char) :
    upToQuote? quote false (c :: rest) = (upToQuote? quote false rest).map (c :: ·) := by
  rw [upToQuote?, if_neg (by simpa using noQuote), beq_eq_false_iff_ne.mpr noBackslash]

/-- Text without a bare quote is passed over, with a character after it that is neither a quote nor
    a backslash; so a backslash at its end takes along no quote. -/
theorem upToQuote?_pass (noQuote : c ≠ quote) (noBackslash : c ≠ '\\')
    (h : upToQuote? quote taken own = none) (rest : List Char) :
    upToQuote? quote taken (own ++ c :: rest) =
      (upToQuote? quote false rest).map (own ++ c :: ·) := by
  fun_induction upToQuote? quote taken own with
  | case1 taken =>
    cases taken with
    | false => exact upToQuote?_cons noQuote noBackslash rest
    | true => rfl
  | case2 d ds ih =>
    rw [List.cons_append, upToQuote?, ih (Option.map_eq_none_iff.mp h), Option.map_map]
    rfl
  | case3 => cases h
  | case4 d ds goesOn ih =>
    rw [List.cons_append, upToQuote?, if_neg goesOn, ih (Option.map_eq_none_iff.mp h),
      Option.map_map]
    rfl

theorem upToQuote?_plain (plain : ∀ c ∈ own, c ≠ quote ∧ c ≠ '\\') (rest : List Char) :
    upToQuote? quote false (own ++ rest) = (upToQuote? quote false rest).map (own ++ ·) := by
  induction own with
  | nil => exact Option.map_id'.symm ▸ rfl
  | cons c own ih =>
    obtain ⟨⟨noQuote, noBackslash⟩, others⟩ := List.forall_mem_cons.mp plain
    rw [List.cons_append, upToQuote?_cons noQuote noBackslash, ih others, Option.map_map]
    rfl

/-- After a backslash the text has its own quote as its last character exactly if the rest of it
    after the escape has, and no bare quote is in the code if the escape is one in braces. -/
def Passes (quote : Char) (text : List Char) : Prop :=
  upToQuote? quote true text = some text ↔
    (∀ code ∈ bracedCode? text, upToQuote? quote false code = none) ∧
      upToQuote? quote false (text.drop (escape text).2) = some (text.drop (escape text).2)

theorem some_cons_iff {found : Option (List Char)} :
    found.map (c :: ·) = some (c :: text) ↔ found = some text := by
  cases found <;> simp

theorem passes_hex (delimiter : quote = '"' ∨ quote = '\'') {mark : Char} (count : Nat)
    (unbraced : bracedCode? (mark :: text) = none)
    (length : (escape (mark :: text)).2 = 1 + (hexDigits count text).length) :
    Passes quote (mark :: text) := by
  have plain : ∀ d ∈ hexDigits count text, d ≠ quote ∧ d ≠ '\\' := by
    intro d member
    have digit : Numeral.isDigit 16 d := List.mem_takeWhile_imp member
    rcases delimiter with rfl | rfl <;> constructor <;> rintro rfl <;> exact absurd digit (by decide)
  have run : hexDigits count text <+: text :=
    (List.takeWhile_prefix _).trans (List.take_prefix _ _)
  rw [Passes, upToQuote?, some_cons_iff, length, Nat.add_comm, List.drop_succ_cons, unbraced]
  generalize hexDigits count text = digits at plain run
  obtain ⟨rest, rfl⟩ := run
  rw [upToQuote?_plain plain, List.drop_left]
  cases upToQuote? quote false rest <;> simp

theorem passes_char (unbraced : bracedCode? (c :: text) = none)
    (length : (escape (c :: text)).2 = 1) : Passes quote (c :: text) := by
  rw [Passes, upToQuote?, some_cons_iff, length, List.drop_succ_cons, List.drop_zero, unbraced]
  simp

theorem exists_of_takeWhile_lt {p : Char → Bool} {text : List Char}
    (closed : (text.takeWhile p).length < text.length) :
    ∃ d rest, text = text.takeWhile p ++ d :: rest ∧ p d = false := by
  induction text with
  | nil => cases closed
  | cons c text ih =>
    by_cases inside : p c
    · rw [List.takeWhile_cons_of_pos inside] at closed ⊢
      obtain ⟨d, rest, whole, stops⟩ := ih (Nat.lt_of_succ_lt_succ closed)
      exact ⟨d, rest, congrArg (c :: ·) whole, stops⟩
    · rw [List.takeWhile_cons_of_neg inside]
      exact ⟨c, text, rfl, Bool.eq_false_iff.mpr inside⟩

theorem passes_braced (delimiter : quote = '"' ∨ quote = '\'')
    (closed : (text.takeWhile (· != '}')).length < text.length) :
    Passes quote ('u' :: '{' :: text) := by
  obtain ⟨d, rest, whole, stops⟩ := exists_of_takeWhile_lt closed
  obtain rfl : d = '}' := by simpa using stops
  generalize own : text.takeWhile (· != '}') = code at closed whole
  subst whole
  have noQuote : '}' ≠ quote := by rcases delimiter with rfl | rfl <;> decide
  have opens : upToQuote? quote true ('u' :: '{' :: (code ++ '}' :: rest)) =
      (upToQuote? quote false (code ++ '}' :: rest)).map ('u' :: '{' :: ·) := by
    rcases delimiter with rfl | rfl <;> simp [upToQuote?, Function.comp_def]
  have after : ('u' :: '{' :: (code ++ '}' :: rest)).drop
      (escape ('u' :: '{' :: (code ++ '}' :: rest))).2 = rest := by
    rw [escape, own, if_pos closed]
    dsimp only
    rw [show 2 + code.length + 1 = code.length + 1 + 2 by omega, List.drop_succ_cons,
      List.drop_succ_cons, List.drop_append, List.drop_eq_nil_of_le (by omega)]
    simp
  rw [Passes, opens, after, bracedCode?, own]
  simp only [Option.mem_def, Option.some.injEq, forall_eq']
  cases bare : upToQuote? quote false code with
  | none =>
    rw [upToQuote?_pass noQuote (by decide) bare]
    cases upToQuote? quote false rest <;> simp
  | some found =>
    -- A bare quote in the code ends the text there.
    have short := (upToQuote?_starts bare).length_le
    rw [upToQuote?_append bare]
    simp only [Option.map_some, Option.some.injEq, List.cons.injEq, true_and, reduceCtorEq,
      false_and, iff_false]
    rintro rfl
    simp at short

theorem passes (delimiter : quote = '"' ∨ quote = '\'') (inside : (escape text).2 < text.length) :
    Passes quote text := by
  fun_cases escape text with
  | case1 => simp at inside
  | case2 | case3 | case4 => exact passes_char rfl rfl
  | case5 cs => exact passes_hex delimiter 2 rfl rfl
  | case6 cs =>
    refine passes_braced delimiter ?_
    rw [escape] at inside
    simp only [List.length_cons] at inside
    omega
  | case7 cs bare =>
    have unbraced : bracedCode? ('u' :: cs) = none := by
      unfold bracedCode?
      split
      · next more same => exact (bare more (List.cons.inj same).2).elim
      · rfl
    exact passes_hex delimiter 4 unbraced (by rw [escape.eq_7 _ bare])
  | case8 c cs noLine noOpen noClose noShort noBraced noLong =>
    have unbraced : bracedCode? (c :: cs) = none := by
      unfold bracedCode?
      split
      · next more same => exact (noLong (List.cons.inj same).1).elim
      · rfl
    refine passes_char unbraced ?_
    rw [escape.eq_8 _ _ noLine noOpen noClose noShort noBraced noLong]

theorem upToQuote?_text_iff (delimiter : quote = '"' ∨ quote = '\'') {skip : Nat}
    {cs value : List Char} (h : stringBody? quote skip cs = some (text, value)) :
    upToQuote? quote false (text.drop skip) = some (text.drop skip) ↔
      ∀ code ∈ bracedCodes skip text, upToQuote? quote false code = none := by
  fun_induction stringBody? quote skip cs generalizing text value with
  | case1 => cases h
  | case2 skip c cs ih =>
    obtain ⟨⟨body, more⟩, found, same⟩ := Option.map_eq_some_iff.mp h
    cases same
    exact ih found
  | case3 c cs closing =>
    cases h
    obtain rfl := beq_iff_eq.mp closing
    have noBackslash : (c == '\\') = false := by rcases delimiter with rfl | rfl <;> decide
    simp [upToQuote?, bracedCodes, noBackslash]
  | case4 c cs noClosing backslash part length read ih =>
    obtain ⟨⟨body, more⟩, found, same⟩ := Option.map_eq_some_iff.mp h
    cases same
    obtain rfl := beq_iff_eq.mp backslash
    -- What the escape takes is within the string, so the string alone says what that is.
    obtain ⟨after, rfl⟩ := stringBody?_starts found
    have longer := (stringBody?_own found).1
    have again : escape body = (part, length) := by
      have own := escape_own (z := after) (by rw [read]; exact longer) []
      rwa [List.append_nil, read] at own
    have passes : Passes quote body := passes delimiter (by rw [again]; exact longer)
    rw [Passes, again] at passes
    rw [List.drop_zero, upToQuote?, if_neg noClosing, some_cons_iff, bracedCodes,
      if_pos (by rfl), again, List.forall_mem_append, ← ih found]
    simpa using passes
  | case5 c cs noClosing noBackslash ih =>
    obtain ⟨⟨body, more⟩, found, same⟩ := Option.map_eq_some_iff.mp h
    cases same
    have read := ih found
    rw [List.drop_zero] at read ⊢
    rw [upToQuote?, if_neg noClosing, Bool.eq_false_iff.mpr noBackslash, some_cons_iff, read,
      bracedCodes, if_neg noBackslash]

end Quoted

namespace Lexer

open Quoted

/-- The text of a string token ends at its first quote that no backslash takes along if and only if
    none of its codes in braces holds such a quote. -/
theorem string_closes_iff {source : List Char} {t : Token} (member : t ∈ tokens source)
    (string : t.kind = .string) : ∃ quote text, (quote = '"' ∨ quote = '\'') ∧
      t.raw = String.ofList (quote :: text) ∧
      (upToQuote? quote false text = some text ↔
        ∀ code ∈ bracedCodes 0 text, upToQuote? quote false code = none) := by
  obtain ⟨before, own, rest, whole, raw, -⟩ :=
    exists_piece_of_mem member (by rw [string]; decide)
  have inside : .lexeme .string t.value own ∈ pieces .initial 0 source := by
    rw [whole, string]
    simp
  obtain ⟨quote, cs, text, content, delimiter, read, -, rfl⟩ := string_of_mem inside
  exact ⟨quote, text, delimiter, raw, upToQuote?_text_iff delimiter read⟩

/-- Of two strings with a sign between them, the brace in the second one closes the code that the
    first one opens: one string. -/
theorem string_closes_iff_carried :
    ∃ t, tokens ['"', '\\', 'u', '{', '"', '+', '"', '}', '"'] = [t, .endOfFile ⟨9, 1, 10⟩] ∧
      t.kind = .string ∧ ∃ quote text, t.raw = String.ofList (quote :: text) ∧
        bracedCodes 0 text = [['"', '+', '"']] ∧ upToQuote? quote false text ≠ some text := by
  obtain ⟨t, read, string, raw⟩ : ∃ t,
      tokens ['"', '\\', 'u', '{', '"', '+', '"', '}', '"'] = [t, .endOfFile ⟨9, 1, 10⟩] ∧
        t.kind = .string ∧ t.raw = String.ofList ['"', '\\', 'u', '{', '"', '+', '"', '}', '"'] :=
    ⟨_, rfl, rfl, rfl⟩
  obtain ⟨quote, text, -, same, closes⟩ :=
    string_closes_iff (by rw [read]; exact List.mem_cons_self) string
  obtain ⟨rfl, rfl⟩ := List.cons.inj (String.ofList_injective (raw.symm.trans same))
  refine ⟨t, read, string, _, _, raw, rfl, fun whole => ?_⟩
  exact absurd (closes.mp whole ['"', '+', '"'] (.head _)) (by decide)

end Lexer

end PulseSyntax
