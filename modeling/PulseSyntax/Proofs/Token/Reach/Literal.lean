import PulseSyntax.Proofs.Token.Reach.Basic
import PulseSyntax.Proofs.Token.Scan

namespace PulseSyntax

namespace Numeral

variable {d : Char}

theorem endsBefore_digitRun (hd : Stop d) : EndsBefore d digitRun :=
  endsBefore_takeWhile
    (hd.fails (p := fun c => c.isDigit || c == '_') (by decide) (by decide))

theorem endsBefore_fractionPart (hd : Stop d) : EndsBefore d fractionPart := by
  intro x
  fun_cases fractionPart x with
  | case1 x digit =>
    obtain ⟨y, z, whole, own, same⟩ := endsBefore_digitRun hd x
    refine ⟨'.' :: y, z, by rw [whole, List.cons_append], by rw [own], fun r => ?_⟩
    rw [List.cons_append, fractionPart, head?_any_stop hd.not_isDigit, if_pos digit, same]
  | case2 x digit =>
    refine ⟨[], '.' :: x, rfl, rfl, fun r => ?_⟩
    rw [List.cons_append, fractionPart, head?_any_stop hd.not_isDigit, if_neg digit]
  | case3 x point =>
    refine ⟨[], x, rfl, rfl, fun r => fractionPart.eq_2 _ fun cs same => ?_⟩
    cases x with
    | nil => exact hd.ne (by decide) (by decide) (List.cons.inj same).1
    | cons c x =>
      rw [List.cons_append, List.cons.injEq] at same
      exact point x (by rw [same.1])

theorem endsBefore_exponentPart (hd : Stop d) : EndsBefore d exponentPart := by
  intro x
  have sign : d ≠ '+' ∧ d ≠ '-' :=
    ⟨hd.ne (by decide) (by decide), hd.ne (by decide) (by decide)⟩
  have letter : d ≠ 'e' ∧ d ≠ 'E' :=
    ⟨hd.ne (by decide) (by decide), hd.ne (by decide) (by decide)⟩
  fun_cases exponentPart x with
  | case1 e letter s x digit =>
    obtain ⟨y, z, whole, own, same⟩ := endsBefore_digitRun hd (s :: x)
    refine ⟨e :: y, z, by rw [whole, List.cons_append], by rw [own], fun r => ?_⟩
    rw [← same r]
    simp [exponentPart, letter, digit]
  | case2 e letter s x digit signed =>
    obtain ⟨y, z, whole, own, same⟩ := endsBefore_digitRun hd x
    refine ⟨e :: s :: y, z, by rw [whole, List.cons_append, List.cons_append], by rw [own],
      fun r => ?_⟩
    simp only [List.cons_append, exponentPart, letter, digit, head?_any_stop hd.not_isDigit, signed,
      same, ↓reduceIte, Bool.false_eq_true]
  | case3 e letter s x digit unsigned =>
    refine ⟨[], e :: s :: x, rfl, rfl, fun r => ?_⟩
    simp only [List.cons_append, exponentPart, letter, digit, head?_any_stop hd.not_isDigit,
      unsigned, ↓reduceIte, Bool.false_eq_true]
  | case4 e letter =>
    refine ⟨[], [e], rfl, rfl, fun r => ?_⟩
    simp [exponentPart, hd.not_isDigit, sign]
  | case5 e x other =>
    refine ⟨[], e :: x, rfl, rfl, fun r => ?_⟩
    simp [exponentPart, other]
  | case6 =>
    refine ⟨[], [], rfl, rfl, fun r => ?_⟩
    simp [exponentPart, letter]

theorem endsBefore_radixRun (hd : Stop d) (radix : Nat) :
    EndsBefore d (List.takeWhile fun c => isDigit radix c || c == '_') :=
  have underscore : d ≠ '_' := hd.ne (by decide) (by decide)
  endsBefore_takeWhile (by simp [hd.not_isRadixDigit, underscore])

theorem hasBigMark_stop (hd : Stop d) (x r : List Char) :
    hasBigMark (x ++ d :: r) = hasBigMark x := by
  have mark : d ≠ 'n' := hd.ne (by decide) (by decide)
  fun_cases hasBigMark x with
  | case1 x =>
    rw [List.cons_append, hasBigMark, head?_any_stop hd.not_isPart]
  | case2 x other =>
    refine hasBigMark.eq_2 _ fun cs same => ?_
    cases x with
    | nil => exact mark (List.cons.inj same).1
    | cons c x => exact other x (by rw [(List.cons.inj same).1])

theorem DecimalText.read_stop (hd : Stop d) (x : List Char) :
    ∃ own z, x = own.text ++ z ∧ read x = own ∧ ∀ r, read (x ++ d :: r) = own := by
  obtain ⟨whole, rest, rfl, wholeOwn, wholeSame⟩ := endsBefore_digitRun hd x
  obtain ⟨fraction, rest, rfl, fractionOwn, fractionSame⟩ := endsBefore_fractionPart hd rest
  obtain ⟨exponent, rest, rfl, exponentOwn, exponentSame⟩ := endsBefore_exponentPart hd rest
  refine ⟨⟨whole, fraction, exponent⟩, rest, by simp [text], ?_, fun r => ?_⟩
  · simp only [read, wholeOwn, List.drop_left, fractionOwn, exponentOwn]
  · simp only [read, wholeSame, drop_stop rfl, fractionSame, exponentSame]

theorem reach_decimal (hd : Stop d) (ctx : Context) (x : List Char) :
    Reach ctx d x.length fun r => scanDecimal (x ++ d :: r) := by
  obtain ⟨own, z, rfl, -, same⟩ := DecimalText.read_stop hd x
  simp only [scanDecimal, same, drop_stop rfl, hasBigMark_stop hd]
  refine .ite (fun big => ?_) fun _ => ?_
  · obtain ⟨rest, rfl⟩ := hasBigMark_head (Bool.and_eq_true_iff.mp big).2
    refine .within ?_ fun _ => rfl
    simp
  · refine .within ?_ fun _ => rfl
    simp

theorem scanDecimal_stop (hd : Stop d) (x r : List Char) :
    scanDecimal (x ++ d :: r) = scanDecimal x := by
  obtain ⟨own, z, rfl, read, same⟩ := DecimalText.read_stop hd x
  simp only [scanDecimal, read, same, drop_stop rfl, List.drop_left, hasBigMark_stop hd]

theorem scanRadix_stop (hd : Stop d) (radix : Nat) (lead x r : List Char) :
    scanRadix radix lead (x ++ d :: r) = scanRadix radix lead x := by
  obtain ⟨y, z, rfl, own, same⟩ := endsBefore_radixRun hd radix x
  simp only [scanRadix, own, same, drop_stop rfl, List.drop_left, hasBigMark_stop hd]

theorem reach_radix (hd : Stop d) (ctx : Context) (radix : Nat) (lead x : List Char) :
    Reach ctx d (lead.length + x.length) fun r => scanRadix radix lead (x ++ d :: r) := by
  obtain ⟨y, z, rfl, -, same⟩ := endsBefore_radixRun hd radix x
  simp only [scanRadix, same, drop_stop rfl, hasBigMark_stop hd]
  refine .ite (fun big => ?_) fun _ => ?_
  · obtain ⟨rest, rfl⟩ := hasBigMark_head big
    refine .within ?_ fun _ => rfl
    simp
  · cases ofDigitsBelow? radix (Nat.pow 2 64) (withoutUnderscores y) <;>
      exact .within (by simp) fun _ => rfl

theorem scan_of_ne {c : Char} (other : c ≠ '0') (cs : List Char) :
    scan c cs = scanDecimal (c :: cs) := by
  unfold scan
  split
  · exact absurd rfl other
  · rfl

theorem radixOf?_stop (hd : Stop d) : radixOf? d = none := by
  simpa using hd.fails (p := fun d => (radixOf? d).isSome) (by decide) (by decide)

theorem scan_stop (hd : Stop d) (c : Char) (x r : List Char) :
    scan c (x ++ d :: r) = scan c x := by
  have decimal := scanDecimal_stop hd (c :: x) r
  rw [List.cons_append] at decimal
  by_cases zero : c = '0'
  · subst zero
    cases x with
    | nil => simpa only [scan, List.nil_append, radixOf?_stop hd] using decimal
    | cons e x =>
      simp only [scan, List.cons_append]
      cases radixOf? e with
      | none => exact decimal
      | some radix => exact scanRadix_stop hd radix ['0', e] x r
  · rwa [scan_of_ne zero, scan_of_ne zero]

theorem reach_scan (hd : Stop d) (ctx : Context) (c : Char) (x : List Char) :
    Reach ctx d (x.length + 1) fun r => scan c (x ++ d :: r) := by
  have decimal := reach_decimal hd ctx (c :: x)
  have noRadix : radixOf? d = none := radixOf?_stop hd
  rw [List.length_cons] at decimal
  simp only [List.cons_append] at decimal
  by_cases zero : c = '0'
  · subst zero
    cases x with
    | nil => simpa only [scan, List.nil_append, noRadix] using decimal
    | cons e x =>
      simp only [scan, List.cons_append]
      cases radixOf? e with
      | none => exact decimal
      | some radix =>
        have read := reach_radix hd ctx radix ['0', e] x
        rwa [Nat.add_comm] at read
  · simpa only [scan_of_ne zero] using decimal

end Numeral

namespace Quoted

theorem takeWhile_own {p : Char → Bool} {own z : List Char}
    (inside : ((own ++ z).takeWhile p).length < own.length) (z' : List Char) :
    (own ++ z').takeWhile p = (own ++ z).takeWhile p := by
  have stops : ¬(own.takeWhile p).length = own.length := by
    intro whole
    rw [List.takeWhile_append, if_pos whole, List.length_append] at inside
    omega
  rw [List.takeWhile_append, List.takeWhile_append, if_neg stops, if_neg stops]

theorem hexDigits_own {count : Nat} {own z : List Char}
    (inside : (hexDigits count (own ++ z)).length < own.length) (z' : List Char) :
    hexDigits count (own ++ z') = hexDigits count (own ++ z) := by
  unfold hexDigits at *
  rcases Nat.le_total count own.length with few | many
  · rw [List.take_append_of_le_length few, List.take_append_of_le_length few]
  · rw [List.take_append, List.take_of_length_le many] at inside
    rw [List.take_append, List.take_append, List.take_of_length_le many]
    exact takeWhile_own inside _

theorem escape_pos {text : List Char} (some : text ≠ []) : 0 < (escape text).2 := by
  fun_cases escape text with
  | case1 => contradiction
  | case2 | case3 | case4 | case8 => exact Nat.one_pos
  | case5 | case7 => exact Nat.add_pos_left Nat.one_pos _
  | case6 => exact Nat.add_pos_left (Nat.add_pos_left Nat.two_pos _) _

theorem bracedCode_own {own z : List Char}
    (inside : (escape ('u' :: '{' :: (own ++ z))).2 < own.length + 2) (z' : List Char) :
    escape ('u' :: '{' :: (own ++ z')) = escape ('u' :: '{' :: (own ++ z)) := by
  have code : ((own ++ z).takeWhile (· != '}')).length < own.length := by
    rw [escape] at inside
    dsimp only at inside
    omega
  have ends (z' : List Char) :
      ((own ++ z).takeWhile (· != '}')).length < (own ++ z').length := by
    rw [List.length_append]
    omega
  rw [escape, escape, takeWhile_own code z', if_pos (ends z), if_pos (ends z')]

theorem escape_own {own z : List Char} (inside : (escape (own ++ z)).2 < own.length)
    (z' : List Char) : escape (own ++ z') = escape (own ++ z) := by
  cases own with
  | nil => cases inside
  | cons c own =>
    rw [List.cons_append, List.length_cons] at inside
    rw [List.cons_append, List.cons_append]
    by_cases plain : c ∈ ['\n', '{', '}']
    · simp only [List.mem_cons, List.not_mem_nil, or_false] at plain
      rcases plain with rfl | rfl | rfl <;> rfl
    by_cases short : c = 'x'
    · subst short
      have code : (hexDigits 2 (own ++ z)).length < own.length := by
        rw [escape] at inside
        dsimp only at inside
        omega
      rw [escape, escape, hexDigits_own code]
    by_cases long : c = 'u'
    · subst long
      cases own with
      | nil =>
        have some := escape_pos (List.cons_ne_nil 'u' ([] ++ z))
        rw [List.length_nil] at inside
        omega
      | cons e own =>
        rw [List.cons_append] at inside ⊢
        rw [List.cons_append]
        by_cases braced : e = '{'
        · subst braced
          exact bracedCode_own inside z'
        · have bare (z : List Char) : ∀ cs, e :: (own ++ z) = '{' :: cs → False :=
            fun cs same => braced (List.cons.inj same).1
          have code : (hexDigits 4 (e :: own ++ z)).length < (e :: own).length := by
            rw [escape.eq_7 _ (bare z)] at inside
            dsimp only at inside
            rw [List.cons_append]
            omega
          have same := hexDigits_own code z'
          rw [List.cons_append, List.cons_append] at same
          rw [escape.eq_7 _ (bare z), escape.eq_7 _ (bare z'), same]
    · simp only [List.mem_cons, List.not_mem_nil, or_false, not_or] at plain
      have other (z : List Char) : escape (c :: (own ++ z)) = ([(named? c).getD c], 1) :=
        escape.eq_8 _ _ plain.1 plain.2.1 plain.2.2 short (fun _ h _ => long h) long
      rw [other, other]

theorem stringBody?_own {quote : Char} {skip : Nat} {cs text value : List Char}
    (h : stringBody? quote skip cs = some (text, value)) :
    skip < text.length ∧ ∀ z, stringBody? quote skip (text ++ z) = some (text, value) := by
  fun_induction stringBody? quote skip cs generalizing text value with
  | case1 => cases h
  | case2 skip c cs ih =>
    obtain ⟨⟨body, rest⟩, found, same⟩ := Option.map_eq_some_iff.mp h
    cases same
    obtain ⟨longer, own⟩ := ih found
    refine ⟨Nat.succ_lt_succ longer, fun z => ?_⟩
    rw [List.cons_append, stringBody?, own]
    rfl
  | case3 c cs closing =>
    cases h
    refine ⟨Nat.one_pos, fun z => ?_⟩
    simp only [List.cons_append, stringBody?, closing, ↓reduceIte]
  | case4 c cs noClosing backslash part length read ih =>
    obtain ⟨⟨body, rest⟩, found, same⟩ := Option.map_eq_some_iff.mp h
    cases same
    obtain ⟨longer, own⟩ := ih found
    obtain ⟨after, rfl⟩ := stringBody?_starts found
    refine ⟨Nat.succ_pos _, fun z => ?_⟩
    have again := escape_own (by rw [read]; exact longer) z
    simp only [List.cons_append, stringBody?, noClosing, backslash, again, read, own, ↓reduceIte,
      Bool.false_eq_true]
    rfl
  | case5 c cs noClosing noBackslash ih =>
    obtain ⟨⟨body, rest⟩, found, same⟩ := Option.map_eq_some_iff.mp h
    cases same
    obtain ⟨longer, own⟩ := ih found
    refine ⟨Nat.succ_pos _, fun z => ?_⟩
    simp only [List.cons_append, stringBody?, noClosing, noBackslash, own, ↓reduceIte,
      Bool.false_eq_true]
    rfl

theorem templateBody?_own {depth : Nat} {cs text : List Char}
    (h : templateBody? depth cs = some text) (z : List Char) :
    templateBody? depth (text ++ '`' :: z) = some text := by
  fun_induction templateBody? depth cs generalizing text with
  | case1 => cases h
  | case2 => cases h
  | case3 depth c cs ih =>
    obtain ⟨body, found, rfl⟩ := Option.map_eq_some_iff.mp h
    rw [List.cons_append, List.cons_append, templateBody?, ih found]
    rfl
  | case4 depth cs ih =>
    obtain ⟨body, found, rfl⟩ := Option.map_eq_some_iff.mp h
    rw [List.cons_append, List.cons_append, templateBody?, ih found]
    rfl
  | case5 =>
    cases h
    rfl
  | case6 depth c cs noEnd noEscape noHole noClosing next =>
    rename_i ih
    obtain ⟨body, found, rfl⟩ := Option.map_eq_some_iff.mp h
    have noBackslash : c ≠ '\\' := by
      intro backslash
      cases cs with
      | nil => exact noEnd backslash rfl
      | cons e cs => exact noEscape e cs backslash rfl
    -- The first character of the body is that of the text, so no hole starts here either.
    have noHole' (rest : List Char) (dollar : c = '$') (hole : body ++ '`' :: z = '{' :: rest) :
        False := by
      obtain ⟨after, rfl⟩ := templateBody?_starts found
      cases body with
      | nil => simp at hole
      | cons e body =>
        obtain rfl := (List.cons.inj hole).1
        exact noHole _ dollar rfl
    rw [List.cons_append, templateBody?.eq_6 _ _ _ (fun h _ => noBackslash h)
      (fun _ _ h _ => noBackslash h) noHole' noClosing, ih found]
    rfl

theorem stringBody?_getLast? {quote : Char} {skip : Nat} {cs text value : List Char}
    (h : stringBody? quote skip cs = some (text, value)) : text.getLast? = some quote := by
  fun_induction stringBody? quote skip cs generalizing text value with
  | case1 => cases h
  | case2 skip c cs ih | case4 c cs _ _ part length _ ih | case5 c cs _ _ ih =>
    obtain ⟨⟨body, rest⟩, found, same⟩ := Option.map_eq_some_iff.mp h
    cases same
    rw [List.getLast?_cons, ih found]
    rfl
  | case3 c cs closing =>
    cases h
    rw [beq_iff_eq.mp closing]
    rfl

theorem delimited_string {quote : Char} (visible : quote ≠ '\n') :
    Delimited (stringBody? quote 0) Prod.fst where
  starts := stringBody?_starts
  again h := (stringBody?_own h).2
  last h := by
    rw [stringBody?_getLast? h]
    exact fun same => visible (Option.some.inj same)

theorem delimited_template : Delimited (templateBody? 0) (· ++ ['`']) where
  starts := templateBody?_starts
  again h z := by
    rw [List.append_assoc]
    exact templateBody?_own h z
  last _ := by
    rw [List.getLast?_concat]
    decide

theorem reach_string (ctx : Context) (d : Char) {quote : Char} (visible : quote ≠ '\n')
    (x : List Char) : Reach ctx d (x.length + 1) fun r => scanString quote (x ++ d :: r) := by
  rw [Nat.add_comm]
  refine .delimited (delimited_string visible) [quote] x
    (fun body => .lexeme .string (.text (String.ofList body.2)) (quote :: body.1))
    "Unterminated string literal" (by decide) (fun _ => rfl) (fun found => ?_) fun found => ?_
  · simp only [scanString, found]
  · simp only [scanString, found, List.cons_append, List.nil_append]

theorem reach_template (ctx : Context) (d : Char) (x : List Char) :
    Reach ctx d (x.length + 1) fun r => scanTemplate (x ++ d :: r) := by
  rw [Nat.add_comm]
  refine .delimited delimited_template ['`'] x
    (fun text => .lexeme .template (.text (String.ofList text)) ('`' :: text ++ ['`']))
    "Unterminated template literal" (by decide) (fun _ => rfl) (fun found => ?_) fun found => ?_
  · simp only [scanTemplate, found]
  · simp only [scanTemplate, found, List.cons_append, List.nil_append]

end Quoted

end PulseSyntax
