import PulseSyntax.Proofs.Token.Selector

namespace PulseSyntax

namespace Word

/-- A word of a tag. -/
def IsTagWord (text : List Char) : Prop :=
  ∃ c cs, text = c :: cs ∧ Text.isAlphabetic c ∧ ∀ d ∈ cs, isPart d

/-- What stands between the brackets of an attribute: quotes in pairs, and no closing bracket outside
    of them. -/
inductive IsAttribute : List Char → Prop where
  | nil : IsAttribute []
  | char {c : Char} {cs : List Char} (noQuote : c ≠ '"' ∧ c ≠ '\'') (noBracket : c ≠ ']')
      (others : IsAttribute cs) : IsAttribute (c :: cs)
  | quoted {quote : Char} {text cs : List Char} (delimiter : quote = '"' ∨ quote = '\'')
      (inside : quote ∉ text) (others : IsAttribute cs) : IsAttribute (quote :: (text ++ quote :: cs))

inductive IsSelectorPart : List Char → Prop where
  | name {c e : Char} {cs : List Char} (mark : c = '#' ∨ c = '.') (first : isSelectorStart e)
      (others : ∀ d ∈ cs, isPart d || d == '-') : IsSelectorPart (c :: e :: cs)
  | bracketed {cs : List Char} (content : IsAttribute cs) : IsSelectorPart ('[' :: (cs ++ [']']))

end Word

/-- A tag that is no reserved word as a whole, and classes, ids and attributes; at least one of them. -/
structure CompoundSelector where
  words : List (List Char)
  parts : List (List Char)
  areWords : ∀ word ∈ words, Word.IsTagWord word
  areParts : ∀ part ∈ parts, Word.IsSelectorPart part
  unreserved : Keyword.ofSpelling? (String.ofList (['-'].intercalate words)) = none
  nonempty : words ++ parts ≠ []

namespace CompoundSelector

def text (s : CompoundSelector) : List Char := ['-'].intercalate s.words ++ s.parts.flatten

end CompoundSelector

namespace Word

/-- The text belongs to the selector and takes the scan from one state to another. -/
def Leads (state : SelectorState) (text : List Char) (next : SelectorState) : Prop :=
  ∀ rest, selectorTail state (text ++ rest) = text ++ selectorTail next rest

namespace Leads

variable {state next last : SelectorState} {c quote : Char} {text more : List Char}

theorem nil : Leads state [] state := fun _ => rfl

theorem append (h : Leads state text next) (h' : Leads next more last) :
    Leads state (text ++ more) last := by
  intro rest
  rw [List.append_assoc, h, h', List.append_assoc]

theorem flatten {texts : List (List Char)} (h : ∀ text ∈ texts, Leads state text state) :
    Leads state texts.flatten state := by
  induction texts with
  | nil => exact nil
  | cons text texts ih =>
    obtain ⟨first, others⟩ := List.forall_mem_cons.mp h
    exact first.append (ih others)

theorem char (part : isPart c || c == '-') : Leads .name [c] .name := by
  intro rest
  rw [List.singleton_append, selectorTail, if_pos part, List.singleton_append]

theorem run (parts : ∀ c ∈ text, isPart c || c == '-') : Leads .name text .name := by
  induction text with
  | nil => exact nil
  | cons c text ih =>
    obtain ⟨part, others⟩ := List.forall_mem_cons.mp parts
    exact (char part).append (ih others)

theorem inBracket (quote : Option Char) (c : Char) :
    Leads (.bracket quote) [c] (.inBracket quote c) :=
  fun _ => by rw [List.singleton_append, selectorTail, List.singleton_append]

theorem inQuotes (inside : quote ∉ text) :
    Leads (.bracket (some quote)) text (.bracket (some quote)) := by
  induction text with
  | nil => exact nil
  | cons c text ih =>
    obtain ⟨noQuote, others⟩ := List.ne_and_not_mem_of_not_mem_cons inside
    have stays : SelectorState.inBracket (some quote) c = .bracket (some quote) :=
      if_neg (by simpa using noQuote.symm)
    have first := inBracket (some quote) c
    rw [stays] at first
    exact first.append (ih others)

end Leads

variable {text : List Char}

theorem IsAttribute.leads (h : IsAttribute text) : Leads (.bracket none) text (.bracket none) := by
  induction h with
  | nil => exact .nil
  | @char c _ noQuote noBracket _ ih =>
    have stays : SelectorState.inBracket none c = .bracket none := by
      simp [SelectorState.inBracket, noQuote, noBracket]
    have first := Leads.inBracket none c
    rw [stays] at first
    exact first.append ih
  | @quoted quote _ _ delimiter inside _ ih =>
    have opens : SelectorState.inBracket none quote = .bracket (some quote) := by
      rcases delimiter with rfl | rfl <;> rfl
    have closes : SelectorState.inBracket (some quote) quote = .bracket none := if_pos (by simp)
    have first := Leads.inBracket none quote
    have second := Leads.inBracket (some quote) quote
    rw [opens] at first
    rw [closes] at second
    exact first.append ((Leads.inQuotes inside).append (second.append ih))

theorem IsSelectorPart.leads (h : IsSelectorPart text) : Leads .name text .name := by
  cases h with
  | @name c e cs mark first others =>
    intro rest
    have noPart : ¬(isPart c || c == '-') := by rcases mark with rfl | rfl <;> decide
    have starts : (c == '.' || c == '#') && (e :: (cs ++ rest)).head?.any isSelectorStart := by
      rcases mark with rfl | rfl <;> simpa using first
    rw [List.cons_append, List.cons_append, selectorTail, if_neg noPart, if_pos starts,
      Lexer.selectorTail_start first, Leads.run others, List.cons_append, List.cons_append]
  | @bracketed cs content =>
    have opens : Leads .name ['['] (.bracket none) := by
      intro rest
      rw [List.singleton_append, selectorTail, if_neg (by decide), if_neg (by simp),
        if_pos (by rfl), List.singleton_append]
    exact opens.append (content.leads.append (Leads.inBracket none ']'))

theorem IsTagWord.leads (h : IsTagWord text) : Leads .name ('-' :: text) .name := by
  obtain ⟨c, cs, rfl, letter, parts⟩ := h
  refine Leads.run fun d member => ?_
  simp only [List.mem_cons] at member
  rcases member with rfl | rfl | member
  · rfl
  · simp [isPart, letter]
  · simp [parts d member]

theorem intercalate_cons (word : List Char) (words : List (List Char)) :
    ['-'].intercalate (word :: words) = word ++ (words.map ('-' :: ·)).flatten := by
  induction words generalizing word with
  | nil => simp
  | cons next words ih =>
    rw [List.intercalate_cons_cons, ih, List.map_cons, List.flatten_cons, List.append_assoc]
    rfl

variable {d : Char} {rest : List Char} {words parts : List (List Char)}

theorem leads_tail (areWords : ∀ word ∈ words, IsTagWord word)
    (areParts : ∀ part ∈ parts, IsSelectorPart part) :
    Leads .name ((words.map ('-' :: ·)).flatten ++ parts.flatten) .name := by
  have tag : Leads .name (words.map ('-' :: ·)).flatten .name := by
    refine .flatten fun text member => ?_
    obtain ⟨word, own, rfl⟩ := List.mem_map.mp member
    exact (areWords word own).leads
  exact tag.append (.flatten fun part member => (areParts part member).leads)

theorem selectorTail_end (ends : d = ' ' ∨ d = '{') (rest : List Char) :
    selectorTail .name (d :: rest) = [] := by
  rcases ends with rfl | rfl <;>
    rw [selectorTail, if_neg (by decide), if_neg (by simp), if_neg (by decide)]

theorem exists_continuesSelector (areWords : ∀ word ∈ words, IsTagWord word)
    (areParts : ∀ part ∈ parts, IsSelectorPart part) (ends : d = ' ' ∨ d = '{') (rest : List Char) :
    ∃ e more, (words.map ('-' :: ·)).flatten ++ parts.flatten ++ d :: rest = e :: more ∧
      isPart e = false ∧ continuesSelector (e :: more) := by
  cases words with
  | cons word words =>
    obtain ⟨c, cs, rfl, letter, -⟩ := areWords word List.mem_cons_self
    exact ⟨'-', _, rfl, by decide, by simp [continuesSelector, letter]⟩
  | nil =>
    cases parts with
    | nil =>
      refine ⟨d, rest, rfl, ?_⟩
      rcases ends with rfl | rfl <;> exact ⟨by decide, rfl⟩
    | cons part parts =>
      cases areParts part List.mem_cons_self with
      | @name c e cs mark first _ =>
        refine ⟨c, _, rfl, ?_⟩
        rcases mark with rfl | rfl <;> exact ⟨by decide, by simpa [continuesSelector] using first⟩
      | bracketed => exact ⟨'[', _, rfl, by decide, rfl⟩

end Word

namespace CompoundSelector

/-- The selector starts with a word that is not reserved, or with a class or an id. -/
def StartsPlainly (s : CompoundSelector) : Prop :=
  (∀ word ∈ s.words.head?, Keyword.ofSpelling? (String.ofList word) = none) ∧
    s.text.head? ≠ some '['

end CompoundSelector

namespace Lexer

open Word

variable {ctx : Context} {d : Char} {words parts : List (List Char)} {word : List Char}

theorem scan_tag (markup : ctx.inMarkup) (tag : ∀ own ∈ word :: words, IsTagWord own)
    (areParts : ∀ part ∈ parts, IsSelectorPart part) (ends : d = ' ' ∨ d = '{') (rest : List Char) :
    ∃ c cs, ['-'].intercalate (word :: words) ++ parts.flatten = c :: cs ∧
      scan ctx c (cs ++ d :: rest) = match Keyword.ofSpelling? (String.ofList word) with
        | some k => [.lexeme (.keyword k) (keywordValue k) word]
        | none => [.word .selector (c :: cs)] := by
  obtain ⟨⟨c, cs, rfl, letter, run⟩, others⟩ := List.forall_mem_cons.mp tag
  obtain ⟨e, more, follows, stops, continues⟩ := exists_continuesSelector others areParts ends rest
  have start : isStart c := by simp [isStart, letter]
  -- What follows the first word is read on from there, to the end of the last part.
  have tail : selectorTail .name (e :: more) =
      (words.map ('-' :: ·)).flatten ++ parts.flatten := by
    rw [← follows, leads_tail others areParts, selectorTail_end ends, List.append_nil]
  refine ⟨c, cs ++ ((words.map ('-' :: ·)).flatten ++ parts.flatten), ?_, ?_⟩
  · rw [intercalate_cons, List.append_assoc, List.cons_append]
  · have selects : ctx.inMarkup && continuesSelector (e :: more) := by rw [markup, continues]; rfl
    rw [List.append_assoc, follows, scan_start ctx start,
      scan_word (inStyle_of_inMarkup markup) run stops, if_pos selects, Word.selector, tail]
    rfl

theorem scan_part (markup : ctx.inMarkup) {c e : Char} {cs : List Char} (mark : c = '#' ∨ c = '.')
    (first : isSelectorStart e) (run : ∀ d ∈ cs, isPart d || d == '-')
    (areParts : ∀ part ∈ parts, IsSelectorPart part) (ends : d = ' ' ∨ d = '{') (rest : List Char) :
    scan ctx c (e :: (cs ++ (parts.flatten ++ d :: rest))) =
      [.word .selector (c :: e :: (cs ++ parts.flatten))] := by
  rw [scan_mark markup mark first, Word.selector, selectorTail_start first, Leads.run run,
    Leads.flatten fun part member => (areParts part member).leads, selectorTail_end ends,
    List.append_nil]
  rfl

theorem scan_selector (s : CompoundSelector) (markup : ctx.inMarkup) (ends : d = ' ' ∨ d = '{')
    (rest : List Char) (starts : s.StartsPlainly) :
    ∃ c cs, s.text = c :: cs ∧ scan ctx c (cs ++ d :: rest) = [.word .selector (c :: cs)] := by
  obtain ⟨words, parts, areWords, areParts, _, nonempty⟩ := s
  obtain ⟨unreserved, noBracket⟩ := starts
  cases words with
  | cons word words =>
    obtain ⟨c, cs, whole, scanned⟩ := scan_tag markup areWords areParts ends rest
    rw [unreserved word rfl] at scanned
    exact ⟨c, cs, whole, scanned⟩
  | nil =>
    cases parts with
    | nil => exact absurd rfl nonempty
    | cons part parts =>
      obtain ⟨first, others⟩ := List.forall_mem_cons.mp areParts
      cases first with
      | @name c e cs mark first run =>
        refine ⟨c, e :: (cs ++ parts.flatten), rfl, ?_⟩
        rw [List.cons_append, List.append_assoc]
        exact scan_part markup mark first run others ends rest
      | bracketed => exact absurd rfl noBracket

/-- A selector in markup, before a space or a brace, is one token with the whole of it as its text if
    and only if it starts plainly. -/
theorem place_selector_iff (s : CompoundSelector) {ctx : Context} (markup : ctx.inMarkup) {d : Char}
    (ends : d = ' ' ∨ d = '{') (rest : List Char) (p : Position) :
    place p (pieces ctx 0 (s.text ++ d :: rest)) =
        ⟨.selector, .text (String.ofList s.text), String.ofList s.text, p.place s.text⟩ ::
          place (p.after s.text) (pieces (ctx.after (.word .selector s.text)) 0 (d :: rest)) ↔
      s.StartsPlainly := by
  constructor
  · -- Otherwise the first token is a reserved word or a bracket.
    intro whole
    have first : (place p (pieces ctx 0 (s.text ++ d :: rest))).head?.map Token.kind =
        some .selector := by rw [whole]; rfl
    constructor
    · intro word own
      obtain ⟨words, same⟩ := List.head?_eq_some_iff.mp own
      have areWords := s.areWords
      rw [same] at areWords
      obtain ⟨c, cs, whole, scanned⟩ := scan_tag markup areWords s.areParts ends rest
      rw [CompoundSelector.text, same, whole] at first
      cases reserved : Keyword.ofSpelling? (String.ofList word) with
      | none => rfl
      | some k =>
        rw [reserved] at scanned
        rw [List.cons_append, head?_place_scan scanned] at first
        cases first
    · intro bracket
      obtain ⟨cs, same⟩ := List.head?_eq_some_iff.mp bracket
      have scanned : scan ctx '[' (cs ++ d :: rest) = [.symbol .openBracket] := rfl
      rw [same, List.cons_append, head?_place_scan scanned] at first
      cases first
  · intro starts
    obtain ⟨c, cs, same, scanned⟩ := scan_selector s markup ends rest starts
    rw [same]
    exact place_lexeme scanned p

/-- A tag may have a reserved word in it and an attribute a bracket in quotes; but of the tag of a
    page's header its first word is cut off. -/
theorem place_selector_iff_page : ∃ (ctx : Context) (nav header : CompoundSelector),
    ctx = ⟨[some .view], 0, some (.symbol .openBrace), some ' '⟩ ∧
    nav.text = "nav-page#-x[a=\"]\"]".toList ∧ header.text = "page-header".toList ∧
    place .origin (pieces ctx 0 (nav.text ++ [' '])) =
      [⟨.selector, .text (String.ofList nav.text), String.ofList nav.text, ⟨1, 1, ⟨0, 18⟩⟩⟩,
        .endOfFile ⟨19, 1, 20⟩] ∧
    place .origin (pieces ctx 0 (header.text ++ [' '])) ≠
      [⟨.selector, .text (String.ofList header.text), String.ofList header.text, ⟨1, 1, ⟨0, 11⟩⟩⟩,
        .endOfFile ⟨12, 1, 13⟩] := by
  have word {c : Char} {cs : List Char} (letter : Text.isAlphabetic c)
      (run : cs.all isPart) : IsTagWord (c :: cs) := ⟨c, cs, rfl, letter, List.all_eq_true.mp run⟩
  have page : IsTagWord ['p', 'a', 'g', 'e'] := word (by decide) (by decide)
  have mark : IsSelectorPart ['#', '-', 'x'] :=
    .name (.inl rfl) (by decide) (List.all_eq_true.mp (by decide))
  have quoted : IsAttribute ['a', '=', '"', ']', '"'] :=
    .char (by decide) (by decide) (.char (by decide) (by decide)
      (@IsAttribute.quoted '"' [']'] [] (.inl rfl) (by decide) .nil))
  obtain ⟨nav, words, text⟩ : ∃ s : CompoundSelector,
      s.words = [['n', 'a', 'v'], ['p', 'a', 'g', 'e']] ∧
      s.text = "nav-page#-x[a=\"]\"]".toList := by
    refine ⟨⟨_, [['#', '-', 'x'], ['[', 'a', '=', '"', ']', '"', ']']], ?_, ?_, by decide, by simp⟩,
      rfl, rfl⟩
    · simpa using ⟨word (by decide) (by decide), page⟩
    · simpa using ⟨mark, .bracketed quoted⟩
  obtain ⟨header, words', text'⟩ : ∃ s : CompoundSelector,
      s.words = [['p', 'a', 'g', 'e'], ['h', 'e', 'a', 'd', 'e', 'r']] ∧
      s.text = "page-header".toList := by
    refine ⟨⟨_, [], ?_, by simp, by decide, by simp⟩, rfl, rfl⟩
    simpa using ⟨page, word (by decide) (by decide)⟩
  refine ⟨_, nav, header, rfl, text, text', ?_, fun whole => ?_⟩
  · rw [(place_selector_iff nav rfl (.inl rfl) [] .origin).mpr
      ⟨by rw [words]; decide, by rw [text]; decide⟩, text]
    rfl
  · have starts : header.StartsPlainly :=
      (place_selector_iff header rfl (.inl rfl) [] .origin).mp (by rw [whole, text']; rfl)
    rw [CompoundSelector.StartsPlainly, words'] at starts
    exact absurd (starts.1 _ rfl) (by decide)

end Lexer

end PulseSyntax
