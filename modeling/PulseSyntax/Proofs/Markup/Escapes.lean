import PulseSyntax.Proofs.Markup.Segments
import PulseSyntax.Proofs.Token.Quoted

namespace PulseSyntax

namespace Quoted

/-- A character of a text as a literal spells it. -/
def spell (c : Char) : List Char :=
  if c == '\\' || c == '"' || c == '{' || c == '}' then ['\\', c] else [c]

/-- What the lexer makes of it. -/
def keep (c : Char) : List Char := if c == '{' || c == '}' then ['\\', c] else [c]

theorem spells_spell (c : Char) : Spells '"' (spell c) (keep c) := by
  by_cases open_ : c = '{'
  · subst open_
    exact .escape (by decide) fun _ => rfl
  by_cases close : c = '}'
  · subst close
    exact .escape (by decide) fun _ => rfl
  by_cases backslash : c = '\\'
  · subst backslash
    exact .escape (by decide) fun _ => rfl
  by_cases quote : c = '"'
  · subst quote
    exact .escape (by decide) fun _ => rfl
  · simpa [spell, keep, open_, close, backslash, quote] using Spells.char quote backslash

end Quoted

namespace TextSegment

/-- The value of a literal that spells the segment. -/
def value : TextSegment → List Char
  | char c => Quoted.keep c
  | hole _ source => '{' :: source ++ ['}']
  | unclosed => []

def IsClosed : TextSegment → Prop
  | char _ => True
  | hole _ source => Text.BracesMatch source
  | unclosed => False

/-- A backslash does not escape the brace that opens an interpolation. -/
def Apart (a b : TextSegment) : Prop := ∀ start source, a = char '\\' → b ≠ hole start source

theorem cut_hole_value (index start : Nat) {source rest : List Char}
    (pairs : Text.BracesMatch source) :
    ∃ next, cut false index 0 (value (hole start source) ++ rest) =
      hole (index + 1) source :: cut false next 0 rest := by
  have whole : value (hole start source) ++ rest = opening false ++ (source ++ '}' :: rest) := by
    simp [value, opening]
  rw [whole, cut_opening pairs]
  exact ⟨_, rfl⟩

theorem cut_char_value (index : Nat) {c : Char} {rest : List Char}
    (apart : c = '\\' → escapedBrace? false '\\' rest = none) :
    ∃ next, cut false index 0 (value (char c) ++ rest) = char c :: cut false next 0 rest := by
  by_cases brace : c == '{' || c == '}'
  · refine ⟨index + 1 + [c].length, ?_⟩
    have escaped : escapedBrace? false '\\' (c :: rest) = some c := by
      simpa [escapedBrace?] using brace
    rw [← cut_skip]
    simp only [value, Quoted.keep, brace, ↓reduceIte, List.cons_append, List.nil_append, cut,
      escaped, List.length_singleton]
  · have plain : escapedBrace? false c rest = none := by
      by_cases backslash : c = '\\'
      · exact backslash ▸ apart backslash
      · simp [escapedBrace?, backslash]
    refine ⟨index + 1, ?_⟩
    rw [value, Quoted.keep, if_neg brace, List.singleton_append]
    refine cut_char plain ?_
    simp only [Bool.or_eq_true, not_or] at brace
    simp [openingLength, brace.1]

theorem escapedBrace?_value {segs : List TextSegment}
    (closed : ∀ segment ∈ segs, segment.IsClosed) :
    escapedBrace? false '\\' (segs.flatMap value) = none ↔
      ∀ segment ∈ segs.head?, Apart (char '\\') segment := by
  cases segs with
  | nil => simp [escapedBrace?]
  | cons segment rest =>
    simp only [List.flatMap_cons, List.head?_cons, Option.mem_def, Option.some.injEq, forall_eq']
    cases segment with
    | unclosed => exact (closed unclosed List.mem_cons_self).elim
    | hole start source => simp [escapedBrace?, value, Apart]
    | char d =>
      by_cases brace : d == '{' || d == '}' <;> simp_all [escapedBrace?, value, Quoted.keep, Apart]

theorem cut_value_iff (f : List Char → List Char) {segs : List TextSegment} (index : Nat)
    (closed : ∀ segment ∈ segs, segment.IsClosed) :
    (cut false index 0 (segs.flatMap value)).map (mapSource f) = segs.map (mapSource f) ↔
      segs.IsChain Apart := by
  induction segs generalizing index with
  | nil => simp [cut]
  | cons segment rest ih =>
    obtain ⟨here, later⟩ := List.forall_mem_cons.mp closed
    rw [List.isChain_cons, List.flatMap_cons]
    cases segment with
    | unclosed => exact here.elim
    | hole start source =>
      obtain ⟨next, cut_eq⟩ := cut_hole_value index start here
      have apart : ∀ b ∈ rest.head?, Apart (hole start source) b := by
        intro b head start source same
        cases same
      rw [cut_eq, List.map_cons, List.map_cons, List.cons.injEq, ih next later]
      exact and_congr_left fun _ => iff_of_true rfl apart
    | char c =>
      have told := escapedBrace?_value later
      by_cases apart : c = '\\' → escapedBrace? false '\\' (rest.flatMap value) = none
      · obtain ⟨next, cut_eq⟩ := cut_char_value index apart
        have first : ∀ b ∈ rest.head?, Apart (char c) b := by
          intro b head start source same
          cases same
          exact told.mp (apart rfl) b head start source rfl
        rw [cut_eq, List.map_cons, List.map_cons, List.cons.injEq, ih next later]
        exact and_congr_left fun _ => iff_of_true rfl first
      · obtain ⟨rfl, escaped⟩ := Classical.not_imp.mp apart
        obtain ⟨brace, found⟩ := Option.ne_none_iff_exists'.mp escaped
        have other : brace ≠ '\\' := by
          rintro rfl
          simp [escapedBrace?] at found
        -- The backslash is gone: what is cut off in its place is the brace.
        refine iff_of_false (fun same => other ?_) fun chain => escaped (told.mpr chain.1)
        rw [show value (char '\\') = ['\\'] from rfl, List.singleton_append, cut] at same
        simp only [found] at same
        exact char.inj (List.cons.inj same).1

end TextSegment

namespace TextPart

open TextSegment

/-- A part as a literal between double quotes spells it. -/
def written : TextPart → List Char
  | literal text => text.toList.flatMap Quoted.spell
  | interpolation source _ => '{' :: source.toList ++ ['}']

/-- Parts that are well formed, and whose interpolations can stand between quotes as they are. -/
structure AreWritable (options : Options) (parts : List TextPart) : Prop
    extends AreProper options parts where
  noQuote : ∀ {source e}, interpolation source e ∈ parts → '"' ∉ source.toList
  noBackslash : ∀ {source e}, interpolation source e ∈ parts → '\\' ∉ source.toList
  pairs : ∀ {source e}, interpolation source e ∈ parts → Text.BracesMatch source.toList

def Apart (a b : TextPart) : Prop :=
  ∀ text source e, a = literal text → text.toList.getLast? = some '\\' → b ≠ interpolation source e

variable {options : Options} {parts : List TextPart}

theorem AreWritable.spells (h : AreWritable options parts) :
    Quoted.Spells '"' (parts.flatMap written) ((parts.flatMap segments).flatMap value) := by
  rw [List.flatMap_assoc]
  refine .flatMap fun part member => ?_
  cases part with
  | literal text =>
    have each : (literal text).segments.flatMap value = text.toList.flatMap Quoted.keep :=
      List.flatMap_map ..
    rw [each]
    exact .flatMap fun c _ => Quoted.spells_spell c
  | interpolation source e =>
    have noQuote := h.noQuote member
    have noBackslash := h.noBackslash member
    have whole : (interpolation source e).segments.flatMap value =
        '{' :: source.toList ++ ['}'] := by
      simp [segments, value]
    rw [whole]
    exact .plain (by simp [written, noQuote]) (by simp [written, noBackslash])

theorem AreWritable.isClosed (h : AreWritable options parts) :
    ∀ segment ∈ parts.flatMap segments, segment.IsClosed := by
  intro segment member
  obtain ⟨part, here, member⟩ := List.mem_flatMap.mp member
  cases part with
  | literal text =>
    obtain ⟨c, -, rfl⟩ := List.mem_map.mp member
    trivial
  | interpolation source e =>
    obtain rfl := List.mem_singleton.mp member
    exact h.pairs here

theorem AreProper.isChain_segments (h : AreProper options parts) :
    (parts.flatMap segments).IsChain TextSegment.Apart ↔ parts.IsChain Apart := by
  have nonempty : [] ∉ parts.map segments := by
    intro member
    obtain ⟨part, here, none⟩ := List.mem_map.mp member
    cases part with
    | literal text => exact h.literals here (by simpa [segments] using none)
    | interpolation => cases none
  have inside : ∀ own ∈ parts.map segments, own.IsChain TextSegment.Apart := by
    intro own member
    obtain ⟨part, -, rfl⟩ := List.mem_map.mp member
    cases part with
    | literal text =>
      refine List.Pairwise.isChain (List.pairwise_map.mpr (List.pairwise_of_forall fun c d => ?_))
      intro _ start source same
      cases same
    | interpolation => exact .singleton _
  rw [List.flatMap_def, List.isChain_flatten nonempty, and_iff_right inside, List.isChain_map]
  refine List.IsChain.iff fun a b => ?_
  cases a with
  | interpolation => simp [segments, TextSegment.Apart, Apart]
  | literal text =>
    cases b with
    | literal other => simp [segments, TextSegment.Apart, Apart]
    | interpolation source e =>
      refine ⟨fun h _ _ _ same ends _ => ?_, fun h last member _ _ start inner same _ => ?_⟩
      · cases same
        refine h (.char '\\') ?_ (.hole 0 source.toList) rfl 0 source.toList rfl rfl
        simp [segments, ends]
      · subst same
        have ends : text.toList.getLast? = some '\\' := by simpa [segments] using member
        exact h text source e rfl ends rfl

theorem map_mapSource_segments (parts : List TextPart) :
    (parts.flatMap segments).map (mapSource id) = parts.flatMap segments := by
  rw [List.map_flatMap]
  refine List.flatMap_congr fun part _ => ?_
  cases part <;> simp [segments, mapSource]

end TextPart

namespace TextNode

open TextSegment TextPart Quoted

/-- Parts that are written as a string literal make one token, whatever stands around it. The token
    is read as the same parts if and only if no literal that ends in a backslash stands before an
    interpolation. -/
theorem ofToken_written {options : Options} {parts : List TextPart}
    (writable : AreWritable options parts) (ctx : Context) (p : Position) :
    ∃ t : Token, t.kind = .string ∧
      (∀ rest, Lexer.place p (Lexer.pieces ctx 0 (enclose '"' (parts.flatMap written) ++ rest)) =
        t :: Lexer.place (p.after (enclose '"' (parts.flatMap written)))
          (Lexer.pieces { ctx with lastKind := some .string, lastChar := some '"' } 0 rest)) ∧
      ((∃ node, ofToken options t = .ok node ∧ List.Forall₂ ReadsBack parts node.parts) ↔
        parts.IsChain TextPart.Apart) := by
  have closed := writable.isClosed
  generalize ht : Lexer.stringToken p '"' (parts.flatMap written)
    ((parts.flatMap segments).flatMap value) = t
  have segments_eq : cut (t.kind == .template) 0 0 t.text.toList =
      cut false 0 0 ((parts.flatMap segments).flatMap value) := by
    rw [← ht]
    exact congrArg (cut false 0 0) String.toList_ofList
  refine ⟨t, by rw [← ht]; rfl, ht ▸ Lexer.place_string (.inl rfl) writable.spells ctx p, ?_⟩
  rw [← writable.isChain_segments]
  constructor
  · rintro ⟨node, read, back⟩
    rw [← cut_value_iff Text.trim 0 closed, ← segments_of_readsBack back,
      segments_of_ofToken read, segments_eq]
  · intro apart
    refine ofToken_readsBack writable.toAreProper ?_
    rw [segments_eq, (cut_value_iff id 0 closed).mpr apart, map_mapSource_segments]

theorem ofToken_written_backslash :
    ∃ (e : Expr) (t : Token) (node : TextNode),
      Expr.alone? .standard [' ', 'x'] = some e ∧
      (Lexer.tokens (enclose '"'
        ([.literal "\\\"", .interpolation " x" e, .literal "\\"].flatMap written))).head? = some t ∧
      ofToken .standard t = .ok node ∧
      List.Forall₂ ReadsBack [.literal "\\\"", .interpolation " x" e, .literal "\\"]
        node.parts := by
  have read : (Expr.alone? .standard [' ', 'x']).isSome := by decide +kernel
  obtain ⟨e, alone⟩ := Option.isSome_iff_exists.mp read
  have source {source : String} {e' : Expr} (member : .interpolation source e' ∈
      [TextPart.literal "\\\"", .interpolation " x" e, .literal "\\"]) :
      source = " x" ∧ e' = e := by
    simpa using member
  have writable : AreWritable .standard
      [.literal "\\\"", .interpolation " x" e, .literal "\\"] := by
    refine ⟨⟨fun member => ?_, ?_, fun member => ?_⟩, fun member => ?_, fun member => ?_,
      fun member => ?_⟩
    · simp only [List.mem_cons, literal.injEq, reduceCtorEq, List.not_mem_nil, or_false,
        false_or] at member
      rcases member with rfl | rfl <;> decide
    · simp [isInterpolation]
    · obtain ⟨rfl, rfl⟩ := source member
      exact alone
    all_goals
      obtain ⟨rfl, -⟩ := source member
      decide
  have apart : List.IsChain TextPart.Apart
      [.literal "\\\"", .interpolation " x" e, .literal "\\"] := by
    refine List.isChain_cons_cons.mpr ⟨fun text _ _ same ends => ?_, by simp [TextPart.Apart]⟩
    cases same
    exact absurd ends (by decide)
  obtain ⟨t, -, tokens, back⟩ := ofToken_written writable .initial .origin
  obtain ⟨node, found, parts⟩ := back.mpr apart
  have first := tokens []
  rw [List.append_nil] at first
  exact ⟨e, t, node, alone, by rw [Lexer.tokens, first]; rfl, found, parts⟩

end TextNode

end PulseSyntax
