import PulseSyntax.Proofs.Markup.Alone
import PulseSyntax.Proofs.Markup.Assemble

namespace PulseSyntax

namespace Text

/-- The number of braces that are open after characters before which `depth` are open, if none
    closes that is not open. -/
def openBraces? : Nat → List Char → Option Nat
  | depth, [] => some depth
  | depth, c :: cs =>
    if c == '{' then openBraces? (depth + 1) cs
    else if c == '}' then
      match depth with
      | 0 => none
      | depth + 1 => openBraces? depth cs
    else openBraces? depth cs

/-- Every brace among the characters has its partner among them. -/
def BracesMatch (text : List Char) : Prop := openBraces? 0 text = some 0

instance (text : List Char) : Decidable (BracesMatch text) :=
  inferInstanceAs (Decidable (openBraces? 0 text = some 0))

end Text

namespace TextSegment

theorem holeSource?_append_iff {depth : Nat} {source rest : List Char} :
    holeSource? depth (source ++ '}' :: rest) = some source ↔
      Text.openBraces? depth source = some 0 := by
  induction source generalizing depth with
  | nil => cases depth <;> simp [holeSource?, Text.openBraces?]
  | cons c cs ih =>
    have further (depth : Nat) :
        (holeSource? depth (cs ++ '}' :: rest)).map (c :: ·) = some (c :: cs) ↔
          Text.openBraces? depth cs = some 0 := by
      simp [← ih]
    rw [List.cons_append]
    by_cases opens : c = '{'
    · simp only [holeSource?, Text.openBraces?, opens, beq_self_eq_true, ↓reduceIte]
      exact opens ▸ further (depth + 1)
    · by_cases closes : c = '}'
      · cases depth with
        | zero => simp [holeSource?, Text.openBraces?, closes]
        | succ depth =>
          simp only [holeSource?, Text.openBraces?, beq_iff_eq, closes, Char.reduceEq, ↓reduceIte]
          exact closes ▸ further depth
      · cases depth <;>
          simpa only [holeSource?, Text.openBraces?, beq_iff_eq, opens, closes, ↓reduceIte]
            using further _

def opening (template : Bool) : List Char := if template then ['$', '{'] else ['{']

theorem cut_skip (template : Bool) (index : Nat) (own rest : List Char) :
    cut template index own.length (own ++ rest) = cut template (index + own.length) 0 rest := by
  induction own generalizing index with
  | nil => rfl
  | cons c own ih =>
    rw [List.length_cons, List.cons_append, cut, ih, Nat.add_assoc, Nat.add_comm 1]

variable {template : Bool} {index : Nat} {source rest : List Char}

theorem cut_char {c : Char} {cs : List Char} (plain : escapedBrace? template c cs = none)
    (noHole : openingLength template c cs = 0) :
    cut template index 0 (c :: cs) = .char c :: cut template (index + 1) 0 cs := by
  simp only [cut, plain, noHole, beq_self_eq_true, ↓reduceIte]

theorem cut_hole {c : Char} {cs : List Char} (length : Nat)
    (plain : escapedBrace? template c cs = none)
    (opens : openingLength template c cs = length + 1)
    (found : holeSource? 0 (cs.drop length) = some source) :
    cut template index 0 (c :: cs) =
      .hole (index + (length + 1)) source ::
        cut template (index + 1) (length + 1 + source.length) cs := by
  simp [cut, plain, opens, found]

theorem cut_opening (pairs : Text.BracesMatch source) :
    cut template index 0 (opening template ++ (source ++ '}' :: rest)) =
      .hole (index + (opening template).length) source ::
        cut template (index + (opening template ++ source ++ ['}']).length) 0 rest := by
  have found : holeSource? 0 (source ++ '}' :: rest) = some source :=
    holeSource?_append_iff.mpr pairs
  have opened (c : Char) (lead : List Char) (same : opening template = c :: lead)
      (plain : escapedBrace? template c (lead ++ (source ++ '}' :: rest)) = none)
      (opens : openingLength template c (lead ++ (source ++ '}' :: rest)) = lead.length + 1) :
      cut template index 0 (opening template ++ (source ++ '}' :: rest)) =
        .hole (index + (opening template).length) source ::
          cut template (index + (opening template ++ source ++ ['}']).length) 0 rest := by
    have whole : lead ++ (source ++ '}' :: rest) = (lead ++ source ++ ['}']) ++ rest := by simp
    have skip := cut_skip template (index + 1) (lead ++ source ++ ['}']) rest
    have length : lead.length + 1 + source.length = (lead ++ source ++ ['}']).length := by
      simp only [List.length_append, List.length_singleton]
      omega
    rw [same, List.cons_append, cut_hole _ plain opens (by rwa [List.drop_left]), length, whole,
      skip]
    simp only [List.length_cons, List.cons_append, Nat.add_assoc, Nat.add_comm 1]
  cases template with
  | false => exact opened '{' [] rfl rfl rfl
  | true => exact opened '$' ['{'] rfl rfl rfl

def mapSource (f : List Char → List Char) : TextSegment → TextSegment
  | hole _ source => hole 0 (f source)
  | segment => segment

theorem eq_chars_of_mapSource {f : List Char → List Char} {segs : List TextSegment}
    {text : List Char} (h : segs.map (mapSource f) = text.map char) : segs = text.map char := by
  induction segs generalizing text with
  | nil => exact h
  | cons segment rest ih =>
    obtain ⟨c, text, rfl, first, others⟩ := List.map_eq_cons_iff.mp h.symm
    rw [List.map_cons, ih others.symm]
    cases segment <;> cases first
    rfl

end TextSegment

namespace TextPart

def segments : TextPart → List TextSegment
  | literal text => text.toList.map .char
  | interpolation source _ => [.hole 0 source.toList]

/-- Literals have characters and do not stand side by side, and the source of each interpolation is
    its expression. -/
structure AreProper (options : Options) (parts : List TextPart) : Prop where
  literals : ∀ {text}, literal text ∈ parts → text ≠ ""
  apart : parts.IsChain fun a b => a.isInterpolation ∨ b.isInterpolation
  sources : ∀ {source e}, interpolation source e ∈ parts →
    Expr.alone? options source.toList = some e

theorem AreProper.of_append {options : Options} {before parts : List TextPart}
    (h : AreProper options (before ++ parts)) : AreProper options parts where
  literals member := h.literals (List.mem_append_right _ member)
  apart := (List.isChain_append.mp h.apart).2.1
  sources member := h.sources (List.mem_append_right _ member)

/-- A part, and what it is read back as: white space around a source is left out. -/
inductive ReadsBack : TextPart → TextPart → Prop where
  | literal {text : String} : ReadsBack (literal text) (literal text)
  | interpolation {source : String} {e e' : Expr} (same : Expr.Same (.of source.toList) e e') :
      ReadsBack (interpolation source e)
        (interpolation (String.ofList (Text.trim source.toList)) e')

theorem segments_of_readsBack {parts parts' : List TextPart}
    (h : List.Forall₂ ReadsBack parts parts') :
    parts'.flatMap segments = (parts.flatMap segments).map (.mapSource Text.trim) := by
  induction h with
  | nil => rfl
  | cons first _ ih =>
    rw [List.flatMap_cons, List.flatMap_cons, List.map_append, ih]
    cases first with
    | literal => simp [segments, TextSegment.mapSource]
    | interpolation => simp [segments, TextSegment.mapSource]

end TextPart

namespace TextNode

open TextSegment TextPart

variable {read : Nat → List Char → Except ParseError Expr} {place : Place} {before : List Char}

theorem literalPart_segments (before : List Char) :
    (literalPart before).flatMap segments = before.reverse.map .char := by
  cases before with
  | nil => rfl
  | cons c before => simp [literalPart, segments]

theorem assemble_chars (text : List Char) (rest : List TextSegment) :
    assemble read place before (text.map .char ++ rest) =
      assemble read place (text.reverse ++ before) rest := by
  induction text generalizing before with
  | nil => rfl
  | cons c text ih =>
    rw [List.map_cons, List.cons_append, assemble, ih, List.reverse_cons, List.append_assoc]
    rfl

theorem segments_of_assemble {segs : List TextSegment} {parts : List TextPart}
    (h : assemble read place before segs = .ok parts) :
    parts.flatMap segments = before.reverse.map .char ++ segs.map (.mapSource Text.trim) := by
  induction segs generalizing before parts with
  | nil =>
    cases h
    rw [literalPart_segments, List.map_nil, List.append_nil]
  | cons segment rest ih =>
    cases segment with
    | char c =>
      rw [ih h]
      simp [mapSource]
    | unclosed => cases h
    | hole start source =>
      obtain ⟨-, e, more, -, tail, rfl⟩ := assemble_hole_eq_ok.mp h
      rw [List.flatMap_append, literalPart_segments, List.flatMap_cons, ih tail]
      simp [segments, mapSource]

theorem assemble_parts {options : Options} (t : Token) {segs : List TextSegment}
    {parts : List TextPart} (proper : AreProper options (literalPart before ++ parts))
    (same : segs.map (.mapSource id) = parts.flatMap segments) :
    ∃ parts', assemble (readHole options t) place before segs = .ok (literalPart before ++ parts') ∧
      List.Forall₂ ReadsBack parts parts' := by
  induction parts generalizing before segs with
  | nil =>
    obtain rfl := List.map_eq_nil_iff.mp same
    exact ⟨[], by rw [List.append_nil]; rfl, .nil⟩
  | cons part rest ih =>
    rw [List.flatMap_cons, List.map_eq_append_iff] at same
    obtain ⟨own, later, rfl, here, same⟩ := same
    cases part with
    | literal text =>
      -- Characters that stand before a literal part would make a literal of their own.
      have first : before = [] := by
        by_contra some
        have apart := proper.apart
        rw [literalPart, if_neg (by rwa [List.isEmpty_iff]), List.singleton_append,
          List.isChain_cons_cons] at apart
        simp [isInterpolation] at apart
      subst first
      have whole : literalPart (text.toList.reverse ++ []) = [.literal text] := by
        have some : text ≠ "" := proper.literals (by simp)
        simp [literalPart, some]
      rw [eq_chars_of_mapSource here, assemble_chars]
      have tail : AreProper options (literalPart (text.toList.reverse ++ []) ++ rest) := by
        rw [whole]
        exact proper
      obtain ⟨parts', read, back⟩ := ih tail same
      rw [whole] at read
      exact ⟨.literal text :: parts', read, .cons .literal back⟩
    | interpolation source e =>
      obtain ⟨start, rfl⟩ : ∃ start, own = [.hole start source.toList] := by
        obtain ⟨segment, rfl, found⟩ := List.map_eq_singleton_iff.mp here
        cases segment <;> cases found
        exact ⟨_, rfl⟩
      have alone : Expr.alone? options source.toList = some e := proper.sources (by simp)
      obtain ⟨e', found, alike⟩ := readHole_of_alone? alone t start
      have last : AreProper options ([.interpolation source e] ++ rest) := proper.of_append
      have tail : AreProper options (literalPart [] ++ rest) := last.of_append
      obtain ⟨parts', read, back⟩ := ih tail same
      refine ⟨.interpolation (String.ofList (Text.trim source.toList)) e' :: parts',
        assemble_hole_eq_ok.mpr ⟨Expr.not_blank_of_alone? alone, e', parts', found, read, rfl⟩,
        .cons (.interpolation alike) back⟩

theorem segments_of_ofToken {options : Options} {t : Token} {node : TextNode}
    (h : ofToken options t = .ok node) :
    node.parts.flatMap segments =
      (cut (t.kind == .template) 0 0 t.text.toList).map (.mapSource Text.trim) :=
  segments_of_assemble (ofToken_eq_ok.mp h).1

theorem ofToken_readsBack {options : Options} {t : Token} {parts : List TextPart}
    (proper : AreProper options parts)
    (same : (cut (t.kind == .template) 0 0 t.text.toList).map (.mapSource id) =
      parts.flatMap segments) :
    ∃ node, ofToken options t = .ok node ∧ List.Forall₂ ReadsBack parts node.parts := by
  have start : AreProper options (literalPart [] ++ parts) := proper
  obtain ⟨parts', read, back⟩ := assemble_parts t start same
  exact ⟨⟨parts', t.text, t.span⟩, ofToken_eq_ok.mpr ⟨read, rfl, rfl⟩, back⟩

end TextNode

end PulseSyntax
