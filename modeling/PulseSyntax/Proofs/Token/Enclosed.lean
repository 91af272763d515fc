import PulseSyntax.Proofs.Token.Sheltered

namespace PulseSyntax

/-- The tokens of a source that start in the second of its three parts. -/
def tokensWithin (before text after : String) : List Token :=
  (tokenize (before ++ text ++ after)).filter fun t =>
    before.utf8ByteSize ≤ t.span.start && t.span.start < before.utf8ByteSize + text.utf8ByteSize

/-- After the first text, on lines of its own, the second is code of its own: its brackets close in
    the order in which they open, and its literals and comments have their ends. -/
structure ClosedWithin (before text : String) : Prop where
  nested : WellNested (tokensWithin before ("\n" ++ text ++ "\n") "")
  terminated : ∀ t ∈ tokensWithin before ("\n" ++ text ++ "\n") "", ¬t.IsUnterminated

namespace Lexer

theorem le_start_of_mem_placed {p : Position} {ps : List Piece} {t : Token}
    (h : t ∈ placed p ps) : p.byte ≤ t.span.start := by
  induction ps generalizing p with
  | nil => cases h
  | cons piece ps ih =>
    rcases List.mem_append.mp h with own | later
    · cases piece with
      | trivia => cases own
      | lexeme =>
        obtain rfl := List.mem_singleton.mp own
        exact Nat.le_refl _
    · have next := ih later
      rw [Position.after_byte] at next
      omega

theorem le_start_of_mem_place {p : Position} {ps : List Piece} {t : Token}
    (h : t ∈ place p ps) : p.byte ≤ t.span.start := by
  rw [place_eq_placed, List.mem_append, List.mem_singleton] at h
  rcases h with own | rfl
  · exact le_start_of_mem_placed own
  · rw [Token.span, Token.endOfFile, Position.place, Position.after_byte]
    exact Nat.le_add_right _ _

theorem start_lt_of_mem_placed {p : Position} {ps : List Piece} {text : List Char}
    (cut : Cut text ps []) {t : Token} (h : t ∈ placed p ps) :
    t.span.start < p.byte + Text.byteSize text := by
  generalize ([] : List Char) = after at cut
  induction cut generalizing p with
  | nil => cases h
  | @cons piece rest ps after fits tail ih =>
    rw [Text.byteSize_append]
    rcases List.mem_append.mp h with own | later
    · cases piece with
      | trivia => cases own
      | lexeme kind value text =>
        obtain rfl := List.mem_singleton.mp own
        have size := Text.byteSize_pos fits.2
        simp only [Token.span, Position.place, Piece.text]
        omega
    · have next := ih later
      rw [Position.after_byte] at next
      omega

theorem kind_ne_selector {p : Position} {ps : List Piece} (free : SelectorFree ps) {t : Token}
    (h : t ∈ placed p ps) : t.kind ≠ .selector := by
  intro kind
  obtain ⟨text, member⟩ := exists_of_mem_placed h
  exact free _ member t.value text (by rw [kind])

/-- The text ends with a parenthesis that it opens in a block. -/
structure OpensParen (before : String) (block : Option Keyword) : Prop where
  complete : Complete .initial .origin (before.toList ++ ['\n'])
  apart : ∀ t ∈ (tokens (before.toList ++ ['\n'])).dropLast, t.span.start < before.utf8ByteSize
  inside : (left .initial (before.toList ++ ['\n'])).Sheltered block []

section

variable {before : String} {block : Option Keyword}

/-- The pieces of a text on lines of its own after another text. -/
def innerPieces (before text : String) : List Piece :=
  pieces (left .initial (before.toList ++ ['\n'])) 0 (text.toList ++ ['\n'])

def innerStart (before : String) : Position := Position.origin.after (before.toList ++ ['\n'])

theorem innerStart_byte (before : String) : (innerStart before).byte = before.utf8ByteSize + 1 := by
  rw [innerStart, Position.origin_after_byte, Text.byteSize_append, Text.byteSize_toList]
  rfl

theorem cut_innerPieces (before text : String) :
    Cut (text.toList ++ ['\n']) (innerPieces before text) [] := cut_pieces _ _

theorem tokensWithin_of_seam (h : OpensParen before block) {text after : String}
    (rest : List Token)
    (seam : place (innerStart before)
        (pieces (left .initial (before.toList ++ ['\n'])) 0 (text.toList ++ '\n' :: after.toList)) =
      placed (innerStart before) (innerPieces before text) ++ rest)
    (later : ∀ t ∈ rest, before.utf8ByteSize + text.utf8ByteSize + 2 ≤ t.span.start) :
    tokensWithin before ("\n" ++ text ++ "\n") after =
      placed (innerStart before) (innerPieces before text) := by
  have size : ("\n" ++ text ++ "\n").utf8ByteSize = text.utf8ByteSize + 2 := by
    simp only [String.utf8ByteSize_append]
    change 1 + text.utf8ByteSize + 1 = _
    omega
  have whole : tokenize (before ++ ("\n" ++ text ++ "\n") ++ after) =
      (tokens (before.toList ++ ['\n'])).dropLast ++
        (placed (innerStart before) (innerPieces before text) ++ rest) := by
    have list : (before ++ ("\n" ++ text ++ "\n") ++ after).toList =
        before.toList ++ '\n' :: (text.toList ++ '\n' :: after.toList) := by
      simp [String.toList_append]
    rw [tokenize, tokens, list, place_seam h.complete]
    exact congrArg _ seam
  have first : ∀ t ∈ (tokens (before.toList ++ ['\n'])).dropLast,
      ¬before.utf8ByteSize ≤ t.span.start := fun t member => Nat.not_le.mpr (h.apart t member)
  have own : ∀ t ∈ placed (innerStart before) (innerPieces before text),
      before.utf8ByteSize ≤ t.span.start ∧
        t.span.start < before.utf8ByteSize + (text.utf8ByteSize + 2) := by
    intro t member
    have from_ := le_start_of_mem_placed member
    have upTo := start_lt_of_mem_placed (cut_innerPieces before text) member
    rw [Text.byteSize_append, Text.byteSize_toList] at upTo
    rw [innerStart_byte] at from_ upTo
    have lineFeed : Text.byteSize ['\n'] = 1 := rfl
    omega
  rw [tokensWithin, whole, size, List.filter_append, List.filter_append,
    List.filter_eq_nil_iff.mpr fun t member => by simp [first t member],
    List.filter_eq_self.mpr fun t member => by simpa using own t member,
    List.filter_eq_nil_iff.mpr fun t member => by
      have after := later t member
      simp only [Bool.and_eq_true, decide_eq_true_eq]
      omega]
  simp

theorem tokensWithin_alone (h : OpensParen before block) (text : String) :
    tokensWithin before ("\n" ++ text ++ "\n") "" =
      placed (innerStart before) (innerPieces before text) := by
  refine tokensWithin_of_seam h [_] (place_eq_placed _ _) fun t member => ?_
  obtain rfl := List.mem_singleton.mp member
  have whole := (cut_innerPieces before text).text_eq
  rw [List.append_nil] at whole
  change _ ≤ ((innerStart before).after (textOf (innerPieces before text))).byte
  rw [← whole, Position.after_byte, innerStart_byte, Text.byteSize_append, Text.byteSize_toList]
  have lineFeed : Text.byteSize ['\n'] = 1 := rfl
  omega

theorem tokensWithin_eq (h : OpensParen before block) {text : String}
    (complete : Complete (left .initial (before.toList ++ ['\n'])) (innerStart before)
      (text.toList ++ ['\n'])) (after : String) :
    tokensWithin before ("\n" ++ text ++ "\n") after =
      placed (innerStart before) (innerPieces before text) := by
  refine tokensWithin_of_seam h (place ((innerStart before).after (text.toList ++ ['\n']))
    (pieces (left (left .initial (before.toList ++ ['\n'])) (text.toList ++ ['\n'])) 0
      after.toList)) ?_ fun t member => ?_
  · rw [place_seam complete]
    congr 1
    rw [place_eq_placed, List.dropLast_concat]
    rfl
  · have from_ := le_start_of_mem_place member
    rw [Position.after_byte, innerStart_byte, Text.byteSize_append, Text.byteSize_toList] at from_
    have lineFeed : Text.byteSize ['\n'] = 1 := rfl
    omega

variable {before' text : String} {block' : Option Keyword}

theorem complete_of_terminated {before : String}
    (free : SelectorFree (innerPieces before text))
    (terminated : ∀ t ∈ placed (innerStart before) (innerPieces before text), ¬t.IsUnterminated) :
    Complete (left .initial (before.toList ++ ['\n'])) (innerStart before)
      (text.toList ++ ['\n']) := by
  have tokens : place (innerStart before)
      (pieces (left .initial (before.toList ++ ['\n'])) 0 (text.toList ++ ['\n'])) =
        placed (innerStart before) (innerPieces before text) ++ [_] := place_eq_placed _ _
  constructor
  · intro t member
    rw [tokens, List.mem_append, List.mem_singleton] at member
    rcases member with own | rfl
    · exact terminated t own
    · exact fun unfinished => absurd unfinished.1 (by simp [Token.endOfFile])
  · intro _ t member
    rw [tokens, List.mem_append, List.mem_singleton] at member
    rcases member with own | rfl
    · exact fun bracket => kind_ne_selector free own bracket.1
    · exact fun bracket => absurd bracket.1 (by simp [Token.endOfFile])

theorem isUnterminated_iff {t : Token} :
    t.IsUnterminated ↔ t.own.kind = .invalid ∧ t.own.value ∈ unterminated := Iff.rfl

/-- A text that is code of its own in one parenthesis has the same tokens in another, and no
    selector is among them. -/
theorem closedWithin_congr (code : ClosedWithin before text) (h : OpensParen before block)
    (h' : OpensParen before' block') (noStyle : block ≠ some .style)
    (noStyle' : block' ≠ some .style) (after after' : String) :
    (tokensWithin before ("\n" ++ text ++ "\n") after).map Token.own =
        (tokensWithin before' ("\n" ++ text ++ "\n") after').map Token.own ∧
      (∀ t ∈ tokensWithin before ("\n" ++ text ++ "\n") after, t.kind ≠ .selector) ∧
      ∀ t ∈ tokensWithin before' ("\n" ++ text ++ "\n") after', t.kind ≠ .selector := by
  obtain ⟨nested, terminated⟩ := code
  rw [tokensWithin_alone h] at nested terminated
  obtain ⟨same, free⟩ := pieces_sheltered h.inside h'.inside noStyle noStyle' nested
  have alike : innerPieces before text = innerPieces before' text := same
  have own := (Lexeme.placed_map_own (innerStart before) (innerPieces before text)).trans
    (Lexeme.placed_map_own (innerStart before') (innerPieces before text)).symm
  have terminated' : ∀ t ∈ placed (innerStart before') (innerPieces before text),
      ¬t.IsUnterminated := by
    intro t member
    have also : t.own ∈ (placed (innerStart before) (innerPieces before text)).map Token.own :=
      own ▸ List.mem_map_of_mem member
    obtain ⟨u, first, written⟩ := List.mem_map.mp also
    rw [isUnterminated_iff, ← written]
    exact terminated u first
  have free' : SelectorFree (innerPieces before' text) := alike ▸ free
  rw [tokensWithin_eq h (complete_of_terminated free terminated),
    tokensWithin_eq h' (complete_of_terminated free' (alike ▸ terminated')), ← alike]
  exact ⟨own, fun _ member => kind_ne_selector free member,
    fun _ member => kind_ne_selector free member⟩

end

theorem opensParen_value : OpensParen r"state { x: (" (some .state) where
  complete := ⟨by decide +kernel, by decide +kernel⟩
  apart := by decide +kernel
  inside := ⟨by decide +kernel, by decide +kernel⟩

theorem opensParen_condition : OpensParen r"view { @if (" (some .view) where
  complete := ⟨by decide +kernel, by decide +kernel⟩
  apart := by decide +kernel
  inside := ⟨by decide +kernel, by decide +kernel⟩

end Lexer

open Lexer in
/-- Expressions have the same tokens in every block. A text that is code of its own between the
    parentheses of a state value or of a condition in a view has the same tokens in both, and no
    selector is among them. -/
theorem tokensWithin_condition_eq_value (text : String)
    (code : ClosedWithin r"state { x: (" text ∨ ClosedWithin r"view { @if (" text) :
    (tokensWithin r"view { @if (" ("\n" ++ text ++ "\n") r") { } }").map Token.own =
        (tokensWithin r"state { x: (" ("\n" ++ text ++ "\n") r") }").map Token.own ∧
      (∀ t ∈ tokensWithin r"view { @if (" ("\n" ++ text ++ "\n") r") { } }",
        t.kind ≠ .selector) ∧
      ∀ t ∈ tokensWithin r"state { x: (" ("\n" ++ text ++ "\n") r") }",
        t.kind ≠ .selector := by
  rcases code with inState | inView
  · obtain ⟨same, value, condition⟩ := closedWithin_congr inState opensParen_value opensParen_condition
      (by decide) (by decide) r") }" r") { } }"
    exact ⟨same.symm, condition, value⟩
  · exact closedWithin_congr inView opensParen_condition opensParen_value (by decide) (by decide) _ _

/-- In markup the same text would start with a selector. -/
theorem tokensWithin_condition_eq_value_arrow :
    ClosedWithin r"state { x: (" "item.name ? [a] : () => { b.c }" ∧
      ((tokensWithin r"view { @if (" ("\n" ++ "item.name ? [a] : () => { b.c }" ++ "\n")
          r") { } }").map Token.own =
        (tokensWithin r"state { x: (" ("\n" ++ "item.name ? [a] : () => { b.c }" ++ "\n")
          r") }").map Token.own) := by
  have code : ClosedWithin r"state { x: (" "item.name ? [a] : () => { b.c }" :=
    ⟨by decide +kernel, by decide +kernel⟩
  exact ⟨code, (tokensWithin_condition_eq_value _ (.inl code)).1⟩

end PulseSyntax
