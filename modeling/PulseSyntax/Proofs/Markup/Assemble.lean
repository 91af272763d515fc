import PulseSyntax.Markup.Text
import PulseSyntax.Proofs.Parser.Run

namespace PulseSyntax.TextNode

open PulseSyntax.Parser TextSegment

variable {read : Nat → List Char → Except ParseError Expr} {place : Place} {before : List Char}

theorem assemble_hole_eq_ok {start : Nat} {source : List Char} {rest : List TextSegment}
    {parts : List TextPart} :
    assemble read place before (.hole start source :: rest) = .ok parts ↔
      Text.trim source ≠ [] ∧ ∃ e more, read start source = .ok e ∧
        assemble read place [] rest = .ok more ∧
        parts =
          literalPart before ++ .interpolation (String.ofList (Text.trim source)) e :: more := by
  rw [assemble, ne_eq, ← List.isEmpty_iff]
  by_cases blank : (Text.trim source).isEmpty
  · simp only [blank, ↓reduceIte, not_true_eq_false, false_and, iff_false]
    intro h
    cases h
  · simp only [blank, Bool.false_eq_true, ↓reduceIte, not_false_eq_true, true_and]
    cases read start source with
    | error e =>
      constructor
      · intro h
        cases h
      · rintro ⟨_, _, h, _⟩
        cases h
    | ok e =>
      cases assemble read place [] rest with
      | error e =>
        constructor
        · intro h
          cases h
        · rintro ⟨_, _, _, h, _⟩
          cases h
      | ok more =>
        constructor
        · intro h
          cases h
          exact ⟨e, more, rfl, rfl, rfl⟩
        · rintro ⟨_, _, same, same', rfl⟩
          cases same
          cases same'
          rfl

theorem interpolation_notMem_literalPart (before : List Char) (source : String) (e : Expr) :
    .interpolation source e ∉ literalPart before := by
  unfold literalPart
  split <;> simp

theorem assemble_interpolation {segments : List TextSegment} {parts : List TextPart}
    (ok : assemble read place before segments = .ok parts) {source : String} {e : Expr}
    (member : .interpolation source e ∈ parts) :
    ∃ start hole, .hole start hole ∈ segments ∧ source = String.ofList (Text.trim hole) ∧
      read start hole = .ok e := by
  induction segments generalizing before parts with
  | nil =>
    cases ok
    exact absurd member (interpolation_notMem_literalPart _ _ _)
  | cons segment rest ih =>
    cases segment with
    | char c =>
      obtain ⟨start, hole, here, own⟩ := ih ok member
      exact ⟨start, hole, List.mem_cons_of_mem _ here, own⟩
    | unclosed => cases ok
    | hole start hole =>
      obtain ⟨-, e', more, own, tail, rfl⟩ := assemble_hole_eq_ok.mp ok
      rcases List.mem_append.mp member with literal | member
      · exact absurd literal (interpolation_notMem_literalPart _ _ _)
      · rcases List.mem_cons.mp member with here | later
        · cases here
          exact ⟨start, hole, List.mem_cons_self, rfl, own⟩
        · obtain ⟨start, hole, here, own⟩ := ih tail later
          exact ⟨start, hole, List.mem_cons_of_mem _ here, own⟩

theorem assemble_error {segments : List TextSegment} {e : ParseError}
    (failed : assemble read place before segments = .error e) :
    (e = ⟨.unclosedInterpolation, place⟩ ∨ e = ⟨.emptyInterpolation, place⟩) ∨
      ∃ start source, .hole start source ∈ segments ∧ read start source = .error e := by
  induction segments generalizing before with
  | nil => cases failed
  | cons segment rest ih =>
    have later {before : List Char} (failed : assemble read place before rest = .error e) :
        (e = ⟨.unclosedInterpolation, place⟩ ∨ e = ⟨.emptyInterpolation, place⟩) ∨
          ∃ start source, .hole start source ∈ segment :: rest ∧ read start source = .error e := by
      refine (ih failed).imp_right ?_
      rintro ⟨start, source, member, own⟩
      exact ⟨start, source, List.mem_cons_of_mem _ member, own⟩
    cases segment with
    | char c => exact later failed
    | unclosed =>
      cases failed
      exact .inl (.inl rfl)
    | hole start source =>
      rw [assemble] at failed
      split at failed
      · cases failed
        exact .inl (.inr rfl)
      cases own : read start source with
      | error e' =>
        rw [own] at failed
        cases failed
        exact .inr ⟨start, source, List.mem_cons_self, own⟩
      | ok e' =>
        rw [own] at failed
        cases tail : assemble read place [] rest with
        | error e'' =>
          rw [tail] at failed
          cases failed
          exact later tail
        | ok parts =>
          rw [tail] at failed
          cases failed

theorem ofToken_error {options : Options} {t : Token} {e : ParseError}
    (failed : ofToken options t = .error e) :
    assemble (readHole options t) t.place []
      (cut (t.kind == .template) 0 0 t.text.toList) = .error e := by
  rw [ofToken] at failed
  cases parts : assemble (readHole options t) t.place []
      (cut (t.kind == .template) 0 0 t.text.toList) with
  | ok parts =>
    rw [parts] at failed
    cases failed
  | error e' =>
    rw [parts] at failed
    cases failed
    rfl

theorem ofToken_eq_ok {options : Options} {t : Token} {node : TextNode} :
    ofToken options t = .ok node ↔
      assemble (readHole options t) t.place [] (cut (t.kind == .template) 0 0 t.text.toList) =
          .ok node.parts ∧ node.raw = t.text ∧ node.span = t.span := by
  rw [ofToken]
  cases assemble (readHole options t) t.place [] (cut (t.kind == .template) 0 0 t.text.toList) with
  | error e =>
    constructor
    · intro h
      cases h
    · rintro ⟨h, _⟩
      cases h
  | ok parts =>
    constructor
    · intro h
      cases h
      exact ⟨rfl, rfl, rfl⟩
    · obtain ⟨_, _, _⟩ := node
      rintro ⟨same, rfl, rfl⟩
      cases same
      rfl

/-- The tokens of an interpolation of the text that a token writes, to be parsed on their own. -/
def holeScope (options : Options) (t : Token) (start : Nat) (source : List Char) : Scope where
  stream := .ofList (holeTokens t start source)
  options := options
  quotation := some ⟨source, (Lexer.tokens source).map (·.span)⟩

theorem readHole_run (options : Options) (t : Token) (start : Nat) (source : List Char) :
    readHole options t start source =
      match holeParser source (holeScope options t start source) .initial with
      | .ok e _ => .ok e
      | .error e _ => .error e := rfl

theorem readHole_eq_ok {options : Options} {t : Token} {start : Nat} {source : List Char} {e : Expr} :
    readHole options t start source = .ok e ↔
      ∃ u, Expr.parser (holeScope options t start source) .initial = .ok e u ∧
        ((holeScope options t start source).stream.get u.cursor).kind = .endOfFile := by
  have whole : (∃ u, holeParser source (holeScope options t start source) .initial = .ok e u) ↔
      ∃ u, Expr.parser (holeScope options t start source) .initial = .ok e u ∧
        ((holeScope options t start source).stream.get u.cursor).kind = .endOfFile := by
    refine exists_congr fun u => ?_
    rw [holeParser, bind_eq_ok]
    constructor
    · rintro ⟨e', u', first, rest⟩
      rw [bind_of_ok current_apply] at rest
      split at rest
      · next atEnd =>
        cases rest
        exact ⟨first, beq_iff_eq.mp atEnd⟩
      · exact absurd rest fail_ne_ok
    · rintro ⟨first, atEnd⟩
      refine ⟨e, u, first, ?_⟩
      rw [bind_of_ok current_apply, if_pos (beq_iff_eq.mpr atEnd)]
      rfl
  rw [← whole, readHole_run]
  cases holeParser source (holeScope options t start source) .initial with
  | ok e' u => simp
  | error e' u => simp

theorem readHole_error {options : Options} {t : Token} {start : Nat} {source : List Char}
    {e : ParseError} (failed : readHole options t start source = .error e) :
    ∃ u, holeParser source (holeScope options t start source) .initial = .error e u := by
  rw [readHole_run] at failed
  cases answer : holeParser source (holeScope options t start source) .initial with
  | ok e' u =>
    rw [answer] at failed
    cases failed
  | error e' u =>
    rw [answer] at failed
    cases failed
    exact ⟨u, rfl⟩

end PulseSyntax.TextNode
