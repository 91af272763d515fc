import PulseSyntax.Proofs.Style.Course

namespace PulseSyntax.Style

open PulseSyntax.Parser

section

variable {stream : TokenStream} {depth i : Nat}

theorem terminator_of_ends (ends : (stream.get i).kind = .endOfFile ∨
    depth = 0 ∧ endsItem (stream.get i).kind) :
    terminator depth (stream.tokensFrom i) = (stream.get i).kind := by
  rcases tokens : stream.tokensFrom i with _ | ⟨t, rest⟩
  · rw [← TokenStream.firstKind_tokensFrom, tokens]
    rfl
  · rw [TokenStream.get_of_tokensFrom tokens] at ends ⊢
    rcases ends with atEnd | ⟨rfl, ends⟩
    · simp [terminator, atEnd, endsItem]
    · simp [terminator, ends]

theorem terminator_of_goesOn (more : (stream.get i).kind ≠ .endOfFile)
    (goesOn : (depth == 0 && endsItem (stream.get i).kind) = false) :
    terminator depth (stream.tokensFrom i) =
      terminator (openAfter depth (stream.get i).kind) (stream.tokensFrom (i + 1)) := by
  rw [TokenStream.tokensFrom_of_kind_ne more, terminator, goesOn, if_neg Bool.false_ne_true,
    if_neg (by simpa using more)]

end

variable {scope : Scope} {s t : ParserState}

theorem itemTokens_stops {own : List Token} (h : itemTokens scope s = .ok own t) :
    (scope.stream.get t.cursor).kind = terminator 0 (scope.stream.tokensFrom s.cursor) := by
  rw [itemTokens, bind_of_ok cursor_apply] at h
  obtain ⟨parens, u, read, h⟩ := bind_eq_ok.mp h
  cases h
  have keep {depth next : Nat} {u v : ParserState}
      (inv : terminator depth (scope.stream.tokensFrom u.cursor) =
        terminator 0 (scope.stream.tokensFrom s.cursor))
      (h : itemToken depth scope u = .ok (.yield next) v) :
      terminator next (scope.stream.tokensFrom v.cursor) =
        terminator 0 (scope.stream.tokensFrom s.cursor) ∧ u.cursor < v.cursor := by
    obtain ⟨more, goesOn, rfl, rfl⟩ := itemToken_yield h
    exact ⟨(terminator_of_goesOn more goesOn).symm.trans inv, Nat.lt_succ_self _⟩
  obtain ⟨depth, u, inv, -, done⟩ := loop_ok readsOn_itemToken keep rfl read
  obtain ⟨ends, rfl, rfl⟩ := itemToken_done done
  rw [← inv, terminator_of_ends ends]

/-- Reads the opening brace where it stands, and goes on with another parser where it does not. -/
def openingOr (otherwise : Parser Token) : Parser Token := do
  if ← isSymbol .openBrace then advance else otherwise

/-- A rule, for which another parser goes on where no opening brace follows the selector. -/
def ruleOr (otherwise : Parser Token) (nested : Nested) : Parser StyleNode := do
  let start := (← current).span
  let selector := line .selector (← itemTokens)
  if selector.isEmpty then fail .styleSelector
  else
    let _ ← openingOr otherwise
    let (body, close) ← bodyParser nested
    return .rule selector body.declarations.toList body.rules.toList (start.cover close)

def nestedOr (otherwise : Parser Token) : Nat → Nested
  | 0 => ⟨failTooDeep, failTooDeep⟩
  | levels + 1 =>
    let inner := nestedOr otherwise levels
    ⟨deeper (ruleOr otherwise inner), deeper (atRuleAt inner)⟩

/-- One more rule of those up to the token at index `stop`, read by these readers. -/
def rulesItemBy (nested : Nat → Nested) (stop : Nat) (rules : Array StyleNode) :
    Parser (ForInStep (Array StyleNode)) := do
  if stop ≤ (← cursor) then return .done rules
  else match (← current).kind with
    | .symbol .semicolon =>
      let _ ← advance
      return .yield rules
    | .symbol .atSign =>
      return .yield (rules.push (← withLevels fun levels => (nested levels).atRule))
    | _ =>
      if ← blockFollows then
        return .yield (rules.push (← withLevels fun levels => (nested levels).rule))
      else fail (.styleOutsideRule (← current))

def rulesParserOr (otherwise : Parser Token) (stop : Nat) : Parser (List StyleNode) := do
  let rules ← loop (rulesItemBy (nestedOr otherwise) stop) #[]
  return rules.toList

theorem rulesItem_eq (stop : Nat) :
    rulesItem stop = rulesItemBy (fun levels => ⟨ruleWithin levels, atRuleWithin levels⟩) stop := rfl

/-- The readers answer alike wherever they are run: a rule is read only where a block follows. -/
structure Nested.Agrees (a b : Nested) : Prop where
  rule : ∀ {scope s}, terminator 0 (scope.stream.tokensFrom s.cursor) = .symbol .openBrace →
    a.rule scope s = b.rule scope s
  atRule : a.atRule = b.atRule

theorem ifBlock_congr {α : Type} {p q other : Parser α}
    (same : ∀ {scope s}, terminator 0 (scope.stream.tokensFrom s.cursor) = .symbol .openBrace →
      p scope s = q scope s) :
    (do if ← blockFollows then p else other) = (do if ← blockFollows then q else other) := by
  funext scope s
  rw [bind_of_ok blockFollows_apply, bind_of_ok blockFollows_apply]
  split
  · next block => exact same (beq_iff_eq.mp block)
  · rfl

theorem openingOr_apply (otherwise : Parser Token)
    (brace : (scope.stream.get s.cursor).kind = .symbol .openBrace) :
    openingOr otherwise scope s = expectSymbol .openBrace scope s := by
  rw [openingOr, expectSymbol, expect, bind_of_ok (isSymbol_apply _), bind_of_ok is_apply, brace]
  rfl

namespace Nested.Agrees

variable {a b : Nested} (h : a.Agrees b)

include h

theorem bodyItem : bodyItem a = bodyItem b := by
  funext body
  refine congrArg (current >>= ·) (funext fun t => ?_)
  split
  · rfl
  · rfl
  · rfl
  · rw [h.atRule]
  · exact ifBlock_congr fun block => by rw [bind_apply, bind_apply, h.rule block]

theorem bodyParser : bodyParser a = bodyParser b := by
  rw [Style.bodyParser, Style.bodyParser, h.bodyItem]

theorem atRuleAt : atRuleAt a = atRuleAt b := by
  unfold Style.atRuleAt
  rw [h.bodyParser]

theorem ruleOr (otherwise : Parser Token)
    (block : terminator 0 (scope.stream.tokensFrom s.cursor) = .symbol .openBrace) :
    ruleOr otherwise a scope s = ruleAt b scope s := by
  obtain ⟨t, slices⟩ := itemTokens_slices scope s
  have brace := (itemTokens_stops slices.answer).trans block
  rw [Style.ruleOr, ruleAt, bind_of_ok current_apply, bind_of_ok current_apply,
    bind_of_ok slices.answer, bind_of_ok slices.answer, h.bodyParser]
  dsimp only
  split
  · rfl
  · rw [bind_apply, bind_apply, openingOr_apply otherwise brace]

end Nested.Agrees

variable (otherwise : Parser Token)

theorem nestedOr_agrees (levels : Nat) :
    (nestedOr otherwise levels).Agrees ⟨ruleWithin levels, atRuleWithin levels⟩ := by
  induction levels with
  | zero => exact ⟨fun _ => rfl, rfl⟩
  | succ levels ih =>
    refine ⟨fun {scope s} block => ?_, congrArg deeper ih.atRuleAt⟩
    change deeper (ruleOr otherwise _) scope s = deeper (ruleAt _) scope s
    unfold deeper
    rw [ih.ruleOr otherwise (by exact block)]

theorem rulesItemBy_nestedOr (stop : Nat) :
    rulesItemBy (nestedOr otherwise) stop = rulesItem stop := by
  rw [rulesItem_eq]
  funext rules
  refine congrArg (cursor >>= ·) (funext fun i => ?_)
  split
  · rfl
  refine congrArg (current >>= ·) (funext fun t => ?_)
  split
  · rfl
  · simp only [(nestedOr_agrees otherwise _).atRule]
  · refine ifBlock_congr fun block => ?_
    rw [bind_apply, bind_apply, withLevels, withLevels, (nestedOr_agrees otherwise _).rule block]

omit otherwise in
/-- The tokens of an item always end at a token of the kind that the scan has found at the same
    cursor, and no rule is read without the brace after its selector: the rules of a block and their
    error are the same whatever parser goes on where that brace is missing. -/
theorem rulesParser_lookahead :
    (∀ scope s, ∃ t, itemTokens scope s = .ok (scope.stream.between s.cursor t.cursor) t ∧
      s.Reaches scope t ∧
      (scope.stream.get t.cursor).kind = terminator 0 (scope.stream.tokensFrom s.cursor)) ∧
    ∀ otherwise stop, rulesParserOr otherwise stop = rulesParser stop := by
  refine ⟨fun scope s => ?_, fun otherwise stop => ?_⟩
  · obtain ⟨t, slices⟩ := itemTokens_slices scope s
    exact ⟨t, slices.answer, slices.reaches, itemTokens_stops slices.answer⟩
  · rw [rulesParserOr, rulesItemBy_nestedOr, rulesParser]

end PulseSyntax.Style
