import PulseSyntax.Expr.Parser
import PulseSyntax.Proofs.Token.Stream

/-!
The grammar of expressions, apart from arrow functions with a block or a bare parameter. What a
phrase is written with has a level, and the tighter levels come first:

* 0: names, literals, arrays, objects, and what stands in parentheses,
* 1: members and calls,
* 2: `++` and `--` after an operand,
* 3: operators before an operand,
* 4 to 8: the levels of binary operators,
* 9 and 10: conditionals, assignments and arrow functions.
-/

namespace PulseSyntax

def Symbol.closing? : Symbol → Option Symbol
  | openParen => some closeParen
  | openBracket => some closeBracket
  | openBrace => some closeBrace
  | _ => none

/-- Brackets in pairs, and neither an `@` nor the end of the file. -/
inductive InPairs : List TokenKind → Prop
  | nil : InPairs []
  | plain {kind : TokenKind} {kinds : List TokenKind} (noBracket : Expr.bracketStep kind = none)
      (noAt : kind ≠ .symbol .atSign) (noEnd : kind ≠ .endOfFile) (rest : InPairs kinds) :
      InPairs (kind :: kinds)
  | enclosed {opening close : Symbol} {kinds more : List TokenKind}
      (pair : opening.closing? = some close) (inside : InPairs kinds) (rest : InPairs more) :
      InPairs (.symbol opening :: kinds ++ .symbol close :: more)

namespace InPairs

variable {kinds more : List TokenKind}

theorem append (h : InPairs kinds) (h' : InPairs more) : InPairs (kinds ++ more) := by
  induction h with
  | nil => exact h'
  | plain noBracket noAt noEnd _ ih => exact .plain noBracket noAt noEnd ih
  | enclosed pair inside _ _ ih =>
    rw [List.append_assoc, List.cons_append]
    exact .enclosed pair inside ih

theorem symbol (h : InPairs kinds) (sign : Symbol)
    (plain : Expr.bracketStep (.symbol sign) = none) (noAt : sign ≠ .atSign) :
    InPairs (.symbol sign :: kinds) := .plain plain (by simpa using noAt) (by simp) h

theorem word {kind : TokenKind} (hk : kind = .identifier ∨ ∃ word, kind = .keyword word)
    (h : InPairs kinds) : InPairs (kind :: kinds) := by
  rcases hk with rfl | ⟨word, rfl⟩ <;> exact .plain rfl (by simp) (by simp) h

theorem brackets (h : InPairs kinds) (opening : Symbol) {close : Symbol}
    (pair : opening.closing? = some close) :
    InPairs (.symbol opening :: kinds ++ [.symbol close]) := .enclosed pair h .nil

end InPairs

namespace TokenKind

/-- The tightest level at which a token of this kind goes on with what stands before it; beyond all
    levels, if it does not. Words and `=>` tell what the name before them is. -/
def goesOnAt : TokenKind → Nat
  | identifier | symbol .arrow => 0
  | symbol .dot | symbol .questionDot | symbol .openBracket | symbol .openParen => 1
  | symbol .plusPlus | symbol .minusMinus => 2
  | symbol .star | symbol .slash | symbol .percent | symbol .starStar => 4
  | symbol .plus | symbol .minus => 5
  | symbol .eqEq | symbol .eqEqEq | symbol .notEq | symbol .notEqEq
  | symbol .lt | symbol .gt | symbol .ltEq | symbol .gtEq => 6
  | symbol .and => 7
  | symbol .or | symbol .nullish => 8
  | symbol .question => 9
  | symbol .eq | symbol .plusEq | symbol .minusEq | symbol .starEq | symbol .slashEq
  | symbol .andEq | symbol .orEq | symbol .nullishEq => 10
  | _ => 11

def startsUnary (kind : TokenKind) : Bool :=
  (UnaryOp.ofKind? kind).isSome || (UpdateOp.ofKind? kind).isSome

end TokenKind

namespace Expr

inductive Follow where
  | any
  /-- What goes on with no expression. The phrase may end with an arrow function. -/
  | close
  /-- A link. The phrase ends with `++` or `--`, which no link goes on with. -/
  | link
deriving DecidableEq

/-- Phrases of expressions. -/
inductive Phrase where
  | part (follow : Follow) (level : Nat) (e : Expr)
  | owner (e : Expr)
  | item (e : Expr)
  | items (es : List Expr)
  | member (m : ObjectMember)
  | members (ms : List ObjectMember)

@[match_pattern]
abbrev Phrase.expr (level : Nat) (e : Expr) : Phrase := .part .any level e

/-- The tokens write the phrase, which nests no deeper than some levels. Where the spans are those
    of the tokens, this is the one phrase that they write. -/
inductive Derives : Nat → Phrase → List Token → Prop
  | name {levels : Nat} {t : Token} (hk : t.kind.isName) :
      Derives levels (.expr 0 (.ofName t)) [t]
  | literal {levels : Nat} {t : Token} {e : Expr} (h : literalOf? t = some e) :
      Derives levels (.expr 0 e) [t]
  | group {levels : Nat} {opening close : Token} {own : List Token} {e : Expr}
      (ho : opening.kind = .symbol .openParen) (inner : Derives levels (.expr 10 e) own)
      (hc : close.kind = .symbol .closeParen) :
      Derives (levels + 1) (.expr 0 e) (opening :: own ++ [close])
  | array {levels : Nat} {opening close : Token} {own : List Token} {elements : List Expr}
      (ho : opening.kind = .symbol .openBracket) (inner : Derives levels (.items elements) own)
      (hc : close.kind = .symbol .closeBracket) :
      Derives levels (.expr 0 (.array elements (opening.span.cover close.span)))
        (opening :: own ++ [close])
  | object {levels : Nat} {opening close : Token} {own : List Token}
      {entries : List ObjectMember} (ho : opening.kind = .symbol .openBrace)
      (inner : Derives levels (.members entries) own) (hc : close.kind = .symbol .closeBrace) :
      Derives levels (.expr 0 (.object entries (opening.span.cover close.span)))
        (opening :: own ++ [close])
  /-- The parameters of an arrow function and its body, which a brace would make a block. What
      follows may go on with neither the function nor its body. -/
  | openArrow {levels : Nat} {follow : Follow} {opening close arrow : Token}
      {own text : List Token} {params : List Expr} {body : Expr} (last : follow ≠ .any) (ho : opening.kind = .symbol .openParen)
      (list : Derives (levels + 1) (.items params) own) (valid : params.all isParam)
      (hc : close.kind = .symbol .closeParen) (ha : arrow.kind = .symbol .arrow)
      (noBrace : firstKind text ≠ .symbol .openBrace)
      (inner : Derives levels (.part follow 10 body) text) :
      Derives (levels + 1)
        (.part follow 0 (.arrow params (.expression body) false (opening.span.cover body.span)))
        (opening :: own ++ close :: arrow :: text)
  | openAsyncArrow {levels : Nat} {follow : Follow} {word opening close arrow : Token}
      {own text : List Token} {params : List Expr} {body : Expr} (last : follow ≠ .any) (hw : word.kind = .identifier) (raw : word.raw = "async")
      (ho : opening.kind = .symbol .openParen)
      (list : Derives (levels + 1) (.items params) own) (valid : params.all isParam)
      (hc : close.kind = .symbol .closeParen) (ha : arrow.kind = .symbol .arrow)
      (noBrace : firstKind text ≠ .symbol .openBrace)
      (inner : Derives levels (.part follow 10 body) text) :
      Derives (levels + 1)
        (.part follow 0 (.arrow params (.expression body) true (word.span.cover body.span)))
        (word :: opening :: own ++ close :: arrow :: text)
  | ownerAlone {levels : Nat} {own : List Token} {e : Expr}
      (inner : Derives levels (.expr 1 e) own) : Derives levels (.owner e) own
  | ownerArrow {levels : Nat} {own : List Token} {e : Expr}
      (inner : Derives levels (.part .link 0 e) own) : Derives levels (.owner e) own
  | member {levels : Nat} {dot t : Token} {own : List Token} {object : Expr} {optional : Bool}
      (operand : Derives levels (.owner object) own)
      (hd : dot.kind = .symbol (if optional then .questionDot else .dot))
      (hk : t.kind = .identifier ∨ t.kind.isKeyword) :
      Derives levels (.expr 1 (mkMember object (.ofName t) optional)) (own ++ [dot, t])
  | index {levels : Nat} {opening close : Token} {own text : List Token} {object property : Expr}
      (operand : Derives (levels + 1) (.owner object) own)
      (ho : opening.kind = .symbol .openBracket) (inner : Derives levels (.expr 10 property) text)
      (hc : close.kind = .symbol .closeBracket) :
      Derives (levels + 1) (.expr 1 (mkIndex object property false close.span))
        (own ++ opening :: text ++ [close])
  | optionalIndex {levels : Nat} {dot opening close : Token} {own text : List Token}
      {object property : Expr} (operand : Derives (levels + 1) (.owner object) own)
      (hd : dot.kind = .symbol .questionDot) (ho : opening.kind = .symbol .openBracket)
      (inner : Derives levels (.expr 10 property) text)
      (hc : close.kind = .symbol .closeBracket) :
      Derives (levels + 1) (.expr 1 (mkIndex object property true close.span))
        (own ++ dot :: opening :: text ++ [close])
  | call {levels : Nat} {opening close : Token} {own text : List Token} {callee : Expr}
      {arguments : List Expr} (operand : Derives levels (.owner callee) own)
      (ho : opening.kind = .symbol .openParen) (inner : Derives levels (.items arguments) text)
      (hc : close.kind = .symbol .closeParen) :
      Derives levels (.expr 1 (mkCall callee arguments false close.span))
        (own ++ opening :: text ++ [close])
  | importCall {levels : Nat} {t opening close : Token} {text : List Token}
      {arguments : List Expr} (hk : t.kind = .keyword .import_)
      (ho : opening.kind = .symbol .openParen) (inner : Derives levels (.items arguments) text)
      (hc : close.kind = .symbol .closeParen) :
      Derives levels (.expr 1 (mkCall (.ofName t) arguments false close.span))
        (t :: opening :: text ++ [close])
  | optionalCall {levels : Nat} {dot opening close : Token} {own text : List Token}
      {callee : Expr} {arguments : List Expr} (operand : Derives levels (.owner callee) own)
      (hd : dot.kind = .symbol .questionDot) (ho : opening.kind = .symbol .openParen)
      (inner : Derives levels (.items arguments) text) (hc : close.kind = .symbol .closeParen) :
      Derives levels (.expr 1 (mkCall callee arguments true close.span))
        (own ++ dot :: opening :: text ++ [close])
  | updateAfter {levels : Nat} {follow : Follow} {t : Token} {own : List Token} {e : Expr} {op : UpdateOp}
      (operand : Derives levels (.expr 1 e) own) (assignable : e.isAssignable)
      (ht : t.kind = .symbol op.symbol) (line : own.getLast?.map Token.line = some t.line) :
      Derives levels (.part follow 2 (.update op false e (e.span.cover t.span))) (own ++ [t])
  | unary {levels : Nat} {follow : Follow} {t : Token} {own : List Token} {e : Expr}
      {op : UnaryOp} (ht : t.kind = .symbol op.symbol)
      (operand : Derives levels (.part follow 3 e) own) :
      Derives (levels + 1) (.part follow 3 (.unary op e (t.span.cover e.span))) (t :: own)
  | updateBefore {levels : Nat} {follow : Follow} {t : Token} {own : List Token} {e : Expr}
      {op : UpdateOp} (ht : t.kind = .symbol op.symbol)
      (operand : Derives levels (.part follow 3 e) own) (assignable : e.isAssignable) :
      Derives (levels + 1) (.part follow 3 (.update op true e (t.span.cover e.span))) (t :: own)
  | binary {levels : Nat} {follow : Follow} {t : Token} {own text : List Token}
      {left right : Expr} {op : BinaryOp} (first : Derives levels (.expr (3 + op.level) left) own)
      (ht : t.kind = .symbol op.symbol)
      (second : Derives levels (.part follow (2 + op.level) right) text) :
      Derives levels (.part follow (3 + op.level) (mkBinary op left right)) (own ++ t :: text)
  | conditional {levels : Nat} {follow : Follow} {question colon : Token} {own first second : List Token}
      {test consequent alternate : Expr} (condition : Derives (levels + 1) (.expr 8 test) own)
      (hq : question.kind = .symbol .question) (one : Derives levels (.expr 10 consequent) first)
      (hc : colon.kind = .symbol .colon) (other : Derives levels (.part follow 10 alternate) second) :
      Derives (levels + 1)
        (.part follow 10 (.conditional test consequent alternate (test.span.cover alternate.span)))
        (own ++ question :: first ++ colon :: second)
  | assignment {levels : Nat} {follow : Follow} {t : Token} {own text : List Token}
      {target value : Expr} {op : AssignOp} (left : Derives (levels + 1) (.expr 9 target) own)
      (assignable : target.isAssignable) (ht : t.kind = .symbol op.symbol)
      (right : Derives levels (.part follow 10 value) text) :
      Derives (levels + 1)
        (.part follow 10 (.assignment op target value (target.span.cover value.span)))
        (own ++ t :: text)
  /-- What is written at a level may stand where a looser one is asked for. -/
  | looserPart {levels level : Nat} {follow : Follow} {own : List Token} {e : Expr}
      (tight : Derives levels (.part follow level e) own) (bound : level < 10)
      (whole : follow = .link → 2 ≤ level) : Derives levels (.part follow (level + 1) e) own
  | closing {levels level : Nat} {own : List Token} {e : Expr}
      (inner : Derives levels (.expr level e) own) (bound : level ≤ 10) :
      Derives levels (.part .close level e) own
  /-- No expression is so loose that an arrow function at its end could be told from the rest. -/
  | loosest {levels : Nat} {own : List Token} {e : Expr}
      (inner : Derives levels (.part .close 10 e) own) : Derives levels (.expr 10 e) own
  | item {levels : Nat} {own : List Token} {e : Expr} (inner : Derives levels (.expr 10 e) own) :
      Derives (levels + 1) (.item e) own
  | spreadItem {levels : Nat} {dots : Token} {own : List Token} {e : Expr}
      (hd : dots.kind = .symbol .spread) (inner : Derives levels (.expr 10 e) own) :
      Derives (levels + 1) (.item (.spread e (dots.span.cover e.span))) (dots :: own)
  | noItems {levels : Nat} : Derives levels (.items []) []
  | lastItem {levels : Nat} {own : List Token} {e : Expr} (only : Derives levels (.item e) own) :
      Derives levels (.items [e]) own
  | moreItems {levels : Nat} {comma : Token} {own more : List Token} {e : Expr} {es : List Expr}
      (first : Derives levels (.item e) own) (hc : comma.kind = .symbol .comma)
      (rest : Derives levels (.items es) more) :
      Derives levels (.items (e :: es)) (own ++ comma :: more)
  | shorthand {levels : Nat} {t : Token} (hk : t.kind = .identifier) :
      Derives levels (.member (.property (.identifier t.raw) (.ofName t) true t.span)) [t]
  | property {levels : Nat} {t colon : Token} {own : List Token} {key : PropertyKey}
      {value : Expr} (hk : keyOf? t = some key) (hc : colon.kind = .symbol .colon)
      (inner : Derives levels (.expr 10 value) own) :
      Derives (levels + 1) (.member (.property key value false (t.span.cover value.span)))
        (t :: colon :: own)
  | computed {levels : Nat} {opening close colon : Token} {text own : List Token}
      {key value : Expr} (ho : opening.kind = .symbol .openBracket)
      (name : Derives levels (.expr 10 key) text) (hc : close.kind = .symbol .closeBracket)
      (hs : colon.kind = .symbol .colon) (inner : Derives levels (.expr 10 value) own) :
      Derives (levels + 1)
        (.member (.property (.computed key) value false (opening.span.cover value.span)))
        (opening :: text ++ close :: colon :: own)
  | spreadMember {levels : Nat} {dots : Token} {own : List Token} {e : Expr}
      (hd : dots.kind = .symbol .spread) (inner : Derives levels (.expr 10 e) own) :
      Derives (levels + 1) (.member (.spread e (dots.span.cover e.span))) (dots :: own)
  | noMembers {levels : Nat} : Derives levels (.members []) []
  | lastMember {levels : Nat} {own : List Token} {m : ObjectMember}
      (only : Derives levels (.member m) own) : Derives levels (.members [m]) own
  | moreMembers {levels : Nat} {comma : Token} {own more : List Token} {m : ObjectMember}
      {ms : List ObjectMember} (first : Derives levels (.member m) own)
      (hc : comma.kind = .symbol .comma) (rest : Derives levels (.members ms) more) :
      Derives levels (.members (m :: ms)) (own ++ comma :: more)

def literalKinds : List TokenKind := [
  .number, .bigInt, .string, .keyword .true_, .keyword .false_, .keyword .null, .template]

theorem kind_of_literalOf? {t : Token} {e : Expr} (h : literalOf? t = some e) :
    t.kind ∈ literalKinds := by
  unfold literalOf? at h
  split at h
  case h_8 => cases h
  all_goals
    rename_i kind
    rw [kind]
    decide

theorem kind_of_isName {kind : TokenKind} (h : kind.isName) :
    kind = .identifier ∨ ∃ word, kind = .keyword word ∧ word.isContextual := by
  cases kind with
  | identifier => exact .inl rfl
  | keyword word =>
    refine .inr ⟨word, rfl, ?_⟩
    simpa [TokenKind.isName, TokenKind.isContextualKeyword] using h
  | _ => cases h

theorem plain_of_keyOf? {t : Token} {key : PropertyKey} (h : keyOf? t = some key) :
    t.kind ≠ .endOfFile ∧ bracketStep t.kind = none ∧ t.kind ≠ .symbol .atSign := by
  unfold keyOf? at h
  split at h
  case h_5 => cases h
  all_goals
    rename_i kind
    rw [kind]
    exact ⟨by simp, rfl, by simp⟩

def mayStart (kind : TokenKind) : Bool :=
  bracketStep kind != some false && kind != .symbol .spread

def Phrase.Starts : Phrase → List Token → Prop
  | .part _ level _, own => ∃ t rest, own = t :: rest ∧ mayStart t.kind ∧
    (level ≤ 2 → t.kind.startsUnary = false)
  | .owner _, own => ∃ t rest, own = t :: rest ∧ mayStart t.kind ∧ t.kind.startsUnary = false
  | .item _, own | .member _, own => ∃ t rest, own = t :: rest ∧ bracketStep t.kind ≠ some false
  | .items _, _ | .members _, _ => True

variable {levels : Nat} {phrase : Phrase} {own : List Token}

theorem Derives.starts (h : Derives levels phrase own) : phrase.Starts own := by
  induction h with
  | @name _ t hk =>
    refine ⟨t, [], rfl, ?_⟩
    rcases kind_of_isName hk with kind | ⟨word, kind, -⟩ <;> rw [kind] <;>
      exact ⟨rfl, fun _ => rfl⟩
  | literal h =>
    have plain : ∀ kind ∈ literalKinds, mayStart kind ∧ kind.startsUnary = false := by decide
    obtain ⟨starts, plain⟩ := plain _ (kind_of_literalOf? h)
    exact ⟨_, _, rfl, starts, fun _ => plain⟩
  | group hk | array hk | object hk | openArrow _ hk | openAsyncArrow _ hk | importCall hk =>
    exact ⟨_, _, rfl, by rw [hk]; rfl, fun _ => by rw [hk]; rfl⟩
  | ownerAlone _ ih | ownerArrow _ ih =>
    obtain ⟨t, rest, rfl, starts, plain⟩ := ih
    exact ⟨_, _, rfl, starts, plain (by omega)⟩
  | member _ _ _ ih | index _ _ _ _ ih | optionalIndex _ _ _ _ _ ih | call _ _ _ _ ih
  | optionalCall _ _ _ _ _ ih =>
    obtain ⟨t, rest, rfl, starts, plain⟩ := ih
    exact ⟨_, _, rfl, starts, fun _ => plain⟩
  | updateAfter _ _ _ _ ih =>
    obtain ⟨t, rest, rfl, starts, plain⟩ := ih
    exact ⟨_, _, rfl, starts, fun _ => plain (by omega)⟩
  | @unary _ _ _ _ _ op hk | @updateBefore _ _ _ _ _ op hk =>
    exact ⟨_, _, rfl, by rw [hk]; cases op <;> rfl, fun tight => by omega⟩
  | binary _ _ _ ih | conditional _ _ _ _ _ ih | assignment _ _ _ _ ih =>
    obtain ⟨t, rest, rfl, starts, -⟩ := ih
    exact ⟨_, _, rfl, starts, fun tight => by omega⟩
  | looserPart _ _ _ ih =>
    obtain ⟨t, rest, rfl, starts, plain⟩ := ih
    exact ⟨_, _, rfl, starts, fun tight => plain (by omega)⟩
  | closing _ _ ih | loosest _ ih => exact ih
  | item _ ih =>
    obtain ⟨t, rest, rfl, starts, -⟩ := ih
    simp only [mayStart, Bool.and_eq_true, bne_iff_ne] at starts
    exact ⟨_, _, rfl, starts.1⟩
  | spreadItem hk | spreadMember hk | shorthand hk | computed hk =>
    exact ⟨_, _, rfl, by rw [hk]; simp [bracketStep]⟩
  | property hk => exact ⟨_, _, rfl, by simp [plain_of_keyOf? hk]⟩
  | _ => trivial

section

variable {level : Nat} {e body : Expr} {opening close sign word : Token} {params : List Expr}
  {text : List Token}

theorem Derives.looser (tight : Derives levels (.expr level e) own) (bound : level < 10) :
    Derives levels (.expr (level + 1) e) own := tight.looserPart bound (by simp)

theorem Derives.widen {follow : Follow} {m n : Nat} (h : Derives levels (.part follow m e) own)
    (le : m ≤ n) (bound : n ≤ 10) (whole : follow = .link → 2 ≤ m) :
    Derives levels (.part follow n e) own := by
  induction le with
  | refl => exact h
  | step le ih =>
    exact (ih (by omega)).looserPart (by omega) fun link => Nat.le_trans (whole link) le

theorem Derives.arrow (ho : opening.kind = .symbol .openParen)
    (list : Derives (levels + 1) (.items params) own) (valid : params.all isParam)
    (hc : close.kind = .symbol .closeParen) (ha : sign.kind = .symbol .arrow)
    (noBrace : firstKind text ≠ .symbol .openBrace) (inner : Derives levels (.expr 10 body) text) :
    Derives (levels + 1)
      (.expr 10 (.arrow params (.expression body) false (opening.span.cover body.span)))
      (opening :: own ++ close :: sign :: text) := by
  have first := Derives.openArrow (by simp) ho list valid hc ha noBrace (inner.closing (by omega))
  exact (first.widen (by omega) (by omega) (by simp)).loosest

theorem Derives.asyncArrow (hw : word.kind = .identifier) (raw : word.raw = "async")
    (ho : opening.kind = .symbol .openParen)
    (list : Derives (levels + 1) (.items params) own) (valid : params.all isParam)
    (hc : close.kind = .symbol .closeParen) (ha : sign.kind = .symbol .arrow)
    (noBrace : firstKind text ≠ .symbol .openBrace) (inner : Derives levels (.expr 10 body) text) :
    Derives (levels + 1)
      (.expr 10 (.arrow params (.expression body) true (word.span.cover body.span)))
      (word :: opening :: own ++ close :: sign :: text) := by
  have first :=
    Derives.openAsyncArrow (by simp) hw raw ho list valid hc ha noBrace (inner.closing (by omega))
  exact (first.widen (by omega) (by omega) (by simp)).loosest

end

/-- Brackets match among the tokens, so that looking for the one that closes an outer bracket goes
    past all of them. -/
def Skips (own : List Token) : Prop :=
  ∀ depth rest, closesBeforeArrow (depth + 1) (own ++ rest) = closesBeforeArrow (depth + 1) rest

namespace Skips

variable {own more : List Token} {t opening close : Token}

theorem nil : Skips [] := fun _ _ => rfl

theorem append (h : Skips own) (h' : Skips more) : Skips (own ++ more) := by
  intro depth rest
  rw [List.append_assoc, h, h']

theorem cons (noEnd : t.kind ≠ .endOfFile) (plain : bracketStep t.kind = none) (h : Skips own) :
    Skips (t :: own) := by
  intro depth rest
  rw [List.cons_append, closesBeforeArrow, plain]
  simp only [beq_iff_eq, noEnd, ↓reduceIte]
  exact h depth rest

theorem enclosed (ho : bracketStep opening.kind = some true) (h : Skips own)
    (hc : bracketStep close.kind = some false) : Skips (opening :: own ++ [close]) := by
  have noEnd {t : Token} {way : Bool} (bracket : bracketStep t.kind = some way) :
      t.kind ≠ .endOfFile := by
    intro kind
    rw [kind] at bracket
    cases bracket
  intro depth rest
  have inner := h (depth + 1) (close :: rest)
  rw [List.cons_append, List.cons_append, List.append_assoc, closesBeforeArrow, ho]
  simp only [beq_iff_eq, noEnd ho, ↓reduceIte, List.singleton_append, inner]
  rw [closesBeforeArrow, hc]
  simp [noEnd hc]

end Skips

theorem closesBeforeArrow_list {opening close : Token} {rest : List Token} (h : Skips own)
    (ho : opening.kind = .symbol .openParen) (hc : close.kind = .symbol .closeParen) :
    closesBeforeArrow 0 (opening :: own ++ close :: rest) =
      (firstKind rest == .symbol .arrow) := by
  rw [List.cons_append, closesBeforeArrow, ho]
  have inner := h 0 (close :: rest)
  simp only [bracketStep, beq_iff_eq, reduceCtorEq, ↓reduceIte, inner]
  rw [closesBeforeArrow, hc]
  cases rest <;> simp [bracketStep, firstKind]

theorem closesBeforeArrow_params {opening close arrow : Token} {text rest : List Token}
    (h : Skips own) (ho : opening.kind = .symbol .openParen)
    (hc : close.kind = .symbol .closeParen) (ha : arrow.kind = .symbol .arrow) :
    closesBeforeArrow 0 (opening :: own ++ close :: arrow :: text ++ rest) := by
  have whole : opening :: own ++ close :: arrow :: text ++ rest =
      opening :: own ++ close :: (arrow :: (text ++ rest)) := by simp
  rw [whole, closesBeforeArrow_list h ho hc, firstKind, ha]
  rfl

theorem skips_of_inPairs {kinds : List TokenKind} (pairs : InPairs kinds) {own : List Token}
    (same : own.map Token.kind = kinds) : Skips own := by
  induction pairs generalizing own with
  | nil =>
    rw [List.map_eq_nil_iff.mp same]
    exact .nil
  | plain noBracket _ noEnd _ ih =>
    obtain ⟨t, own, rfl, rfl, rest⟩ := List.map_eq_cons_iff.mp same
    exact .cons noEnd noBracket (ih rest)
  | @enclosed open_ close _ _ pair _ _ inside ih =>
    obtain ⟨before, after, rfl, first, last⟩ := List.map_eq_append_iff.mp same
    obtain ⟨opening, before, rfl, ho, own⟩ := List.map_eq_cons_iff.mp first
    obtain ⟨closing, after, rfl, hc, rest⟩ := List.map_eq_cons_iff.mp last
    have group : Skips (opening :: before ++ [closing]) := by
      refine .enclosed ?_ (inside own) ?_
      · rw [ho]
        cases open_ <;> first | rfl | cases pair
      · rw [hc]
        cases open_ <;> cases pair <;> rfl
    simpa using group.append (ih rest)

theorem Derives.inPairs (h : Derives levels phrase own) : InPairs (own.map Token.kind) := by
  induction h with
  | name hk => exact .word ((kind_of_isName hk).imp_right fun ⟨word, kind, _⟩ => ⟨word, kind⟩) .nil
  | literal h =>
    have plain : ∀ kind ∈ literalKinds,
        bracketStep kind = none ∧ kind ≠ .symbol .atSign ∧ kind ≠ .endOfFile := by decide
    obtain ⟨noBracket, noAt, noEnd⟩ := plain _ (kind_of_literalOf? h)
    exact .plain noBracket noAt noEnd .nil
  | group ho _ hc ih => simpa [ho, hc] using ih.brackets .openParen rfl
  | array ho _ hc ih => simpa [ho, hc] using ih.brackets .openBracket rfl
  | object ho _ hc ih => simpa [ho, hc] using ih.brackets .openBrace rfl
  | openArrow _ ho _ _ hc ha _ _ list body =>
    have params := list.brackets .openParen rfl
    simpa [ho, hc, ha] using params.append (body.symbol .arrow rfl (by decide))
  | openAsyncArrow _ hw _ ho _ _ hc ha _ _ list body =>
    have params := list.brackets .openParen rfl
    have function := params.append (body.symbol .arrow rfl (by decide))
    simpa [hw, ho, hc, ha] using function.word (.inl rfl)
  | @member _ _ t _ _ optional _ hd hk ih =>
    have name : InPairs [t.kind] := by
      refine .word ?_ .nil
      rcases hk with hk | hk
      · exact .inl hk
      · cases kind : t.kind <;> simp [kind, TokenKind.isKeyword] at hk ⊢
    have dot := name.symbol (if optional then .questionDot else .dot)
      (by cases optional <;> rfl) (by cases optional <;> decide)
    simpa [hd] using ih.append dot
  | index _ ho _ hc ih text =>
    simpa [ho, hc] using ih.append (text.brackets .openBracket rfl)
  | call _ ho _ hc ih text =>
    simpa [ho, hc] using ih.append (text.brackets .openParen rfl)
  | importCall hk ho _ hc text =>
    have parens := text.brackets .openParen rfl
    simpa [hk, ho, hc] using parens.word (.inr ⟨_, rfl⟩)
  | optionalIndex _ hd ho _ hc ih text =>
    have brackets := text.brackets .openBracket rfl
    simpa [hd, ho, hc] using ih.append (brackets.symbol .questionDot rfl (by decide))
  | optionalCall _ hd ho _ hc ih text =>
    have brackets := text.brackets .openParen rfl
    simpa [hd, ho, hc] using ih.append (brackets.symbol .questionDot rfl (by decide))
  | @updateAfter _ _ _ _ _ op _ _ ht _ ih =>
    have sign := InPairs.nil.symbol op.symbol (by cases op <;> rfl) (by cases op <;> decide)
    simpa [ht] using ih.append sign
  | @unary _ _ _ _ _ op ht _ ih =>
    simpa [ht] using ih.symbol op.symbol (by cases op <;> rfl) (by cases op <;> decide)
  | @updateBefore _ _ _ _ _ op ht _ _ ih =>
    simpa [ht] using ih.symbol op.symbol (by cases op <;> rfl) (by cases op <;> decide)
  | @binary _ _ _ _ _ _ _ op _ ht _ first second =>
    have sign := second.symbol op.symbol (by cases op <;> rfl) (by cases op <;> decide)
    simpa [ht] using first.append sign
  | conditional _ hq _ hc _ test one other =>
    have outcomes := one.append (other.symbol .colon rfl (by decide))
    simpa [hq, hc] using test.append (outcomes.symbol .question rfl (by decide))
  | @assignment _ _ _ _ _ _ _ op _ _ ht _ left right =>
    have sign := right.symbol op.symbol (by cases op <;> rfl) (by cases op <;> decide)
    simpa [ht] using left.append sign
  | ownerAlone _ ih | ownerArrow _ ih | looserPart _ _ _ ih | closing _ _ ih | loosest _ ih
  | item _ ih | lastItem _ ih | lastMember _ ih => exact ih
  | spreadItem hd _ ih | spreadMember hd _ ih =>
    simpa [hd] using ih.symbol .spread rfl (by decide)
  | noItems | noMembers => exact .nil
  | moreItems _ hc _ first rest | moreMembers _ hc _ first rest =>
    simpa [hc] using first.append (rest.symbol .comma rfl (by decide))
  | shorthand hk => exact .word (.inl hk) .nil
  | property hk hc _ ih =>
    obtain ⟨noEnd, plain, noAt⟩ := plain_of_keyOf? hk
    simpa [hc] using InPairs.plain plain noAt noEnd (ih.symbol .colon rfl (by decide))
  | computed ho _ hc hs _ name value =>
    have brackets := name.brackets .openBracket rfl
    simpa [ho, hc, hs] using brackets.append (value.symbol .colon rfl (by decide))

theorem Derives.skips (h : Derives levels phrase own) : Skips own := skips_of_inPairs h.inPairs rfl

end Expr

end PulseSyntax
