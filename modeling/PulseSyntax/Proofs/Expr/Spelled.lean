import PulseSyntax.Proofs.Expr.RoundTrip
import PulseSyntax.Proofs.Expr.Same
import PulseSyntax.Proofs.Token.Spelled

namespace PulseSyntax

namespace Quoted

/-- A character as it stands between double quotes. -/
def quote (c : Char) : List Char := if c == '\\' || c == '"' then ['\\', c] else [c]

theorem spells_quote (c : Char) : Spells '"' (quote c) [c] := by
  by_cases backslash : c = '\\'
  · subst backslash
    exact .escape (by decide) fun _ => rfl
  by_cases mark : c = '"'
  · subst mark
    exact .escape (by decide) fun _ => rfl
  · simpa [quote, backslash, mark] using Spells.char mark backslash

end Quoted

namespace Lexeme

def quoted (text : String) : Lexeme :=
  ⟨.string, .text text, String.ofList (Quoted.enclose '"' (text.toList.flatMap Quoted.quote))⟩

def ofLiteral (value : LiteralValue) (raw : String) : Lexeme :=
  match value with
  | .string text => ⟨.string, .text text, raw⟩
  | .number n => ⟨.number, .number n, raw⟩
  | .bigInt digits => ⟨.bigInt, .bigInt digits, raw⟩
  | .bool _ | .null => word raw

def ofNumber (n : Binary64) : Lexeme := ⟨.number, .number n, String.ofList n.exactText⟩

theorem stable_quoted (text : String) : (quoted text).IsStable fun _ => True := by
  refine ⟨'"', text.toList.flatMap Quoted.quote ++ ['"'], by simp [quoted, Quoted.enclose],
    fun ctx rest _ => ?_⟩
  have spells : Quoted.Spells '"' (text.toList.flatMap Quoted.quote) text.toList := by
    have each : Quoted.Spells '"' (text.toList.flatMap Quoted.quote)
        (text.toList.flatMap fun c => [c]) := .flatMap fun c _ => Quoted.spells_quote c
    simpa using each
  rw [Lexer.scan_quote ctx (.inl rfl), List.append_assoc, List.singleton_append,
    spells.scanString]
  simp [quoted, piece]

theorem stable_ofNumber {n : Binary64} (canonical : n.IsCanonical) :
    (ofNumber n).IsStable fun _ => True := by
  obtain ⟨c, cs, text, starts, scanned⟩ := Binary64.scan_exactText canonical
  rw [ofNumber, text]
  exact Lexer.stable_number starts scanned

end Lexeme

namespace Expr

open Lexeme

def endsUpdated : Expr → Bool
  | update _ false _ _ => true
  | unary _ e _ => e.level ≤ 3 && endsUpdated e
  | binary op _ right _ => right.level ≤ 2 + op.level && endsUpdated right
  | assignment _ _ value _ => endsUpdated value
  | conditional _ _ alternate _ => endsUpdated alternate
  | _ => false

/-- An arrow function whose body no link goes on with. -/
def isUpdatedArrow : Expr → Bool
  | arrow _ (.expression body) _ _ => endsUpdated body
  | _ => false

/-- The level at which an expression is read, which for an arrow function is the tightest where it
    comes last. -/
def levelAt (last : Bool) : Expr → Nat
  | arrow .. => if last then 0 else 10
  | e => e.level

def ownerLevel (e : Expr) : Nat := e.levelAt e.isUpdatedArrow

/-- The text of an expression of some level, in parentheses if it is too loose, where it is written
    as it is alone. -/
def enclosed (bound level : Nat) (alone text : List Lexeme) : List Lexeme :=
  if bound < level then parens alone else text

mutual

/-- The tokens of an expression. If it is to be `safe`, they do not start with a brace. It comes
    `last` where nothing follows that could go on with an arrow function at its end. -/
def spell (safe last : Bool) : Expr → List Lexeme
  | identifier name _ => [word name]
  | literal value raw _ => [.ofLiteral value raw]
  | template text raw _ => [⟨.template, .text text, raw⟩]
  | array elements _ => symbol .openBracket :: spellItems elements ++ [symbol .closeBracket]
  | object members _ =>
    let text := symbol .openBrace :: spellMembers members ++ [symbol .closeBrace]
    if safe then parens text else text
  | spread e _ => symbol .spread :: spell false true e
  | binary op left right _ =>
    enclosed (3 + op.level) left.level (spell false true left) (spell safe false left) ++
      symbol op.symbol ::
        enclosed (2 + op.level) (right.levelAt last) (spell false true right)
          (spell false last right)
  | unary op e _ =>
    symbol op.symbol :: enclosed 3 (e.levelAt last) (spell false true e) (spell false last e)
  | update op true e _ => symbol op.symbol :: spell false false e
  | update op false e _ => spell safe false e ++ [symbol op.symbol]
  | assignment op target value _ =>
    spell safe false target ++ symbol op.symbol :: spell false true value
  | conditional test consequent alternate _ =>
    enclosed 8 test.level (spell false true test) (spell safe false test) ++
      symbol .question :: spell false true consequent ++ symbol .colon :: spell false true alternate
  | arrow params body isAsync _ =>
    (if isAsync then [word "async"] else []) ++
      (parens (spellItems params) ++ symbol .arrow :: spellBody body)
  | member owner property computed optional _ =>
    enclosed 1 owner.ownerLevel (spell false true owner) (spell safe false owner) ++
      if computed then
        (if optional then [symbol .questionDot] else []) ++
          symbol .openBracket :: spell false true property ++ [symbol .closeBracket]
      else symbol (if optional then .questionDot else .dot) :: spell false true property
  | call callee arguments optional _ =>
    enclosed 1 callee.ownerLevel (spell false true callee) (spell safe false callee) ++
      ((if optional then [symbol .questionDot] else []) ++ parens (spellItems arguments))

def spellItems : List Expr → List Lexeme
  | [] => []
  | e :: es => spell false true e ++ if es.isEmpty then [] else symbol .comma :: spellItems es

def spellMembers : List ObjectMember → List Lexeme
  | [] => []
  | m :: ms => spellMember m ++ if ms.isEmpty then [] else symbol .comma :: spellMembers ms

def spellMember : ObjectMember → List Lexeme
  | .property key value shorthand _ =>
    if shorthand then spell false true value
    else spellKey key ++ symbol .colon :: spell false true value
  | .spread e _ => symbol .spread :: spell false true e

def spellKey : PropertyKey → List Lexeme
  | .identifier name => [word name]
  | .string text => [quoted text]
  | .number n => [ofNumber n]
  | .computed key => symbol .openBracket :: spell false true key ++ [symbol .closeBracket]

/-- A block has no text here: its tokens are not part of the tree. -/
def spellBody : ArrowBody → List Lexeme
  | .expression body => spell true true body
  | .block _ | .inline _ => []

end

def enclosedRoom (bound level : Nat) (alone text : Nat) : Nat :=
  if bound < level then alone + 1 else text

mutual

def room (safe last : Bool) : Expr → Nat
  | identifier .. | literal .. | template .. => 0
  | array elements _ => roomOfItems elements
  | object members _ => roomOfMembers members + safe.toNat
  | spread e _ => room false true e
  | binary op left right _ =>
    max (enclosedRoom (3 + op.level) left.level (room false true left) (room safe false left))
      (enclosedRoom (2 + op.level) (right.levelAt last) (room false true right)
        (room false last right))
  | unary _ e _ => enclosedRoom 3 (e.levelAt last) (room false true e) (room false last e) + 1
  | update _ true e _ => room false false e + 1
  | update _ false e _ => room safe false e
  | assignment _ target value _ => max (room safe false target) (room false true value + 1)
  | conditional test consequent alternate _ =>
    max (enclosedRoom 8 test.level (room false true test) (room safe false test))
      (max (room false true consequent) (room false true alternate) + 1)
  | arrow params body _ _ => max (roomOfItems params) (roomOfBody body)
  | member owner property computed _ _ =>
    max (enclosedRoom 1 owner.ownerLevel (room false true owner) (room safe false owner))
      (if computed then room false true property + 1 else 0)
  | call callee arguments _ _ =>
    max (enclosedRoom 1 callee.ownerLevel (room false true callee) (room safe false callee))
      (roomOfItems arguments)

def roomOfItems : List Expr → Nat
  | [] => 0
  | e :: es => max (room false true e + 1) (roomOfItems es)

def roomOfMembers : List ObjectMember → Nat
  | [] => 0
  | m :: ms => max (roomOfMember m) (roomOfMembers ms)

def roomOfMember : ObjectMember → Nat
  | .property key value shorthand _ =>
    if shorthand then 0 else max (roomOfKey key) (room false true value + 1)
  | .spread e _ => room false true e + 1

def roomOfKey : PropertyKey → Nat
  | .computed key => room false true key + 1
  | .identifier _ | .string _ | .number _ => 0

def roomOfBody : ArrowBody → Nat
  | .expression body => room true true body + 1
  | .block _ | .inline _ => 0

end

end Expr

inductive Lexeme.IsCode : Lexeme → Prop
  | word {name : String} (h : Word.IsWord name.toList) : IsCode (word name)
  | symbol {sign : Symbol} (noAt : sign ≠ .atSign) : IsCode (symbol sign)
  | literal {l : Lexeme} (kind : l.kind ∈ [.string, .template, .number, .bigInt])
      (stable : l.IsStable fun _ => True) : IsCode l

namespace Lexeme

variable {l : Lexeme} {ls ms : List Lexeme} {p : Position}

theorem IsCode.stable (h : l.IsCode) : l.IsStable Context.InCode := by
  cases h with
  | word h => exact stable_word h
  | symbol noAt => exact (Lexer.stable_symbol noAt).mono fun _ here => here.noStyle
  | literal _ stable => exact stable.mono fun _ _ => trivial

theorem placed_append (p : Position) (ls ms : List Lexeme) :
    Lexer.placed p (spaced (ls ++ ms)) = Lexer.placed p (spaced ls) ++
      Lexer.placed (p.after (Lexer.textOf (spaced ls))) (spaced ms) := by
  rw [spaced_append, Lexer.placed_append]

theorem placed_singleton (p : Position) (l : Lexeme) : Lexer.placed p (spaced [l]) = [l.token p] :=
  placed_cons p l []

theorem line_of_placed (p : Position) {last : Lexeme} (next : Lexeme) (oneLine : '\n' ∉ last.raw.toList) :
    ∃ q, Lexer.placed p (spaced (ls ++ [last] ++ [next])) =
        Lexer.placed p (spaced (ls ++ [last])) ++ [next.token q] ∧
      (Lexer.placed p (spaced (ls ++ [last]))).getLast?.map Token.line =
        some (next.token q).line := by
  refine ⟨p.after (Lexer.textOf (spaced (ls ++ [last]))), ?_, ?_⟩
  · rw [placed_append, placed_singleton]
  · have noBreak : '\n' ∉ last.raw.toList ++ [' '] := by simpa using oneLine
    rw [placed_append, placed_singleton, List.getLast?_concat, Option.map_some]
    have text : Lexer.textOf (spaced (ls ++ [last])) =
        Lexer.textOf (spaced ls) ++ (last.raw.toList ++ [' ']) := by
      rw [spaced_append, Lexer.textOf_append]
      rfl
    have line : (next.token (p.after (Lexer.textOf (spaced (ls ++ [last]))))).line =
        (p.after (Lexer.textOf (spaced (ls ++ [last])))).line := rfl
    rw [line, text, Position.after_append, Position.after_line, List.count_eq_zero.mpr noBreak]
    rfl

end Lexeme

namespace Expr

open Lexeme

inductive Phrase.Alike : Phrase → Phrase → Prop
  | part {follow : Follow} {level : Nat} {e e' : Expr}
      (same : e'.unplaced .block = e.unplaced .block) :
      Alike (.part follow level e') (.part follow level e)
  | owner {e e' : Expr} (same : e'.unplaced .block = e.unplaced .block) :
      Alike (.owner e') (.owner e)
  | item {e e' : Expr} (same : e'.unplaced .block = e.unplaced .block) : Alike (.item e') (.item e)
  | items {es es' : List Expr} (same : unplacedItems .block es' = unplacedItems .block es) :
      Alike (.items es') (.items es)
  | member {m m' : ObjectMember} (same : unplacedMember .block m' = unplacedMember .block m) :
      Alike (.member m') (.member m)
  | members {ms ms' : List ObjectMember}
      (same : unplacedMembers .block ms' = unplacedMembers .block ms) :
      Alike (.members ms') (.members ms)

/-- The text writes the phrase, with some levels left for it, and each of its tokens is read back. -/
structure Spells (levels : Nat) (phrase : Phrase) (text : List Lexeme) : Prop where
  derives : ∀ p, ∃ phrase', phrase'.Alike phrase ∧
    Derives levels phrase' (Lexer.placed p (spaced text))
  code : ∀ l ∈ text, l.IsCode

namespace Spells

variable {levels m n : Nat} {follow : Follow} {e left right : Expr} {es : List Expr} {field : ObjectMember}
  {ms : List ObjectMember} {text more : List Lexeme} {span : Span}

theorem part (h : Spells levels (.part follow n e) text) (p : Position) :
    ∃ e' : Expr, e'.unplaced .block = e.unplaced .block ∧
      Derives levels (.part follow n e') (Lexer.placed p (spaced text)) := by
  obtain ⟨_, alike, inner⟩ := h.derives p
  cases alike with
  | part same => exact ⟨_, same, inner⟩

theorem owner (h : Spells levels (.owner e) text) (p : Position) :
    ∃ e' : Expr, e'.unplaced .block = e.unplaced .block ∧
      Derives levels (.owner e') (Lexer.placed p (spaced text)) := by
  obtain ⟨_, alike, inner⟩ := h.derives p
  cases alike with
  | owner same => exact ⟨_, same, inner⟩

theorem item (h : Spells levels (.item e) text) (p : Position) :
    ∃ e' : Expr, e'.unplaced .block = e.unplaced .block ∧
      Derives levels (.item e') (Lexer.placed p (spaced text)) := by
  obtain ⟨_, alike, inner⟩ := h.derives p
  cases alike with
  | item same => exact ⟨_, same, inner⟩

theorem items (h : Spells levels (.items es) text) (p : Position) :
    ∃ es', unplacedItems .block es' = unplacedItems .block es ∧
      Derives levels (.items es') (Lexer.placed p (spaced text)) := by
  obtain ⟨_, alike, inner⟩ := h.derives p
  cases alike with
  | items same => exact ⟨_, same, inner⟩

theorem member (h : Spells levels (.member field) text) (p : Position) :
    ∃ field', unplacedMember .block field' = unplacedMember .block field ∧
      Derives levels (.member field') (Lexer.placed p (spaced text)) := by
  obtain ⟨_, alike, inner⟩ := h.derives p
  cases alike with
  | member same => exact ⟨_, same, inner⟩

theorem members (h : Spells levels (.members ms) text) (p : Position) :
    ∃ ms', unplacedMembers .block ms' = unplacedMembers .block ms ∧
      Derives levels (.members ms') (Lexer.placed p (spaced text)) := by
  obtain ⟨_, alike, inner⟩ := h.derives p
  cases alike with
  | members same => exact ⟨_, same, inner⟩

theorem widen (h : Spells levels (.part follow m e) text) (le : m ≤ n) (bound : n ≤ 10)
    (whole : follow = .link → 2 ≤ m) : Spells levels (.part follow n e) text := by
  refine ⟨fun p => ?_, h.code⟩
  obtain ⟨e', same, inner⟩ := h.part p
  exact ⟨_, .part same, inner.widen le bound whole⟩

theorem closing (h : Spells levels (.expr n e) text) (bound : n ≤ 10) :
    Spells levels (.part .close n e) text := by
  refine ⟨fun p => ?_, h.code⟩
  obtain ⟨e', same, inner⟩ := h.part p
  exact ⟨_, .part same, inner.closing bound⟩

theorem loosest (h : Spells levels (.part .close 10 e) text) : Spells levels (.expr 10 e) text := by
  refine ⟨fun p => ?_, h.code⟩
  obtain ⟨e', same, inner⟩ := h.part p
  exact ⟨_, .part same, inner.loosest⟩

theorem ownerAlone (h : Spells levels (.expr 1 e) text) : Spells levels (.owner e) text := by
  refine ⟨fun p => ?_, h.code⟩
  obtain ⟨e', same, inner⟩ := h.part p
  exact ⟨_, .owner same, .ownerAlone inner⟩

theorem ownerArrow (h : Spells levels (.part .link 0 e) text) : Spells levels (.owner e) text := by
  refine ⟨fun p => ?_, h.code⟩
  obtain ⟨e', same, inner⟩ := h.part p
  exact ⟨_, .owner same, .ownerArrow inner⟩

theorem code_symbol {sign : Symbol} (noAt : sign ≠ .atSign) (code : ∀ l ∈ text, l.IsCode) :
    ∀ l ∈ symbol sign :: text, l.IsCode := List.forall_mem_cons.mpr ⟨.symbol noAt, code⟩

theorem code_enclosed {opening close : Symbol} (noAt : opening ≠ .atSign) (noAt' : close ≠ .atSign)
    (code : ∀ l ∈ text, l.IsCode) :
    ∀ l ∈ symbol opening :: text ++ [symbol close], l.IsCode :=
  code_symbol noAt (List.forall_mem_append.mpr ⟨code, by simpa using .symbol noAt'⟩)

theorem placed_enclosed (p : Position) (first last : Lexeme) (text : List Lexeme) : ∃ q,
    Lexer.placed p (spaced (first :: text ++ [last])) =
      first.token p :: Lexer.placed (first.stop p) (spaced text) ++ [last.token q] :=
  ⟨_, by rw [List.cons_append, placed_cons, placed_append, placed_singleton, List.cons_append]⟩

theorem group (h : Spells levels (.expr 10 e) text) :
    Spells (levels + 1) (.expr 0 e) (parens text) := by
  refine ⟨fun p => ?_, code_enclosed (by decide) (by decide) h.code⟩
  obtain ⟨e', same, inner⟩ := h.part ((symbol .openParen).stop p)
  obtain ⟨q, placed⟩ := placed_enclosed p (symbol .openParen) (symbol .closeParen) text
  rw [parens, placed]
  exact ⟨_, .part same, .group rfl inner rfl⟩

theorem array (h : Spells levels (.items es) text) :
    Spells levels (.expr 0 (.array es span))
      (symbol .openBracket :: text ++ [symbol .closeBracket]) := by
  refine ⟨fun p => ?_, code_enclosed (by decide) (by decide) h.code⟩
  obtain ⟨es', same, inner⟩ := h.items ((symbol .openBracket).stop p)
  obtain ⟨q, placed⟩ := placed_enclosed p (symbol .openBracket) (symbol .closeBracket) text
  rw [placed]
  exact ⟨_, .part (by rw [unplaced, unplaced, same]), .array rfl inner rfl⟩

theorem object (h : Spells levels (.members ms) text) :
    Spells levels (.expr 0 (.object ms span))
      (symbol .openBrace :: text ++ [symbol .closeBrace]) := by
  refine ⟨fun p => ?_, code_enclosed (by decide) (by decide) h.code⟩
  obtain ⟨ms', same, inner⟩ := h.members ((symbol .openBrace).stop p)
  obtain ⟨q, placed⟩ := placed_enclosed p (symbol .openBrace) (symbol .closeBrace) text
  rw [placed]
  exact ⟨_, .part (by rw [unplaced, unplaced, same]), .object rfl inner rfl⟩

theorem name {name : String} (h : Word.IsWord name.toList) (isName : (word name).kind.isName) :
    Spells levels (.expr 0 (.identifier name span)) [word name] := by
  refine ⟨fun p => ?_, by simpa using .word h⟩
  rw [placed_singleton]
  refine ⟨_, .part ?_, .name (t := (word name).token p) isName⟩
  rw [ofName, unplaced, unplaced, token, raw_word]

theorem code_joined {sign : Symbol} (noAt : sign ≠ .atSign) (first : ∀ l ∈ text, l.IsCode)
    (second : ∀ l ∈ more, l.IsCode) : ∀ l ∈ text ++ symbol sign :: more, l.IsCode :=
  List.forall_mem_append.mpr ⟨first, code_symbol noAt second⟩

theorem binary {op : BinaryOp} (first : Spells levels (.expr (3 + op.level) left) text)
    (second : Spells levels (.part follow (2 + op.level) right) more) :
    Spells levels (.part follow (3 + op.level) (.binary op left right span))
      (text ++ symbol op.symbol :: more) := by
  refine ⟨fun p => ?_, code_joined (by cases op <;> decide) first.code second.code⟩
  rw [placed_append, placed_cons]
  obtain ⟨left', sameLeft, innerLeft⟩ := first.part p
  obtain ⟨right', sameRight, innerRight⟩ := second.part _
  refine ⟨_, .part ?_, .binary innerLeft rfl innerRight⟩
  rw [mkBinary, unplaced, unplaced, sameLeft, sameRight]

theorem unary {op : UnaryOp} (operand : Spells levels (.part follow 3 e) text) :
    Spells (levels + 1) (.part follow 3 (.unary op e span)) (symbol op.symbol :: text) := by
  refine ⟨fun p => ?_, code_symbol (by cases op <;> decide) operand.code⟩
  rw [placed_cons]
  obtain ⟨e', same, inner⟩ := operand.part _
  exact ⟨_, .part (by rw [unplaced, unplaced, same]), .unary rfl inner⟩

theorem isAssignable_of_same {e' : Expr} (same : e'.unplaced .block = e.unplaced .block)
    (h : e.isAssignable) : e'.isAssignable := by
  rw [← isAssignable_unplaced .block, same, isAssignable_unplaced]
  exact h

theorem updateBefore {op : UpdateOp} (assignable : e.isAssignable)
    (operand : Spells levels (.part follow 3 e) text) :
    Spells (levels + 1) (.part follow 3 (.update op true e span)) (symbol op.symbol :: text) := by
  refine ⟨fun p => ?_, code_symbol (by cases op <;> decide) operand.code⟩
  rw [placed_cons]
  obtain ⟨e', same, inner⟩ := operand.part _
  exact ⟨_, .part (by rw [unplaced, unplaced, same]),
    .updateBefore rfl inner (isAssignable_of_same same assignable)⟩

theorem updateAfter {op : UpdateOp} {last : Lexeme} (assignable : e.isAssignable)
    (operand : Spells levels (.expr 1 e) (text ++ [last])) (oneLine : '\n' ∉ last.raw.toList) :
    Spells levels (.part follow 2 (.update op false e span)) (text ++ [last] ++ [symbol op.symbol]) := by
  refine ⟨fun p => ?_, code_joined (by cases op <;> decide) operand.code (by simp)⟩
  obtain ⟨e', same, inner⟩ := operand.part p
  obtain ⟨q, placed, line⟩ := line_of_placed p (symbol op.symbol) oneLine
  rw [placed]
  exact ⟨_, .part (by rw [unplaced, unplaced, same]),
    .updateAfter inner (isAssignable_of_same same assignable) rfl line⟩

theorem assignment {op : AssignOp} (assignable : left.isAssignable)
    (target : Spells (levels + 1) (.expr 9 left) text)
    (value : Spells levels (.part follow 10 right) more) :
    Spells (levels + 1) (.part follow 10 (.assignment op left right span))
      (text ++ symbol op.symbol :: more) := by
  refine ⟨fun p => ?_, code_joined (by cases op <;> decide) target.code value.code⟩
  rw [placed_append, placed_cons]
  obtain ⟨left', sameLeft, innerLeft⟩ := target.part p
  obtain ⟨right', sameRight, innerRight⟩ := value.part _
  refine ⟨_, .part ?_,
    .assignment innerLeft (isAssignable_of_same sameLeft assignable) rfl innerRight⟩
  rw [unplaced, unplaced, sameLeft, sameRight]

theorem conditional {test consequent alternate : Expr} {other : List Lexeme}
    (condition : Spells (levels + 1) (.expr 8 test) text)
    (first : Spells levels (.expr 10 consequent) more)
    (second : Spells levels (.part follow 10 alternate) other) :
    Spells (levels + 1) (.part follow 10 (.conditional test consequent alternate span))
      (text ++ symbol .question :: more ++ symbol .colon :: other) := by
  refine ⟨fun p => ?_, code_joined (by decide) (code_joined (by decide) condition.code first.code)
    second.code⟩
  rw [placed_append, placed_append, placed_cons, placed_cons]
  obtain ⟨test', sameTest, innerTest⟩ := condition.part p
  obtain ⟨first', sameFirst, innerFirst⟩ := first.part _
  obtain ⟨second', sameSecond, innerSecond⟩ := second.part _
  refine ⟨_, .part ?_, .conditional innerTest rfl innerFirst rfl innerSecond⟩
  rw [unplaced, unplaced, sameTest, sameFirst, sameSecond]

theorem all_isParam_of_same {es es' : List Expr}
    (same : unplacedItems .block es' = unplacedItems .block es) (h : es.all isParam) :
    es'.all isParam := by
  have unplaced (es : List Expr) : (unplacedItems .block es).all isParam = es.all isParam := by
    induction es with
    | nil => rfl
    | cons e es ih => rw [unplacedItems, List.all_cons, List.all_cons, ih, isParam_unplaced]
  rw [← unplaced, same, unplaced]
  exact h

theorem arrow {params : List Expr} {body : Expr} (isAsync : Bool) (after : follow ≠ .any)
    (list : Spells (levels + 1) (.items params) text) (valid : params.all isParam)
    (inner : Spells levels (.part follow 10 body) more)
    (noBrace : ∀ l ∈ more.head?, l.kind ≠ .symbol .openBrace) :
    Spells (levels + 1) (.part follow 0 (.arrow params (.expression body) isAsync span))
      ((if isAsync then [word "async"] else []) ++
        (parens text ++ symbol .arrow :: more)) := by
  have code : ∀ l ∈ parens text ++ symbol .arrow :: more, l.IsCode :=
    code_joined (by decide) (code_enclosed (by decide) (by decide) list.code) inner.code
  have start (p : Position) :
      firstKind (Lexer.placed p (spaced more)) ≠ .symbol .openBrace := by
    cases more with
    | nil => simp [firstKind]
    | cons l more =>
      rw [placed_cons]
      exact noBrace l rfl
  cases isAsync with
  | false =>
    refine ⟨fun p => ?_, code⟩
    rw [if_neg (by simp), List.nil_append, placed_append, placed_cons, parens]
    obtain ⟨q, placed⟩ := placed_enclosed p (symbol .openParen) (symbol .closeParen) text
    obtain ⟨params', sameParams, innerParams⟩ := list.items ((symbol .openParen).stop p)
    obtain ⟨body', sameBody, innerBody⟩ := inner.part _
    rw [placed, List.append_assoc, List.singleton_append]
    refine ⟨_, .part ?_, .openArrow after rfl innerParams (all_isParam_of_same sameParams valid) rfl rfl
      (start _) innerBody⟩
    rw [unplaced, unplaced, sameParams, unplacedBody, unplacedBody, sameBody]
  | true =>
    have async : Word.IsWord "async".toList := ⟨'a', _, rfl, by decide, by simp; decide⟩
    refine ⟨fun p => ?_, List.forall_mem_cons.mpr ⟨.word async, code⟩⟩
    rw [if_pos rfl, List.singleton_append, placed_cons, placed_append, placed_cons, parens]
    obtain ⟨q, placed⟩ := placed_enclosed ((word "async").stop p) (symbol .openParen)
      (symbol .closeParen) text
    obtain ⟨params', sameParams, innerParams⟩ :=
      list.items ((symbol .openParen).stop ((word "async").stop p))
    obtain ⟨body', sameBody, innerBody⟩ := inner.part _
    rw [placed, List.append_assoc, List.singleton_append]
    refine ⟨_, .part ?_, .openAsyncArrow after rfl rfl rfl innerParams (all_isParam_of_same sameParams valid)
      rfl rfl (start _) innerBody⟩
    rw [unplaced, unplaced, sameParams, unplacedBody, unplacedBody, sameBody]

theorem property {name : String} {s : Span} (optional : Bool)
    (operand : Spells levels (.owner e) text) (h : Word.IsWord name.toList) :
    Spells levels (.expr 1 (.member e (.identifier name s) false optional span))
      (text ++ [symbol (if optional then .questionDot else .dot), word name]) := by
  refine ⟨fun p => ?_, code_joined (by cases optional <;> decide) operand.code
    (by simpa using .word h)⟩
  rw [placed_append, placed_cons, placed_singleton]
  obtain ⟨e', same, inner⟩ := operand.owner p
  refine ⟨_, .part ?_, .member inner rfl ?_⟩
  · rw [mkMember, ofName, unplaced, unplaced, same, unplaced, unplaced, token, raw_word]
  · rcases kind_word name with kind | ⟨k, kind⟩
    · exact .inl kind
    · exact .inr (by rw [token, kind]; rfl)

theorem index {owner property : Expr} (optional : Bool)
    (operand : Spells (levels + 1) (.owner owner) text)
    (inner : Spells levels (.expr 10 property) more) :
    Spells (levels + 1) (.expr 1 (.member owner property true optional span))
      (text ++ ((if optional then [symbol .questionDot] else []) ++
        symbol .openBracket :: more ++ [symbol .closeBracket])) := by
  have code : ∀ l ∈ symbol .openBracket :: more ++ [symbol .closeBracket], l.IsCode :=
    code_enclosed (by decide) (by decide) inner.code
  cases optional with
  | false =>
    refine ⟨fun p => ?_, List.forall_mem_append.mpr ⟨operand.code, code⟩⟩
    rw [if_neg (by simp), List.nil_append, placed_append]
    obtain ⟨owner', sameOwner, innerOwner⟩ := operand.owner p
    obtain ⟨q, placed⟩ := placed_enclosed (p.after (Lexer.textOf (spaced text)))
      (symbol .openBracket) (symbol .closeBracket) more
    obtain ⟨property', sameProperty, innerProperty⟩ := inner.part
      ((symbol .openBracket).stop (p.after (Lexer.textOf (spaced text))))
    rw [placed, ← List.append_assoc]
    refine ⟨_, .part ?_, .index innerOwner rfl innerProperty rfl⟩
    rw [mkIndex, unplaced, unplaced, sameOwner, sameProperty]
  | true =>
    refine ⟨fun p => ?_, code_joined (by decide) operand.code code⟩
    have split : [symbol .questionDot] ++ symbol .openBracket :: more ++ [symbol .closeBracket] =
        symbol .questionDot :: (symbol .openBracket :: more ++ [symbol .closeBracket]) := by simp
    rw [if_pos rfl, split, placed_append, placed_cons]
    generalize p.after (Lexer.textOf (spaced text)) = q
    obtain ⟨owner', sameOwner, innerOwner⟩ := operand.owner p
    obtain ⟨_, placed⟩ := placed_enclosed ((symbol .questionDot).stop q) (symbol .openBracket)
      (symbol .closeBracket) more
    obtain ⟨property', sameProperty, innerProperty⟩ := inner.part
      ((symbol .openBracket).stop ((symbol .questionDot).stop q))
    rw [placed, ← List.cons_append, ← List.append_assoc]
    refine ⟨_, .part ?_, .optionalIndex innerOwner rfl rfl innerProperty rfl⟩
    rw [mkIndex, unplaced, unplaced, sameOwner, sameProperty]

theorem call {callee : Expr} (optional : Bool) (operand : Spells levels (.owner callee) text)
    (list : Spells levels (.items es) more) :
    Spells levels (.expr 1 (.call callee es optional span))
      (text ++ ((if optional then [symbol .questionDot] else []) ++ parens more)) := by
  have code : ∀ l ∈ parens more, l.IsCode := code_enclosed (by decide) (by decide) list.code
  cases optional with
  | false =>
    refine ⟨fun p => ?_, List.forall_mem_append.mpr ⟨operand.code, code⟩⟩
    rw [if_neg (by simp), List.nil_append, placed_append, parens]
    generalize p.after (Lexer.textOf (spaced text)) = q
    obtain ⟨callee', sameCallee, innerCallee⟩ := operand.owner p
    obtain ⟨_, placed⟩ := placed_enclosed q (symbol .openParen) (symbol .closeParen) more
    obtain ⟨es', sameItems, innerItems⟩ := list.items ((symbol .openParen).stop q)
    rw [placed, ← List.append_assoc]
    refine ⟨_, .part ?_, .call innerCallee rfl innerItems rfl⟩
    rw [mkCall, unplaced, unplaced, sameCallee, sameItems]
  | true =>
    refine ⟨fun p => ?_, code_joined (by decide) operand.code code⟩
    rw [if_pos rfl, List.singleton_append, placed_append, placed_cons, parens]
    generalize p.after (Lexer.textOf (spaced text)) = q
    obtain ⟨callee', sameCallee, innerCallee⟩ := operand.owner p
    obtain ⟨_, placed⟩ := placed_enclosed ((symbol .questionDot).stop q) (symbol .openParen)
      (symbol .closeParen) more
    obtain ⟨es', sameItems, innerItems⟩ :=
      list.items ((symbol .openParen).stop ((symbol .questionDot).stop q))
    rw [placed, ← List.cons_append, ← List.append_assoc]
    refine ⟨_, .part ?_, .optionalCall innerCallee rfl rfl innerItems rfl⟩
    rw [mkCall, unplaced, unplaced, sameCallee, sameItems]

theorem importCall {s : Span} (list : Spells levels (.items es) text) :
    Spells levels (.expr 1 (.call (.identifier "import" s) es false span))
      (word "import" :: parens text) := by
  have isWord : Word.IsWord "import".toList := ⟨'i', _, rfl, by decide, by simp; decide⟩
  refine ⟨fun p => ?_, List.forall_mem_cons.mpr
    ⟨.word isWord, code_enclosed (by decide) (by decide) list.code⟩⟩
  rw [placed_cons, parens]
  obtain ⟨_, placed⟩ := placed_enclosed ((word "import").stop p) (symbol .openParen)
    (symbol .closeParen) text
  obtain ⟨es', sameItems, innerItems⟩ :=
    list.items ((symbol .openParen).stop ((word "import").stop p))
  rw [placed]
  refine ⟨_, .part ?_, .importCall rfl rfl innerItems rfl⟩
  rw [mkCall, ofName, unplaced, unplaced, sameItems, unplaced, unplaced]
  rfl

theorem looseItem (h : Spells levels (.expr 10 e) text) : Spells (levels + 1) (.item e) text := by
  refine ⟨fun p => ?_, h.code⟩
  obtain ⟨e', same, inner⟩ := h.part p
  exact ⟨_, .item same, .item inner⟩

theorem spreadItem (h : Spells levels (.expr 10 e) text) :
    Spells (levels + 1) (.item (.spread e span)) (symbol .spread :: text) := by
  refine ⟨fun p => ?_, code_symbol (by decide) h.code⟩
  rw [placed_cons]
  obtain ⟨e', same, inner⟩ := h.part _
  exact ⟨_, .item (by rw [unplaced, unplaced, same]), .spreadItem rfl inner⟩

theorem noItems : Spells levels (.items []) [] :=
  ⟨fun _ => ⟨_, .items rfl, .noItems⟩, by simp⟩

theorem lastItem (h : Spells levels (.item e) text) : Spells levels (.items [e]) text := by
  refine ⟨fun p => ?_, h.code⟩
  obtain ⟨e', same, inner⟩ := h.item p
  exact ⟨_, .items (by rw [unplacedItems, unplacedItems, same]; rfl), .lastItem inner⟩

theorem moreItems (first : Spells levels (.item e) text) (rest : Spells levels (.items es) more) :
    Spells levels (.items (e :: es)) (text ++ symbol .comma :: more) := by
  refine ⟨fun p => ?_, code_joined (by decide) first.code rest.code⟩
  rw [placed_append, placed_cons]
  obtain ⟨e', same, inner⟩ := first.item p
  obtain ⟨es', sameItems, innerItems⟩ := rest.items _
  exact ⟨_, .items (by rw [unplacedItems, unplacedItems, same, sameItems]),
    .moreItems inner rfl innerItems⟩

theorem noMembers : Spells levels (.members []) [] :=
  ⟨fun _ => ⟨_, .members rfl, .noMembers⟩, by simp⟩

theorem lastMember (h : Spells levels (.member field) text) :
    Spells levels (.members [field]) text := by
  refine ⟨fun p => ?_, h.code⟩
  obtain ⟨field', same, inner⟩ := h.member p
  exact ⟨_, .members (by rw [unplacedMembers, unplacedMembers, same]; rfl), .lastMember inner⟩

theorem moreMembers (first : Spells levels (.member field) text)
    (rest : Spells levels (.members ms) more) :
    Spells levels (.members (field :: ms)) (text ++ symbol .comma :: more) := by
  refine ⟨fun p => ?_, code_joined (by decide) first.code rest.code⟩
  rw [placed_append, placed_cons]
  obtain ⟨field', same, inner⟩ := first.member p
  obtain ⟨ms', sameMembers, innerMembers⟩ := rest.members _
  exact ⟨_, .members (by rw [unplacedMembers, unplacedMembers, same, sameMembers]),
    .moreMembers inner rfl innerMembers⟩

theorem shorthand {name : String} {s : Span} (h : Word.IsWord name.toList)
    (plain : (word name).kind = .identifier) :
    Spells levels (.member (.property (.identifier name) (.identifier name s) true span))
      [word name] := by
  refine ⟨fun p => ?_, by simpa using .word h⟩
  rw [placed_singleton]
  refine ⟨_, .member ?_, .shorthand (t := (word name).token p) plain⟩
  rw [unplacedMember, unplacedMember, ofName, unplaced, unplaced, unplacedKey, unplacedKey, token,
    raw_word]
  all_goals simp

structure IsKey (key : PropertyKey) (l : Lexeme) : Prop where
  read : ∀ p, keyOf? (l.token p) = some key
  code : l.IsCode

theorem entry {key : PropertyKey} {l : Lexeme} (h : IsKey key l)
    (value : Spells levels (.expr 10 e) text) :
    Spells (levels + 1) (.member (.property key e false span)) (l :: symbol .colon :: text) := by
  refine ⟨fun p => ?_, List.forall_mem_cons.mpr ⟨h.code, code_symbol (by decide) value.code⟩⟩
  rw [placed_cons, placed_cons]
  obtain ⟨e', same, inner⟩ := value.part _
  exact ⟨_, .member (by rw [unplacedMember, unplacedMember, same]),
    .property (h.read p) rfl inner⟩

theorem computed {key : Expr} (name : Spells levels (.expr 10 key) text)
    (value : Spells levels (.expr 10 e) more) :
    Spells (levels + 1) (.member (.property (.computed key) e false span))
      (symbol .openBracket :: text ++ [symbol .closeBracket] ++ symbol .colon :: more) := by
  refine ⟨fun p => ?_, code_joined (by decide) (code_enclosed (by decide) (by decide) name.code)
    value.code⟩
  obtain ⟨q, placed⟩ := placed_enclosed p (symbol .openBracket) (symbol .closeBracket) text
  obtain ⟨key', sameKey, innerKey⟩ := name.part ((symbol .openBracket).stop p)
  obtain ⟨e', same, inner⟩ := value.part _
  rw [placed_append, placed_cons, placed, List.append_assoc, List.singleton_append]
  refine ⟨_, .member ?_, .computed rfl innerKey rfl rfl inner⟩
  rw [unplacedMember, unplacedMember, unplacedKey, unplacedKey, sameKey, same]

theorem spreadMember (h : Spells levels (.expr 10 e) text) :
    Spells (levels + 1) (.member (.spread e span)) (symbol .spread :: text) := by
  refine ⟨fun p => ?_, code_symbol (by decide) h.code⟩
  rw [placed_cons]
  obtain ⟨e', same, inner⟩ := h.part _
  exact ⟨_, .member (by rw [unplacedMember, unplacedMember, same]), .spreadMember rfl inner⟩

end Spells

section

variable {t : Token} {e : Expr}

theorem word_of_isSpelled (spelled : t.own.IsSpelled false)
    (kind : t.kind = .identifier ∨ t.kind.isKeyword) :
    Word.IsWord t.raw.toList ∧ t.own = word t.raw := by
  have named : t.own.IsName false := by
    rcases kind with kind | kind
    · simpa [Lexeme.IsSpelled, Token.own, kind] using spelled
    · cases here : t.kind with
      | keyword k => simpa [Lexeme.IsSpelled, Token.own, here] using spelled
      | _ => simp [here, TokenKind.isKeyword] at kind
  obtain ⟨name, -, raw, -, -, whole⟩ := named
  obtain ⟨isWord, same⟩ := whole rfl
  have raw : t.raw = String.ofList name := raw
  rw [raw, String.toList_ofList]
  exact ⟨isWord, same⟩

theorem level_of_literalOf? (h : literalOf? t = some e) : e.level = 0 := by
  unfold literalOf? at h
  split at h
  all_goals cases h
  all_goals rfl

theorem literalOf?_token (h : literalOf? t = some e) (p : Position) :
    ∃ e' : Expr, e'.unplaced .block = e.unplaced .block ∧
      literalOf? (t.own.token p) = some e' := by
  have content : (t.own.token p).content = t.content := rfl
  unfold literalOf? at h ⊢
  rw [Token.kind_of_content content, Token.text_of_content content,
    Token.value_of_content content, Token.number?_of_content content]
  split at h
  case h_8 => cases h
  all_goals
    cases h
    refine ⟨_, ?_, rfl⟩
    rfl

theorem spell_literal (h : literalOf? t = some e) (spelled : t.own.IsSpelled false)
    (safe last : Bool) : e.spell safe last = [t.own] ∧ t.own.IsCode := by
  have literal (kind : t.kind ∈ [.string, .template, .number, .bigInt])
      (stable : t.own.IsStable fun _ => True) : t.own.IsCode := .literal kind stable
  have reserved (kind : t.kind.isKeyword) : [word t.raw] = [t.own] ∧ t.own.IsCode := by
    obtain ⟨isWord, own⟩ := word_of_isSpelled spelled (.inr kind)
    rw [own]
    exact ⟨rfl, .word isWord⟩
  unfold literalOf? at h
  unfold Lexeme.IsSpelled at spelled
  split at h
  case h_8 => cases h
  all_goals
    rename_i kind
    have here : t.own.kind = _ := kind
    rw [here] at spelled
    cases h
  case h_1 =>
    obtain ⟨⟨n, value, -⟩, stable⟩ := spelled
    have value : t.value = .number n := value
    refine ⟨?_, literal (by simp [kind]) stable⟩
    simp [Expr.ofLiteral, spell, Lexeme.ofLiteral, Token.own, kind, Token.number?, value]
  case h_2 =>
    obtain ⟨⟨digits, value⟩, stable⟩ := spelled
    have value : t.value = .bigInt digits := value
    refine ⟨?_, literal (by simp [kind]) stable⟩
    simp [Expr.ofLiteral, spell, Lexeme.ofLiteral, Token.own, kind, Token.text, value]
  case h_3 =>
    obtain ⟨⟨text, value⟩, stable⟩ := spelled
    have value : t.value = .text text := value
    refine ⟨?_, literal (by simp [kind]) stable⟩
    simp [Expr.ofLiteral, spell, Lexeme.ofLiteral, Token.own, kind, Token.text, value]
  case h_7 =>
    obtain ⟨⟨text, value⟩, stable⟩ := spelled
    have value : t.value = .text text := value
    refine ⟨?_, literal (by simp [kind]) stable⟩
    simp [spell, Token.own, kind, Token.text, value]
  all_goals
    obtain ⟨same, code⟩ := reserved (by rw [kind]; rfl)
    exact ⟨same, code⟩

theorem Spells.literal {levels : Nat} (h : literalOf? t = some e)
    (spelled : t.own.IsSpelled false) (safe last : Bool) :
    Spells levels (.expr 0 e) (e.spell safe last) := by
  obtain ⟨same, code⟩ := spell_literal h spelled safe last
  rw [same]
  refine ⟨fun p => ?_, by simpa using code⟩
  rw [placed_singleton]
  obtain ⟨e', same, read⟩ := literalOf?_token h p
  exact ⟨_, .part same, .literal read⟩

end

end Expr

end PulseSyntax
