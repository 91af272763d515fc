import PulseSyntax.Proofs.Expr.Grammar
import PulseSyntax.Proofs.Expr.Places
import PulseSyntax.Proofs.Expr.Same

namespace PulseSyntax

open PulseSyntax.Parser

namespace Expr

inductive Piece where
  | expr (e : Expr)
  | params (es : List Expr)
  /-- The body of a function, and the span at which the function ends with it. -/
  | body (b : ArrowBody) (close : Span)
  | item (e : Expr)
  | items (es : List Expr)
  | key (k : PropertyKey)
  | member (m : ObjectMember)
  | members (ms : List ObjectMember)

/-- The token `?.` before a bracket, if the link is an optional one. -/
inductive Dotted (scope : Scope) : Bool → Nat → Nat → Prop
  | plain {i : Nat} : Dotted scope false i i
  | optional {i : Nat} (hd : (scope.stream.get i).kind = .symbol .questionDot) :
      Dotted scope true i (i + 1)

/-- The tokens from one index up to another are those of the piece. -/
inductive Stands (scope : Scope) : Piece → Nat → Nat → Prop
  | name {i : Nat} (hk : (scope.stream.get i).kind.isName) :
      Stands scope (.expr (.ofName (scope.stream.get i))) i (i + 1)
  | importName {i : Nat} (hk : (scope.stream.get i).kind = .keyword .import_)
      (next : (scope.stream.get (i + 1)).kind = .symbol .openParen) :
      Stands scope (.expr (.ofName (scope.stream.get i))) i (i + 1)
  | literal {i : Nat} {e : Expr} (h : literalOf? (scope.stream.get i) = some e) :
      Stands scope (.expr e) i (i + 1)
  | group {i j : Nat} {e : Expr} (ho : (scope.stream.get i).kind = .symbol .openParen)
      (inner : Stands scope (.expr e) (i + 1) j)
      (hc : (scope.stream.get j).kind = .symbol .closeParen) : Stands scope (.expr e) i (j + 1)
  | array {i j : Nat} {es : List Expr} (ho : (scope.stream.get i).kind = .symbol .openBracket)
      (inner : Stands scope (.items es) (i + 1) j)
      (hc : (scope.stream.get j).kind = .symbol .closeBracket) :
      Stands scope (.expr (.array es ((scope.stream.get i).span.cover (scope.stream.get j).span)))
        i (j + 1)
  | object {i j : Nat} {ms : List ObjectMember}
      (ho : (scope.stream.get i).kind = .symbol .openBrace)
      (inner : Stands scope (.members ms) (i + 1) j)
      (hc : (scope.stream.get j).kind = .symbol .closeBrace) :
      Stands scope (.expr (.object ms ((scope.stream.get i).span.cover (scope.stream.get j).span)))
        i (j + 1)
  | arrow {i j k : Nat} {params : List Expr} {body : ArrowBody} {close : Span}
      (list : Stands scope (.params params) i k) (valid : params.all isParam)
      (ha : (scope.stream.get k).kind = .symbol .arrow)
      (inner : Stands scope (.body body close) (k + 1) j) :
      Stands scope (.expr (.arrow params body false ((scope.stream.get i).span.cover close))) i j
  | asyncArrow {i j k : Nat} {params : List Expr} {body : ArrowBody} {close : Span}
      (hw : (scope.stream.get i).kind = .identifier) (raw : (scope.stream.get i).raw = "async")
      (list : Stands scope (.params params) (i + 1) k) (valid : params.all isParam)
      (ha : (scope.stream.get k).kind = .symbol .arrow)
      (inner : Stands scope (.body body close) (k + 1) j) :
      Stands scope (.expr (.arrow params body true ((scope.stream.get i).span.cover close))) i j
  | bareParam {i : Nat} (hk : (scope.stream.get i).kind = .identifier) :
      Stands scope (.params [.ofName (scope.stream.get i)]) i (i + 1)
  | paramList {i j : Nat} {es : List Expr} (ho : (scope.stream.get i).kind = .symbol .openParen)
      (inner : Stands scope (.items es) (i + 1) j)
      (hc : (scope.stream.get j).kind = .symbol .closeParen) : Stands scope (.params es) i (j + 1)
  | parsedBody {i j : Nat} {e : Expr} (noBrace : (scope.stream.get i).kind ≠ .symbol .openBrace)
      (inner : Stands scope (.expr e) i j) : Stands scope (.body (.expression e) e.span) i j
  | block {i : Nat} {r : TokenRange} (first : r.start = i + 1) (delimits : scope.Delimits r) :
      Stands scope (.body (Expr.body scope r) (scope.stream.get r.stop).span) i (r.stop + 1)
  | property {i j : Nat} {e : Expr} {optional : Bool} (operand : Stands scope (.expr e) i j)
      (hd : (scope.stream.get j).kind = .symbol (if optional then .questionDot else .dot))
      (hk : (scope.stream.get (j + 1)).kind = .identifier ∨
        (scope.stream.get (j + 1)).kind.isKeyword) :
      Stands scope (.expr (mkMember e (.ofName (scope.stream.get (j + 1))) optional)) i (j + 2)
  | index {i j k l : Nat} {e inside : Expr} {optional : Bool} (operand : Stands scope (.expr e) i j)
      (dotted : Dotted scope optional j k)
      (ho : (scope.stream.get k).kind = .symbol .openBracket)
      (inner : Stands scope (.expr inside) (k + 1) l)
      (hc : (scope.stream.get l).kind = .symbol .closeBracket) :
      Stands scope (.expr (mkIndex e inside optional (scope.stream.get l).span)) i (l + 1)
  | call {i j k l : Nat} {e : Expr} {es : List Expr} {optional : Bool}
      (operand : Stands scope (.expr e) i j) (dotted : Dotted scope optional j k)
      (ho : (scope.stream.get k).kind = .symbol .openParen)
      (inner : Stands scope (.items es) (k + 1) l)
      (hc : (scope.stream.get l).kind = .symbol .closeParen) :
      Stands scope (.expr (mkCall e es optional (scope.stream.get l).span)) i (l + 1)
  | updateAfter {i j : Nat} {e : Expr} {op : UpdateOp} (operand : Stands scope (.expr e) i j)
      (assignable : e.isAssignable) (ht : (scope.stream.get j).kind = .symbol op.symbol) :
      Stands scope (.expr (.update op false e (e.span.cover (scope.stream.get j).span))) i (j + 1)
  | unary {i j : Nat} {e : Expr} {op : UnaryOp}
      (ht : (scope.stream.get i).kind = .symbol op.symbol)
      (operand : Stands scope (.expr e) (i + 1) j) :
      Stands scope (.expr (.unary op e ((scope.stream.get i).span.cover e.span))) i j
  | updateBefore {i j : Nat} {e : Expr} {op : UpdateOp}
      (ht : (scope.stream.get i).kind = .symbol op.symbol)
      (operand : Stands scope (.expr e) (i + 1) j) (assignable : e.isAssignable) :
      Stands scope (.expr (.update op true e ((scope.stream.get i).span.cover e.span))) i j
  | binary {i j k : Nat} {left right : Expr} {op : BinaryOp}
      (first : Stands scope (.expr left) i j)
      (ht : (scope.stream.get j).kind = .symbol op.symbol)
      (second : Stands scope (.expr right) (j + 1) k) :
      Stands scope (.expr (mkBinary op left right)) i k
  | conditional {i j k l : Nat} {test consequent alternate : Expr}
      (condition : Stands scope (.expr test) i j)
      (hq : (scope.stream.get j).kind = .symbol .question)
      (one : Stands scope (.expr consequent) (j + 1) k)
      (hc : (scope.stream.get k).kind = .symbol .colon)
      (other : Stands scope (.expr alternate) (k + 1) l) :
      Stands scope (.expr (.conditional test consequent alternate
        (test.span.cover alternate.span))) i l
  | assignment {i j k : Nat} {target value : Expr} {op : AssignOp}
      (left : Stands scope (.expr target) i j) (assignable : target.isAssignable)
      (ht : (scope.stream.get j).kind = .symbol op.symbol)
      (right : Stands scope (.expr value) (j + 1) k) :
      Stands scope (.expr (.assignment op target value (target.span.cover value.span))) i k
  | item {i j : Nat} {e : Expr} (inner : Stands scope (.expr e) i j) : Stands scope (.item e) i j
  | spreadItem {i j : Nat} {e : Expr} (hd : (scope.stream.get i).kind = .symbol .spread)
      (inner : Stands scope (.expr e) (i + 1) j) :
      Stands scope (.item (.spread e ((scope.stream.get i).span.cover e.span))) i j
  | noItems {i : Nat} : Stands scope (.items []) i i
  | lastItem {i j : Nat} {e : Expr} (only : Stands scope (.item e) i j) :
      Stands scope (.items [e]) i j
  | moreItems {i j k : Nat} {e : Expr} {es : List Expr} (first : Stands scope (.item e) i j)
      (hc : (scope.stream.get j).kind = .symbol .comma)
      (rest : Stands scope (.items es) (j + 1) k) : Stands scope (.items (e :: es)) i k
  | plainKey {i : Nat} {key : PropertyKey} (h : keyOf? (scope.stream.get i) = some key) :
      Stands scope (.key key) i (i + 1)
  | computedKey {i j : Nat} {e : Expr} (ho : (scope.stream.get i).kind = .symbol .openBracket)
      (inner : Stands scope (.expr e) (i + 1) j)
      (hc : (scope.stream.get j).kind = .symbol .closeBracket) :
      Stands scope (.key (.computed e)) i (j + 1)
  | shorthand {i : Nat} (hk : (scope.stream.get i).kind = .identifier) :
      Stands scope (.member (.property (.identifier (scope.stream.get i).raw)
        (.ofName (scope.stream.get i)) true (scope.stream.get i).span)) i (i + 1)
  | keyed {i j k : Nat} {key : PropertyKey} {value : Expr} (named : Stands scope (.key key) i j)
      (hc : (scope.stream.get j).kind = .symbol .colon)
      (inner : Stands scope (.expr value) (j + 1) k) :
      Stands scope (.member (.property key value false
        ((scope.stream.get i).span.cover value.span))) i k
  | spreadMember {i j : Nat} {e : Expr} (hd : (scope.stream.get i).kind = .symbol .spread)
      (inner : Stands scope (.expr e) (i + 1) j) :
      Stands scope (.member (.spread e ((scope.stream.get i).span.cover e.span))) i j
  | noMembers {i : Nat} : Stands scope (.members []) i i
  | lastMember {i j : Nat} {m : ObjectMember} (only : Stands scope (.member m) i j) :
      Stands scope (.members [m]) i j
  | moreMembers {i j k : Nat} {m : ObjectMember} {ms : List ObjectMember}
      (first : Stands scope (.member m) i j) (hc : (scope.stream.get j).kind = .symbol .comma)
      (rest : Stands scope (.members ms) (j + 1) k) : Stands scope (.members (m :: ms)) i k

end Expr

namespace Parser

variable {α : Type} {scope : Scope} {s : ParserState}

theorem yields_commaSeparated (Item : α → Nat → Nat → Prop) (Items : List α → Nat → Nat → Prop)
    {item : Parser α} (close : Symbol) (none : ∀ i, Items [] i i)
    (last : ∀ {a i j}, Item a i j → Items [a] i j)
    (more : ∀ {a as i j k}, Item a i j → (scope.stream.get j).kind = .symbol .comma →
      Items as (j + 1) k → Items (a :: as) i k)
    (h : ∀ s, Yields item scope s fun a t => Item a s.cursor t.cursor) :
    Yields (commaSeparated close item) scope s fun as t => Items as s.cursor t.cursor := by
  refine yields_bind.mpr ((yields_loop_last
    (I := fun (items : Array α) t => ∀ rest k, Items rest t.cursor k →
      Items (items.toList ++ rest) s.cursor k)
    (Q := fun items t => Items items.toList s.cursor t.cursor) (fun items t all => ?_)
    (fun items t all => ?_) fun _ _ => id).mono fun items t all => yields_pure.mpr all)
  · simpa using all [] _ (none _)
  · simp [commaRound]
    refine ⟨fun _ => by simpa [Keeps] using all [] _ (none _),
      fun _ => (h t).mono fun a u own => ⟨?_, ?_⟩⟩
    · intro comma rest k others
      rw [ParserState.next_of_kind comma (by simp)] at others
      simpa using all (a :: rest) k (more own comma others)
    · exact fun _ => by simpa [Keeps] using all [a] _ (last own)

theorem yields_rawBlock_start :
    Yields rawBlock scope s fun r _ => r.start = s.cursor + 1 := by
  rw [rawBlock_eq]
  simp only [yields_bind, yields_expectSymbol, yields_cursor, yields_advance, yields_pure]
  intro opening
  rw [ParserState.next_of_kind opening (by simp)]
  exact yields_loop (I := fun _ _ => True) (fun _ _ _ _ _ _ => trivial) trivial |>.mono
    fun _ _ _ => rfl

end Parser

namespace Expr

variable {scope : Scope} {s : ParserState} {expr : Parser Expr} {nested : Nested}

/-- The tokens that the reader passes over are those of its answer. -/
abbrev Sound (scope : Scope) (p : Parser Expr) : Prop :=
  ∀ s, Yields p scope s fun e t => Stands scope (.expr e) s.cursor t.cursor

structure Nested.Sound (scope : Scope) (nested : Nested) : Prop where
  assignment : Expr.Sound scope nested.assignment
  unary : Expr.Sound scope nested.unary

theorem yields_spreadable_stands (h : Sound scope expr) :
    Yields (spreadable expr) scope s fun e t => Stands scope (.item e) s.cursor t.cursor := by
  simp [spreadable]
  refine ⟨fun spread => ?_, fun _ => (h s).mono fun e t own => .item own⟩
  rw [ParserState.next_of_kind spread (by simp)]
  exact (h _).mono fun e t own => .spreadItem spread own

theorem yields_items_stands (h : Sound scope expr) (close : Symbol) :
    Yields (commaSeparated close (spreadable expr)) scope s fun es t =>
      Stands scope (.items es) s.cursor t.cursor :=
  yields_commaSeparated (fun e => Stands scope (.item e)) (fun es => Stands scope (.items es)) close
    (fun _ => .noItems) .lastItem .moreItems fun _ => yields_spreadable_stands h

theorem yields_arguments_stands (h : Sound scope expr) :
    Yields (arguments expr) scope s fun answer t => ∃ close, t.cursor = close + 1 ∧
      answer.2 = (scope.stream.get close).span ∧
      (scope.stream.get s.cursor).kind = .symbol .openParen ∧
      Stands scope (.items answer.1) (s.cursor + 1) close ∧
      (scope.stream.get close).kind = .symbol .closeParen := by
  simp [arguments]
  intro opening
  rw [ParserState.next_of_kind opening (by simp)]
  refine (yields_items_stands h _).mono fun items t own closing => ?_
  rw [ParserState.next_of_kind closing (by simp)]
  exact ⟨t.cursor, rfl, rfl, opening, own, closing⟩

theorem yields_arrowBlock_stands :
    Yields arrowBlock scope s fun b t => ∃ last, t.cursor = last + 1 ∧
      Stands scope (.body b (scope.stream.get last).span) s.cursor t.cursor := by
  intro b t ok
  obtain ⟨r, raw, rfl⟩ := arrowBlock_eq_ok.mp ok
  obtain ⟨delimits, stop⟩ := yields_rawBlock (.refl scope.stream s.cursor)
    (Q := fun r t => scope.Delimits r ∧ t.cursor = r.stop + 1)
    (fun _ _ _ delimits _ stop => ⟨delimits, stop⟩) raw
  exact ⟨r.stop, stop, stop ▸ .block (yields_rawBlock_start raw) delimits⟩

theorem yields_arrowFunction_stands (h : nested.Sound scope) (start : Span) (isAsync : Bool) :
    Yields (arrowFunction nested start isAsync) scope s fun e t =>
      ∃ params k body close, e = .arrow params body isAsync (start.cover close) ∧
        Stands scope (.params params) s.cursor k ∧ params.all isParam ∧
        (scope.stream.get k).kind = .symbol .arrow ∧
        Stands scope (.body body close) (k + 1) t.cursor := by
  refine yields_bind.mpr (yields_isSymbol.mpr ?_)
  extract_lets rest
  have tail {params : List Expr} {t : ParserState}
      (own : Stands scope (.params params) s.cursor t.cursor) :
      Yields (rest params) scope t fun e u =>
        ∃ params k body close, e = .arrow params body isAsync (start.cover close) ∧
          Stands scope (.params params) s.cursor k ∧ params.all isParam ∧
          (scope.stream.get k).kind = .symbol .arrow ∧
          Stands scope (.body body close) (k + 1) u.cursor := by
    simp only [rest, yields_bind, yields_ite, yields_expectSymbol, yields_isSymbol, yields_fail,
      yields_previous, yields_pure]
    refine ⟨fun _ => trivial, fun valid arrow => ?_⟩
    rw [ParserState.next_of_kind arrow (by simp)]
    refine ⟨fun _ => yields_arrowBlock_stands.mono ?_, fun noBrace => ?_⟩
    · rintro body u ⟨last, stop, inner⟩
      rw [stop, Nat.add_sub_cancel]
      exact ⟨params, _, body, _, rfl, own, by simpa using valid, arrow, stop ▸ inner⟩
    · refine (h.assignment _).mono fun e u inner => ?_
      exact ⟨params, _, _, _, rfl, own, by simpa using valid, arrow,
        .parsedBody (by simpa using noBrace) inner⟩
  clear_value rest
  simp only [yields_ite, yields_bind, yields_expect, yields_pure]
  refine ⟨fun _ => (yields_arguments_stands h.assignment).mono ?_, fun _ name => ?_⟩
  · rintro ⟨items, close⟩ t ⟨last, stop, -, opening, own, closing⟩
    have list : Stands scope (.params items) s.cursor (last + 1) := .paramList opening own closing
    exact tail (stop ▸ list)
  · rw [ParserState.next_of_kind name (by simp)]
    exact tail (.bareParam name)

theorem sound_arrayLiteral (h : nested.Sound scope) : Sound scope (arrayLiteral nested) := by
  intro s
  simp [arrayLiteral]
  intro opening
  rw [ParserState.next_of_kind opening (by simp)]
  refine (yields_items_stands h.assignment _).mono fun items t own closing => ?_
  rw [ParserState.next_of_kind closing (by simp)]
  exact .array opening own closing

theorem yields_propertyValue_stands (h : nested.Sound scope) {first : Nat} {key : PropertyKey}
    (named : Stands scope (.key key) first s.cursor) :
    Yields (propertyValue nested (scope.stream.get first).span key) scope s fun m t =>
      Stands scope (.member m) first t.cursor := by
  simp [propertyValue]
  intro colon
  rw [ParserState.next_of_kind colon (by simp)]
  exact (h.assignment _).mono fun value t own => .keyed named colon own

theorem yields_objectMember_stands (h : nested.Sound scope) :
    Yields (objectMember nested) scope s fun m t =>
      Stands scope (.member m) s.cursor t.cursor := by
  simp [objectMember]
  refine ⟨fun spread => ?_, fun _ => ⟨fun opening => ?_, fun _ => ?_⟩⟩
  · rw [ParserState.next_of_kind spread (by simp)]
    exact (h.assignment _).mono fun e t own => .spreadMember spread own
  · rw [ParserState.next_of_kind opening (by simp)]
    refine (h.assignment _).mono fun key t own closing => ?_
    rw [ParserState.next_of_kind closing (by simp)]
    exact yields_propertyValue_stands h (.computedKey opening own closing)
  · split
    · simp
    · next key read =>
      simp
      rw [ParserState.next_of_kind rfl (plain_of_keyOf? read).1]
      refine ⟨fun name _ => ?_, fun _ => yields_propertyValue_stands h (.plainKey read)⟩
      obtain rfl : key = .identifier (scope.stream.get s.cursor).raw := by
        simpa [keyOf?, name] using read.symm
      exact .shorthand name

theorem sound_objectLiteral (h : nested.Sound scope) : Sound scope (objectLiteral nested) := by
  intro s
  simp [objectLiteral]
  intro opening
  rw [ParserState.next_of_kind opening (by simp)]
  refine (yields_commaSeparated (fun m => Stands scope (.member m))
    (fun ms => Stands scope (.members ms)) _ (fun _ => .noMembers) .lastMember .moreMembers
    fun _ => yields_objectMember_stands h).mono fun members t own closing => ?_
  rw [ParserState.next_of_kind closing (by simp)]
  exact .object opening own closing

theorem yields_nameOrBrackets_stands (h : nested.Sound scope) :
    Yields (nameOrBrackets nested (scope.stream.get s.cursor) (scope.stream.get (s.cursor + 1)))
      scope s fun e t => Stands scope (.expr e) s.cursor t.cursor := by
  simp [nameOrBrackets]
  refine ⟨fun name => ?_, fun _ => ?_⟩
  · rw [ParserState.next_of_kind rfl (kind_ne_of_readsAsName name)]
    simp only [readsAsName, Bool.or_eq_true, Bool.and_eq_true, beq_iff_eq] at name
    exact name.elim .name fun both => .importName both.1 both.2
  · split
    · next opening =>
      simp [grouped]
      rw [ParserState.next_of_kind opening (by simp)]
      refine (h.assignment _).mono fun e t own closing => ?_
      rw [ParserState.next_of_kind closing (by simp)]
      exact .group opening own closing
    · exact sound_arrayLiteral h s
    · exact sound_objectLiteral h s
    · simp

theorem yields_startsAsyncArrow_raw {t : Token} {Q : Bool → ParserState → Prop}
    (h : ∀ a, (a = true → t.kind = .identifier ∧ t.raw = "async") → Q a s) :
    Yields (startsAsyncArrow t) scope s Q := by
  simp [startsAsyncArrow]
  exact ⟨fun name raw => yields_asyncArrowFollows fun a => h a fun _ => ⟨name, raw⟩,
    fun _ => h false (by simp)⟩

theorem sound_primary (h : nested.Sound scope) : Sound scope (primary nested) := by
  intro s
  simp [primary]
  split
  · next e literal =>
    simp
    rw [ParserState.next_of_kind rfl (literalOf?_spanTree literal).1]
    exact .literal literal
  · simp
    refine yields_startsAsyncArrow_raw fun isAsync word => ⟨fun yes => ?_, fun _ => ?_⟩
    · obtain ⟨name, raw⟩ := word yes
      rw [ParserState.next_of_kind name (by simp)]
      refine (yields_arrowFunction_stands h _ true).mono ?_
      rintro _ t ⟨params, k, body, close, rfl, list, valid, arrow, inner⟩
      exact .asyncArrow name raw list valid arrow inner
    · refine yields_startsArrow fun arrow =>
        ⟨fun _ => (yields_arrowFunction_stands h _ false).mono ?_,
          fun _ => yields_nameOrBrackets_stands h⟩
      rintro _ t ⟨params, k, body, close, rfl, list, valid, arrow, inner⟩
      exact .arrow list valid arrow inner

theorem yields_link_stands (h : nested.Sound scope) {e : Expr} {first : Nat}
    (own : Stands scope (.expr e) first s.cursor) :
    Yields (link nested e) scope s fun next t =>
      Stands scope (.expr (next.getD e)) first t.cursor := by
  have called {t : ParserState} {optional : Bool}
      (dotted : Dotted scope optional s.cursor t.cursor) :
      Yields (do
          let inside ← arguments nested.assignment
          return some (mkCall e inside.1 optional inside.2)) scope t fun next u =>
        Stands scope (.expr (next.getD e)) first u.cursor := by
    simp only [yields_bind, yields_pure, Option.getD_some]
    refine (yields_arguments_stands h.assignment).mono ?_
    rintro ⟨args, close⟩ u ⟨last, stop, rfl, opening, inner, closing⟩
    exact stop ▸ .call own dotted opening inner closing
  have indexed {t : ParserState} {optional : Bool}
      (dotted : Dotted scope optional s.cursor t.cursor)
      (opening : (scope.stream.get t.cursor).kind = .symbol .openBracket) :
      Yields (do
          let inside ← index nested
          return some (mkIndex e inside.1 optional inside.2)) scope t fun next u =>
        Stands scope (.expr (next.getD e)) first u.cursor := by
    simp [index]
    rw [ParserState.next_of_kind opening (by simp)]
    refine (h.assignment _).mono fun property u inner closing => ?_
    rw [ParserState.next_of_kind closing (by simp)]
    exact .index own dotted opening inner closing
  have named {t : ParserState} {optional : Bool} (after : t.cursor = s.cursor + 1)
      (dot : (scope.stream.get s.cursor).kind = .symbol (if optional then .questionDot else .dot)) :
      Yields (do return some (mkMember e (← memberName) optional)) scope t fun next u =>
        Stands scope (.expr (next.getD e)) first u.cursor := by
    simp [memberName]
    intro word
    have real : (scope.stream.get t.cursor).kind ≠ .endOfFile := by
      rintro atEnd
      simp [atEnd, TokenKind.isKeyword] at word
    rw [ParserState.next_of_kind rfl real, ParserState.ahead_cursor]
    rw [after] at word ⊢
    exact .property own dot word
  refine yields_bind.mpr (yields_current.mpr ?_)
  split
  · next dot =>
    refine yields_bind.mpr (yields_advance.mpr ?_)
    rw [ParserState.next_of_kind dot (by simp)]
    exact named rfl dot
  · next dot =>
    refine yields_bind.mpr (yields_advance.mpr (yields_bind.mpr (yields_current.mpr ?_)))
    rw [ParserState.next_of_kind dot (by simp)]
    split
    · next opening => exact indexed (.optional dot) opening
    · exact called (.optional dot)
    · exact named rfl dot
  · next opening => exact indexed .plain opening
  · exact called .plain
  · exact yields_pure.mpr own

theorem sound_linked (h : nested.Sound scope) : Sound scope (linked nested) := by
  intro s
  refine yields_bind.mpr ((sound_primary h s).mono fun e t own => ?_)
  exact yields_chain (I := fun e u => Stands scope (.expr e) s.cursor u.cursor)
    (fun e u own => yields_link_stands h own) own

theorem kind_eq_of_updateOp {kind : TokenKind} {op : UpdateOp}
    (h : UpdateOp.ofKind? kind = some op) : kind = .symbol op.symbol := by
  unfold UpdateOp.ofKind? at h
  split at h <;> cases h <;> rfl

theorem kind_eq_of_unaryOp {kind : TokenKind} {op : UnaryOp}
    (h : UnaryOp.ofKind? kind = some op) : kind = .symbol op.symbol := by
  unfold UnaryOp.ofKind? at h
  split at h <;> cases h <;> rfl

theorem kind_eq_of_assignOp {kind : TokenKind} {op : AssignOp}
    (h : AssignOp.ofKind? kind = some op) : kind = .symbol op.symbol := by
  unfold AssignOp.ofKind? at h
  split at h <;> cases h <;> rfl

theorem kind_eq_of_binaryOp {level : Nat} {kind : TokenKind} {op : BinaryOp}
    (h : BinaryOp.ofKind? level kind = some op) : kind = .symbol op.symbol := by
  have fits := List.find?_some h
  simp only [Bool.and_eq_true, beq_iff_eq] at fits
  exact fits.2

theorem sound_postfixed (h : nested.Sound scope) : Sound scope (postfixed nested) := by
  intro s
  refine yields_bind.mpr ((sound_linked h s).mono fun e t own => ?_)
  simp
  split
  · exact yields_pure.mpr own
  · next op read =>
    have sign := kind_eq_of_updateOp read
    simp
    rw [ParserState.next_of_kind sign (by simp)]
    exact ⟨fun _ assignable => .updateAfter own assignable sign, fun _ => own⟩

theorem sound_unaryAt (h : nested.Sound scope) : Sound scope (unaryAt nested) := by
  intro s
  simp [unaryAt]
  split
  · next op read =>
    have sign := kind_eq_of_unaryOp read
    simp
    rw [ParserState.next_of_kind sign (by simp)]
    exact (h.unary _).mono fun e t own => .unary sign own
  · next op none read =>
    have sign := kind_eq_of_updateOp read
    simp
    rw [ParserState.next_of_kind sign (by simp)]
    exact (h.unary _).mono fun e t own assignable => .updateBefore sign own assignable
  · exact sound_postfixed h s

theorem sound_binaryAt (h : Sound scope expr) (level : Nat) : Sound scope (binaryAt expr level) := by
  induction level with
  | zero => exact h
  | succ level ih =>
    intro s
    refine yields_bind.mpr ((ih s).mono fun first t own => ?_)
    refine yields_chain (I := fun e u => Stands scope (.expr e) s.cursor u.cursor)
      (fun left u own => ?_) own
    simp [join]
    split
    · exact yields_pure.mpr own
    · next op read =>
      have sign := kind_eq_of_binaryOp read
      simp
      rw [ParserState.next_of_kind sign (by simp)]
      exact (ih _).mono fun right u second => .binary own sign second

theorem sound_conditionalAt (h : nested.Sound scope) : Sound scope (conditionalAt nested) := by
  intro s
  refine yields_bind.mpr ((sound_binaryAt (sound_unaryAt h) _ s).mono fun test t condition => ?_)
  simp
  refine ⟨fun question => ?_, fun _ => condition⟩
  rw [ParserState.next_of_kind question (by simp)]
  refine (h.assignment _).mono fun consequent t one colon => ?_
  rw [ParserState.next_of_kind colon (by simp)]
  exact (h.assignment _).mono fun alternate t other =>
    .conditional condition question one colon other

theorem sound_assignmentAt (h : nested.Sound scope) : Sound scope (assignmentAt nested) := by
  intro s
  refine yields_bind.mpr ((sound_conditionalAt h s).mono fun target t left => ?_)
  simp
  split
  · exact yields_pure.mpr left
  · next op read =>
    have sign := kind_eq_of_assignOp read
    simp
    rw [ParserState.next_of_kind sign (by simp)]
    exact fun assignable => (h.assignment _).mono fun value u right =>
      .assignment left assignable sign right

theorem Sound.deeper (h : Sound scope expr) : Sound scope (deeper expr) := by
  intro s e t ok
  obtain ⟨u, inner, rfl⟩ := deeper_eq_ok.mp ok
  have own := h { s with depth := s.depth + 1 } inner
  exact own

theorem sound_within (scope : Scope) (levels : Nat) :
    Nested.Sound scope ⟨parserWithin levels, unaryWithin levels⟩ := by
  induction levels with
  | zero => exact ⟨fun _ => yields_failTooDeep.mpr trivial, fun _ => yields_failTooDeep.mpr trivial⟩
  | succ levels ih => exact ⟨(sound_assignmentAt ih).deeper, (sound_unaryAt ih).deeper⟩

theorem parser_sound (scope : Scope) : Sound scope parser := fun s =>
  (sound_within scope (scope.options.maxDepth - s.depth)).assignment s

end Expr

mutual

/-- The expressions inside an expression, from the outside in. -/
def Expr.inner : Expr → List Expr
  | .identifier .. | .literal .. | .template .. => []
  | .array elements _ => Expr.nodesOfList elements
  | .object members _ => ObjectMember.nodesOfList members
  | .spread e _ | .unary _ e _ | .update _ _ e _ => e :: e.inner
  | .binary _ left right _ => left :: (left.inner ++ right :: right.inner)
  | .assignment _ target value _ => target :: (target.inner ++ value :: value.inner)
  | .conditional test consequent alternate _ =>
    test :: (test.inner ++ consequent :: (consequent.inner ++ alternate :: alternate.inner))
  | .arrow params body _ _ => Expr.nodesOfList params ++ body.nodes
  | .member object property _ _ _ => object :: (object.inner ++ property :: property.inner)
  | .call callee arguments _ _ => callee :: (callee.inner ++ Expr.nodesOfList arguments)

def Expr.nodesOfList : List Expr → List Expr
  | [] => []
  | e :: es => e :: (e.inner ++ Expr.nodesOfList es)

def ObjectMember.nodes : ObjectMember → List Expr
  | .property key value _ _ => key.nodes ++ value :: value.inner
  | .spread e _ => e :: e.inner

def ObjectMember.nodesOfList : List ObjectMember → List Expr
  | [] => []
  | m :: ms => m.nodes ++ ObjectMember.nodesOfList ms

def PropertyKey.nodes : PropertyKey → List Expr
  | .computed key => key :: key.inner
  | .identifier _ | .string _ | .number _ => []

def ArrowBody.nodes : ArrowBody → List Expr
  | .expression body => body :: body.inner
  | .block _ | .inline _ => []

end

/-- An expression and those inside it. -/
def Expr.nodes (e : Expr) : List Expr := e :: e.inner

attribute [simp] Expr.inner Expr.nodesOfList ObjectMember.nodes ObjectMember.nodesOfList
  PropertyKey.nodes ArrowBody.nodes

namespace Expr

variable {scope : Scope} {piece : Piece} {e : Expr} {i j : Nat}

theorem mem_nodesOfList {n : Expr} {es : List Expr} :
    n ∈ nodesOfList es ↔ ∃ e ∈ es, n ∈ e.nodes := by
  induction es with
  | nil => simp
  | cons e es ih => simp [ih, nodes, or_assoc]

theorem mem_nodesOfMembers {n : Expr} {ms : List ObjectMember} :
    n ∈ ObjectMember.nodesOfList ms ↔ ∃ m ∈ ms, n ∈ m.nodes := by
  induction ms with
  | nil => simp
  | cons m ms ih => simp [ih]

@[simp] def Piece.inner : Piece → List Expr
  | expr e => e.inner
  | item e => e.nodes
  | params es | items es => nodesOfList es
  | body b _ => b.nodes
  | key k => k.nodes
  | member m => m.nodes
  | members ms => ObjectMember.nodesOfList ms

/-- An element or an argument stands on tokens, or a token is the name of a member. -/
def Stood (scope : Scope) (e : Expr) : Prop :=
  ∃ i, e = .ofName (scope.stream.get i) ∨ ∃ j, Stands scope (.item e) i j

theorem Stands.stood (h : Stands scope (.expr e) i j) : Stood scope e :=
  ⟨i, .inr ⟨j, .item h⟩⟩

@[simp] theorem inner_ofName (t : Token) : (ofName t).inner = [] := rfl

theorem stood_name (scope : Scope) (i : Nat) : Stood scope (.ofName (scope.stream.get i)) :=
  ⟨i, .inl rfl⟩

attribute [local simp] Expr.nodes or_imp forall_and mkMember mkIndex mkCall mkBinary in
theorem Stands.inner_stood (h : Stands scope piece i j) : ∀ e ∈ piece.inner, Stood scope e := by
  induction h with
  | name | importName | noItems | noMembers => simp
  | literal h =>
    unfold literalOf? at h
    split at h <;> cases h <;> simp [ofLiteral]
  | plainKey h =>
    unfold keyOf? at h
    split at h <;> cases h <;> simp
  | block first delimits => unfold Expr.body; split <;> simp [Quotation.inline]
  | bareParam hk => simpa using stood_name _ _
  | shorthand hk => simpa using stood_name _ _
  | group ho inner hc ih | array ho inner hc ih | object ho inner hc ih
  | paramList ho inner hc ih => exact ih
  | arrow list valid ha inner params body | asyncArrow hw raw list valid ha inner params body =>
    simpa using ⟨params, body⟩
  | parsedBody noBrace inner ih | item inner ih | computedKey ho inner hc ih
  | spreadMember hd inner ih =>
    simpa using ⟨inner.stood, ih⟩
  | spreadItem hd inner ih => simpa using ⟨⟨_, .inr ⟨_, .spreadItem hd inner⟩⟩, inner.stood, ih⟩
  | property operand hd hk ih => simpa using ⟨operand.stood, ih, stood_name _ _⟩
  | index operand dotted ho inner hc ih ih' =>
    simpa using ⟨operand.stood, ih, inner.stood, ih'⟩
  | call operand dotted ho inner hc ih ih' => simpa using ⟨operand.stood, ih, ih'⟩
  | updateAfter operand assignable ht ih | unary ht operand ih
  | updateBefore ht operand assignable ih => simpa using ⟨operand.stood, ih⟩
  | binary first ht second ih ih' | assignment first assignable ht second ih ih' =>
    simpa using ⟨first.stood, ih, second.stood, ih'⟩
  | conditional condition hq one hc other ih ih' ih'' =>
    simpa using ⟨condition.stood, ih, one.stood, ih', other.stood, ih''⟩
  | lastItem only ih => simpa using ih
  | moreItems first hc rest ih ih' =>
    obtain ⟨own, more⟩ := List.forall_mem_cons.mp ih
    simpa using ⟨own, more, ih'⟩
  | keyed named hc inner ih ih' => simpa using ⟨ih, inner.stood, ih'⟩
  | lastMember only ih => simpa using ih
  | moreMembers first hc rest ih ih' => simpa using ⟨ih, ih'⟩

theorem Stands.literalOf {value : LiteralValue} {raw : String} {span : Span}
    (h : Stands scope (.expr (.literal value raw span)) i j) :
    ∃ k, literalOf? (scope.stream.get k) = some (.literal value raw span) := by
  generalize same : Piece.expr (.literal value raw span) = piece at h
  induction h with
  | literal h => exact ⟨_, by cases same; exact h⟩
  | group _ _ _ ih => exact ih same
  | _ => cases same

theorem Stood.literalOf {value : LiteralValue} {raw : String} {span : Span}
    (h : Stood scope (.literal value raw span)) :
    ∃ k, literalOf? (scope.stream.get k) = some (.literal value raw span) := by
  obtain ⟨i, name | ⟨j, own⟩⟩ := h
  · cases name
  · cases own with
    | item inner => exact inner.literalOf

end Expr

end PulseSyntax
