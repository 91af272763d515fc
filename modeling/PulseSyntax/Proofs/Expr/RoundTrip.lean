import PulseSyntax.Proofs.Expr.Complete
import PulseSyntax.Proofs.Expr.Print
import PulseSyntax.Proofs.Token.Order

namespace PulseSyntax

structure Prints (line : Nat) (ts : List Token) (text : List Lexeme) : Prop where
  lexemes : ts.map Token.lexeme = text
  line : ∀ t ∈ ts, t.line = line

theorem Token.kind_of_lexeme {t : Token} {c : Lexeme} (h : t.lexeme = c) : t.kind = c.kind := by
  rw [← h]
  rfl

theorem Token.value_of_lexeme {t : Token} {c : Lexeme} (h : t.lexeme = c) : t.value = c.value := by
  rw [← h]
  rfl

theorem Token.raw_of_lexeme {t : Token} {c : Lexeme} (h : t.lexeme = c)
    (one : c.kind.hasSpellings = false) : t.raw = c.raw := by
  have raw : t.lexeme.raw = t.raw := by
    rw [← kind_of_lexeme h] at one
    simp [lexeme, one]
  rw [← raw, h]

theorem Lexeme.raw_word (name : String) : (word name).raw = name := by
  unfold word
  split <;> rfl

theorem Lexeme.kind_word (name : String) :
    (word name).kind = .identifier ∨ ∃ k, (word name).kind = .keyword k := by
  unfold word
  split
  · exact .inr ⟨_, rfl⟩
  · exact .inl rfl

theorem Token.kind_of_word {t : Token} {name : String} (h : t.lexeme = .word name) :
    t.kind = .identifier ∨ ∃ k, t.kind = .keyword k := by
  rw [kind_of_lexeme h]
  exact Lexeme.kind_word name

theorem Token.raw_of_word {t : Token} {name : String} (h : t.lexeme = .word name) :
    t.raw = name := by
  rw [raw_of_lexeme h, Lexeme.raw_word]
  rcases Lexeme.kind_word name with kind | ⟨k, kind⟩ <;> rw [kind] <;> rfl

namespace Prints

variable {line : Nat} {ts : List Token} {text more : List Lexeme} {c : Lexeme}
variable {sign other : Symbol}

theorem nil (h : Prints line ts []) : ts = [] := List.map_eq_nil_iff.mp h.lexemes

theorem append (h : Prints line ts (text ++ more)) :
    ∃ us vs, ts = us ++ vs ∧ Prints line us text ∧ Prints line vs more := by
  obtain ⟨us, vs, rfl, first, second⟩ := List.map_eq_append_iff.mp h.lexemes
  refine ⟨us, vs, rfl, ⟨first, fun t member => ?_⟩, second, fun t member => ?_⟩
  · exact h.line t (List.mem_append_left vs member)
  · exact h.line t (List.mem_append_right us member)

theorem cons (h : Prints line ts (c :: text)) :
    ∃ t us, ts = t :: us ∧ t.lexeme = c ∧ t.line = line ∧ Prints line us text := by
  obtain ⟨t, us, rfl, first, second⟩ := List.map_eq_cons_iff.mp h.lexemes
  refine ⟨t, us, rfl, first, h.line t List.mem_cons_self, second, fun u member => ?_⟩
  exact h.line u (List.mem_cons_of_mem t member)

theorem single (h : Prints line ts [c]) : ∃ t, ts = [t] ∧ t.lexeme = c := by
  obtain ⟨t, us, rfl, first, -, rest⟩ := h.cons
  exact ⟨t, by rw [rest.nil], first⟩

theorem symbol (h : Prints line ts (.symbol sign :: text)) :
    ∃ t us, ts = t :: us ∧ t.kind = .symbol sign ∧ Prints line us text := by
  obtain ⟨t, us, rfl, first, -, rest⟩ := h.cons
  exact ⟨t, us, rfl, Token.kind_of_lexeme first, rest⟩

theorem symbol_last (h : Prints line ts (text ++ [.symbol sign])) :
    ∃ us t, ts = us ++ [t] ∧ Prints line us text ∧ t.kind = .symbol sign ∧ t.line = line := by
  obtain ⟨us, vs, rfl, first, last⟩ := h.append
  obtain ⟨t, ws, rfl, sign, line, rest⟩ := last.cons
  exact ⟨us, t, by rw [rest.nil], first, Token.kind_of_lexeme sign, line⟩

theorem enclosed (h : Prints line ts (.symbol sign :: text ++ [.symbol other])) :
    ∃ opening us close, ts = opening :: us ++ [close] ∧ opening.kind = .symbol sign ∧
      Prints line us text ∧ close.kind = .symbol other := by
  obtain ⟨us, close, rfl, first, hc, -⟩ := h.symbol_last
  obtain ⟨opening, own, rfl, ho, inside⟩ := first.symbol
  exact ⟨opening, own, close, rfl, ho, inside, hc⟩

theorem joined (h : Prints line ts (text ++ .symbol sign :: more)) :
    ∃ us t vs, ts = us ++ t :: vs ∧ Prints line us text ∧ t.kind = .symbol sign ∧
      Prints line vs more := by
  obtain ⟨us, rest, rfl, first, last⟩ := h.append
  obtain ⟨t, vs, rfl, ht, second⟩ := last.symbol
  exact ⟨us, t, vs, rfl, first, ht, second⟩

theorem firstKind_ne {kind : TokenKind} (h : Prints line ts text) (noEnd : kind ≠ .endOfFile)
    (other : text.head?.any (fun first => first.kind == kind) = false) : firstKind ts ≠ kind := by
  cases ts with
  | nil => exact noEnd.symm
  | cons t us =>
    rw [← h.lexemes] at other
    simpa [firstKind, Token.lexeme] using other

end Prints

namespace Expr

theorem Derives.weaken {levels m n : Nat} {e : Expr} {own : List Token}
    (h : Derives levels (.expr m e) own) (le : m ≤ n) (bound : n ≤ 10) :
    Derives levels (.expr n e) own := by
  induction le with
  | refl => exact h
  | step le ih => exact (ih (by omega)).looser (by omega)

theorem level_le (e : Expr) : e.level ≤ 10 := by
  unfold level
  split
  all_goals first
    | omega
    | have tight := BinaryOp.level_le ‹_›
      omega

theorem Place.level_le (place : Place) : place.level ≤ 10 := by
  unfold level
  split
  all_goals first
    | omega
    | have tight := BinaryOp.level_le ‹_›
      omega

@[simp] theorem isAssignable_shape (e : Expr) : e.shape.isAssignable = e.isAssignable := by
  cases e with
  | member owner property computed optional span => cases optional <;> rfl
  | _ => rfl

theorem isParam_shape (e : Expr) : e.shape.isParam = e.isParam := by
  cases e with
  | assignment op target value span => cases op <;> cases target <;> rfl
  | spread e span => cases e <;> rfl
  | _ => rfl

theorem all_isParam_shapes (es : List Expr) : (shapes es).all isParam = es.all isParam := by
  induction es with
  | nil => rfl
  | cons e es ih => rw [shapes, List.all_cons, List.all_cons, ih, isParam_shape]

variable {extra : Place → Expr → Bool} {place : Place} {levels line : Nat} {ts : List Token} {span : Span}
variable {e left right : Expr} {es : List Expr} {ms : List ObjectMember} {name : String}

/-- The text of the tree, with the levels that it needs, writes one with the same shape. -/
def Written (extra : Place → Expr → Bool) (e : Expr) : Prop :=
  ∀ (levels : Nat) {line : Nat} {ts : List Token}, 2 * e.height ≤ levels →
    Prints line ts (e.text extra) →
    ∃ e' : Expr, e'.shape = e.shape ∧ Derives levels (.expr e.level e') ts

def WrittenItem (extra : Place → Expr → Bool) (e : Expr) : Prop :=
  ∀ (levels : Nat) {line : Nat} {ts : List Token}, 2 * (e.height + 1) ≤ levels →
    Prints line ts (listed extra e (e.text extra)) →
    ∃ e' : Expr, e'.shape = e.shape ∧ Derives levels (.item e') ts

def WrittenItems (extra : Place → Expr → Bool) (es : List Expr) : Prop :=
  ∀ (levels : Nat) {line : Nat} {ts : List Token}, 2 * (heightOfItems es + 1) ≤ levels →
    Prints line ts (itemsText extra es) →
    ∃ es', shapes es' = shapes es ∧ Derives levels (.items es') ts

def WrittenMember (extra : Place → Expr → Bool) (m : ObjectMember) : Prop :=
  ∀ (levels : Nat) {line : Nat} {ts : List Token}, 2 * (heightOfMember m + 1) ≤ levels →
    Prints line ts (memberText extra m) →
    ∃ m', memberShape m' = memberShape m ∧ Derives levels (.member m') ts

def WrittenMembers (extra : Place → Expr → Bool) (ms : List ObjectMember) : Prop :=
  ∀ (levels : Nat) {line : Nat} {ts : List Token}, 2 * (heightOfMembers ms + 1) ≤ levels →
    Prints line ts (membersText extra ms) →
    ∃ ms', memberShapes ms' = memberShapes ms ∧ Derives levels (.members ms') ts

def WrittenBody (extra : Place → Expr → Bool) (body : ArrowBody) : Prop :=
  ∀ (levels : Nat) {line : Nat} {ts : List Token}, 2 * heightOfBody body + 1 ≤ levels →
    Prints line ts (bodyText extra body) →
    ∃ e', bodyShape (.expression e') = bodyShape body ∧ firstKind ts ≠ .symbol .openBrace ∧
      Derives levels (.expr 10 e') ts

theorem Written.grouped (h : Written extra e) (levels : Nat) (room : 2 * e.height + 1 ≤ levels)
    (printed : Prints line ts (Lexeme.parens (e.text extra))) :
    ∃ e' : Expr, e'.shape = e.shape ∧ Derives levels (.expr 0 e') ts := by
  obtain ⟨opening, own, close, rfl, ho, inside, hc⟩ := printed.enclosed
  obtain ⟨levels, rfl⟩ := Nat.exists_eq_add_of_le' (Nat.le_trans (Nat.le_add_left 1 _) room)
  obtain ⟨e', same, inner⟩ := h levels (by omega) inside
  exact ⟨e', same, .group ho (inner.weaken (level_le e) (Nat.le_refl 10)) hc⟩

theorem Written.enclosed (h : Written extra e) (levels : Nat) (room : 2 * e.height + 1 ≤ levels)
    (printed : Prints line ts (enclose extra place e (e.text extra))) :
    ∃ e' : Expr, e'.shape = e.shape ∧ Derives levels (.expr place.level e') ts := by
  unfold enclose at printed
  split at printed
  · obtain ⟨e', same, group⟩ := h.grouped levels room printed
    exact ⟨e', same, group.weaken (Nat.zero_le place.level) place.level_le⟩
  · next fits =>
    obtain ⟨e', same, inner⟩ := h levels (by omega) printed
    have tight : e.level ≤ place.level := by
      simp only [Bool.or_eq_true, decide_eq_true_eq, not_or] at fits
      omega
    exact ⟨e', same, inner.weaken tight place.level_le⟩

theorem written_name (isName : (Lexeme.word name).kind.isName) :
    Written extra (.identifier name span) := by
  intro levels line ts _ printed
  obtain ⟨t, rfl, word⟩ := printed.single
  have kind : t.kind.isName := by rwa [Token.kind_of_lexeme word]
  exact ⟨_, by rw [ofName, shape, shape, Token.raw_of_word word], .name kind⟩

theorem literalOf?_of_lexeme {t : Token} {value : LiteralValue}
    (h : t.lexeme = .literal value) : literalOf? t = some (.ofLiteral value t) := by
  have kind := Token.kind_of_lexeme h
  have read := Token.value_of_lexeme h
  unfold literalOf? Token.text Token.number?
  rw [kind, read]
  cases value with
  | bool value => cases value <;> rfl
  | _ => rfl

theorem written_literal (value : LiteralValue) (raw : String) :
    Written extra (.literal value raw span) := by
  intro levels line ts _ printed
  obtain ⟨t, rfl, c⟩ := printed.single
  exact ⟨_, by rw [ofLiteral, shape, shape], .literal (literalOf?_of_lexeme c)⟩

theorem written_template (text raw : String) : Written extra (.template text raw span) := by
  intro levels line ts _ printed
  obtain ⟨t, rfl, c⟩ := printed.single
  have kind : t.kind = .template := Token.kind_of_lexeme c
  have value : t.value = .text text := Token.value_of_lexeme c
  have spelled : t.raw = raw := Token.raw_of_lexeme c rfl
  have found : literalOf? t = some (.template text raw t.span) := by
    rw [literalOf?, kind]
    dsimp only
    rw [Token.text, value, spelled]
  exact ⟨_, by rw [shape, shape], .literal found⟩

theorem written_array (list : WrittenItems extra es) : Written extra (.array es span) := by
  intro levels line ts room printed
  obtain ⟨opening, own, close, rfl, ho, inside, hc⟩ := printed.enclosed
  obtain ⟨es', same, inner⟩ := list levels room inside
  exact ⟨_, by rw [shape, shape, same], .array ho inner hc⟩

theorem written_object (list : WrittenMembers extra ms) : Written extra (.object ms span) := by
  intro levels line ts room printed
  obtain ⟨opening, own, close, rfl, ho, inside, hc⟩ := printed.enclosed
  obtain ⟨ms', same, inner⟩ := list levels room inside
  exact ⟨_, by rw [shape, shape, same], .object ho inner hc⟩

theorem written_binary {op : BinaryOp} (first : Written extra left)
    (second : Written extra right) : Written extra (.binary op left right span) := by
  intro levels line ts room printed
  simp only [height] at room
  obtain ⟨own, t, more, rfl, one, ht, two⟩ := printed.joined
  obtain ⟨left', sameLeft, innerLeft⟩ := first.enclosed levels (by omega) one
  obtain ⟨right', sameRight, innerRight⟩ := second.enclosed levels (by omega) two
  refine ⟨_, ?_, .binary innerLeft ht innerRight⟩
  rw [mkBinary, shape, shape, sameLeft, sameRight]

theorem written_unary {op : UnaryOp} (operand : Written extra e) :
    Written extra (.unary op e span) := by
  intro levels line ts room printed
  simp only [height] at room
  obtain ⟨levels, rfl⟩ := Nat.exists_eq_add_of_le' (show 1 ≤ levels by omega)
  obtain ⟨t, own, rfl, ht, inside⟩ := printed.symbol
  obtain ⟨e', same, inner⟩ := operand.enclosed levels (by omega) inside
  refine ⟨_, ?_, .unary ht inner⟩
  rw [shape, shape, same]

theorem isAssignable_of_shape {e' : Expr} (same : e'.shape = e.shape) (h : e.isAssignable) :
    e'.isAssignable := by
  rw [← isAssignable_shape, same, isAssignable_shape]
  exact h

theorem written_updateBefore {op : UpdateOp} (assignable : e.isAssignable)
    (operand : Written extra e) : Written extra (.update op true e span) := by
  intro levels line ts room printed
  simp only [height] at room
  obtain ⟨levels, rfl⟩ := Nat.exists_eq_add_of_le' (show 1 ≤ levels by omega)
  obtain ⟨t, own, rfl, ht, inside⟩ := printed.symbol
  obtain ⟨e', same, inner⟩ := operand.enclosed levels (by omega) inside
  refine ⟨_, ?_, .updateBefore ht inner (isAssignable_of_shape same assignable)⟩
  rw [shape, shape, same]

theorem written_updateAfter {op : UpdateOp} (assignable : e.isAssignable)
    (operand : Written extra e) : Written extra (.update op false e span) := by
  intro levels line ts room printed
  simp only [height] at room
  obtain ⟨own, t, rfl, inside, ht, here⟩ := printed.symbol_last
  obtain ⟨e', same, inner⟩ := operand.enclosed levels (by omega) inside
  have oneLine : own.getLast?.map Token.line = some t.line := by
    obtain ⟨first, more, rfl, -⟩ := inner.starts
    rw [List.getLast?_eq_some_getLast (by simp), Option.map_some, here,
      inside.line _ (List.getLast_mem _)]
  refine ⟨_, ?_, .updateAfter inner (isAssignable_of_shape same assignable) ht oneLine⟩
  rw [shape, shape, same]

theorem written_assignment {op : AssignOp} (assignable : left.isAssignable)
    (target : Written extra left) (value : Written extra right) :
    Written extra (.assignment op left right span) := by
  intro levels line ts room printed
  simp only [height] at room
  obtain ⟨levels, rfl⟩ := Nat.exists_eq_add_of_le' (show 1 ≤ levels by omega)
  obtain ⟨own, t, more, rfl, one, ht, two⟩ := printed.joined
  obtain ⟨left', sameLeft, innerLeft⟩ := target.enclosed (levels + 1) (by omega) one
  obtain ⟨right', sameRight, innerRight⟩ := value.enclosed levels (by omega) two
  have tight := innerLeft.weaken (show 1 ≤ 9 by omega) (by omega)
  refine ⟨_, ?_, .assignment tight (isAssignable_of_shape sameLeft assignable) ht innerRight⟩
  rw [shape, shape, sameLeft, sameRight]

theorem written_conditional {test consequent alternate : Expr} (condition : Written extra test)
    (first : Written extra consequent) (second : Written extra alternate) :
    Written extra (.conditional test consequent alternate span) := by
  intro levels line ts room printed
  simp only [height] at room
  obtain ⟨levels, rfl⟩ := Nat.exists_eq_add_of_le' (show 1 ≤ levels by omega)
  obtain ⟨before, colon, other, rfl, upper, hc, two⟩ := printed.joined
  obtain ⟨own, question, more, rfl, zero, hq, one⟩ := upper.joined
  obtain ⟨test', sameTest, innerTest⟩ :=
    condition.enclosed (levels + 1) (by omega) zero
  obtain ⟨first', sameFirst, innerFirst⟩ := first.enclosed levels (by omega) one
  obtain ⟨second', sameSecond, innerSecond⟩ := second.enclosed levels (by omega) two
  refine ⟨_, ?_, .conditional innerTest hq innerFirst hc innerSecond⟩
  rw [shape, shape, sameTest, sameFirst, sameSecond]

theorem written_member {optional : Bool} (owner : Written extra left)
    (named : right.name?.isSome) : Written extra (.member left right false optional span) := by
  intro levels line ts room printed
  obtain ⟨name, place, rfl⟩ : ∃ name place, right = .identifier name place := by
    cases right with
    | identifier name place => exact ⟨name, place, rfl⟩
    | _ => cases named
  simp only [height] at room
  obtain ⟨own, dot, rest, rfl, one, hd, two⟩ := printed.joined
  obtain ⟨t, rfl, word⟩ := two.single
  obtain ⟨left', same, inner⟩ := owner.enclosed levels (by omega) one
  have kind : t.kind = .identifier ∨ t.kind.isKeyword := by
    rcases Token.kind_of_word word with kind | ⟨k, kind⟩
    · exact .inl kind
    · exact .inr (by rw [kind]; rfl)
  refine ⟨_, ?_, .member (.ownerAlone inner) hd kind⟩
  rw [mkMember, ofName, Token.raw_of_word word]
  simp only [shape, same]

theorem written_index {optional : Bool} (owner : Written extra left)
    (property : Written extra right) :
    Written extra (.member left right true optional span) := by
  intro levels line ts room printed
  simp only [height] at room
  obtain ⟨levels, rfl⟩ := Nat.exists_eq_add_of_le' (show 1 ≤ levels by omega)
  obtain ⟨own, brackets, rfl, one, two⟩ := printed.append
  obtain ⟨left', sameLeft, innerLeft⟩ := owner.enclosed (levels + 1) (by omega) one
  cases optional with
  | false =>
    obtain ⟨opening, more, close, rfl, ho, inside, hc⟩ := two.enclosed
    obtain ⟨right', sameRight, innerRight⟩ := property.enclosed levels (by omega) inside
    have derived := Derives.index (.ownerAlone innerLeft) ho innerRight hc
    rw [List.append_assoc] at derived
    refine ⟨_, ?_, derived⟩
    rw [mkIndex, shape, shape, sameLeft, sameRight]
  | true =>
    obtain ⟨dot, more, rfl, hd, rest⟩ := two.symbol
    obtain ⟨opening, more, close, rfl, ho, inside, hc⟩ := rest.enclosed
    obtain ⟨right', sameRight, innerRight⟩ := property.enclosed levels (by omega) inside
    have derived := Derives.optionalIndex (.ownerAlone innerLeft) hd ho innerRight hc
    rw [List.append_assoc] at derived
    refine ⟨_, ?_, derived⟩
    rw [mkIndex, shape, shape, sameLeft, sameRight]

theorem written_call {optional : Bool} (callee : Written extra e)
    (list : WrittenItems extra es) : Written extra (.call e es optional span) := by
  intro levels line ts room printed
  simp only [height] at room
  obtain ⟨before, parens, rfl, upper, two⟩ := printed.append
  obtain ⟨own, mark, rfl, one, marked⟩ := upper.append
  obtain ⟨opening, more, close, rfl, ho, inside, hc⟩ := two.enclosed
  obtain ⟨e', same, inner⟩ := callee.enclosed levels (by omega) one
  obtain ⟨es', sames, items⟩ := list levels (by omega) inside
  cases optional with
  | false =>
    obtain rfl := marked.nil
    have derived := Derives.call (.ownerAlone inner) ho items hc
    rw [List.append_assoc] at derived
    rw [List.append_nil]
    refine ⟨_, ?_, derived⟩
    rw [mkCall, shape, shape, same, sames]
  | true =>
    obtain ⟨dot, none, rfl, hd, rest⟩ := marked.symbol
    obtain rfl := rest.nil
    have derived := Derives.optionalCall (.ownerAlone inner) hd ho items hc
    rw [List.append_assoc] at derived
    rw [List.append_assoc]
    refine ⟨_, ?_, derived⟩
    rw [mkCall, shape, shape, same, sames]

theorem writtenBody_expression (h : Written extra e) : WrittenBody extra (.expression e) := by
  intro levels line ts room printed
  rw [bodyText, Lexeme.unbraced] at printed
  rw [heightOfBody] at room
  split at printed
  · next braced =>
    -- What stands in parentheses already does not start with a brace.
    have bare : enclose extra .body e (e.text extra) = e.text extra := by
      unfold enclose at braced ⊢
      split at braced
      · cases braced
      · next fits => rw [if_neg fits]
    rw [bare] at printed
    obtain ⟨e', same, group⟩ := h.grouped levels room printed
    refine ⟨e', ?_, printed.firstKind_ne (by simp) rfl, group.weaken (Nat.zero_le 10) (by omega)⟩
    rw [bodyShape, bodyShape, same]
  · next plain =>
    obtain ⟨e', same, inner⟩ := h.enclosed levels room printed
    refine ⟨e', ?_, printed.firstKind_ne (by simp) (Bool.eq_false_iff.mpr plain), inner⟩
    rw [bodyShape, bodyShape, same]

theorem written_arrow {isAsync : Bool} {body : ArrowBody} (valid : es.all isParam)
    (params : WrittenItems extra es) (read : WrittenBody extra body) :
    Written extra (.arrow es body isAsync span) := by
  intro levels line ts room printed
  simp only [height] at room
  obtain ⟨levels, rfl⟩ := Nat.exists_eq_add_of_le' (show 1 ≤ levels by omega)
  obtain ⟨mark, rest, rfl, marked, rest⟩ := printed.append
  obtain ⟨list, arrow, text, rfl, list, ha, text⟩ := rest.joined
  obtain ⟨opening, own, close, rfl, ho, inside, hc⟩ := list.enclosed
  obtain ⟨es', sames, items⟩ := params (levels + 1) (by omega) inside
  obtain ⟨e', same, noBrace, inner⟩ := read levels (by omega) text
  have valid' : es'.all isParam := by
    rw [← all_isParam_shapes, sames, all_isParam_shapes]
    exact valid
  cases isAsync with
  | false =>
    obtain rfl := marked.nil
    have derived := Derives.arrow ho items valid' hc ha noBrace inner
    refine ⟨_, ?_, by simpa [level] using derived⟩
    rw [shape, shape, sames, same]
  | true =>
    obtain ⟨word, rfl, async⟩ := marked.single
    have derived := Derives.asyncArrow (Token.kind_of_lexeme async) (Token.raw_of_word async) ho
      items valid' hc ha noBrace inner
    refine ⟨_, ?_, by simpa [level] using derived⟩
    rw [shape, shape, sames, same]

theorem Written.item (h : Written extra e) (alone : e.isSpread = false) : WrittenItem extra e := by
  intro levels line ts room printed
  obtain ⟨levels, rfl⟩ := Nat.exists_eq_add_of_le' (show 1 ≤ levels by omega)
  rw [listed, if_neg (by simp [alone])] at printed
  obtain ⟨e', same, inner⟩ := h.enclosed levels (by omega) printed
  exact ⟨e', same, .item inner⟩

theorem writtenItem_spread (h : Written extra e) : WrittenItem extra (.spread e span) := by
  intro levels line ts room printed
  simp only [height] at room
  obtain ⟨levels, rfl⟩ := Nat.exists_eq_add_of_le' (show 1 ≤ levels by omega)
  obtain ⟨dots, own, rfl, hd, inside⟩ := printed.symbol
  obtain ⟨e', same, inner⟩ := h.enclosed levels (by omega) inside
  refine ⟨_, ?_, .spreadItem hd inner⟩
  rw [shape, shape, same]

theorem writtenItems_nil : WrittenItems extra [] := by
  intro levels line ts _ printed
  rw [printed.nil]
  exact ⟨[], rfl, .noItems⟩

theorem writtenItems_cons (first : WrittenItem extra e) (rest : WrittenItems extra es) :
    WrittenItems extra (e :: es) := by
  intro levels line ts room printed
  simp only [heightOfItems] at room
  obtain ⟨own, more, rfl, one, others⟩ := printed.append
  obtain ⟨e', same, inner⟩ := first levels (by omega) one
  cases es with
  | nil =>
    obtain rfl := others.nil
    rw [List.append_nil]
    exact ⟨[e'], by simp only [shapes, same], .lastItem inner⟩
  | cons e₂ es =>
    obtain ⟨comma, more, rfl, hc, others⟩ := others.symbol
    obtain ⟨es', sames, items⟩ := rest levels (by omega) others
    exact ⟨e' :: es', by rw [shapes, shapes, same, sames], .moreItems inner hc items⟩

theorem writtenMember_shorthand {key : PropertyKey}
    (proper : isProperMember (.property key e true span)) :
    WrittenMember extra (.property key e true span) := by
  intro levels line ts _ printed
  cases key with
  | identifier name =>
    obtain ⟨named, plain⟩ := Bool.and_eq_true_iff.mp proper
    cases e with
    | identifier name' place =>
      obtain rfl : name' = name := Option.some.inj (beq_iff_eq.mp named)
      obtain ⟨t, rfl, word⟩ := printed.single
      refine ⟨_, ?_, .shorthand ((Token.kind_of_lexeme word).trans (beq_iff_eq.mp plain))⟩
      rw [ofName, Token.raw_of_word word]
      rfl
    | _ => cases named
  | _ => cases proper

theorem keyOf?_of_lexeme {t : Token} {key : PropertyKey} (plain : ∀ e, key ≠ .computed e)
    (h : [t.lexeme] = keyText extra key) : keyOf? t = some key := by
  cases key with
  | identifier name =>
    have word := List.singleton_inj.mp h
    have raw := Token.raw_of_word word
    rcases Token.kind_of_word word with kind | ⟨k, kind⟩ <;> rw [keyOf?, kind] <;> simp only [raw]
  | string text | number n =>
    have c := List.singleton_inj.mp h
    unfold keyOf? Token.text Token.number?
    rw [Token.kind_of_lexeme c, Token.value_of_lexeme c]
    rfl
  | computed e => exact absurd rfl (plain e)

theorem writtenMember_property {key : PropertyKey} (plain : ∀ e, key ≠ .computed e)
    (value : Written extra e) : WrittenMember extra (.property key e false span) := by
  intro levels line ts room printed
  simp only [heightOfMember] at room
  obtain ⟨levels, rfl⟩ := Nat.exists_eq_add_of_le' (show 1 ≤ levels by omega)
  obtain ⟨own, colon, more, rfl, one, hc, two⟩ := printed.joined
  obtain ⟨t, rfl⟩ : ∃ t, own = [t] := by
    cases key with
    | computed e => exact absurd rfl (plain e)
    | _ => exact one.single.imp fun _ h => h.1
  obtain ⟨e', same, inner⟩ := value.enclosed levels (by omega) two
  refine ⟨_, ?_, .property (keyOf?_of_lexeme plain one.lexemes) hc inner⟩
  rw [memberShape, memberShape, same]

theorem writtenMember_computed (key : Written extra left) (value : Written extra right) :
    WrittenMember extra (.property (.computed left) right false span) := by
  intro levels line ts room printed
  simp only [heightOfMember, heightOfKey] at room
  obtain ⟨levels, rfl⟩ := Nat.exists_eq_add_of_le' (show 1 ≤ levels by omega)
  obtain ⟨brackets, colon, more, rfl, one, hs, two⟩ := printed.joined
  obtain ⟨opening, own, close, rfl, ho, inside, hc⟩ := one.enclosed
  obtain ⟨left', sameLeft, innerLeft⟩ := key.enclosed levels (by omega) inside
  obtain ⟨right', sameRight, innerRight⟩ := value.enclosed levels (by omega) two
  have derived := Derives.computed ho innerLeft hc hs innerRight
  refine ⟨_, ?_, by simpa using derived⟩
  rw [memberShape, memberShape, keyShape, keyShape, sameLeft, sameRight]

theorem writtenMember_spread (h : Written extra e) : WrittenMember extra (.spread e span) := by
  intro levels line ts room printed
  simp only [heightOfMember] at room
  obtain ⟨levels, rfl⟩ := Nat.exists_eq_add_of_le' (show 1 ≤ levels by omega)
  obtain ⟨dots, own, rfl, hd, inside⟩ := printed.symbol
  obtain ⟨e', same, inner⟩ := h.enclosed levels (by omega) inside
  refine ⟨_, ?_, .spreadMember hd inner⟩
  rw [memberShape, memberShape, same]

theorem writtenMembers_nil : WrittenMembers extra [] := by
  intro levels line ts _ printed
  rw [printed.nil]
  exact ⟨[], rfl, .noMembers⟩

theorem writtenMembers_cons {m : ObjectMember} (first : WrittenMember extra m)
    (rest : WrittenMembers extra ms) : WrittenMembers extra (m :: ms) := by
  intro levels line ts room printed
  simp only [heightOfMembers] at room
  obtain ⟨own, more, rfl, one, others⟩ := printed.append
  obtain ⟨m', same, inner⟩ := first levels (by omega) one
  cases ms with
  | nil =>
    obtain rfl := others.nil
    rw [List.append_nil]
    exact ⟨[m'], by simp only [memberShapes, same], .lastMember inner⟩
  | cons m₂ ms =>
    obtain ⟨comma, more, rfl, hc, others⟩ := others.symbol
    obtain ⟨ms', sames, members⟩ := rest levels (by omega) others
    exact ⟨m' :: ms', by rw [memberShapes, memberShapes, same, sames],
      .moreMembers inner hc members⟩

mutual

theorem written (extra : Place → Expr → Bool) : (e : Expr) → e.isProper false → Written extra e
  | .identifier _ _, proper => written_name proper
  | .literal value raw _, _ => written_literal value raw
  | .template text raw _, _ => written_template text raw
  | .array es _, proper => written_array (writtenItems extra es proper)
  | .object ms _, proper => written_object (writtenMembers extra ms proper)
  | .binary op left right _, proper => by
    obtain ⟨properLeft, properRight⟩ := Bool.and_eq_true_iff.mp proper
    exact written_binary (written extra left properLeft) (written extra right properRight)
  | .unary op e _, proper => written_unary (written extra e proper)
  | .update op true e _, proper => by
    obtain ⟨assignable, proper⟩ := Bool.and_eq_true_iff.mp proper
    exact written_updateBefore assignable (written extra e proper)
  | .update op false e _, proper => by
    obtain ⟨assignable, proper⟩ := Bool.and_eq_true_iff.mp proper
    exact written_updateAfter assignable (written extra e proper)
  | .assignment op target value _, proper => by
    obtain ⟨proper, properValue⟩ := Bool.and_eq_true_iff.mp proper
    obtain ⟨assignable, proper⟩ := Bool.and_eq_true_iff.mp proper
    exact written_assignment assignable (written extra target proper)
      (written extra value properValue)
  | .conditional test consequent alternate _, proper => by
    obtain ⟨proper, properAlternate⟩ := Bool.and_eq_true_iff.mp proper
    obtain ⟨properTest, proper⟩ := Bool.and_eq_true_iff.mp proper
    exact written_conditional (written extra test properTest) (written extra consequent proper)
      (written extra alternate properAlternate)
  | .arrow params body _ _, proper => by
    obtain ⟨proper, properBody⟩ := Bool.and_eq_true_iff.mp proper
    obtain ⟨valid, proper⟩ := Bool.and_eq_true_iff.mp proper
    exact written_arrow valid (writtenItems extra params proper) (writtenBody extra body properBody)
  | .member owner property false _ _, proper => by
    obtain ⟨proper, named⟩ := Bool.and_eq_true_iff.mp proper
    exact written_member (written extra owner proper) named
  | .member owner property true _ _, proper => by
    obtain ⟨proper, properIndex⟩ := Bool.and_eq_true_iff.mp proper
    exact written_index (written extra owner proper) (written extra property properIndex)
  | .call callee arguments _ _, proper => by
    obtain ⟨proper, properArguments⟩ := Bool.and_eq_true_iff.mp proper
    exact written_call (written extra callee proper) (writtenItems extra arguments properArguments)

theorem writtenItems (extra : Place → Expr → Bool) :
    (es : List Expr) → areProper es → WrittenItems extra es
  | [], _ => writtenItems_nil
  | e :: es, proper => by
    obtain ⟨proper, properRest⟩ := Bool.and_eq_true_iff.mp proper
    refine writtenItems_cons ?_ (writtenItems extra es properRest)
    cases e with
    | spread e _ => exact writtenItem_spread (written extra e proper)
    | _ => exact Written.item (written extra _ proper) rfl

theorem writtenMembers (extra : Place → Expr → Bool) :
    (ms : List ObjectMember) → areProperMembers ms → WrittenMembers extra ms
  | [], _ => writtenMembers_nil
  | m :: ms, proper => by
    obtain ⟨proper, properRest⟩ := Bool.and_eq_true_iff.mp proper
    exact writtenMembers_cons (writtenMember extra m proper) (writtenMembers extra ms properRest)

theorem writtenMember (extra : Place → Expr → Bool) :
    (m : ObjectMember) → isProperMember m → WrittenMember extra m
  | .property _ _ true _, proper => writtenMember_shorthand proper
  | .property key value false _, proper => by
    obtain ⟨proper, properValue⟩ := Bool.and_eq_true_iff.mp proper
    cases key with
    | computed key =>
      exact writtenMember_computed (written extra key proper) (written extra value properValue)
    | _ => exact writtenMember_property (by simp) (written extra value properValue)
  | .spread e _, proper => writtenMember_spread (written extra e proper)

theorem writtenBody (extra : Place → Expr → Bool) :
    (body : ArrowBody) → isProperBody body → WrittenBody extra body
  | .expression body, proper => writtenBody_expression (written extra body proper)

end

/-- The tokens that print an expression are read as the expression, apart from places and from how
    literals are written, if nothing after them goes on with it. So it is with the parentheses that
    the table of operators asks for and with any others. -/
theorem parser_print (extra : Place → Expr → Bool) {e : Expr} (proper : e.isProper false)
    {scope : Scope} {s : ParserState} {line : Nat} {ts rest : List Token}
    (room : 2 * e.height + 2 ≤ scope.options.maxDepth - s.depth)
    (tokens : scope.remaining s = ts ++ rest) (printed : Prints line ts (e.print extra))
    (ends : 10 < (firstKind rest).goesOnAt) :
    ∃ e' : Expr, parser scope s = .ok e' (s.past ts) ∧ e'.shape = e.shape := by
  have some : 1 ≤ scope.options.maxDepth - s.depth := by omega
  obtain ⟨levels, left⟩ := Nat.exists_eq_add_of_le' some
  obtain ⟨e', same, derived⟩ :=
    (written extra e proper).enclosed levels (by omega) printed
  exact ⟨e', derived.parser tokens ends left, same⟩

theorem parser_print_arrow :
    ∃ e' : Expr,
      parser ⟨.ofList (tokenize "f = (a, ...b) => ({ a, c: !(a || b) })"), .standard, none⟩
        .initial = .ok e' ⟨23, 0⟩ ∧
      e'.shape = shape (.assignment .assign (.identifier "f" default)
        (.arrow [.identifier "a" default, .spread (.identifier "b" default) default]
          (.expression (.object
            [.property (.identifier "a") (.identifier "a" default) true default,
              .property (.identifier "c") (.unary .not (.binary .or (.identifier "a" default)
                (.identifier "b" default) default) default) false default] default))
          false default) default) := by
  generalize hs : "f = (a, ...b) => ({ a, c: !(a || b) })" = source
  have tokens : Scope.remaining ⟨.ofList (tokenize source), .standard, none⟩ .initial =
      (tokenize source).take 23 ++ (tokenize source).drop 23 := by
    rw [Scope.remaining, TokenStream.tokensFrom_eq, TokenStream.toList_ofList_tokenize,
      List.take_append_drop]
    rfl
  have after : ParserState.past .initial ((tokenize source).take 23) = ⟨23, 0⟩ := by
    subst hs
    decide +kernel
  have oneLine : ∀ t ∈ (tokenize source).take 23, t.line = 1 := by
    subst hs
    decide +kernel
  have ends : 10 < (firstKind ((tokenize source).drop 23)).goesOnAt := by
    subst hs
    decide +kernel
  rw [← after]
  refine parser_print (fun _ _ => false) (by decide) ?_ tokens ⟨?_, oneLine⟩ ends
  · change _ ≤ 128
    decide
  · subst hs
    decide +kernel

end Expr

end PulseSyntax
