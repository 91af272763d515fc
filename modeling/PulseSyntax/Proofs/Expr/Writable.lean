import PulseSyntax.Proofs.Expr.Spelled

namespace PulseSyntax

open PulseSyntax.Expr Lexeme

def PropertyKey.IsWritable : PropertyKey → Prop
  | identifier name => Word.IsWord name.toList
  | number n => n.IsCanonical
  | string _ | computed _ => True

def PropertyKey.parts : PropertyKey → List Expr
  | computed key => [key]
  | identifier _ | string _ | number _ => []

/-- What is not an expression of its own can be written. A name alone is a plain one. -/
inductive ObjectMember.IsWritable : ObjectMember → Prop
  | shorthand {name : String} {span s : Span} (isWord : Word.IsWord name.toList)
      (plain : (word name).kind = .identifier) :
      IsWritable (property (.identifier name) (.identifier name s) true span)
  | property {key : PropertyKey} {value : Expr} {span : Span} (named : key.IsWritable) :
      IsWritable (property key value false span)
  | spread {e : Expr} {span : Span} : IsWritable (spread e span)

def ObjectMember.parts : ObjectMember → List Expr
  | property key value _ _ => key.parts ++ [value]
  | spread e _ => [e]

namespace Expr

def unspread : Expr → Expr
  | spread e _ => e
  | e => e

inductive IsWritable : Expr → Prop
  | name {name : String} {span : Span} (isWord : Word.IsWord name.toList)
      (isName : (word name).kind.isName) : IsWritable (identifier name span)
  | literal {t : Token} {e : Expr} (h : literalOf? t = some e)
      (spelled : t.own.IsSpelled false) : IsWritable e
  | array {es : List Expr} {span : Span} (items : ∀ e ∈ es, IsWritable e.unspread) :
      IsWritable (array es span)
  | object {ms : List ObjectMember} {span : Span} (members : ∀ m ∈ ms, m.IsWritable)
      (parts : ∀ m ∈ ms, ∀ e ∈ m.parts, IsWritable e) : IsWritable (object ms span)
  | binary {op : BinaryOp} {left right : Expr} {span : Span} (first : IsWritable left)
      (second : IsWritable right) : IsWritable (binary op left right span)
  | unary {op : UnaryOp} {e : Expr} {span : Span} (operand : IsWritable e) :
      IsWritable (unary op e span)
  | update {op : UpdateOp} {before : Bool} {e : Expr} {span : Span}
      (assignable : e.isAssignable) (operand : IsWritable e) : IsWritable (update op before e span)
  | assignment {op : AssignOp} {target value : Expr} {span : Span}
      (assignable : target.isAssignable) (left : IsWritable target) (right : IsWritable value) :
      IsWritable (assignment op target value span)
  | conditional {test consequent alternate : Expr} {span : Span} (condition : IsWritable test)
      (first : IsWritable consequent) (second : IsWritable alternate) :
      IsWritable (conditional test consequent alternate span)
  | arrow {params : List Expr} {body : Expr} {isAsync : Bool} {span : Span}
      (valid : params.all isParam) (items : ∀ e ∈ params, IsWritable e.unspread)
      (inner : IsWritable body) : IsWritable (arrow params (.expression body) isAsync span)
  | property {owner : Expr} {name : String} {optional : Bool} {s span : Span}
      (first : IsWritable owner) (isWord : Word.IsWord name.toList) :
      IsWritable (member owner (identifier name s) false optional span)
  | index {owner property : Expr} {optional : Bool} {span : Span} (first : IsWritable owner)
      (inner : IsWritable property) : IsWritable (member owner property true optional span)
  | call {callee : Expr} {arguments : List Expr} {optional : Bool} {span : Span}
      (first : IsWritable callee) (items : ∀ e ∈ arguments, IsWritable e.unspread) :
      IsWritable (call callee arguments optional span)
  | importCall {arguments : List Expr} {s span : Span}
      (items : ∀ e ∈ arguments, IsWritable e.unspread) :
      IsWritable (call (identifier "import" s) arguments false span)

theorem exists_isKey {key : PropertyKey} (h : key.IsWritable) (plain : key.parts = []) :
    ∃ l, spellKey key = [l] ∧ Spells.IsKey key l := by
  cases key with
  | identifier name =>
    refine ⟨_, rfl, fun p => ?_, .word h⟩
    unfold keyOf?
    rcases kind_word name with kind | ⟨k, kind⟩ <;> simp [token, kind, raw_word]
  | string text =>
    exact ⟨_, rfl, fun p => rfl, .literal (by simp [quoted]) (stable_quoted _)⟩
  | number n =>
    exact ⟨_, rfl, fun p => rfl, .literal (by simp [ofNumber]) (stable_ofNumber h)⟩
  | computed key => cases plain

def Follow.isLast : Follow → Bool
  | any => false
  | close | link => true

/-- So may the expression be followed, with its text as it is. -/
def AllowsAfter : Follow → Expr → Prop
  | .link, e => e.endsUpdated ∨ e.isUpdatedArrow
  | _, _ => True

/-- The text of the expression is read as the expression. -/
def ReadsBack (e : Expr) : Prop :=
  ∀ (safe : Bool) (follow : Follow) (levels : Nat), e.AllowsAfter follow →
    e.room safe follow.isLast ≤ levels →
    Spells levels (.part follow (e.levelAt follow.isLast) e) (e.spell safe follow.isLast)

theorem exists_level {n levels : Nat} (room : n + 1 ≤ levels) : ∃ l, levels = l + 1 ∧ n ≤ l := by
  obtain ⟨l, rfl⟩ := Nat.exists_eq_add_of_le' (Nat.le_trans (Nat.le_add_left 1 n) room)
  exact ⟨l, rfl, Nat.le_of_add_le_add_right room⟩

theorem levelAt_le (last : Bool) (e : Expr) : e.levelAt last ≤ e.level := by
  unfold levelAt
  split
  · split <;> simp [level]
  · exact Nat.le_refl _

theorem levelAt_of_endsUpdated {e : Expr} (h : e.endsUpdated) (last : Bool) :
    e.levelAt last = e.level ∧ 2 ≤ e.level := by
  cases e with
  | update op before e span => cases before <;> simp_all [endsUpdated, levelAt, level]
  | binary op left right span => simp [levelAt, level]; omega
  | unary | assignment | conditional => simp [levelAt, level]
  | _ => cases h

theorem exists_enclosed {bound level : Nat} {alone text : List Lexeme}
    (h : ∃ l rest, text = l :: rest ∧ l.kind ≠ .symbol .openBrace) :
    ∃ l rest, enclosed bound level alone text = l :: rest ∧ l.kind ≠ .symbol .openBrace := by
  unfold enclosed
  split
  · exact ⟨_, _, rfl, by simp [symbol]⟩
  · exact h

theorem exists_append {text more : List Lexeme}
    (h : ∃ l rest, text = l :: rest ∧ l.kind ≠ .symbol .openBrace) :
    ∃ l rest, text ++ more = l :: rest ∧ l.kind ≠ .symbol .openBrace := by
  obtain ⟨l, rest, rfl, noBrace⟩ := h
  exact ⟨l, rest ++ more, rfl, noBrace⟩

theorem kind_word_ne (name : String) : (word name).kind ≠ .symbol .openBrace := by
  rcases kind_word name with kind | ⟨k, kind⟩ <;> simp [kind]

theorem exists_spell_safe (last : Bool) : (e : Expr) →
    ∃ l rest, e.spell true last = l :: rest ∧ l.kind ≠ .symbol .openBrace
  | identifier name _ => ⟨_, _, rfl, kind_word_ne name⟩
  | literal value raw _ => by
    refine ⟨_, _, rfl, ?_⟩
    cases value with
    | bool | null => exact kind_word_ne raw
    | _ => simp [Lexeme.ofLiteral]
  | template .. => ⟨_, _, rfl, by simp⟩
  | array .. => ⟨_, _, rfl, by simp [symbol]⟩
  | object .. => ⟨_, _, rfl, by simp [symbol]⟩
  | spread .. => ⟨_, _, rfl, by simp [symbol]⟩
  | unary op .. => ⟨_, _, rfl, by cases op <;> simp [symbol, UnaryOp.symbol]⟩
  | update op true .. => ⟨_, _, rfl, by cases op <;> simp [symbol, UpdateOp.symbol]⟩
  | arrow _ _ false _ => ⟨_, _, rfl, by simp [symbol]⟩
  | arrow _ _ true _ => ⟨_, _, rfl, kind_word_ne "async"⟩
  | update _ false e _ => exists_append (exists_spell_safe false e)
  | assignment _ target _ _ => exists_append (exists_spell_safe false target)
  | binary _ left _ _ => exists_append (exists_enclosed (exists_spell_safe false left))
  | conditional test _ _ _ =>
    exists_append (exists_append (exists_enclosed (exists_spell_safe false test)))
  | member owner _ _ _ _ => exists_append (exists_enclosed (exists_spell_safe false owner))
  | call callee _ _ _ => exists_append (exists_enclosed (exists_spell_safe false callee))

namespace ReadsBack

variable {e left right : Expr} {es : List Expr} {follow : Follow} {levels bound : Nat}
  {safe : Bool} {span : Span}

theorem alone (h : e.ReadsBack) (room : e.room false true ≤ levels) :
    Spells levels (.expr 10 e) (e.spell false true) := by
  have last := h false .close levels trivial room
  exact (last.widen (Nat.le_trans (levelAt_le true e) (level_le e)) (by omega) (by simp)).loosest

theorem enclosed (h : e.ReadsBack) (safe : Bool) (high : bound ≤ 10)
    (updated : follow = .link → e.endsUpdated ∧ e.level ≤ bound)
    (room : enclosedRoom bound (e.levelAt follow.isLast) (e.room false true)
      (e.room safe follow.isLast) ≤ levels) :
    Spells levels (.part follow bound e)
      (Expr.enclosed bound (e.levelAt follow.isLast) (e.spell false true)
        (e.spell safe follow.isLast)) := by
  unfold enclosedRoom at room
  unfold Expr.enclosed
  split
  · next loose =>
    rw [if_pos loose] at room
    obtain ⟨levels, rfl, fits⟩ := exists_level room
    have group := (h.alone fits).group.widen (Nat.zero_le bound) high (by simp)
    cases follow with
    | any => exact group
    | close => exact group.closing high
    | link =>
      obtain ⟨ends, tight⟩ := updated rfl
      rw [(levelAt_of_endsUpdated ends _).1] at loose
      omega
  · next fits =>
    rw [if_neg fits] at room
    have allows : e.AllowsAfter follow := by
      cases follow with
      | link => exact .inl (updated rfl).1
      | _ => trivial
    refine (h safe follow levels allows room).widen (by omega) high fun link => ?_
    obtain ⟨same, low⟩ := levelAt_of_endsUpdated (updated link).1 follow.isLast
    exact same ▸ low

theorem operand (h : e.ReadsBack) (safe : Bool) (high : bound ≤ 10)
    (room : enclosedRoom bound e.level (e.room false true) (e.room safe false) ≤ levels) :
    Spells levels (.expr bound e)
      (Expr.enclosed bound e.level (e.spell false true) (e.spell safe false)) := by
  have same : e.levelAt false = e.level := by cases e <;> rfl
  have text : Spells levels (.expr bound e)
      (Expr.enclosed bound (e.levelAt false) (e.spell false true) (e.spell safe false)) :=
    h.enclosed safe high (by simp) (by rw [← same] at room; exact room)
  rwa [same] at text

theorem ending (h : e.ReadsBack) (updated : follow = .link → e.endsUpdated)
    (room : e.room false true ≤ levels) : Spells levels (.part follow 10 e) (e.spell false true) := by
  cases follow with
  | any => exact h.alone room
  | close => exact (h.alone room).closing (Nat.le_refl 10)
  | link =>
    have ends := updated rfl
    obtain ⟨same, low⟩ := levelAt_of_endsUpdated ends true
    refine (h false .link levels (.inl ends) room).widen ?_ (Nat.le_refl 10) fun _ => same ▸ low
    exact same ▸ level_le e

theorem owner (h : e.ReadsBack) (safe : Bool)
    (room : enclosedRoom 1 e.ownerLevel (e.room false true) (e.room safe false) ≤ levels) :
    Spells levels (.owner e)
      (Expr.enclosed 1 e.ownerLevel (e.spell false true) (e.spell safe false)) := by
  unfold ownerLevel at room ⊢
  cases updated : e.isUpdatedArrow with
  | false =>
    have same : e.levelAt false = e.level := by cases e <;> rfl
    rw [updated, same] at room
    rw [same]
    exact (h.operand safe (by omega) room).ownerAlone
  | true =>
    cases e with
    | arrow params body isAsync span =>
      rw [updated] at room
      exact (h safe .link levels (.inr updated) room).ownerArrow
    | _ => cases updated

theorem ofClosed (noLink : ¬ e.AllowsAfter .link)
    (h : ∀ safe last levels, e.room safe last ≤ levels →
      Spells levels (.expr (e.levelAt last) e) (e.spell safe last)) : e.ReadsBack := by
  intro safe follow levels allows room
  cases follow with
  | any => exact h _ _ _ room
  | close => exact (h _ _ _ room).closing (Nat.le_trans (levelAt_le _ _) (level_le e))
  | link => exact absurd allows noLink

theorem ofName {name : String} (isWord : Word.IsWord name.toList)
    (isName : (word name).kind.isName) : (identifier name span).ReadsBack := by
  refine ofClosed (by simp [AllowsAfter, endsUpdated, isUpdatedArrow]) fun safe last levels _ => ?_
  exact .name isWord isName

theorem ofLiteral {t : Token} (h : literalOf? t = some e) (spelled : t.own.IsSpelled false) :
    e.ReadsBack := by
  refine ofClosed (fun link => ?_) fun safe last levels _ => ?_
  · unfold literalOf? at h
    split at h
    all_goals cases h
    all_goals simp [AllowsAfter, Expr.ofLiteral, endsUpdated, isUpdatedArrow] at link
  · have low : e.levelAt last = 0 :=
      Nat.le_zero.mp (level_of_literalOf? h ▸ levelAt_le last e)
    rw [low]
    exact .literal h spelled safe last

theorem item (h : e.unspread.ReadsBack) (room : e.room false true + 1 ≤ levels) :
    Spells levels (.item e) (e.spell false true) := by
  obtain ⟨levels, rfl, fits⟩ := exists_level room
  cases e with
  | spread e span =>
    exact .spreadItem (alone h fits)
  | _ => exact .looseItem (alone h fits)

theorem items (h : ∀ e ∈ es, e.unspread.ReadsBack) (room : roomOfItems es ≤ levels) :
    Spells levels (.items es) (spellItems es) := by
  induction es with
  | nil => exact .noItems
  | cons e es ih =>
    obtain ⟨first, others⟩ := List.forall_mem_cons.mp h
    replace room := Nat.max_le.mp room
    have here := item first room.1
    cases es with
    | nil =>
      have text : spellItems [e] = spell false true e := List.append_nil _
      exact text ▸ here.lastItem
    | cons next es => exact here.moreItems (ih others room.2)

theorem array (h : ∀ e ∈ es, e.unspread.ReadsBack) : (array es span).ReadsBack := by
  refine ofClosed (by simp [AllowsAfter, endsUpdated, isUpdatedArrow]) fun safe last levels room => ?_
  exact .array (items h room)

section

variable {m : ObjectMember} {ms : List ObjectMember}

theorem member (written : m.IsWritable) (h : ∀ e ∈ m.parts, e.ReadsBack)
    (room : roomOfMember m ≤ levels) : Spells levels (.member m) (spellMember m) := by
  cases written with
  | shorthand isWord plain => exact .shorthand isWord plain
  | @property key value span named =>
    obtain ⟨inner, outer⟩ := Nat.max_le.mp room
    obtain ⟨levels, rfl, fits⟩ := exists_level outer
    change Spells _ _ (spellKey key ++ symbol .colon :: value.spell false true)
    simp only [ObjectMember.parts, List.mem_append, List.mem_singleton] at h
    have value := (h value (.inr rfl)).alone fits
    by_cases plain : key.parts = []
    · obtain ⟨l, text, isKey⟩ := exists_isKey named plain
      rw [text]
      exact .entry isKey value
    · cases key with
      | computed key =>
        have name := (h key (.inl (by simp [PropertyKey.parts]))).alone
          (Nat.le_of_add_le_add_right inner)
        exact .computed name value
      | _ => exact absurd rfl plain
  | @spread e span =>
    obtain ⟨levels, rfl, fits⟩ := exists_level room
    exact .spreadMember ((h e (by simp [ObjectMember.parts])).alone fits)

theorem members (written : ∀ m ∈ ms, m.IsWritable) (h : ∀ m ∈ ms, ∀ e ∈ m.parts, e.ReadsBack)
    (room : roomOfMembers ms ≤ levels) : Spells levels (.members ms) (spellMembers ms) := by
  induction ms with
  | nil => exact .noMembers
  | cons m ms ih =>
    obtain ⟨first, others⟩ := List.forall_mem_cons.mp written
    obtain ⟨parts, others'⟩ := List.forall_mem_cons.mp h
    replace room := Nat.max_le.mp room
    have here := member first parts room.1
    cases ms with
    | nil =>
      have text : spellMembers [m] = spellMember m := List.append_nil _
      exact text ▸ here.lastMember
    | cons next ms => exact here.moreMembers (ih others others' room.2)

theorem object (written : ∀ m ∈ ms, m.IsWritable) (h : ∀ m ∈ ms, ∀ e ∈ m.parts, e.ReadsBack) :
    (object ms span).ReadsBack := by
  refine ofClosed (by simp [AllowsAfter, endsUpdated, isUpdatedArrow]) fun safe last levels room => ?_
  cases safe with
  | false => exact .object (members written h room)
  | true =>
    obtain ⟨levels, rfl, fits⟩ := exists_level room
    have inner : Spells levels (.expr 0 (.object ms span)) _ :=
      .object (members written h fits)
    exact (inner.widen (by omega) (Nat.le_refl 10) (by simp)).group

end

theorem binary {op : BinaryOp} (first : left.ReadsBack) (second : right.ReadsBack) :
    (binary op left right span).ReadsBack := by
  intro safe follow levels allows room
  have high := op.level_le
  replace room := Nat.max_le.mp room
  have updated : follow = .link → right.endsUpdated ∧ right.level ≤ 2 + op.level := by
    rintro rfl
    simpa [AllowsAfter, endsUpdated, isUpdatedArrow, and_comm] using allows
  exact .binary (first.operand safe (by omega) room.1) (second.enclosed false (by omega) updated room.2)

theorem unary {op : UnaryOp} (operand : e.ReadsBack) : (unary op e span).ReadsBack := by
  intro safe follow levels allows room
  obtain ⟨levels, rfl, fits⟩ := exists_level room
  have updated : follow = .link → e.endsUpdated ∧ e.level ≤ 3 := by
    rintro rfl
    simpa [AllowsAfter, endsUpdated, isUpdatedArrow, and_comm] using allows
  exact .unary (operand.enclosed false (by omega) updated fits)

theorem level_of_isAssignable (assignable : e.isAssignable) : e.level ≤ 1 := by
  cases e with
  | identifier | member => simp [level]
  | _ => cases assignable

theorem assignable (h : e.ReadsBack) (assignable : e.isAssignable) (safe : Bool) (low : 1 ≤ bound)
    (high : bound ≤ 10) (room : e.room safe false ≤ levels) :
    Spells levels (.expr bound e) (e.spell safe false) := by
  have tight : e.levelAt Follow.any.isLast ≤ e.level := levelAt_le _ e
  have level := level_of_isAssignable assignable
  exact (h safe .any levels trivial room).widen (by omega) high (by simp)

theorem updateBefore {op : UpdateOp} (h : e.ReadsBack) (assignable : e.isAssignable) :
    (update op true e span).ReadsBack := by
  refine ofClosed (by simp [AllowsAfter, endsUpdated, isUpdatedArrow]) fun safe last levels room => ?_
  obtain ⟨levels, rfl, fits⟩ := exists_level room
  exact .updateBefore assignable
    (h.assignable assignable false (by omega) (by omega) fits)

theorem updateAfter {op : UpdateOp} (h : e.ReadsBack) (assignable : e.isAssignable)
    (line : ∀ safe, ∃ text last, e.spell safe false = text ++ [last] ∧
      '\n' ∉ last.raw.toList) : (update op false e span).ReadsBack := by
  intro safe follow levels allows room
  obtain ⟨text, last, same, oneLine⟩ := line safe
  have operand := h.assignable assignable safe (Nat.le_refl 1) (by omega) room
  change Spells levels _ (e.spell safe false ++ [symbol op.symbol])
  rw [same] at operand ⊢
  exact .updateAfter assignable operand oneLine

theorem assignment {op : AssignOp} (target : left.ReadsBack) (assignable : left.isAssignable)
    (value : right.ReadsBack) : (assignment op left right span).ReadsBack := by
  intro safe follow levels allows room
  obtain ⟨first, second⟩ := Nat.max_le.mp room
  obtain ⟨levels, rfl, fits⟩ := exists_level second
  have updated : follow = .link → right.endsUpdated := by
    rintro rfl
    simpa [AllowsAfter, endsUpdated, isUpdatedArrow] using allows
  exact .assignment assignable (target.assignable assignable safe (by omega) (by omega) first)
    (value.ending updated fits)

theorem conditional {test consequent alternate : Expr} (condition : test.ReadsBack)
    (first : consequent.ReadsBack) (second : alternate.ReadsBack) :
    (conditional test consequent alternate span).ReadsBack := by
  intro safe follow levels allows room
  obtain ⟨outer, inner⟩ := Nat.max_le.mp room
  obtain ⟨levels, rfl, fits⟩ := exists_level inner
  replace fits := Nat.max_le.mp fits
  have updated : follow = .link → alternate.endsUpdated := by
    rintro rfl
    simpa [AllowsAfter, endsUpdated, isUpdatedArrow] using allows
  exact .conditional (condition.operand safe (by omega) outer) (first.alone fits.1)
    (second.ending updated fits.2)

theorem property {name : String} {optional : Bool} {s : Span} (first : e.ReadsBack)
    (isWord : Word.IsWord name.toList) :
    (Expr.member e (identifier name s) false optional span).ReadsBack := by
  refine ofClosed (by simp [AllowsAfter, endsUpdated, isUpdatedArrow]) fun safe last levels room => ?_
  replace room := Nat.max_le.mp room
  exact .property optional (first.owner safe room.1) isWord

theorem index {optional : Bool} (first : left.ReadsBack) (inner : right.ReadsBack) :
    (Expr.member left right true optional span).ReadsBack := by
  refine ofClosed (by simp [AllowsAfter, endsUpdated, isUpdatedArrow]) fun safe last levels room => ?_
  obtain ⟨outer, inside⟩ := Nat.max_le.mp room
  obtain ⟨levels, rfl, fits⟩ := exists_level inside
  exact .index optional (first.owner safe outer) (inner.alone fits)

theorem call {optional : Bool} (callee : e.ReadsBack) (h : ∀ e ∈ es, e.unspread.ReadsBack) :
    (call e es optional span).ReadsBack := by
  refine ofClosed (by simp [AllowsAfter, endsUpdated, isUpdatedArrow]) fun safe last levels room => ?_
  replace room := Nat.max_le.mp room
  exact .call optional (callee.owner safe room.1) (items h room.2)

theorem importCall {s : Span} (h : ∀ e ∈ es, e.unspread.ReadsBack) :
    (Expr.call (identifier "import" s) es false span).ReadsBack := by
  refine ofClosed (by simp [AllowsAfter, endsUpdated, isUpdatedArrow]) fun safe last levels room => ?_
  replace room := Nat.max_le.mp room
  exact .importCall (items h room.2)

theorem arrow {body : Expr} {isAsync : Bool} (valid : es.all isParam)
    (h : ∀ e ∈ es, e.unspread.ReadsBack) (inner : body.ReadsBack) :
    (arrow es (.expression body) isAsync span).ReadsBack := by
  intro safe follow levels allows room
  obtain ⟨outer, inside⟩ := Nat.max_le.mp room
  obtain ⟨levels, rfl, fits⟩ := exists_level inside
  obtain ⟨l, text, starts, noBrace⟩ := exists_spell_safe true body
  have noBrace : ∀ l ∈ (body.spell true true).head?, l.kind ≠ .symbol .openBrace := by
    simpa [starts] using noBrace
  have open_ {after : Follow} (last : after ≠ .any)
      (text : Spells levels (.part after 10 body) (body.spell true true)) :
      Spells (levels + 1) (.part after 0 (.arrow es (.expression body) isAsync span))
        ((Expr.arrow es (.expression body) isAsync span).spell safe follow.isLast) :=
    .arrow isAsync last (items h outer) valid text noBrace
  have closed := inner true .close levels trivial fits
  replace closed := closed.widen (Nat.le_trans (levelAt_le _ _) (level_le body)) (by omega) (by simp)
  cases follow with
  | any => exact ((open_ (by simp) closed).widen (by omega) (Nat.le_refl 10) (by simp)).loosest
  | close => exact open_ (by simp) closed
  | link =>
    have ends : body.endsUpdated := by simpa [AllowsAfter, endsUpdated, isUpdatedArrow] using allows
    obtain ⟨same, low⟩ := levelAt_of_endsUpdated ends true
    exact open_ (by simp) ((inner true .link levels (.inl ends) fits).widen
      (Nat.le_trans (levelAt_le _ _) (level_le body)) (Nat.le_refl 10) fun _ => same ▸ low)

end ReadsBack

theorem noLineBreak_of_isWord {text : List Char} (h : Word.IsWord text) : '\n' ∉ text := by
  obtain ⟨c, cs, rfl, start, parts⟩ := h
  rw [List.mem_cons, not_or]
  exact ⟨fun same => absurd (same ▸ start) (by decide), fun inside =>
    absurd (parts _ inside) (by decide)⟩

theorem exists_spell_isAssignable {e : Expr} (h : e.IsWritable) (assignable : e.isAssignable)
    (safe : Bool) : ∃ text last, e.spell safe false = text ++ [last] ∧ '\n' ∉ last.raw.toList := by
  cases h with
  | name isWord => exact ⟨[], _, rfl, by rw [raw_word]; exact noLineBreak_of_isWord isWord⟩
  | @property owner name optional s span first isWord =>
    rw [spell, if_neg (by simp), spell, ← List.singleton_append, ← List.append_assoc]
    exact ⟨_, word name, rfl, by rw [raw_word]; exact noLineBreak_of_isWord isWord⟩
  | index =>
    rw [spell, if_pos rfl, ← List.append_assoc]
    exact ⟨_, symbol .closeBracket, rfl, by decide⟩
  | literal h =>
    unfold literalOf? at h
    split at h
    all_goals cases h
    all_goals cases assignable
  | _ => cases assignable

theorem IsWritable.readsBack {e : Expr} (h : e.IsWritable) : e.ReadsBack := by
  induction h with
  | name isWord isName => exact .ofName isWord isName
  | literal h spelled => exact .ofLiteral h spelled
  | array _ ih => exact .array ih
  | object members _ ih => exact .object members ih
  | binary _ _ first second => exact first.binary second
  | unary _ ih => exact ih.unary
  | @update op before e span assignable operand ih =>
    cases before with
    | true => exact ih.updateBefore assignable
    | false => exact ih.updateAfter assignable (exists_spell_isAssignable operand assignable)
  | assignment assignable _ _ left right => exact left.assignment assignable right
  | conditional _ _ _ condition first second => exact condition.conditional first second
  | arrow valid _ _ items inner => exact .arrow valid items inner
  | property _ isWord first => exact first.property isWord
  | index _ _ first inner => exact first.index inner
  | call _ _ first items => exact first.call items
  | importCall _ items => exact .importCall items

end Expr

end PulseSyntax
