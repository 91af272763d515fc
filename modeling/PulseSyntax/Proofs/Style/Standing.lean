import PulseSyntax.Proofs.Style.Block

namespace PulseSyntax.Style

open PulseSyntax.Parser

/-- What a token is part of: nothing yet, the name of a property, or a selector, prelude or value in
    which so many parentheses and brackets are open. -/
inductive Role where
  | start
  | property
  | item (parens : Nat)
deriving DecidableEq, Repr

/-- How many rules a token stands in, and what it is part of. -/
structure Standing where
  rules : Nat
  role : Role
deriving DecidableEq, Repr

namespace Standing

/-- After a symbol that ends an item. A brace that closes no rule has nothing after it. -/
def afterEnd (rules : Nat) : TokenKind → Option Standing
  | .symbol .openBrace => some ⟨rules + 1, .start⟩
  | .symbol .closeBrace =>
    match rules with
    | 0 => none
    | outer + 1 => some ⟨outer, .start⟩
  | _ => some ⟨rules, .start⟩

def afterItem (rules parens : Nat) (kind : TokenKind) : Option Standing :=
  if parens == 0 && endsItem kind then afterEnd rules kind
  else some ⟨rules, .item (openAfter parens kind)⟩

/-- After a token. Whether the first token of an item starts a rule or a declaration depends on the
    tokens after it. -/
def after (s : Standing) (t : Token) (rest : List Token) : Option Standing :=
  match s.role with
  | .start =>
    if t.kind == .symbol .atSign || endsItem t.kind ||
        terminator 0 (t :: rest) == .symbol .openBrace then afterItem s.rules 0 t.kind
    else some ⟨s.rules, .property⟩
  | .property => some ⟨s.rules, if t.kind == .symbol .colon then .item 0 else .property⟩
  | .item parens => afterItem s.rules parens t.kind

/-- How many tokens stand before the brace that closes no rule. -/
def length? : Standing → List Token → Option Nat
  | _, [] => none
  | s, t :: rest =>
    match s.after t rest with
    | none => some 0
    | some next => (next.length? rest).map (· + 1)

/-- Between two items: the next has not begun, or one that ended by a token of this kind is over. -/
def Between (s : Standing) (rules : Nat) (kind : TokenKind) : Prop :=
  s = ⟨rules, .start⟩ ∨
    ∃ parens, s = ⟨rules, .item parens⟩ ∧ (kind = .endOfFile ∨ parens = 0 ∧ endsItem kind)

end Standing

/-- How many tokens stand before the brace that ends a block as its items are read. -/
def lengthAsRead? : List Token → Option Nat := Standing.length? ⟨0, .start⟩

/-- From one standing and index the tokens lead to another: the end that is seen is the same. -/
structure Leads (stream : TokenStream) (a : Standing) (i : Nat) (b : Standing) (j : Nat) :
    Prop where
  le : i ≤ j
  length : a.length? (stream.tokensFrom i) = (b.length? (stream.tokensFrom j)).map (· + (j - i))

namespace Leads

variable {stream : TokenStream} {a b c : Standing} {i j k : Nat}

theorem refl (stream : TokenStream) (a : Standing) (i : Nat) : Leads stream a i a i where
  le := Nat.le_refl i
  length := by simp

theorem trans (h : Leads stream a i b j) (h' : Leads stream b j c k) : Leads stream a i c k where
  le := Nat.le_trans h.le h'.le
  length := by
    have first := h.le
    have second := h'.le
    rw [h.length, h'.length, Option.map_map]
    congr 1
    funext n
    simp only [Function.comp_apply]
    omega

theorem of_length_eq (h : Leads stream b i c j)
    (same : a.length? (stream.tokensFrom i) = b.length? (stream.tokensFrom i)) :
    Leads stream a i c j where
  le := h.le
  length := same.trans h.length

theorem step (more : (stream.get i).kind ≠ .endOfFile)
    (h : a.after (stream.get i) (stream.tokensFrom (i + 1)) = some b) :
    Leads stream a i b (i + 1) where
  le := Nat.le_succ i
  length := by
    have whole := TokenStream.tokensFrom_of_kind_ne more
    rw [whole, Standing.length?, h, Nat.add_sub_cancel_left]

theorem item {rules parens : Nat} (more : (stream.get i).kind ≠ .endOfFile)
    (goesOn : (parens == 0 && endsItem (stream.get i).kind) = false) :
    Leads stream ⟨rules, .item parens⟩ i
      ⟨rules, .item (openAfter parens (stream.get i).kind)⟩ (i + 1) := by
  apply step more
  simp only [Standing.after, Standing.afterItem, goesOn, Bool.false_eq_true, ↓reduceIte]

end Leads

namespace Standing.Between

variable {stream : TokenStream} {s : Standing} {t : Token} {rest : List Token} {rules i : Nat}

theorem after_of_endsItem (h : s.Between rules t.kind) (ends : endsItem t.kind) :
    s.after t rest = afterEnd rules t.kind := by
  rcases h with rfl | ⟨parens, rfl, atEnd | ⟨rfl, -⟩⟩
  · simp [after, afterItem, ends]
  · rw [atEnd] at ends
    cases ends
  · simp [after, afterItem, ends]

theorem semicolon (h : s.Between rules (stream.get i).kind)
    (hk : (stream.get i).kind = .symbol .semicolon) :
    Leads stream s i ⟨rules, .start⟩ (i + 1) := by
  apply Leads.step (by simp [hk])
  rw [h.after_of_endsItem (by rw [hk]; rfl), hk]
  rfl

theorem openBrace (h : s.Between rules (stream.get i).kind)
    (hk : (stream.get i).kind = .symbol .openBrace) :
    Leads stream s i ⟨rules + 1, .start⟩ (i + 1) := by
  apply Leads.step (by simp [hk])
  rw [h.after_of_endsItem (by rw [hk]; rfl), hk]
  rfl

theorem closeBrace (h : s.Between (rules + 1) (stream.get i).kind)
    (hk : (stream.get i).kind = .symbol .closeBrace) :
    Leads stream s i ⟨rules, .start⟩ (i + 1) := by
  apply Leads.step (by simp [hk])
  rw [h.after_of_endsItem (by rw [hk]; rfl), hk]
  rfl

theorem length_close (h : s.Between 0 t.kind) (hk : t.kind = .symbol .closeBrace) :
    s.length? (t :: rest) = some 0 := by
  have nothing : s.after t rest = none := by
    rw [h.after_of_endsItem (by rw [hk]; rfl), hk]
    rfl
  rw [length?, nothing]

theorem length_item (h : s.Between rules t.kind)
    (begins : t.kind = .symbol .atSign ∨ terminator 0 (t :: rest) = .symbol .openBrace) :
    s.length? (t :: rest) = length? ⟨rules, .item 0⟩ (t :: rest) := by
  rcases h with rfl | ⟨parens, rfl, atEnd | ⟨rfl, -⟩⟩
  · have same : after ⟨rules, .start⟩ t rest = after ⟨rules, .item 0⟩ t rest := by
      rcases begins with hk | hk <;> simp [after, hk]
    rw [length?, length?, same]
  · rw [terminator, atEnd] at begins
    simp [endsItem] at begins
  · rfl

theorem length_property (h : s.Between rules t.kind) (more : t.kind ≠ .endOfFile)
    (noAt : t.kind ≠ .symbol .atSign) (noColon : t.kind ≠ .symbol .colon)
    (noEnd : endsItem t.kind = false)
    (noBlock : terminator 0 (t :: rest) ≠ .symbol .openBrace) :
    s.length? (t :: rest) = length? ⟨rules, .property⟩ (t :: rest) := by
  rcases h with rfl | ⟨parens, rfl, atEnd | ⟨rfl, ends⟩⟩
  · have same : after ⟨rules, .start⟩ t rest = after ⟨rules, .property⟩ t rest := by
      simp [after, noAt, noEnd, noBlock, noColon]
    rw [length?, length?, same]
  · contradiction
  · rw [noEnd] at ends
    cases ends

end Standing.Between

variable {scope : Scope} {s t : ParserState} {own : List Token}

theorem itemToken_yield {parens next : Nat} (h : itemToken parens scope s = .ok (.yield next) t) :
    (scope.stream.get s.cursor).kind ≠ .endOfFile ∧
      (parens == 0 && endsItem (scope.stream.get s.cursor).kind) = false ∧
      next = openAfter parens (scope.stream.get s.cursor).kind ∧ t = s.ahead 1 := by
  rw [itemToken, bind_of_ok current_apply] at h
  split at h
  · cases h
  · next goesOn =>
    simp only [Bool.or_eq_true, beq_iff_eq, not_or, Bool.not_eq_true] at goesOn
    rw [bind_of_ok (advance_apply goesOn.1)] at h
    cases h
    exact ⟨goesOn.1, goesOn.2, rfl, rfl⟩

theorem itemToken_done {parens last : Nat} (h : itemToken parens scope s = .ok (.done last) t) :
    ((scope.stream.get s.cursor).kind = .endOfFile ∨
      parens = 0 ∧ endsItem (scope.stream.get s.cursor).kind) ∧ last = parens ∧ t = s := by
  rw [itemToken, bind_of_ok current_apply] at h
  split at h
  · next ends =>
    cases h
    simp only [Bool.or_eq_true, Bool.and_eq_true, beq_iff_eq] at ends
    exact ⟨ends, rfl, rfl⟩
  · next goesOn =>
    simp only [Bool.or_eq_true, beq_iff_eq, not_or, Bool.not_eq_true] at goesOn
    rw [bind_of_ok (advance_apply goesOn.1)] at h
    cases h

theorem itemTokens_ok (h : itemTokens scope s = .ok own t) (rules : Nat) :
    own = scope.stream.between s.cursor t.cursor ∧
      ∃ standing, Leads scope.stream ⟨rules, .item 0⟩ s.cursor standing t.cursor ∧
        standing.Between rules (scope.stream.get t.cursor).kind := by
  rw [itemTokens, bind_of_ok cursor_apply] at h
  obtain ⟨parens, t, read, h⟩ := bind_eq_ok.mp h
  cases h
  refine ⟨rfl, ?_⟩
  have keep {parens next : Nat} {u v : ParserState}
      (inv : Leads scope.stream ⟨rules, .item 0⟩ s.cursor ⟨rules, .item parens⟩ u.cursor)
      (h : itemToken parens scope u = .ok (.yield next) v) :
      Leads scope.stream ⟨rules, .item 0⟩ s.cursor ⟨rules, .item next⟩ v.cursor ∧
        u.cursor < v.cursor := by
    obtain ⟨more, goesOn, rfl, rfl⟩ := itemToken_yield h
    exact ⟨inv.trans (.item more goesOn), Nat.lt_succ_self _⟩
  obtain ⟨last, u, inv, -, done⟩ := loop_ok readsOn_itemToken keep (Leads.refl _ _ _) read
  obtain ⟨ends, rfl, rfl⟩ := itemToken_done done
  exact ⟨_, inv, .inr ⟨_, rfl, ends⟩⟩

theorem propertyTokens_ok (h : propertyTokens scope s = .ok own t) (rules : Nat) :
    own = scope.stream.between s.cursor t.cursor ∧
      Leads scope.stream ⟨rules, .property⟩ s.cursor ⟨rules, .property⟩ t.cursor ∧
      (t.cursor = s.cursor ∨ endsProperty (scope.stream.get s.cursor).kind = false) := by
  rw [propertyTokens, bind_of_ok cursor_apply] at h
  obtain ⟨_, t, read, h⟩ := bind_eq_ok.mp h
  cases h
  refine ⟨rfl, ?_⟩
  have keep {a next : Unit} {u v : ParserState}
      (inv : Leads scope.stream ⟨rules, .property⟩ s.cursor ⟨rules, .property⟩ u.cursor ∧
        (u.cursor = s.cursor ∨ endsProperty (scope.stream.get s.cursor).kind = false))
      (h : propertyToken a scope u = .ok (.yield next) v) :
      (Leads scope.stream ⟨rules, .property⟩ s.cursor ⟨rules, .property⟩ v.cursor ∧
        (v.cursor = s.cursor ∨ endsProperty (scope.stream.get s.cursor).kind = false)) ∧
        u.cursor < v.cursor := by
    rw [propertyToken, bind_of_ok current_apply] at h
    split at h
    · cases h
    · next goesOn =>
      rw [Bool.not_eq_true] at goesOn
      have parts := goesOn
      simp only [endsProperty, Bool.or_eq_false_iff, beq_eq_false_iff_ne] at parts
      rw [bind_of_ok (advance_apply parts.2)] at h
      cases h
      have step : Leads scope.stream ⟨rules, .property⟩ u.cursor ⟨rules, .property⟩
          (u.cursor + 1) := by
        apply Leads.step parts.2
        simp [Standing.after, parts.1.1]
      refine ⟨⟨inv.1.trans step, .inr ?_⟩, Nat.lt_succ_self _⟩
      rcases inv.2 with first | later
      · rwa [first] at goesOn
      · exact later
  obtain ⟨_, u, inv, -, done⟩ := loop_ok readsOn_propertyToken keep
    ⟨Leads.refl _ _ _, .inl rfl⟩ read
  rw [propertyToken, bind_of_ok current_apply] at done
  split at done
  · cases done
    exact inv
  · next goesOn =>
    simp only [endsProperty, Bool.or_eq_true, beq_iff_eq, not_or] at goesOn
    rw [bind_of_ok (advance_apply goesOn.2)] at done
    cases done

end PulseSyntax.Style
