import PulseSyntax.Proofs.Style.Standing

namespace PulseSyntax

/-- The tokens stand next to each other between two indices. -/
def TokenStream.Holds (stream : TokenStream) (i j : Nat) (own : List Token) : Prop :=
  ∃ a b, i ≤ a ∧ b ≤ j ∧ own = stream.between a b

/-- The span is that from one token to another between two indices. -/
def TokenStream.Spans (stream : TokenStream) (i j : Nat) (span : Span) : Prop :=
  ∃ a b, i ≤ a ∧ a ≤ b ∧ b < j ∧ span = (stream.get a).span.cover (stream.get b).span

namespace TokenStream

variable {stream : TokenStream} {i j k l : Nat}

theorem Holds.mono {own : List Token} (h : stream.Holds j k own) (hi : i ≤ j) (hl : k ≤ l) :
    stream.Holds i l own := by
  obtain ⟨a, b, ha, hb, same⟩ := h
  exact ⟨a, b, by omega, by omega, same⟩

theorem Spans.mono {span : Span} (h : stream.Spans j k span) (hi : i ≤ j) (hl : k ≤ l) :
    stream.Spans i l span := by
  obtain ⟨a, b, ha, le, hb, same⟩ := h
  exact ⟨a, b, by omega, le, by omega, same⟩

end TokenStream

structure StyleDeclaration.BuiltFrom (stream : TokenStream) (i j : Nat) (d : StyleDeclaration) :
    Prop where
  property : ∃ own, stream.Holds i j own ∧ d.property = Style.line .value own
  value : ∃ own, stream.Holds i j own ∧
    d.value = Style.line .value ((Style.beforeImportant? own).getD own) ∧
    d.important = (Style.beforeImportant? own).isSome
  span : stream.Spans i j d.span

/-- A rule, with all it holds, of the tokens between two indices. -/
inductive StyleNode.BuiltFrom (stream : TokenStream) (i j : Nat) : StyleNode → Prop
  | rule {selector : List Token} {declarations : List StyleDeclaration} {rules : List StyleNode}
      {span : Span} (text : stream.Holds i j selector)
      (ds : ∀ d ∈ declarations, d.BuiltFrom stream i j)
      (rs : ∀ node ∈ rules, BuiltFrom stream i j node) (whole : stream.Spans i j span) :
      BuiltFrom stream i j (.rule (Style.line .selector selector) declarations rules span)
  | atRule {n : Nat} {prelude : List Token} {hasBlock : Bool}
      {declarations : List StyleDeclaration} {rules : List StyleNode} {span : Span}
      (from_i : i ≤ n) (to_j : n < j) (text : stream.Holds i j prelude)
      (ds : ∀ d ∈ declarations, d.BuiltFrom stream i j)
      (rs : ∀ node ∈ rules, BuiltFrom stream i j node) (whole : stream.Spans i j span) :
      BuiltFrom stream i j (.atRule (Style.lower (stream.get n).raw) (Style.line .value prelude)
        hasBlock declarations rules span)

section

variable {stream : TokenStream} {i j k l : Nat}

theorem StyleDeclaration.BuiltFrom.mono {d : StyleDeclaration} (h : d.BuiltFrom stream j k)
    (hi : i ≤ j) (hl : k ≤ l) : d.BuiltFrom stream i l where
  property := by
    obtain ⟨own, holds, same⟩ := h.property
    exact ⟨own, holds.mono hi hl, same⟩
  value := by
    obtain ⟨own, holds, same⟩ := h.value
    exact ⟨own, holds.mono hi hl, same⟩
  span := h.span.mono hi hl

theorem StyleNode.BuiltFrom.mono {node : StyleNode} (h : node.BuiltFrom stream j k)
    (hi : i ≤ j) (hl : k ≤ l) : node.BuiltFrom stream i l := by
  induction h with
  | rule text ds _ whole ih =>
    exact .rule (text.mono hi hl) (fun d member => (ds d member).mono hi hl) ih (whole.mono hi hl)
  | atRule from_j to_k text ds _ whole ih =>
    exact .atRule (by omega) (by omega) (text.mono hi hl)
      (fun d member => (ds d member).mono hi hl) ih (whole.mono hi hl)

end

namespace Style

open PulseSyntax.Parser

/-- What has been read of a body is built from the tokens since its opening brace, and its next item
    has not begun. -/
structure BodyRead (stream : TokenStream) (i : Nat) (body : Body) (j : Nat) : Prop where
  declarations : ∀ d ∈ body.declarations.toList, d.BuiltFrom stream i j
  rules : ∀ node ∈ body.rules.toList, node.BuiltFrom stream i j
  leads : ∀ rules, ∃ standing, Leads stream ⟨rules, .start⟩ i standing j ∧
    standing.Between rules (stream.get j).kind

/-- The rule is built from the tokens that were read for it, and reaches to the last of them, apart
    from a semicolon. -/
structure NodeRead (stream : TokenStream) (i : Nat) (node : StyleNode) (j : Nat) : Prop where
  progress : i < j
  built : node.BuiltFrom stream i j
  leads : ∀ rules, ∃ standing, Leads stream ⟨rules, .item 0⟩ i standing j ∧
    standing.Between rules (stream.get j).kind
  reach : ∃ last, (stream.get last).span.stop ≤ node.span.stop ∧
    (j = last + 1 ∨ j = last + 2 ∧ (stream.get (last + 1)).kind = .symbol .semicolon)

def ReadsNode (p : Parser StyleNode) : Prop :=
  ∀ ⦃scope s node t⦄, p scope s = .ok node t → NodeRead scope.stream s.cursor node t.cursor

structure Nested.ReadsNodes (nested : Nested) : Prop where
  rule : ReadsNode nested.rule
  atRule : ReadsNode nested.atRule

variable {scope : Scope} {s t : ParserState} {nested : Nested}

theorem eatSemicolon_ok {eaten : Bool} (h : eatSymbol .semicolon scope s = .ok eaten t) :
    (t.cursor = s.cursor ∨
      t.cursor = s.cursor + 1 ∧ (scope.stream.get s.cursor).kind = .symbol .semicolon) ∧
      ∀ {rules standing}, standing.Between rules (scope.stream.get s.cursor).kind →
        ∃ next, Leads scope.stream standing s.cursor next t.cursor ∧
          next.Between rules (scope.stream.get t.cursor).kind := by
  rw [eatSymbol, eat_apply (by simp)] at h
  split at h
  · next hk =>
    cases h
    exact ⟨.inr ⟨rfl, hk⟩, fun between => ⟨_, between.semicolon hk, .inl rfl⟩⟩
  · cases h
    exact ⟨.inl rfl, fun between => ⟨_, .refl _ _ _, between⟩⟩

theorem declaration_ok {d : StyleDeclaration} (h : declaration scope s = .ok d t) :
    endsProperty (scope.stream.get s.cursor).kind = false ∧ s.cursor < t.cursor ∧
      d.BuiltFrom scope.stream s.cursor t.cursor ∧
      ∀ rules, ∃ standing, Leads scope.stream ⟨rules, .property⟩ s.cursor standing t.cursor ∧
        standing.Between rules (scope.stream.get t.cursor).kind := by
  rw [declaration, bind_of_ok current_apply] at h
  obtain ⟨property, u, readProperty, h⟩ := bind_eq_ok.mp h
  dsimp only at h
  split at h
  · exact absurd h fail_ne_ok
  next someProperty =>
  rw [bind_of_ok (isSymbol_apply _)] at h
  split at h
  · rw [bind_of_ok current_apply] at h
    exact absurd h fail_ne_ok
  next colon =>
  simp only [Bool.not_eq_true', Bool.not_eq_false, beq_iff_eq] at colon
  rw [bind_of_ok (advance_apply (by simp [colon]))] at h
  obtain ⟨value, v, readValue, h⟩ := bind_eq_ok.mp h
  split at h
  · exact absurd h fail_ne_ok
  rw [bind_of_ok previous_apply] at h
  obtain ⟨eaten, w, semicolon, h⟩ := bind_eq_ok.mp h
  cases h
  have onward := ((propertyTokens_ok readProperty 0).2.1).le
  have further := (itemTokens_ok readValue 0).2.choose_spec.1.le
  have passed := (eatSemicolon_ok semicolon).1
  rw [ParserState.ahead_cursor] at further
  refine ⟨?_, by omega, ⟨?_, ?_, ?_⟩, fun rules => ?_⟩
  · rcases (propertyTokens_ok readProperty 0).2.2 with nothing | begins
    · rw [(propertyTokens_ok readProperty 0).1, nothing, TokenStream.between_self] at someProperty
      exact absurd rfl someProperty
    · exact begins
  · exact ⟨property, ⟨_, _, Nat.le_refl _, by omega, (propertyTokens_ok readProperty 0).1⟩, rfl⟩
  · exact ⟨value, ⟨u.cursor + 1, v.cursor, by omega, by omega, (itemTokens_ok readValue 0).1⟩,
      rfl, rfl⟩
  · exact ⟨s.cursor, v.cursor - 1, Nat.le_refl _, by omega, by omega, rfl⟩
  · obtain ⟨-, name, -⟩ := propertyTokens_ok readProperty rules
    obtain ⟨-, standing, item, between⟩ := itemTokens_ok readValue rules
    obtain ⟨next, last, between⟩ := (eatSemicolon_ok semicolon).2 between
    have pass : Leads scope.stream ⟨rules, .property⟩ u.cursor ⟨rules, .item 0⟩ (u.cursor + 1) := by
      apply Leads.step (by simp [colon])
      simp [Standing.after, colon]
    exact ⟨next, ((name.trans pass).trans item).trans last, between⟩

section

variable {stream : TokenStream} {i j k : Nat} {body next : Body} {node : StyleNode}

theorem kind_ne_of_terminator
    (block : terminator 0 (stream.tokensFrom i) = .symbol .openBrace) :
    (stream.get i).kind ≠ .endOfFile := by
  intro atEnd
  rcases tokens : stream.tokensFrom i with _ | ⟨t, rest⟩
  · rw [tokens] at block
    cases block
  · rw [TokenStream.get_of_tokensFrom tokens] at atEnd
    rw [tokens, terminator, atEnd] at block
    cases block

theorem NodeRead.onward (read : NodeRead stream j node k)
    (begins : (stream.get j).kind = .symbol .atSign ∨
      terminator 0 (stream.tokensFrom j) = .symbol .openBrace)
    {rules : Nat} {standing : Standing} (between : standing.Between rules (stream.get j).kind) :
    ∃ next, Leads stream standing j next k ∧ next.Between rules (stream.get k).kind := by
  obtain ⟨next, leads, after⟩ := read.leads rules
  have more : (stream.get j).kind ≠ .endOfFile := by
    rcases begins with hk | block
    · simp [hk]
    · exact kind_ne_of_terminator block
  refine ⟨next, leads.of_length_eq ?_, after⟩
  rw [TokenStream.tokensFrom_of_kind_ne more] at begins ⊢
  exact between.length_item begins

theorem BodyRead.onward (read : BodyRead stream i body j) (le : j ≤ k)
    (ds : ∀ d ∈ next.declarations.toList,
      d ∈ body.declarations.toList ∨ d.BuiltFrom stream j k)
    (rs : ∀ node ∈ next.rules.toList, node ∈ body.rules.toList ∨ node.BuiltFrom stream j k)
    (leads : ∀ {rules standing}, Standing.Between standing rules (stream.get j).kind →
      ∃ later, Leads stream standing j later k ∧ later.Between rules (stream.get k).kind) :
    BodyRead stream i next k := by
  have from_i : i ≤ j := (read.leads 0).choose_spec.1.le
  refine ⟨fun d member => ?_, fun node member => ?_, fun rules => ?_⟩
  · rcases ds d member with old | new
    · exact (read.declarations d old).mono (Nat.le_refl i) le
    · exact new.mono from_i (Nat.le_refl k)
  · rcases rs node member with old | new
    · exact (read.rules node old).mono (Nat.le_refl i) le
    · exact new.mono from_i (Nat.le_refl k)
  · obtain ⟨standing, first, between⟩ := read.leads rules
    obtain ⟨later, second, between⟩ := leads between
    exact ⟨later, first.trans second, between⟩

end

theorem mem_push {xs : Array α} {x y : α} (member : y ∈ (xs.push x).toList) :
    y ∈ xs.toList ∨ y = x := by
  simpa using member

theorem blockFollows_apply : blockFollows scope s =
    .ok (terminator 0 (scope.stream.tokensFrom s.cursor) == .symbol .openBrace) s := rfl

theorem bodyItem_ok (h : nested.ReadsNodes) {i : Nat} {body next : Body}
    (inv : BodyRead scope.stream i body s.cursor)
    (read : bodyItem nested body scope s = .ok (.yield next) t) :
    BodyRead scope.stream i next t.cursor ∧ s.cursor < t.cursor := by
  rw [bodyItem, bind_of_ok current_apply] at read
  change Parser.run _ scope s = _ at read
  split at read
  · cases read
  · cases read
  · next hk =>
    rw [Parser.run, bind_of_ok (advance_apply (by simp [hk]))] at read
    cases read
    refine ⟨inv.onward (Nat.le_succ _) (fun _ => .inl) (fun _ => .inl) ?_, Nat.lt_succ_self _⟩
    intro rules standing between
    exact ⟨_, between.semicolon hk, .inl rfl⟩
  · next hk =>
    obtain ⟨node, u, readNode, read⟩ := bind_eq_ok.mp read
    cases read
    have made := h.atRule readNode
    refine ⟨inv.onward (Nat.le_of_lt made.progress) (fun _ => .inl) ?_ (made.onward (.inl hk)),
      made.progress⟩
    intro other member
    rcases mem_push member with old | rfl
    · exact .inl old
    · exact .inr made.built
  · next noBrace noEnd noSemicolon noAt =>
    rw [Parser.run, bind_of_ok blockFollows_apply] at read
    split at read
    · next block =>
      rw [beq_iff_eq] at block
      obtain ⟨node, u, readNode, read⟩ := bind_eq_ok.mp read
      cases read
      have made := h.rule readNode
      refine ⟨inv.onward (Nat.le_of_lt made.progress) (fun _ => .inl) ?_
        (made.onward (.inr block)), made.progress⟩
      intro other member
      rcases mem_push member with old | rfl
      · exact .inl old
      · exact .inr made.built
    · next noBlock =>
      rw [beq_iff_eq] at noBlock
      obtain ⟨d, u, readDeclaration, read⟩ := bind_eq_ok.mp read
      cases read
      obtain ⟨begins, progress, built, leads⟩ := declaration_ok readDeclaration
      simp only [endsProperty, Bool.or_eq_false_iff, beq_eq_false_iff_ne] at begins
      refine ⟨inv.onward (Nat.le_of_lt progress) ?_ (fun _ => .inl) ?_, progress⟩
      · intro other member
        rcases mem_push member with old | rfl
        · exact .inl old
        · exact .inr built
      · intro rules standing between
        obtain ⟨later, onward, after⟩ := leads rules
        refine ⟨later, onward.of_length_eq ?_, after⟩
        rw [TokenStream.tokensFrom_of_kind_ne noEnd] at noBlock ⊢
        exact between.length_property noEnd noAt begins.1.1 begins.1.2 noBlock

theorem bodyItem_done {body final : Body}
    (read : bodyItem nested body scope s = .ok (.done final) t) : final = body ∧ t = s := by
  rw [bodyItem, bind_of_ok current_apply] at read
  change Parser.run _ scope s = _ at read
  split at read
  · cases read
    exact ⟨rfl, rfl⟩
  · cases read
    exact ⟨rfl, rfl⟩
  · obtain ⟨_, _, -, read⟩ := bind_eq_ok.mp read
    cases read
  · obtain ⟨_, _, -, read⟩ := bind_eq_ok.mp read
    cases read
  · rw [Parser.run, bind_of_ok blockFollows_apply] at read
    split at read
    · obtain ⟨_, _, -, read⟩ := bind_eq_ok.mp read
      cases read
    · obtain ⟨_, _, -, read⟩ := bind_eq_ok.mp read
      cases read

theorem bodyParser_ok (h : nested.ReadsNodes) (reads : nested.ReadsOn) {body : Body} {close : Span}
    (read : bodyParser nested scope s = .ok (body, close) t) :
    s.cursor < t.cursor ∧ close = (scope.stream.get (t.cursor - 1)).span ∧
      (∀ d ∈ body.declarations.toList, d.BuiltFrom scope.stream s.cursor t.cursor) ∧
      (∀ node ∈ body.rules.toList, node.BuiltFrom scope.stream s.cursor t.cursor) ∧
      ∀ rules, Leads scope.stream ⟨rules + 1, .start⟩ s.cursor ⟨rules, .start⟩ t.cursor := by
  obtain ⟨items, u, readItems, read⟩ := bind_eq_ok.mp read
  obtain ⟨closing, v, readClose, read⟩ := bind_eq_ok.mp read
  cases read
  obtain ⟨hk, rfl, rfl⟩ := (expect_eq_ok (by simp)).mp readClose
  have first : BodyRead scope.stream s.cursor ⟨#[], #[]⟩ s.cursor :=
    ⟨by simp, by simp, fun rules => ⟨_, .refl _ _ _, .inl rfl⟩⟩
  obtain ⟨last, w, inv, -, done⟩ :=
    loop_ok (I := fun body u => BodyRead scope.stream s.cursor body u.cursor)
      (readsOn_bodyItem reads) (bodyItem_ok h) first readItems
  obtain ⟨rfl, rfl⟩ := bodyItem_done done
  have le : s.cursor ≤ u.cursor := (inv.leads 0).choose_spec.1.le
  refine ⟨Nat.lt_succ_of_le le, rfl, ?_, ?_, fun rules => ?_⟩
  · intro d member
    exact (inv.declarations d member).mono (Nat.le_refl _) (Nat.le_succ _)
  · intro node member
    exact (inv.rules node member).mono (Nat.le_refl _) (Nat.le_succ _)
  · obtain ⟨standing, leads, between⟩ := inv.leads (rules + 1)
    exact leads.trans (between.closeBrace hk)

theorem readsNode_ruleAt (h : nested.ReadsNodes) (reads : nested.ReadsOn) :
    ReadsNode (ruleAt nested) := by
  intro scope s node t read
  rw [ruleAt, bind_of_ok current_apply] at read
  obtain ⟨selector, u, readSelector, read⟩ := bind_eq_ok.mp read
  dsimp only at read
  split at read
  · exact absurd read fail_ne_ok
  obtain ⟨opening, v, readOpening, read⟩ := bind_eq_ok.mp read
  obtain ⟨hk, -, rfl⟩ := (expect_eq_ok (by simp)).mp readOpening
  obtain ⟨⟨body, close⟩, w, readBody, read⟩ := bind_eq_ok.mp read
  cases read
  obtain ⟨progress, rfl, ds, rs, leads⟩ := bodyParser_ok h reads readBody
  have le : s.cursor ≤ u.cursor := (itemTokens_ok readSelector 0).2.choose_spec.1.le
  rw [ParserState.ahead_cursor] at progress ds rs leads
  refine ⟨by omega, .rule ?_ ?_ ?_ ?_, fun rules => ?_, ?_⟩
  · exact ⟨_, _, Nat.le_refl _, by omega, (itemTokens_ok readSelector 0).1⟩
  · exact fun d member => (ds d member).mono (by omega) (Nat.le_refl _)
  · exact fun node member => (rs node member).mono (by omega) (Nat.le_refl _)
  · exact ⟨s.cursor, t.cursor - 1, Nat.le_refl _, by omega, by omega, rfl⟩
  · obtain ⟨-, standing, item, between⟩ := itemTokens_ok readSelector rules
    exact ⟨_, (item.trans (between.openBrace hk)).trans (leads rules), .inl rfl⟩
  · exact ⟨t.cursor - 1, Nat.le_max_right _ _, .inl (by omega)⟩

theorem atName_ok {atSign : Token} {name : String} (read : atName atSign scope s = .ok name t) :
    (scope.stream.get s.cursor).kind = .identifier ∧
      name = lower (scope.stream.get s.cursor).raw ∧ t = s.ahead 1 := by
  rw [atName, bind_of_ok current_apply] at read
  split at read
  · exact absurd read fail_ne_ok
  next hk =>
  split at read
  · exact absurd read fail_ne_ok
  simp only [Bool.or_eq_true, bne_iff_ne, not_or, ne_eq, Classical.not_not] at hk
  rw [bind_of_ok (advance_apply (by simp [hk.1]))] at read
  cases read
  exact ⟨hk.1, rfl, rfl⟩

theorem readsNode_atRuleAt (h : nested.ReadsNodes) (reads : nested.ReadsOn) :
    ReadsNode (atRuleAt nested) := by
  intro scope s node t read
  obtain ⟨atSign, u, readAt, read⟩ := bind_eq_ok.mp read
  obtain ⟨hat, rfl, rfl⟩ := (expect_eq_ok (by simp)).mp readAt
  obtain ⟨name, v, readName, read⟩ := bind_eq_ok.mp read
  obtain ⟨hname, rfl, rfl⟩ := atName_ok readName
  obtain ⟨prelude, u, readPrelude, read⟩ := bind_eq_ok.mp read
  have le : s.cursor + 1 + 1 ≤ u.cursor := (itemTokens_ok readPrelude 0).2.choose_spec.1.le
  have text {j : Nat} (hj : u.cursor ≤ j) : scope.stream.Holds s.cursor j prelude :=
    ⟨s.cursor + 1 + 1, u.cursor, by omega, hj, (itemTokens_ok readPrelude 0).1⟩
  -- Neither the sign nor the name opens, closes or ends anything.
  have leads (rules : Nat) : ∃ standing,
      Leads scope.stream ⟨rules, .item 0⟩ s.cursor standing u.cursor ∧
        standing.Between rules (scope.stream.get u.cursor).kind := by
    obtain ⟨-, standing, item, between⟩ := itemTokens_ok readPrelude rules
    have sign : Leads scope.stream ⟨rules, .item 0⟩ s.cursor ⟨rules, .item 0⟩ (s.cursor + 1) := by
      have step := @Leads.item scope.stream s.cursor rules 0 (by simp [hat]) (by simp [hat, endsItem])
      rwa [hat] at step
    have word : Leads scope.stream ⟨rules, .item 0⟩ (s.cursor + 1) ⟨rules, .item 0⟩
        (s.cursor + 1 + 1) := by
      rw [ParserState.ahead_cursor] at hname
      have step := @Leads.item scope.stream (s.cursor + 1) rules 0 (by simp [hname])
        (by simp [hname, endsItem])
      rwa [hname] at step
    exact ⟨standing, (sign.trans word).trans item, between⟩
  obtain ⟨block, v, readOpening, read⟩ := bind_eq_ok.mp read
  rw [eatSymbol, eat_apply (by simp)] at readOpening
  split at readOpening
  · next hk =>
    cases readOpening
    obtain ⟨⟨body, close⟩, w, readBody, read⟩ := bind_eq_ok.mp read
    cases read
    obtain ⟨progress, rfl, ds, rs, rest⟩ := bodyParser_ok h reads readBody
    rw [ParserState.ahead_cursor] at progress ds rs rest
    refine ⟨by omega, .atRule (Nat.le_succ _) ?_ (text (by omega)) ?_ ?_ ?_, fun rules => ?_, ?_⟩
    · rw [ParserState.ahead_cursor]
      omega
    · exact fun d member => (ds d member).mono (by omega) (Nat.le_refl _)
    · exact fun node member => (rs node member).mono (by omega) (Nat.le_refl _)
    · exact ⟨s.cursor, t.cursor - 1, Nat.le_refl _, by omega, by omega, rfl⟩
    · obtain ⟨standing, first, between⟩ := leads rules
      exact ⟨_, (first.trans (between.openBrace hk)).trans (rest rules), .inl rfl⟩
    · exact ⟨t.cursor - 1, Nat.le_max_right _ _, .inl (by omega)⟩
  · cases readOpening
    rw [if_neg (by simp), bind_of_ok previous_apply] at read
    obtain ⟨eaten, w, semicolon, read⟩ := bind_eq_ok.mp read
    cases read
    obtain ⟨passed, onward⟩ := eatSemicolon_ok semicolon
    refine ⟨by omega, .atRule (Nat.le_succ _) ?_ (text (by omega)) (by simp) (by simp) ?_,
      fun rules => ?_, ?_⟩
    · rw [ParserState.ahead_cursor]
      omega
    · exact ⟨s.cursor, u.cursor - 1, Nat.le_refl _, by omega, by omega, rfl⟩
    · obtain ⟨standing, first, between⟩ := leads rules
      obtain ⟨next, second, between⟩ := onward between
      exact ⟨next, first.trans second, between⟩
    · refine ⟨u.cursor - 1, Nat.le_max_right _ _, ?_⟩
      have same : u.cursor - 1 + 1 = u.cursor := by omega
      rcases passed with here | ⟨further, hk⟩
      · exact .inl (by omega)
      · exact .inr ⟨by omega, by rw [same, hk]⟩

theorem ReadsNode.deeper {p : Parser StyleNode} (h : ReadsNode p) : ReadsNode (deeper p) := by
  intro scope s node t read
  obtain ⟨u, inner, rfl⟩ := deeper_eq_ok.mp read
  have made := h inner
  exact made

theorem readsNode_failTooDeep : ReadsNode failTooDeep := by
  intro scope s node t read
  rw [failTooDeep, bind_of_ok scope_apply] at read
  exact absurd read fail_ne_ok

theorem readsNodes_within (levels : Nat) :
    Nested.ReadsNodes ⟨ruleWithin levels, atRuleWithin levels⟩ := by
  induction levels with
  | zero => exact ⟨readsNode_failTooDeep, readsNode_failTooDeep⟩
  | succ levels ih =>
    have reads := readsOn_within levels
    exact ⟨(readsNode_ruleAt ih reads).deeper, (readsNode_atRuleAt ih reads).deeper⟩

/-- The rules that have been read up to `j`, the end of the block being at `stop`. A rule that has
    been read beyond it reaches beyond it. -/
structure RulesRead (stream : TokenStream) (i stop : Nat) (rules : List StyleNode) (j : Nat) :
    Prop where
  built : ∀ node ∈ rules, node.BuiltFrom stream i j
  leads : ∃ standing, Leads stream ⟨0, .start⟩ i standing j ∧
    standing.Between 0 (stream.get j).kind
  beyond : stop < j → ∃ node ∈ rules, ∃ last, stop ≤ last ∧
    (stream.get last).span.stop ≤ node.span.stop

theorem RulesRead.push {stream : TokenStream} {i stop j k : Nat} {rules : Array StyleNode}
    {node : StyleNode} (read : RulesRead stream i stop rules.toList j) (below : j < stop)
    (hc : (stream.get stop).kind = .symbol .closeBrace) (made : NodeRead stream j node k)
    (begins : (stream.get j).kind = .symbol .atSign ∨
      terminator 0 (stream.tokensFrom j) = .symbol .openBrace) :
    RulesRead stream i stop (rules.push node).toList k := by
  obtain ⟨standing, first, between⟩ := read.leads
  refine ⟨fun other member => ?_, ?_, fun further => ?_⟩
  · rcases mem_push member with old | rfl
    · exact (read.built other old).mono (Nat.le_refl i) (Nat.le_of_lt made.progress)
    · exact made.built.mono first.le (Nat.le_refl k)
  · obtain ⟨next, second, between⟩ := made.onward begins between
    exact ⟨next, first.trans second, between⟩
  · obtain ⟨last, reach, ends | ⟨ends, semicolon⟩⟩ := made.reach
    · exact ⟨node, by simp, last, by omega, reach⟩
    · refine ⟨node, by simp, last, ?_, reach⟩
      -- The brace at `stop` is no semicolon.
      have other : last + 1 ≠ stop := by
        rintro rfl
        rw [hc] at semicolon
        cases semicolon
      omega

theorem rulesItem_ok {i stop : Nat} {rules next : Array StyleNode}
    (hc : (scope.stream.get stop).kind = .symbol .closeBrace)
    (inv : RulesRead scope.stream i stop rules.toList s.cursor)
    (read : rulesItem stop rules scope s = .ok (.yield next) t) :
    RulesRead scope.stream i stop next.toList t.cursor ∧ s.cursor < t.cursor := by
  rw [rulesItem, bind_of_ok cursor_apply] at read
  split at read
  · cases read
  next below =>
  rw [bind_of_ok current_apply] at read
  change Parser.run _ scope s = _ at read
  split at read
  · next hk =>
    rw [Parser.run, bind_of_ok (advance_apply (by simp [hk]))] at read
    cases read
    obtain ⟨standing, first, between⟩ := inv.leads
    refine ⟨⟨?_, ?_, fun beyond => ?_⟩, Nat.lt_succ_self _⟩
    · exact fun node member => (inv.built node member).mono (Nat.le_refl i) (Nat.le_succ _)
    · exact ⟨_, first.trans (between.semicolon hk), .inl rfl⟩
    · rw [ParserState.ahead_cursor] at beyond
      omega
  · next hk =>
    obtain ⟨node, u, readNode, read⟩ := bind_eq_ok.mp read
    cases read
    have made := (readsNodes_within _).atRule readNode
    exact ⟨inv.push (by omega) hc made (.inl hk), made.progress⟩
  · rw [Parser.run, bind_of_ok blockFollows_apply] at read
    split at read
    · next block =>
      rw [beq_iff_eq] at block
      obtain ⟨node, u, readNode, read⟩ := bind_eq_ok.mp read
      cases read
      have made := (readsNodes_within _).rule readNode
      exact ⟨inv.push (by omega) hc made (.inr block), made.progress⟩
    · rw [bind_of_ok current_apply] at read
      exact absurd read fail_ne_ok

theorem rulesItem_done {stop : Nat} {rules final : Array StyleNode}
    (read : rulesItem stop rules scope s = .ok (.done final) t) :
    final = rules ∧ t = s ∧ stop ≤ s.cursor := by
  rw [rulesItem, bind_of_ok cursor_apply] at read
  split at read
  · next beyond =>
    cases read
    exact ⟨rfl, rfl, beyond⟩
  rw [bind_of_ok current_apply] at read
  change Parser.run _ scope s = _ at read
  split at read
  · obtain ⟨_, _, -, read⟩ := bind_eq_ok.mp read
    cases read
  · obtain ⟨_, _, -, read⟩ := bind_eq_ok.mp read
    cases read
  · rw [Parser.run, bind_of_ok blockFollows_apply] at read
    split at read
    · obtain ⟨_, _, -, read⟩ := bind_eq_ok.mp read
      cases read
    · rw [bind_of_ok current_apply] at read
      exact absurd read fail_ne_ok

theorem rulesParser_ok {stop : Nat} {rules : List StyleNode}
    (hc : (scope.stream.get stop).kind = .symbol .closeBrace) (le : s.cursor ≤ stop)
    (read : rulesParser stop scope s = .ok rules t) :
    RulesRead scope.stream s.cursor stop rules t.cursor ∧ stop ≤ t.cursor := by
  obtain ⟨items, u, readItems, read⟩ := bind_eq_ok.mp read
  cases read
  have first : RulesRead scope.stream s.cursor stop (#[] : Array StyleNode).toList s.cursor :=
    ⟨by simp, ⟨_, .refl _ _ _, .inl rfl⟩, fun beyond => by omega⟩
  obtain ⟨last, v, inv, -, done⟩ :=
    loop_ok (I := fun rules u => RulesRead scope.stream s.cursor stop rules.toList u.cursor)
      (readsOn_rulesItem stop) (rulesItem_ok hc) first readItems
  obtain ⟨rfl, rfl, beyond⟩ := rulesItem_done done
  exact ⟨inv, beyond⟩

theorem RulesRead.length_iff {stream : TokenStream} {i stop j : Nat} {rules : List StyleNode}
    (read : RulesRead stream i stop rules j) (hc : (stream.get stop).kind = .symbol .closeBrace)
    (below : i ≤ stop) (beyond : stop ≤ j) :
    lengthAsRead? (stream.tokensFrom i) = some (stop - i) ↔ j = stop := by
  obtain ⟨standing, leads, between⟩ := read.leads
  rw [lengthAsRead?, leads.length]
  constructor
  · intro same
    obtain ⟨n, -, sum⟩ := Option.map_eq_some_iff.mp same
    omega
  · rintro rfl
    rw [TokenStream.tokensFrom_of_kind_ne (by simp [hc]), between.length_close hc]
    simp

end Style

end PulseSyntax
