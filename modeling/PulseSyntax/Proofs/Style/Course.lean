import PulseSyntax.Proofs.Parser.Course
import PulseSyntax.Proofs.Style.Overrun

namespace PulseSyntax

open PulseSyntax.Parser PulseSyntax.Course

variable {c : Course}

namespace Style

theorem turning_itemToken : c.Turning itemToken := by
  intro depth s hs
  refine .atCurrent (.ite (fun _ => .done) fun goesOn => ?_)
  simp only [Bool.or_eq_true, beq_iff_eq, not_or] at goesOn
  exact .token goesOn.1 hs (Nat.zero_le _) (steady_pure _)

theorem turning_propertyToken : c.Turning propertyToken := by
  intro _ s hs
  refine .atCurrent (.ite (fun _ => .done) fun goesOn => ?_)
  simp only [endsProperty, Bool.or_eq_true, beq_iff_eq, not_or] at goesOn
  exact .token goesOn.2 hs (Nat.zero_le _) (steady_pure _)

/-- A slice of the tokens has been read from one cursor to another inside the sequence. -/
structure Slices (scope : Scope) (p : Parser (List Token)) (s t : ParserState) : Prop where
  answer : p scope s = .ok (scope.stream.between s.cursor t.cursor) t
  reaches : ParserState.Reaches scope s t

theorem exists_iterate {σ : Type} {step : σ → Parser (ForInStep σ)} {scope : Scope}
    (answers : ∀ a s, ∃ next t, step a scope s = .ok next t) (rounds : Nat) (a : σ)
    (s : ParserState) : ∃ b t, iterate step rounds a scope s = .ok b t := by
  induction rounds generalizing a s with
  | zero => exact ⟨a, s, rfl⟩
  | succ rounds ih =>
    obtain ⟨next, t, answer⟩ := answers a s
    rw [iterate, bind_of_ok answer]
    cases next with
    | done b => exact ⟨b, t, rfl⟩
    | yield b => exact ih b t

theorem exists_slices {σ : Type} {step : σ → Parser (ForInStep σ)} {first : σ} {scope : Scope}
    (turns : ∀ c : Course, c.Turning step)
    (answers : ∀ a s, ∃ next t, step a scope s = .ok next t) (s : ParserState) :
    ∃ t, Slices scope (do
      let start ← cursor
      let _ ← loop step first
      tokensBetween start (← cursor)) s t := by
  let c : Course := ⟨scope, s.depth, False⟩
  obtain ⟨b, t, read⟩ : ∃ b t, loop step first scope s = .ok b t := exists_iterate answers _ _ _
  refine ⟨t, ?_, ((turns c).steady first s rfl).reaches read⟩
  rw [bind_of_ok cursor_apply, bind_of_ok read]
  rfl

theorem itemTokens_slices (scope : Scope) (s : ParserState) :
    ∃ t, Slices scope itemTokens s t := by
  refine exists_slices (fun _ => turning_itemToken) (fun depth s => ?_) s
  rw [itemToken, bind_of_ok current_apply]
  split
  · exact ⟨_, _, rfl⟩
  · exact ⟨_, _, rfl⟩

theorem propertyTokens_slices (scope : Scope) (s : ParserState) :
    ∃ t, Slices scope propertyTokens s t := by
  refine exists_slices (fun _ => turning_propertyToken) (fun _ s => ?_) s
  rw [propertyToken, bind_of_ok current_apply]
  split
  · exact ⟨_, _, rfl⟩
  · exact ⟨_, _, rfl⟩

theorem proceeds_itemTokens {β : Type} {slack : Nat} {moved : β → Prop} {f : List Token → Parser β}
    {s : ParserState} (hs : s.depth = c.depth)
    (hf : ∀ own t, t.depth = c.depth → c.Proceeds slack moved (f own) t) :
    c.Proceeds slack moved (itemTokens >>= f) s :=
  let ⟨t, slices⟩ := itemTokens_slices c.scope s
  .reading slices.answer slices.reaches (hf _ t (slices.reaches.depth.trans hs))

theorem steady_itemTokens : c.Steady itemTokens := fun s _ =>
  let ⟨_, slices⟩ := itemTokens_slices c.scope s
  .of_reaches slices.answer slices.reaches False.elim

theorem moving_declaration : c.Moving declaration := by
  intro s hs
  obtain ⟨t, slices⟩ := propertyTokens_slices c.scope s
  have ht := slices.reaches.depth.trans hs
  refine .atCurrent (.reading slices.answer slices.reaches ?_)
  refine .ite (fun _ => .fail rfl) fun _ => .atIs (.ite (fun _ => .atCurrent (.fail rfl)) fun colon =>
    .token ?_ ht (Nat.zero_le _) ?_)
  · simp only [Bool.not_eq_true', Bool.not_eq_false, beq_iff_eq] at colon
    simp [colon]
  · exact steady_itemTokens.bind fun _ => .ite (steady_fail rfl) (steady_previous.bind fun _ =>
      (steady_eatSymbol _).bind fun _ => steady_pure _)

structure Nested.Moving (c : Course) (nested : Nested) : Prop where
  rule : c.Moving nested.rule
  atRule : c.Moving nested.atRule

variable {nested : Nested}

theorem turning_bodyItem (h : nested.Moving c) : c.Turning (bodyItem nested) := by
  intro body s hs
  refine .atCurrent ?_
  split
  · exact .done
  · exact .done
  · next semicolon => exact .token (by simp [semicolon]) hs (Nat.zero_le _) (steady_pure _)
  · exact h.atRule.proceeds hs fun _ => steady_pure _
  · refine .look rfl (.ite (fun _ => ?_) fun _ => ?_)
    · exact h.rule.proceeds hs fun _ => steady_pure _
    · exact moving_declaration.proceeds hs fun _ => steady_pure _

theorem steady_bodyParser (h : nested.Moving c) : c.Steady (bodyParser nested) :=
  ((turning_bodyItem h).steady _).bind fun _ => (starting_expectSymbol _).steady.bind fun _ =>
    steady_pure _

theorem starting_ruleAt (h : nested.Moving c) : c.Starting (ruleAt nested) := by
  intro s hs
  refine .atCurrent (proceeds_itemTokens hs fun own t ht => .ite (fun _ => .fail rfl) fun _ => ?_)
  exact (starting_expectSymbol _).bind (fun _ => (steady_bodyParser h).bind fun _ => steady_pure _)
    t ht

theorem steady_atName (atSign : Token) : c.Steady (atName atSign) :=
  steady_current.bind fun _ => .ite (steady_fail rfl) (.ite (steady_fail rfl)
    (steady_advance.bind fun _ => steady_pure _))

theorem starting_atRuleAt (h : nested.Moving c) : c.Starting (atRuleAt nested) := by
  refine (starting_expectSymbol _).bind fun atSign => (steady_atName atSign).bind fun _ =>
    steady_itemTokens.bind fun _ => (steady_eatSymbol _).bind fun _ => .ite ?_ ?_
  · exact (steady_bodyParser h).bind fun _ => steady_pure _
  · exact steady_previous.bind fun _ => (steady_eatSymbol _).bind fun _ => steady_pure _

theorem moving_within (levels : Nat)
    (left : c.fits → c.scope.options.maxDepth - c.depth ≤ levels) :
    Nested.Moving c ⟨ruleWithin levels, atRuleWithin levels⟩ := by
  induction levels generalizing c with
  | zero =>
    have none (fits : c.fits) : c.scope.options.maxDepth ≤ c.depth :=
      Nat.le_of_sub_eq_zero (Nat.le_zero.mp (left fits))
    exact ⟨moving_failTooDeep none, moving_failTooDeep none⟩
  | succ levels ih =>
    have inner : Nested.Moving c.deeper ⟨ruleWithin levels, atRuleWithin levels⟩ :=
      ih fun fits => by
        have left := left fits
        change c.scope.options.maxDepth - (c.depth + 1) ≤ levels
        omega
    exact ⟨(starting_ruleAt inner).deeper, (starting_atRuleAt inner).deeper⟩

theorem moving_rule : c.Moving (withLevels ruleWithin) := fun s hs =>
  ((moving_within _ fun _ => Nat.le_of_eq (by rw [hs])).rule s hs).congr rfl

theorem moving_atRule : c.Moving (withLevels atRuleWithin) := fun s hs =>
  ((moving_within _ fun _ => Nat.le_of_eq (by rw [hs])).atRule s hs).congr rfl

theorem turning_rulesItem (stop : Nat) : c.Turning (rulesItem stop) := by
  intro rules s hs
  refine .look rfl (.ite (fun _ => .done) fun _ => .atCurrent ?_)
  split
  · next semicolon => exact .token (by simp [semicolon]) hs (Nat.zero_le _) (steady_pure _)
  · exact moving_atRule.proceeds hs fun _ => steady_pure _
  · refine .look rfl (.ite (fun _ => ?_) fun _ => .atCurrent (.fail rfl))
    exact moving_rule.proceeds hs fun _ => steady_pure _

theorem steady_rulesParser (stop : Nat) : c.Steady (rulesParser stop) :=
  ((turning_rulesItem stop).steady _).bind fun _ => steady_pure _

structure ClosesAt (scope : Scope) (s : ParserState) (stop : Nat) : Prop where
  reaches : ParserState.Reaches scope s { s with cursor := stop }
  closing : (scope.stream.get stop).kind = .symbol .closeBrace

theorem ClosesAt.reaches_after {scope : Scope} {s : ParserState} {stop : Nat}
    (closes : ClosesAt scope s stop) : ParserState.Reaches scope s ⟨stop + 1, s.depth⟩ := by
  refine closes.reaches.trans (.ahead_one ?_)
  simp [closes.closing]

theorem findEnd_closesAt {scope : Scope} {s t : ParserState} {stop : Nat}
    (h : findEnd scope s = .ok stop t) : t = s ∧ ClosesAt scope s stop := by
  obtain ⟨same, body, close, rest, tokens, rfl, hc, -, inside⟩ := findEnd_ok h
  refine ⟨same, ⟨rfl, Nat.le_add_right _ _, fun i from_s before => ?_⟩, ?_⟩
  · obtain ⟨n, rfl⟩ := Nat.exists_eq_add_of_le from_s
    have within : n < body.length := Nat.lt_of_add_lt_add_left before
    have here : scope.stream.tokensFrom (s.cursor + n) =
        body[n] :: (body.drop (n + 1) ++ close :: rest) := by
      change scope.stream.tokensFrom s.cursor = _ at tokens
      rw [TokenStream.tokensFrom_add, tokens, List.drop_append_of_le_length (Nat.le_of_lt within),
        List.drop_eq_getElem_cons within]
      rfl
    rw [TokenStream.get_of_tokensFrom here]
    exact inside _ (List.getElem_mem within)
  · have closing := Scope.remaining_ahead tokens
    rw [show s.cursor + body.length = (s.ahead body.length).cursor from rfl,
      Scope.get_of_remaining closing, hc]

theorem lt_of_lengthToInvalid? {tokens : List Token} {length : Nat}
    (h : lengthToInvalid? tokens = some length) : length < tokens.length :=
  Nat.lt_of_lt_of_le (List.findIdx?_eq_some_iff_getElem.mp h).1
    (List.takeWhile_sublist _).length_le

theorem steady_findEnd : c.Steady findEnd := by
  have stops {s : ParserState} {e : ParseError} (i : Nat) (inside : i < c.scope.stream.size)
      (shallow : e.cause.isTooDeep = false) : c.Stops 0 s e { s with cursor := i } :=
    ⟨rfl, fun _ => inside, fun _ _ => shallow⟩
  intro s hs
  refine ⟨fun ok => ?_, fun _ => False.elim, fun failed => ?_⟩
  · obtain ⟨rfl, -⟩ := findEnd_closesAt ok
    exact .refl _ _
  · rw [findEnd, bind_of_ok cursor_apply, bind_of_ok scope_apply] at failed
    change Parser.run _ c.scope s = _ at failed
    split at failed
    · cases failed
    · next length _ found =>
      rw [Parser.run, bind_of_ok (seek_apply _), bind_of_ok current_apply, fail_apply] at failed
      cases failed
      have within := lt_of_lengthToInvalid? found
      rw [TokenStream.tokensFrom_eq, List.length_drop] at within
      exact stops _ (Nat.add_lt_of_lt_sub' within) rfl
    · rw [Parser.run, bind_of_ok (seek_apply _)] at failed
      obtain ⟨e, answer, shallow⟩ : ∃ e, (failWanted .styleEnd : Parser Nat) c.scope _ = .error e _ ∧
        e.cause.isTooDeep = false := exists_failWanted .styleEnd c.scope _
      rw [answer] at failed
      cases failed
      exact stops _ (Nat.sub_one_lt_of_lt c.scope.stream.nonempty) shallow

end Style

namespace StyleBlock

/-- What is read of a style block up to the token at index `stop`, made into a block. -/
def rulesUpTo (stop : Nat) (block : List StyleNode → Option String → Token → StyleBlock) :
    Parser StyleBlock := do
  let outcome ← attempt (Style.rulesParser stop)
  let (rules, parseError) ← match outcome with
    | .ok rules => pure (rules, none)
    | .error e =>
      if (← scope).options.styleFallback then pure ([], some e.display)
      else ofExcept (.error e)
  seek stop
  let close ← expectSymbol .closeBrace
  return block rules parseError close

variable {scope : Scope} {s : ParserState} {stop : Nat}
  (block : List StyleNode → Option String → Token → StyleBlock)

theorem rulesUpTo_of_error (strict : scope.options.styleFallback = false) {e : ParseError}
    {t : ParserState} (read : Style.rulesParser stop scope s = .error e t) :
    rulesUpTo stop block scope s = .error e t := by
  rw [rulesUpTo, bind_of_ok (attempt_of_error read)]
  dsimp only
  rw [bind_of_ok scope_apply, if_neg (by simp [strict])]
  rfl

theorem rulesUpTo_apply (closes : Style.ClosesAt scope s stop)
    (kept : scope.options.styleFallback ∨ ∃ rules t, Style.rulesParser stop scope s = .ok rules t) :
    ∃ rules parseError, rulesUpTo stop block scope s =
      .ok (block rules parseError (scope.stream.get stop)) ⟨stop + 1, s.depth⟩ := by
  have reads := Style.readsOn_rulesParser stop scope s
  have finish {t : ParserState} (onward : t.depth = s.depth) (rules : List StyleNode)
      (parseError : Option String) :
      (do seek stop; let close ← expectSymbol .closeBrace; return block rules parseError close)
        scope t = .ok (block rules parseError (scope.stream.get stop)) ⟨stop + 1, s.depth⟩ := by
    rw [bind_of_ok (seek_apply _), onward]
    exact bind_of_ok (expect_apply closes.closing (by simp))
  rw [rulesUpTo]
  cases read : Style.rulesParser stop scope s with
  | ok rules t =>
    rw [read] at reads
    rw [bind_of_ok (attempt_of_ok read)]
    exact ⟨rules, none, finish reads.depth rules none⟩
  | error e t =>
    rw [read] at reads kept
    have fallback : scope.options.styleFallback := kept.resolve_right nofun
    rw [bind_of_ok (attempt_of_error read)]
    dsimp only
    rw [bind_of_ok scope_apply, if_pos fallback]
    exact ⟨[], some e.display, finish reads.depth [] (some e.display)⟩

theorem proceeds_rulesUpTo (hs : s.depth = c.depth) (closes : Style.ClosesAt c.scope s stop) :
    c.Proceeds 0 (fun _ => False) (rulesUpTo stop block) s := by
  by_cases kept : c.scope.options.styleFallback ∨
      ∃ rules t, Style.rulesParser stop c.scope s = .ok rules t
  · obtain ⟨rules, parseError, answer⟩ := rulesUpTo_apply block closes kept
    exact .of_reaches answer closes.reaches_after False.elim
  · obtain ⟨strict, fails⟩ := not_or.mp kept
    cases read : Style.rulesParser stop c.scope s with
    | ok rules t => exact absurd ⟨rules, t, read⟩ fails
    | error e t =>
      have answer := rulesUpTo_of_error block (by simpa using strict) read
      have stops := (Style.steady_rulesParser stop s hs).stops read
      refine ⟨fun ok => ?_, fun _ => False.elim, fun failed => ?_⟩
      · rw [answer] at ok
        cases ok
      · rw [answer] at failed
        cases failed
        exact stops

theorem parser_eq : parser = (do
    let start ← expectKeyword .style
    let _ ← expectSymbol .openBrace
    let first ← cursor
    let stop ← Style.findEnd
    let tokens ← Style.tokensBetween first stop
    rulesUpTo stop fun rules parseError close =>
      ⟨Style.block tokens, rules, parseError, start.span.cover close.span⟩) := rfl

theorem parser_starting : c.Starting parser := by
  rw [parser_eq]
  refine (starting_expectKeyword _).bind fun start => (starting_expectSymbol _).steady.bind fun _ =>
    steady_cursor.bind fun first => fun s hs => ?_
  refine (Style.steady_findEnd s hs).bind hs fun stop t ht found => .inr ⟨rfl, ?_⟩
  obtain ⟨rfl, closes⟩ := Style.findEnd_closesAt found
  exact .look rfl (proceeds_rulesUpTo _ ht closes)

end StyleBlock

end PulseSyntax
