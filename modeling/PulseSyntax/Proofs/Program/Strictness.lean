import PulseSyntax.Block.Parser
import PulseSyntax.Component
import PulseSyntax.Proofs.Expr.Agree
import PulseSyntax.Proofs.Markup.Agree
import PulseSyntax.Proofs.Style.Block
import PulseSyntax.Style.Parser

namespace PulseSyntax.Style

open PulseSyntax.Parser PulseSyntax.Comparison

variable {c : Comparison}

theorem agree_blockFollows : c.Agree blockFollows blockFollows := agree_of_eq fun _ _ _ _ _ => rfl

theorem agree_tokensBetween (start stop : Nat) :
    c.Agree (tokensBetween start stop) (tokensBetween start stop) :=
  agree_of_eq fun _ _ _ _ _ => rfl

theorem agree_findEnd : c.Agree findEnd findEnd := by
  refine agree_of_eq fun stream _ _ _ s => ?_
  simp only [findEnd, bind_of_ok cursor_apply, bind_of_ok scope_apply]
  cases lengthToClose? 0 (stream.tokensFrom s.cursor) with
  | some length => rfl
  | none => cases lengthToInvalid? (stream.tokensFrom s.cursor) <;> rfl

theorem agree_itemToken (depth : Nat) : c.Agree (itemToken depth) (itemToken depth) :=
  agree_current.bind fun _ => .ite (agree_pure _) (agree_advance.bind fun _ => agree_pure _)

theorem agree_itemTokens : c.Agree itemTokens itemTokens :=
  agree_cursor.bind fun start => (Agree.loop agree_itemToken 0).bind fun _ =>
    agree_cursor.bind fun stop => agree_tokensBetween start stop

theorem agree_propertyToken (u : Unit) : c.Agree (propertyToken u) (propertyToken u) :=
  agree_current.bind fun _ => .ite (agree_pure _) (agree_advance.bind fun _ => agree_pure _)

theorem agree_propertyTokens : c.Agree propertyTokens propertyTokens :=
  agree_cursor.bind fun start => (Agree.loop agree_propertyToken ()).bind fun _ =>
    agree_cursor.bind fun stop => agree_tokensBetween start stop

theorem agree_declaration : c.Agree declaration declaration := by
  refine agree_current.bind fun _ => agree_propertyTokens.bind fun _ => .ite (agree_fail _) ?_
  refine (agree_is _).bind fun _ => .ite (agree_current.bind fun _ => agree_fail _) ?_
  refine agree_advance.bind fun _ => agree_itemTokens.bind fun _ => .ite (agree_fail _) ?_
  exact agree_previous.bind fun _ => (agree_eat _).bind fun _ => agree_pure _

structure Nested.Agree (c : Comparison) (first second : Nested) : Prop where
  rule : c.Agree first.rule second.rule
  atRule : c.Agree first.atRule second.atRule

variable {nested nested' : Nested}

theorem agree_bodyItem (h : nested.Agree c nested') (body : Body) :
    c.Agree (bodyItem nested body) (bodyItem nested' body) := by
  refine agree_current.bind fun t => ?_
  split
  · exact agree_pure _
  · exact agree_pure _
  · exact agree_advance.bind fun _ => agree_pure _
  · exact h.atRule.bind fun _ => agree_pure _
  · exact agree_blockFollows.bind fun _ => .ite (h.rule.bind fun _ => agree_pure _)
      (agree_declaration.bind fun _ => agree_pure _)

theorem agree_bodyParser (h : nested.Agree c nested') :
    c.Agree (bodyParser nested) (bodyParser nested') :=
  (Agree.loop (agree_bodyItem h) _).bind fun _ => (agree_expect _).bind fun _ => agree_pure _

theorem agree_ruleAt (h : nested.Agree c nested') : c.Agree (ruleAt nested) (ruleAt nested') :=
  agree_current.bind fun _ => agree_itemTokens.bind fun _ => .ite (agree_fail _)
    ((agree_expect _).bind fun _ => (agree_bodyParser h).bind fun _ => agree_pure _)

theorem agree_atName (atSign : Token) : c.Agree (atName atSign) (atName atSign) :=
  agree_current.bind fun _ => .ite (agree_fail _)
    (.ite (agree_fail _) (agree_advance.bind fun _ => agree_pure _))

theorem agree_atRuleAt (h : nested.Agree c nested') :
    c.Agree (atRuleAt nested) (atRuleAt nested') := by
  refine (agree_expect _).bind fun atSign => (agree_atName atSign).bind fun _ =>
    agree_itemTokens.bind fun _ => (agree_eat _).bind fun _ => .ite ?_ ?_
  · exact (agree_bodyParser h).bind fun _ => agree_pure _
  · exact agree_previous.bind fun _ => (agree_eat _).bind fun _ => agree_pure _

theorem agree_within {n m : Nat} (left : c.Levels n m) :
    Nested.Agree c ⟨ruleWithin n, atRuleWithin n⟩ ⟨ruleWithin m, atRuleWithin m⟩ := by
  induction n generalizing m with
  | zero =>
    have base {α : Type} {q : Parser α} (same : m = 0 → q = failTooDeep) :
        c.Agree failTooDeep q := by
      refine agree_failTooDeep ?_
      rcases left with rfl | ⟨-, stops⟩
      · exact .inl (same rfl)
      · exact .inr stops
    exact ⟨base fun none => by rw [none]; rfl, base fun none => by rw [none]; rfl⟩
  | succ n ih =>
    obtain ⟨m, rfl⟩ : ∃ k, m = k + 1 := by
      refine Nat.exists_eq_add_one.mpr ?_
      rcases left with same | ⟨le, -⟩ <;> omega
    have inner := ih left.pred
    exact ⟨(agree_ruleAt inner).deeper, (agree_atRuleAt inner).deeper⟩

theorem agree_rulesItem (stop : Nat) (rules : Array StyleNode) :
    c.Agree (rulesItem stop rules) (rulesItem stop rules) := by
  refine agree_cursor.bind fun cursor => .ite (agree_pure _) (agree_current.bind fun t => ?_)
  split
  · exact agree_advance.bind fun _ => agree_pure _
  · exact (Agree.withLevels fun left => (agree_within left).atRule).bind fun _ => agree_pure _
  · refine agree_blockFollows.bind fun _ => .ite ?_ (agree_current.bind fun _ => agree_fail _)
    exact (Agree.withLevels fun left => (agree_within left).rule).bind fun _ => agree_pure _

theorem agree_rulesParser (stop : Nat) : c.Agree (rulesParser stop) (rulesParser stop) :=
  (Agree.loop (agree_rulesItem stop) _).bind fun _ => agree_pure _

end PulseSyntax.Style

namespace PulseSyntax

open PulseSyntax.Parser PulseSyntax.Comparison

section

variable {c : Comparison}

theorem Property.parser_agrees : c.Agree Property.parser Property.parser := by
  refine (agree_is _).bind fun quoted => ?_
  extract_lets rest
  have tail (name : Token) : c.Agree (rest name) (rest name) :=
    (agree_expect _).bind fun _ => Expr.parser_agrees.bind fun _ => agree_pure _
  exact .ite (agree_advance.bind tail) (agree_expectName.bind tail)

theorem PropertyBlock.parser_agrees (word : Keyword) : c.Agree (parser word) (parser word) :=
  (agree_expect _).bind fun _ => Property.parser_agrees.entry.braced.bind fun _ => agree_pure _

theorem Param.parser_agrees (before : Array Param) : c.Agree (parser before) (parser before) := by
  refine .ite (agree_fail _) (agree_current.bind fun _ => (agree_eat _).bind fun _ => ?_)
  refine agree_expectName.bind fun _ => (agree_eat _).bind fun _ => .ite (agree_pure _) ?_
  exact .ite (agree_fail _) (Expr.parser_agrees.bind fun _ => agree_pure _)

theorem Param.agree_listParser : c.Agree listParser listParser :=
  (agree_expect _).bind fun _ => (Agree.commaSeparatedAfter _ Param.parser_agrees).bind fun _ =>
    (agree_expect _).bind fun _ => agree_pure _

theorem Action.parser_agrees : c.Agree Action.parser Action.parser := by
  refine agree_current.bind fun first => ?_
  refine agree_peek.bind fun next => ?_
  extract_lets isAsync rest
  have tail : c.Agree (rest ()) (rest ()) := by
    refine agree_isName.bind fun _ => .ite (agree_failWanted _) (agree_advance.bind fun _ => ?_)
    exact Param.agree_listParser.bind fun _ => agree_rawBlock.bind fun _ =>
      agree_previous.bind fun _ => agree_pure _
  exact .ite (agree_advance.bind fun _ => tail) tail

theorem ActionsBlock.parser_agrees : c.Agree ActionsBlock.parser ActionsBlock.parser :=
  (agree_expect _).bind fun _ => (agree_expect _).bind fun _ =>
    (Agree.manyAfter _ fun _ => Action.parser_agrees.entry).bind fun _ =>
      (agree_expect _).bind fun _ => agree_pure _

theorem agree_ensureFirst (seen : Bool) (field block : String) :
    c.Agree (ensureFirst seen field block) (ensureFirst seen field block) :=
  .ite (agree_fail _) (agree_pure _)

theorem agree_fieldColon : c.Agree fieldColon fieldColon :=
  agree_advance.bind fun _ => (agree_expect _).bind fun _ => agree_pure _

theorem Route.parser_agrees (before : Array Route) : c.Agree (parser before) (parser before) := by
  refine (agree_expect _).bind fun path => .ite (agree_of_eq fun _ _ _ _ _ => rfl) ?_
  exact (agree_expect _).bind fun _ => Expr.parser_agrees.bind fun _ => agree_pure _

theorem Route.agree_listParser : c.Agree listParser listParser :=
  (agree_expect _).bind fun _ => (agree_eat _).bind fun _ => (agree_expect _).bind fun _ =>
    (Agree.manyAfter _ fun before => (Route.parser_agrees before).entry).bind fun _ =>
      (agree_expect _).bind fun _ => agree_pure _

theorem Guard.parser_agrees : c.Agree Guard.parser Guard.parser :=
  agree_advance.bind fun _ => Param.agree_listParser.bind fun _ => agree_rawBlock.bind fun _ =>
    agree_previous.bind fun _ => agree_pure _

theorem RouterFields.agree_add (fields : RouterFields) : c.Agree fields.add fields.add := by
  refine agree_current.bind fun t => ?_
  split
  · exact (agree_ensureFirst _ _ _).bind fun _ => agree_fieldColon.bind fun _ =>
      (agree_expectStringOr _).bind fun _ => agree_pure _
  · exact (agree_ensureFirst _ _ _).bind fun _ => agree_fieldColon.bind fun _ =>
      (agree_expect _).bind fun _ => agree_pure _
  · exact (agree_ensureFirst _ _ _).bind fun _ => Route.agree_listParser.bind fun _ => agree_pure _
  · exact (agree_ensureFirst _ _ _).bind fun _ => Guard.parser_agrees.bind fun _ => agree_pure _
  · exact (agree_ensureFirst _ _ _).bind fun _ => Guard.parser_agrees.bind fun _ => agree_pure _
  · exact agree_failWanted _

theorem RouterBlock.parser_agrees : c.Agree RouterBlock.parser RouterBlock.parser :=
  (agree_expect _).bind fun _ => (agree_expect _).bind fun _ =>
    (Agree.foldEntries RouterFields.agree_add _).bind fun _ =>
      (agree_expect _).bind fun _ => agree_pure _

theorem Getter.parser_agrees : c.Agree Getter.parser Getter.parser := by
  refine agree_isName.bind fun _ => .ite (agree_failWanted _) (agree_advance.bind fun name => ?_)
  refine (agree_eat _).bind fun parens => ?_
  extract_lets rest close
  have tail : c.Agree (rest ()) (rest ()) :=
    agree_rawBlock.bind fun _ => agree_previous.bind fun _ => agree_pure _
  have closed (u : Unit) : c.Agree (close u) (close u) := agree_advance.bind fun _ => tail
  exact .ite (agree_current.bind fun _ => .ite ((agree_fail _).bind closed) (closed ())) tail

theorem Getter.agree_listParser : c.Agree listParser listParser :=
  (agree_expect _).bind fun _ => Getter.parser_agrees.entry.braced.bind fun _ => agree_pure _

theorem StoreFields.agree_add (fields : StoreFields) : c.Agree fields.add fields.add := by
  refine agree_current.bind fun t => ?_
  split
  · exact (agree_ensureFirst _ _ _).bind fun _ => (PropertyBlock.parser_agrees _).bind fun _ =>
      agree_pure _
  · exact (agree_ensureFirst _ _ _).bind fun _ => Getter.agree_listParser.bind fun _ =>
      agree_pure _
  · exact (agree_ensureFirst _ _ _).bind fun _ => ActionsBlock.parser_agrees.bind fun _ =>
      agree_pure _
  · refine (agree_ensureFirst _ _ _).bind fun _ => agree_fieldColon.bind fun _ =>
      agree_current.bind fun value => ?_
    extract_lets rest
    have tail (value : Bool) : c.Agree (rest value) (rest value) :=
      agree_advance.bind fun _ => agree_pure _
    split
    · exact (agree_pure _).bind tail
    · exact (agree_pure _).bind tail
    · exact (agree_failWanted _).bind tail
  · exact (agree_ensureFirst _ _ _).bind fun _ => agree_fieldColon.bind fun _ =>
      (agree_expect _).bind fun _ => agree_pure _
  · exact (agree_ensureFirst _ _ _).bind fun _ => agree_fieldColon.bind fun _ =>
      (agree_is _).bind fun _ => .ite (agree_failWanted _)
        (Expr.parser_agrees.bind fun _ => agree_pure _)
  · exact agree_failWanted _

theorem StoreBlock.parser_agrees : c.Agree StoreBlock.parser StoreBlock.parser :=
  (agree_expect _).bind fun _ => (agree_expect _).bind fun _ =>
    (Agree.foldEntries StoreFields.agree_add _).bind fun _ =>
      (agree_expect _).bind fun _ => agree_pure _

end

def Comparison.sameDepth : Comparison where
  options a b := a.maxDepth = b.maxDepth
  stops _ := False
  le := Nat.le_of_eq
  tooDeep := .inl

/-- The scope of a run with the fallback or without it. -/
def Scope.withFallback (stream : TokenStream) (maxDepth : Nat) (fallback : Bool) : Scope :=
  ⟨stream, ⟨fallback, maxDepth⟩, none⟩

namespace Parser

variable {α β σ : Type}

/-- What a strict run may answer, given the answer with the fallback and the error that its value
    has kept. -/
inductive Mirrors (kept : α → Option String) : Reply α → Reply α → Prop
  | same {a : α} {t : ParserState} (clean : kept a = none) : Mirrors kept (.ok a t) (.ok a t)
  | strict {a : α} {t u : ParserState} {e : ParseError} (keeps : kept a = some e.display) :
    Mirrors kept (.ok a t) (.error e u)
  | failed {e e' : ParseError} {t u : ParserState} : Mirrors kept (.error e t) (.error e' u)

theorem Mirrors.of_error {kept : α → Option String} {lenient : Reply α} {e : ParseError}
    {u : ParserState} (keeps : ∀ a t, lenient = .ok a t → kept a = some e.display) :
    Mirrors kept lenient (.error e u) := by
  cases lenient with
  | ok a t => exact .strict (keeps a t rfl)
  | error e t => exact .failed

namespace Mirrors

variable {kept : α → Option String} {lenient strict : Reply α} {a : α} {t : ParserState}
  {e : ParseError} {m : String}

theorem lenient_ok (h : Mirrors kept lenient strict) (answer : strict = .ok a t) :
    lenient = .ok a t := by
  subst answer
  cases h
  rfl

theorem strict_ok (h : Mirrors kept lenient strict) (answer : lenient = .ok a t)
    (clean : kept a = none) : strict = .ok a t := by
  subst answer
  cases h with
  | same => rfl
  | strict keeps => rw [clean] at keeps; cases keeps

theorem strict_error (h : Mirrors kept lenient strict) (answer : lenient = .ok a t)
    (kept : kept a = some m) : ∃ e u, strict = .error e u ∧ e.display = m := by
  subst answer
  cases h with
  | same clean => rw [clean] at kept; cases kept
  | strict keeps => exact ⟨_, _, rfl, Option.some.inj (keeps.symm.trans kept)⟩

theorem both_fail (h : Mirrors kept lenient strict) (answer : lenient = .error e t) :
    ∃ e u, strict = .error e u := by
  subst answer
  cases h
  exact ⟨_, _, rfl⟩

end Mirrors

def Mirrored (kept : α → Option String) (p : Parser α) : Prop :=
  ∀ stream maxDepth s, Mirrors kept (p (.withFallback stream maxDepth true) s)
    (p (.withFallback stream maxDepth false) s)

variable {kept : α → Option String} {kept' : β → Option String}

theorem mirrored_pure {a : α} (clean : kept a = none) : Mirrored kept (pure a) :=
  fun _ _ _ => .same clean

theorem same_of_agree {p : Parser α} (h : sameDepth.Agree p p) (stream : TokenStream)
    (maxDepth : Nat) (s : ParserState) :
    p (.withFallback stream maxDepth false) s = p (.withFallback stream maxDepth true) s := by
  rcases h (a := ⟨false, maxDepth⟩) (b := ⟨true, maxDepth⟩) rfl stream none s with
    ⟨_, _, _, stops⟩ | same
  · exact stops.elim
  · exact same

theorem Mirrored.after {p : Parser α} {f : α → Parser β} (h : sameDepth.Agree p p)
    (hf : ∀ a, Mirrored kept' (f a)) : Mirrored kept' (p >>= f) := by
  intro stream maxDepth s
  rw [bind_apply, bind_apply, same_of_agree h]
  cases p (.withFallback stream maxDepth true) s with
  | ok a t => exact hf a stream maxDepth t
  | error e t => exact .failed

theorem mirrored_of_fails {p : Parser α} (h : sameDepth.Agree p p)
    (fails : ∀ {scope s a t}, p scope s ≠ .ok a t) : Mirrored kept p := by
  intro stream maxDepth s
  rw [same_of_agree h]
  cases answer : p (.withFallback stream maxDepth true) s with
  | ok a t => exact absurd answer fails
  | error e t => exact .failed

theorem Mirrored.bind {p : Parser α} {f : α → Parser β} (h : Mirrored kept p)
    (hf : ∀ a, kept a = none → Mirrored kept' (f a))
    (keeps : ∀ {a m scope s b t}, kept a = some m → f a scope s = .ok b t → kept' b = some m) :
    Mirrored kept' (p >>= f) := by
  intro stream maxDepth s
  have first := h stream maxDepth s
  rw [bind_apply, bind_apply]
  generalize p (.withFallback stream maxDepth true) s = lenient at first
  generalize p (.withFallback stream maxDepth false) s = strict at first
  cases first with
  | same clean => exact hf _ clean stream maxDepth _
  | strict kept => exact .of_error fun _ _ answer => keeps kept answer
  | failed => exact .failed

variable {keptBy : σ → Option String} {step : σ → Parser (ForInStep σ)}

theorem Mirrored.iterate
    (round : ∀ a, keptBy a = none → Mirrored (fun next => keptBy next.value) (step a))
    (keeps : ∀ {a m scope s next t}, keptBy a = some m → step a scope s = .ok next t →
      keptBy next.value = some m)
    (rounds : Nat) {a : σ} (clean : keptBy a = none) :
    Mirrored keptBy (iterate step rounds a) := by
  induction rounds generalizing a with
  | zero => exact mirrored_pure clean
  | succ rounds ih =>
    refine (round a clean).bind (fun next clean => ?_) fun {next _ _ _ _ _} kept answer => ?_
    · cases next with
      | done b => exact mirrored_pure clean
      | yield b => exact ih clean
    · cases next with
      | done b =>
        cases answer
        exact kept
      | yield b => exact iterate_keeps (I := fun b => keptBy b = _) keeps kept answer

theorem Mirrored.loop
    (round : ∀ a, keptBy a = none → Mirrored (fun next => keptBy next.value) (step a))
    (keeps : ∀ {a m scope s next t}, keptBy a = some m → step a scope s = .ok next t →
      keptBy next.value = some m)
    {a : σ} (clean : keptBy a = none) : Mirrored keptBy (loop step a) :=
  fun stream maxDepth s =>
    Mirrored.iterate round keeps (stream.size - s.cursor + 1) clean stream maxDepth s

end Parser

theorem StyleBlock.parser_mirrored : Mirrored StyleBlock.parseError parser := by
  refine .after (agree_expect _) fun start => .after (agree_expect _) fun _ =>
    .after agree_cursor fun first => .after Style.agree_findEnd fun stop =>
      .after (Style.agree_tokensBetween _ _) fun tokens => ?_
  intro stream maxDepth s
  have rules := same_of_agree (Style.agree_rulesParser stop) stream maxDepth s
  cases read : Style.rulesParser stop (.withFallback stream maxDepth true) s with
  | ok nodes t =>
    rw [read] at rules
    rw [bind_of_ok (attempt_of_ok read), bind_of_ok (attempt_of_ok rules)]
    have close (block : Token → StyleBlock) (clean : ∀ t, (block t).parseError = none) :
        Mirrored StyleBlock.parseError
          (do seek stop; let close ← expectSymbol .closeBrace; return block close) :=
      .after (agree_seek _) fun _ => .after (agree_expect _) fun _ => mirrored_pure (clean _)
    exact close (fun close => ⟨_, nodes, none, start.span.cover close.span⟩) (fun _ => rfl)
      stream maxDepth t
  | error e t =>
    rw [read] at rules
    rw [bind_of_ok (attempt_of_error read), bind_of_ok (attempt_of_error rules)]
    dsimp only
    rw [bind_of_ok scope_apply, bind_of_ok scope_apply]
    simp only [Scope.withFallback, ↓reduceIte, Bool.false_eq_true]
    refine .of_error fun block v kept => ?_
    rw [bind_of_ok (pure_apply _)] at kept
    obtain ⟨_, _, -, kept⟩ := bind_eq_ok.mp kept
    obtain ⟨_, _, -, kept⟩ := bind_eq_ok.mp kept
    cases kept
    rfl

def Declarations.styleError (d : Declarations) : Option String := d.style.bind (·.parseError)

namespace Import

variable {c : Comparison}

theorem agree_sourceParser (start : Span) (specifiers : List ImportSpecifier) :
    c.Agree (sourceParser start specifiers) (sourceParser start specifiers) :=
  (agree_expect _).bind fun _ => (agree_expect _).bind fun _ => (agree_eat _).bind fun _ =>
    agree_pure _

theorem agree_namedParser : c.Agree namedParser namedParser :=
  agree_expectName.bind fun _ => (agree_eat _).bind fun _ =>
    .ite ((agree_expect _).bind fun _ => agree_pure _) (agree_pure _)

theorem agree_namespaceParser : c.Agree namespaceParser namespaceParser :=
  agree_advance.bind fun _ => (agree_expect _).bind fun _ => (agree_expect _).bind fun _ =>
    agree_pure _

theorem agree_bindingsParser : c.Agree bindingsParser bindingsParser := by
  refine agree_current.bind fun _ => .ite ?_ (.ite ?_ (agree_fail _))
  · exact agree_namespaceParser.bind fun _ => agree_pure _
  · exact agree_advance.bind fun _ => (agree_namedParser.commaSeparated _).bind fun _ =>
      (agree_expect _).bind fun _ => agree_pure _

theorem parser_agrees : c.Agree parser parser := by
  refine (agree_expect _).bind fun _ => (agree_is _).bind fun _ => .ite ?_ ((agree_is _).bind
    fun _ => .ite ?_ (agree_bindingsParser.bind fun _ => agree_sourceParser _ _))
  · exact agree_advance.bind fun _ => (agree_eat _).bind fun _ => agree_pure _
  · refine agree_advance.bind fun _ => (agree_eat _).bind fun _ => .ite ?_ (agree_sourceParser _ _)
    exact agree_bindingsParser.bind fun _ => agree_sourceParser _ _

end Import

section

variable {c : Comparison}

theorem PageDecl.parser_agrees : c.Agree parser parser :=
  (agree_expect _).bind fun _ => (agree_expect _).bind fun _ => (agree_expectStringOr _).bind
    fun _ => agree_pure _

theorem RouteDecl.parser_agrees : c.Agree parser parser :=
  (agree_expect _).bind fun _ => (agree_expect _).bind fun _ => (agree_expect _).bind fun _ =>
    agree_pure _

end

namespace Declarations

theorem agree_failUnknown {c : Comparison} {α : Type} :
    c.Agree (failUnknown : Parser α) failUnknown :=
  agree_current.bind fun _ => agree_peek.bind fun _ => agree_failAtToken _

theorem agree_once {c : Comparison} {α : Type} {p : Parser α} (h : c.Agree p p)
    (seen : Option α) (name : String) : c.Agree (once seen name p) (once seen name p) :=
  .ite (agree_fail _) (h.map _)

theorem mirrored_failUnknown : Mirrored styleError failUnknown :=
  mirrored_of_fails agree_failUnknown failUnknown_ne_ok

theorem mirrored_add {d : Declarations} (clean : d.styleError = none) :
    Mirrored styleError d.add := by
  refine .after agree_current fun t => ?_
  split
  · exact .after Import.parser_agrees fun _ => mirrored_pure clean
  · refine .after agree_peek fun next => ?_
    split
    · exact .after (agree_once PageDecl.parser_agrees _ _) fun _ => mirrored_pure clean
    · exact .after (agree_once RouteDecl.parser_agrees _ _) fun _ => mirrored_pure clean
    · exact mirrored_failUnknown
  · exact .after (agree_once (PropertyBlock.parser_agrees _) _ _) fun _ => mirrored_pure clean
  · exact .after (agree_once (PropertyBlock.parser_agrees _) _ _) fun _ => mirrored_pure clean
  · exact .after (agree_once ViewBlock.parser_agrees _ _) fun _ => mirrored_pure clean
  · exact .after (agree_once ActionsBlock.parser_agrees _ _) fun _ => mirrored_pure clean
  · have style : Mirrored (·.bind StyleBlock.parseError) (once d.style "style" StyleBlock.parser) := by
      unfold once
      split
      · exact mirrored_of_fails (agree_fail _) fail_ne_ok
      · refine StyleBlock.parser_mirrored.bind (fun _ clean => mirrored_pure clean) ?_
        intro block m scope s read t kept answer
        cases answer
        exact kept
    refine style.bind (fun _ clean => mirrored_pure clean) ?_
    intro read m scope s next t kept answer
    cases answer
    exact kept
  · exact .after (agree_once RouterBlock.parser_agrees _ _) fun _ => mirrored_pure clean
  · exact .after (agree_once StoreBlock.parser_agrees _ _) fun _ => mirrored_pure clean
  · exact .after agree_advance fun _ => mirrored_pure clean
  · exact mirrored_failUnknown

theorem add_keeps_styleError {d next : Declarations} {m : String} {scope : Scope}
    {s t : ParserState} (kept : d.styleError = some m) (h : d.add scope s = .ok next t) :
    next.styleError = some m := by
  rcases add_style h with same | ⟨unseen, -⟩
  · rw [styleError, same]
    exact kept
  · rw [styleError, unseen] at kept
    cases kept

end Declarations

theorem Program.parser_mirrored : Mirrored (·.styleError) Program.parser := by
  refine .after agree_current fun start => ?_
  refine @Mirrored.bind _ _ Declarations.styleError _ _ _ ?_ ?_ ?_
  · refine Mirrored.loop ?_ ?_ rfl
    · intro d clean
      refine .after (agree_is _) fun done => ?_
      split
      · exact mirrored_pure clean
      · refine (Declarations.mirrored_add clean).bind (fun _ clean => mirrored_pure clean) ?_
        intro next m scope s round t kept answer
        cases answer
        exact kept
    · intro d m scope s next t kept round
      rw [bind_of_ok is_apply] at round
      split at round
      · cases round
        exact kept
      · obtain ⟨later, u, added, rest⟩ := bind_eq_ok.mp round
        cases rest
        exact Declarations.add_keeps_styleError kept added
  · intro d clean
    exact .after agree_current fun _ => mirrored_pure clean
  · intro d m scope s program t kept answer
    cases answer
    exact kept

/-- The strict parse of a token sequence and the one with the fallback succeed with the same program,
    unless the style block could not be read as rules: then the strict parse fails with the error
    whose words the block has kept. Where the one with the fallback fails, the strict one does. -/
theorem Program.parser_strict_mirrors_fallback (tokens : List Token) (maxDepth : Nat) (s : ParserState) :
    let lenient := Program.parser (.withFallback (.ofList tokens) maxDepth true) s
    let strict := Program.parser (.withFallback (.ofList tokens) maxDepth false) s
    (∀ program t, strict = .ok program t → lenient = .ok program t) ∧
      (∀ program t, lenient = .ok program t → program.styleError = none →
        strict = .ok program t) ∧
      (∀ program t m, lenient = .ok program t → program.styleError = some m →
        ∃ e u, strict = .error e u ∧ e.display = m) ∧
      (∀ e t, lenient = .error e t → ∃ e' u, strict = .error e' u) := by
  intro lenient strict
  have mirrors : Mirrors (·.styleError) lenient strict :=
    Program.parser_mirrored (.ofList tokens) maxDepth s
  exact ⟨fun _ _ => mirrors.lenient_ok, fun _ _ => mirrors.strict_ok,
    fun _ _ _ => mirrors.strict_error, fun _ _ => mirrors.both_fail⟩

def Reply.styleError? : Reply Program → Option String
  | .ok program _ => program.styleError
  | .error _ _ => none

/-- A declaration outside a rule is kept as text, or else it is the error. -/
theorem Program.parser_strict_mirrors_fallback_declaration :
    ∃ program t e u,
      Program.parser (.withFallback (.ofList (tokenize "style { a: b }")) 128 true) .initial =
        .ok program t ∧
      Program.parser (.withFallback (.ofList (tokenize "style { a: b }")) 128 false) .initial =
        .error e u ∧ program.styleError = some e.display := by
  generalize hs : "style { a: b }" = source
  have read : (Program.parser (.withFallback (.ofList (tokenize source)) 128 true)
      .initial).styleError?.isSome := by
    subst hs
    decide +kernel
  cases lenient : Program.parser (.withFallback (.ofList (tokenize source)) 128 true) .initial with
  | error e t =>
    rw [lenient] at read
    cases read
  | ok program t =>
    rw [lenient] at read
    obtain ⟨m, kept⟩ := Option.isSome_iff_exists.mp read
    obtain ⟨e, u, strict, display⟩ :=
      (Program.parser_strict_mirrors_fallback (tokenize source) 128 .initial).2.2.1
        program t m lenient kept
    exact ⟨program, t, e, u, rfl, strict, display ▸ kept⟩

end PulseSyntax
