import PulseSyntax.Expr.Parser
import PulseSyntax.Proofs.Parser.Run

namespace PulseSyntax

open PulseSyntax.Parser

/-- The options of two runs, and the errors at which the first may stop where the second goes on. -/
structure Comparison where
  options : Options → Options → Prop
  stops : ParseError → Prop
  le : ∀ {a b}, options a b → a.maxDepth ≤ b.maxDepth
  tooDeep : ∀ {a b}, options a b →
    a.maxDepth = b.maxDepth ∨ ∀ limit place, stops ⟨.tooDeep limit, place⟩

namespace Comparison

variable {α β σ : Type}

def Answers (c : Comparison) (first second : Reply α) : Prop :=
  (∃ e t, first = .error e t ∧ c.stops e) ∨ first = second

def Agree (c : Comparison) (p q : Parser α) : Prop :=
  ∀ ⦃a b⦄, c.options a b → ∀ stream quotation s,
    c.Answers (p ⟨stream, a, quotation⟩ s) (q ⟨stream, b, quotation⟩ s)

def Levels (c : Comparison) (n m : Nat) : Prop :=
  n = m ∨ n ≤ m ∧ ∀ limit place, c.stops ⟨.tooDeep limit, place⟩

variable {c : Comparison}

theorem Answers.refl (reply : Reply α) : c.Answers reply reply := .inr rfl

theorem Levels.pred {n m : Nat} (h : c.Levels (n + 1) (m + 1)) : c.Levels n m := by
  rcases h with same | ⟨le, stops⟩
  · exact .inl (Nat.succ.inj same)
  · exact .inr ⟨Nat.le_of_succ_le_succ le, stops⟩

section

variable {p q : Parser α}

theorem agree_of_eq (h : ∀ stream a b quotation s,
    p ⟨stream, a, quotation⟩ s = p ⟨stream, b, quotation⟩ s) : c.Agree p p :=
  fun _ _ _ stream quotation s => .inr (h stream _ _ quotation s)

theorem agree_pure (a : α) : c.Agree (pure a) (pure a) := fun _ _ _ _ _ _ => .refl _

theorem Agree.bind {f g : α → Parser β} (h : c.Agree p q) (hf : ∀ a, c.Agree (f a) (g a)) :
    c.Agree (p >>= f) (q >>= g) := by
  intro a b related stream quotation s
  rw [bind_apply, bind_apply]
  rcases h related stream quotation s with ⟨e, t, failed, stops⟩ | same
  · rw [failed]
    exact .inl ⟨e, t, rfl, stops⟩
  · rw [same]
    cases q ⟨stream, b, quotation⟩ s with
    | ok value t => exact hf value related stream quotation t
    | error e t => exact .refl _

theorem Agree.map (f : α → β) (h : c.Agree p q) : c.Agree (f <$> p) (f <$> q) :=
  h.bind fun _ => agree_pure _

theorem Agree.ite {condition : Prop} [Decidable condition] {p' q' : Parser α}
    (h : c.Agree p q) (h' : c.Agree p' q') :
    c.Agree (if condition then p else p') (if condition then q else q') := by
  split
  · exact h
  · exact h'

theorem Agree.deeper (h : c.Agree p q) : c.Agree (deeper p) (deeper q) := by
  intro a b related stream quotation s
  unfold Parser.deeper
  rcases h related stream quotation { s with depth := s.depth + 1 } with
    ⟨e, t, failed, stops⟩ | same
  · rw [failed]
    exact .inl ⟨e, _, rfl, stops⟩
  · rw [same]
    exact .refl _

theorem Agree.withLevels {p q : Nat → Parser α} (h : ∀ {n m}, c.Levels n m → c.Agree (p n) (q m)) :
    c.Agree (withLevels p) (withLevels q) := by
  intro a b related stream quotation s
  refine h ?_ related stream quotation s
  rcases c.tooDeep related with same | stops
  · exact .inl (congrArg (· - s.depth) same)
  · exact .inr ⟨Nat.sub_le_sub_right (c.le related) s.depth, stops⟩

theorem agree_fail (cause : Cause) : c.Agree (fail cause : Parser α) (fail cause) :=
  agree_of_eq fun _ _ _ _ _ => rfl

theorem agree_failAtToken (cause : Token → Cause) :
    c.Agree (failAtToken cause : Parser α) (failAtToken cause) :=
  agree_of_eq fun _ _ _ _ _ => rfl

theorem agree_failWanted (what : Wanted) :
    c.Agree (failWanted what : Parser α) (failWanted what) :=
  agree_failAtToken _

theorem agree_failTooDeep {q : Parser α}
    (h : q = failTooDeep ∨ ∀ limit place, c.stops ⟨.tooDeep limit, place⟩) :
    c.Agree failTooDeep q := by
  intro a b related stream quotation s
  rcases h with rfl | stops
  · rcases c.tooDeep related with same | stops
    · refine .inr ?_
      simp only [failTooDeep, bind_of_ok scope_apply, fail_apply, same]
    · exact .inl ⟨_, _, rfl, stops _ _⟩
  · exact .inl ⟨_, _, rfl, stops _ _⟩

end

section

theorem agree_cursor : c.Agree cursor cursor := agree_of_eq fun _ _ _ _ _ => rfl

theorem agree_seek (target : Nat) : c.Agree (seek target) (seek target) :=
  agree_of_eq fun _ _ _ _ _ => rfl

theorem agree_peekAt (offset : Nat) : c.Agree (peekAt offset) (peekAt offset) :=
  agree_of_eq fun _ _ _ _ _ => rfl

theorem agree_current : c.Agree current current := agree_peekAt 0

theorem agree_peek : c.Agree peek peek := agree_peekAt 1

theorem agree_previous : c.Agree previous previous := agree_of_eq fun _ _ _ _ _ => rfl

theorem agree_advance : c.Agree advance advance := agree_of_eq fun _ _ _ _ _ => rfl

theorem agree_is (kind : TokenKind) : c.Agree (is kind) (is kind) :=
  agree_of_eq fun _ _ _ _ _ => rfl

theorem agree_isName : c.Agree isName isName := agree_of_eq fun _ _ _ _ _ => rfl

theorem agree_eat (kind : TokenKind) : c.Agree (eat kind) (eat kind) :=
  (agree_is kind).bind fun _ => .ite (agree_advance.bind fun _ => agree_pure _) (agree_pure _)

theorem agree_expect (kind : TokenKind) : c.Agree (expect kind) (expect kind) :=
  (agree_is kind).bind fun _ => .ite agree_advance (agree_failAtToken _)

theorem agree_expectName : c.Agree expectName expectName :=
  agree_isName.bind fun _ => .ite agree_advance (agree_expect _)

theorem agree_expectStringOr (kind : TokenKind) :
    c.Agree (expectStringOr kind) (expectStringOr kind) :=
  (agree_is _).bind fun _ => .ite agree_advance (agree_expect _)

end

section

variable {step step' : σ → Parser (ForInStep σ)}

theorem Agree.iterate (h : ∀ state, c.Agree (step state) (step' state)) (rounds : Nat)
    (state : σ) : c.Agree (iterate step rounds state) (iterate step' rounds state) := by
  induction rounds generalizing state with
  | zero => exact agree_pure state
  | succ rounds ih =>
    refine (h state).bind fun next => ?_
    cases next with
    | done state => exact agree_pure state
    | yield state => exact ih state

theorem Agree.loop (h : ∀ state, c.Agree (step state) (step' state)) (state : σ) :
    c.Agree (loop step state) (loop step' state) := fun _ _ related stream quotation s =>
  Agree.iterate h (stream.size - s.cursor + 1) state related stream quotation s

theorem Agree.chain {step step' : α → Parser (Option α)}
    (h : ∀ a, c.Agree (step a) (step' a)) (first : α) :
    c.Agree (chain step first) (chain step' first) := by
  refine Agree.loop (fun a => (h a).bind fun next => ?_) first
  cases next with
  | none => exact agree_pure _
  | some _ => exact agree_pure _

theorem Agree.manyAfter {item item' : Array α → Parser α} (close : Symbol)
    (h : ∀ before, c.Agree (item before) (item' before)) :
    c.Agree (manyAfter close item) (manyAfter close item') := by
  refine (Agree.loop (fun items => agree_current.bind fun t => ?_) #[]).bind fun _ => agree_pure _
  exact .ite (agree_pure _) ((h items).bind fun _ => agree_pure _)

theorem Agree.commaSeparatedAfter {item item' : Array α → Parser α} (close : Symbol)
    (h : ∀ before, c.Agree (item before) (item' before)) :
    c.Agree (commaSeparatedAfter close item) (commaSeparatedAfter close item') := by
  refine (Agree.loop (fun items => (agree_is _).bind fun _ => ?_) #[]).bind fun _ => agree_pure _
  refine .ite (agree_pure _) ((h items).bind fun _ => (agree_eat _).bind fun _ => ?_)
  exact .ite (agree_pure _) (agree_pure _)

variable {item item' : Parser α}

theorem Agree.commaSeparated (close : Symbol) (h : c.Agree item item') :
    c.Agree (commaSeparated close item) (commaSeparated close item') :=
  .commaSeparatedAfter close fun _ => h

theorem agree_skipSeparators : c.Agree skipSeparators skipSeparators := by
  refine .loop (fun _ => agree_current.bind fun t => ?_) ()
  exact .ite (agree_advance.bind fun _ => agree_pure _) (agree_pure _)

theorem Agree.entry (h : c.Agree item item') : c.Agree (entry item) (entry item') :=
  h.bind fun _ => agree_skipSeparators.bind fun _ => agree_pure _

theorem Agree.foldEntries {add add' : σ → Parser σ} (h : ∀ state, c.Agree (add state) (add' state))
    (state : σ) : c.Agree (foldEntries add state) (foldEntries add' state) := by
  refine .loop (fun state => agree_current.bind fun t => ?_) state
  exact .ite (agree_pure _) ((h state).entry.bind fun _ => agree_pure _)

theorem Agree.braced (h : c.Agree item item') : c.Agree (braced item) (braced item') :=
  (agree_expect _).bind fun _ => (Agree.manyAfter _ fun _ => h).bind fun _ =>
    (agree_expect _).bind fun _ => agree_pure _

theorem agree_rawBlock : c.Agree rawBlock rawBlock := by
  refine (agree_expect _).bind fun _ => agree_cursor.bind fun start => ?_
  refine (Agree.loop (fun depth => agree_current.bind fun t => ?_) 0).bind fun _ =>
    agree_cursor.bind fun stop => agree_advance.bind fun _ => agree_pure _
  refine .ite ((agree_expect _).bind fun _ => agree_pure _) (.ite (agree_pure _) ?_)
  exact agree_advance.bind fun _ => .ite (agree_pure _) (.ite (agree_pure _) (agree_pure _))

end

end Comparison

namespace Expr

open PulseSyntax.Comparison

variable {c : Comparison}

structure Nested.Agree (c : Comparison) (first second : Nested) : Prop where
  assignment : c.Agree first.assignment second.assignment
  unary : c.Agree first.unary second.unary

variable {expr expr' : Parser Expr} {nested nested' : Nested}

theorem agree_spreadable (h : c.Agree expr expr') :
    c.Agree (spreadable expr) (spreadable expr') :=
  (agree_is _).bind fun _ => .ite (agree_advance.bind fun _ => h.bind fun _ => agree_pure _) h

theorem agree_arguments (h : c.Agree expr expr') : c.Agree (arguments expr) (arguments expr') :=
  (agree_expect _).bind fun _ => (Agree.commaSeparated _ (agree_spreadable h)).bind fun _ =>
    (agree_expect _).bind fun _ => agree_pure _

theorem agree_startsArrowAt (offset : Nat) :
    c.Agree (startsArrowAt offset) (startsArrowAt offset) :=
  agree_of_eq fun _ _ _ _ _ => rfl

theorem agree_asyncArrowFollows : c.Agree asyncArrowFollows asyncArrowFollows := by
  refine agree_peek.bind fun t => ?_
  split
  · exact (agree_peekAt 2).bind fun _ => agree_pure _
  · exact agree_startsArrowAt 1
  · exact agree_pure false

theorem agree_arrowBlock : c.Agree arrowBlock arrowBlock := by
  refine agree_rawBlock.bind fun range => agree_of_eq fun _ _ _ quotation _ => ?_
  cases quotation <;> rfl

theorem agree_arrowFunction (h : nested.Agree c nested') (start : Span) (isAsync : Bool) :
    c.Agree (arrowFunction nested start isAsync) (arrowFunction nested' start isAsync) := by
  refine (agree_is _).bind fun parens => ?_
  extract_lets rest rest'
  have tail (params : List Expr) : c.Agree (rest params) (rest' params) := by
    refine .ite (agree_fail _) ((agree_expect _).bind fun _ => (agree_is _).bind fun _ => .ite ?_ ?_)
    · exact agree_arrowBlock.bind fun _ => agree_previous.bind fun _ => agree_pure _
    · exact h.assignment.bind fun _ => agree_pure _
  refine .ite ?_ ?_
  · exact (agree_arguments h.assignment).bind fun _ => (agree_pure _).bind tail
  · exact (agree_expect _).bind fun _ => (agree_pure _).bind tail

theorem agree_arrayLiteral (h : nested.Agree c nested') :
    c.Agree (arrayLiteral nested) (arrayLiteral nested') :=
  (agree_expect _).bind fun _ =>
    (Agree.commaSeparated _ (agree_spreadable h.assignment)).bind fun _ =>
      (agree_expect _).bind fun _ => agree_pure _

theorem agree_propertyValue (h : nested.Agree c nested') (start : Span) (key : PropertyKey) :
    c.Agree (propertyValue nested start key) (propertyValue nested' start key) :=
  (agree_expect _).bind fun _ => h.assignment.bind fun _ => agree_pure _

theorem agree_objectMember (h : nested.Agree c nested') :
    c.Agree (objectMember nested) (objectMember nested') := by
  refine agree_current.bind fun t => .ite ?_ (.ite ?_ ?_)
  · exact agree_advance.bind fun _ => h.assignment.bind fun _ => agree_pure _
  · exact agree_advance.bind fun _ => h.assignment.bind fun _ => (agree_expect _).bind fun _ =>
      agree_propertyValue h _ _
  · split
    · exact agree_failWanted _
    · exact agree_advance.bind fun _ => agree_current.bind fun _ =>
        .ite (agree_pure _) (agree_propertyValue h _ _)

theorem agree_objectLiteral (h : nested.Agree c nested') :
    c.Agree (objectLiteral nested) (objectLiteral nested') :=
  (agree_expect _).bind fun _ => (Agree.commaSeparated _ (agree_objectMember h)).bind fun _ =>
    (agree_expect _).bind fun _ => agree_pure _

theorem agree_startsAsyncArrow (t : Token) :
    c.Agree (startsAsyncArrow t) (startsAsyncArrow t) :=
  .ite agree_asyncArrowFollows (agree_pure false)

theorem agree_startsArrow (t next : Token) : c.Agree (startsArrow t next) (startsArrow t next) :=
  .ite (agree_pure _) (.ite (agree_startsArrowAt 0) (agree_pure _))

theorem agree_grouped (h : nested.Agree c nested') : c.Agree (grouped nested) (grouped nested') :=
  agree_advance.bind fun _ => h.assignment.bind fun _ => (agree_expect _).bind fun _ =>
    agree_pure _

theorem agree_nameOrBrackets (h : nested.Agree c nested') (t next : Token) :
    c.Agree (nameOrBrackets nested t next) (nameOrBrackets nested' t next) := by
  refine .ite (agree_advance.bind fun _ => agree_pure _) ?_
  split
  · exact agree_grouped h
  · exact agree_arrayLiteral h
  · exact agree_objectLiteral h
  · exact agree_failWanted _

theorem agree_primary (h : nested.Agree c nested') : c.Agree (primary nested) (primary nested') := by
  refine agree_current.bind fun t => agree_peek.bind fun next => ?_
  split
  · exact agree_advance.bind fun _ => agree_pure _
  · refine (agree_startsAsyncArrow t).bind fun _ => .ite ?_ ?_
    · exact agree_advance.bind fun _ => agree_arrowFunction h _ _
    · exact (agree_startsArrow t next).bind fun _ =>
        .ite (agree_arrowFunction h _ _) (agree_nameOrBrackets h t next)

theorem agree_memberName : c.Agree memberName memberName :=
  agree_current.bind fun _ =>
    .ite (agree_advance.bind fun _ => agree_pure _) (agree_failWanted _)

theorem agree_index (h : nested.Agree c nested') : c.Agree (index nested) (index nested') :=
  agree_advance.bind fun _ => h.assignment.bind fun _ => (agree_expect _).bind fun _ =>
    agree_pure _

theorem agree_link (h : nested.Agree c nested') (e : Expr) :
    c.Agree (link nested e) (link nested' e) := by
  have call := agree_arguments h.assignment
  refine agree_current.bind fun t => ?_
  split
  · exact agree_advance.bind fun _ => agree_memberName.bind fun _ => agree_pure _
  · refine agree_advance.bind fun _ => agree_current.bind fun _ => ?_
    split
    · exact (agree_index h).bind fun _ => agree_pure _
    · exact call.bind fun _ => agree_pure _
    · exact agree_memberName.bind fun _ => agree_pure _
  · exact (agree_index h).bind fun _ => agree_pure _
  · exact call.bind fun _ => agree_pure _
  · exact agree_pure none

theorem agree_linked (h : nested.Agree c nested') : c.Agree (linked nested) (linked nested') :=
  (agree_primary h).bind fun _ => .chain (agree_link h) _

theorem agree_postfixed (h : nested.Agree c nested') :
    c.Agree (postfixed nested) (postfixed nested') := by
  refine (agree_linked h).bind fun e => agree_current.bind fun t => ?_
  split
  · exact agree_pure e
  · exact agree_previous.bind fun _ => .ite (agree_pure _)
      (.ite (agree_fail _) (agree_advance.bind fun _ => agree_pure _))

theorem agree_unaryAt (h : nested.Agree c nested') : c.Agree (unaryAt nested) (unaryAt nested') := by
  refine agree_current.bind fun t => ?_
  split
  · exact agree_advance.bind fun _ => h.unary.bind fun _ => agree_pure _
  · exact agree_advance.bind fun _ => h.unary.bind fun _ => .ite (agree_fail _) (agree_pure _)
  · exact agree_postfixed h

theorem agree_binaryAt (h : c.Agree expr expr') (level : Nat) :
    c.Agree (binaryAt expr level) (binaryAt expr' level) := by
  induction level with
  | zero => exact h
  | succ level ih =>
    refine ih.bind fun first => .chain (fun left => agree_current.bind fun t => ?_) first
    split
    · exact agree_pure none
    · exact agree_advance.bind fun _ => ih.bind fun _ => agree_pure _

theorem agree_conditionalAt (h : nested.Agree c nested') :
    c.Agree (conditionalAt nested) (conditionalAt nested') := by
  refine (agree_binaryAt (agree_unaryAt h) _).bind fun _ => (agree_eat _).bind fun _ => ?_
  refine .ite (agree_pure _) (h.assignment.bind fun _ => (agree_expect _).bind fun _ => ?_)
  exact h.assignment.bind fun _ => agree_pure _

theorem agree_assignmentAt (h : nested.Agree c nested') :
    c.Agree (assignmentAt nested) (assignmentAt nested') := by
  refine (agree_conditionalAt h).bind fun target => agree_current.bind fun t => ?_
  split
  · exact agree_pure target
  · exact .ite (agree_fail _)
      (agree_advance.bind fun _ => h.assignment.bind fun _ => agree_pure _)

theorem agree_within {n m : Nat} (left : c.Levels n m) :
    Nested.Agree c ⟨parserWithin n, unaryWithin n⟩ ⟨parserWithin m, unaryWithin m⟩ := by
  induction n generalizing m with
  | zero =>
    have base {α : Type} {q : Parser α} (same : m = 0 → q = failTooDeep) :
        c.Agree failTooDeep q := by
      refine agree_failTooDeep ?_
      rcases left with rfl | ⟨-, stops⟩
      · exact .inl (same rfl)
      · exact .inr stops
    exact ⟨base fun none => by rw [none]; rfl, base fun none => by rw [none]; rfl⟩
  | succ n ih =>
    obtain ⟨m, rfl⟩ : ∃ k, m = k + 1 := by
      refine Nat.exists_eq_add_one.mpr ?_
      rcases left with same | ⟨le, -⟩ <;> omega
    have inner := ih left.pred
    exact ⟨(agree_assignmentAt inner).deeper, (agree_unaryAt inner).deeper⟩

theorem parser_agrees : c.Agree parser parser := .withLevels fun left => (agree_within left).assignment

end Expr

end PulseSyntax
