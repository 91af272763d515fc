import Mathlib.Data.Nat.Find
import PulseSyntax.Proofs.Program.Course
import PulseSyntax.Proofs.Program.Strictness

namespace PulseSyntax

open PulseSyntax.Parser PulseSyntax.Comparison

def Comparison.deepening : Comparison where
  options a b := (a.styleFallback = false ∧ b.styleFallback = false) ∧ a.maxDepth ≤ b.maxDepth
  stops e := e.cause.isTooDeep
  le related := related.2
  tooDeep _ := .inr fun _ _ => rfl

/-- Runs with the fallback of which the second may nest deeper. -/
def Comparison.lenient : Comparison where
  options a b := (a.styleFallback = true ∧ b.styleFallback = true) ∧ a.maxDepth ≤ b.maxDepth
  stops e := e.cause.isTooDeep
  le related := related.2
  tooDeep _ := .inr fun _ _ => rfl

def Comparison.IsStrict (c : Comparison) : Prop :=
  ∀ {a b}, c.options a b → a.styleFallback = false ∧ b.styleFallback = false

namespace StyleBlock

variable {c : Comparison}

theorem agree_rulesUpTo (strict : c.IsStrict) (stop : Nat)
    (block : List StyleNode → Option String → Token → StyleBlock) :
    c.Agree (rulesUpTo stop block) (rulesUpTo stop block) := by
  intro a b related stream quotation s
  obtain ⟨first, second⟩ := strict related
  rcases Style.agree_rulesParser stop related stream quotation s with ⟨e, t, failed, stops⟩ | same
  · exact .inl ⟨e, t, rulesUpTo_of_error block first failed, stops⟩
  · cases read : Style.rulesParser stop ⟨stream, b, quotation⟩ s with
    | error e t =>
      rw [rulesUpTo_of_error block first (same.trans read), rulesUpTo_of_error block second read]
      exact .refl _
    | ok rules t =>
      have tail : c.Agree (do seek stop; return block rules none (← expectSymbol .closeBrace))
          (do seek stop; return block rules none (← expectSymbol .closeBrace)) :=
        (agree_seek stop).bind fun _ => (agree_expect _).bind fun _ => agree_pure _
      rw [rulesUpTo, bind_of_ok (attempt_of_ok (same.trans read)), bind_of_ok (attempt_of_ok read)]
      exact tail related stream quotation t

theorem parser_agrees (strict : c.IsStrict) : c.Agree parser parser := by
  rw [parser_eq]
  exact (agree_expect _).bind fun start => (agree_expect _).bind fun _ => agree_cursor.bind
    fun first => Style.agree_findEnd.bind fun stop => (Style.agree_tokensBetween _ _).bind
      fun tokens => agree_rulesUpTo strict stop _

end StyleBlock

section

variable {c : Comparison}

theorem Declarations.agree_add (strict : c.IsStrict) (d : Declarations) : c.Agree d.add d.add := by
  have once {α : Type} {p : Parser α} (h : c.Agree p p) (seen : Option α) (name : String)
      (next : Option α → Declarations) :
      c.Agree (do return next (← once seen name p)) (do return next (← once seen name p)) :=
    (agree_once h seen name).bind fun _ => agree_pure _
  refine agree_current.bind fun t => ?_
  split
  · exact Import.parser_agrees.bind fun _ => agree_pure _
  · refine agree_peek.bind fun next => ?_
    split
    · exact once PageDecl.parser_agrees _ _ _
    · exact once RouteDecl.parser_agrees _ _ _
    · exact agree_failUnknown
  · exact once (PropertyBlock.parser_agrees _) _ _ _
  · exact once (PropertyBlock.parser_agrees _) _ _ _
  · exact once ViewBlock.parser_agrees _ _ _
  · exact once ActionsBlock.parser_agrees _ _ _
  · exact once (StyleBlock.parser_agrees strict) _ _ _
  · exact once RouterBlock.parser_agrees _ _ _
  · exact once StoreBlock.parser_agrees _ _ _
  · exact agree_advance.bind fun _ => agree_pure _
  · exact agree_failUnknown

theorem Program.parser_agrees (strict : c.IsStrict) : c.Agree Program.parser Program.parser := by
  rw [parser_eq]
  refine agree_current.bind fun start => (Agree.loop (fun d => ?_) _).bind fun _ =>
    agree_current.bind fun _ => agree_pure _
  exact (agree_is _).bind fun _ => .ite (agree_pure _)
    ((Declarations.agree_add strict d).bind fun _ => agree_pure _)

end

def longestText : List Token → Nat
  | [] => 0
  | t :: rest => max t.text.toList.length (longestText rest)

theorem length_le_longestText {t : Token} {tokens : List Token} (member : t ∈ tokens) :
    t.text.toList.length ≤ longestText tokens := by
  induction tokens with
  | nil => cases member
  | cons u rest ih =>
    rcases List.mem_cons.mp member with rfl | later
    · exact Nat.le_max_left _ _
    · exact Nat.le_trans (ih later) (Nat.le_max_right _ _)

theorem Program.parser_shallow {scope : Scope}
    (enough : scope.stream.size + longestText scope.stream.toList < scope.options.maxDepth)
    {e : ParseError} {t : ParserState} (failed : Program.parser scope .initial = .error e t) :
    e.cause.isTooDeep = false := by
  have texts : scope.TextsFit := fun i => by
    have le := length_le_longestText (TokenStream.get_mem scope.stream i)
    omega
  refine ((Program.parser_steady (c := ⟨scope, 0, True⟩) (fun _ => texts) .initial rfl).stops
    failed).shallow trivial ⟨scope.stream.nonempty, ?_⟩
  change scope.stream.size ≤ scope.options.maxDepth
  omega

theorem Cause.kind_eq_nestingTooDeep {cause : Cause} :
    cause.kind = .nestingTooDeep ↔ cause.isTooDeep := by
  cases cause
  case expected | wanted =>
    simp only [kind, misfitKind, isTooDeep]
    split <;> simp
  all_goals simp [kind, isTooDeep]

/-- The parse has run out of levels. -/
def Reply.IsTooDeep {α : Type} (reply : Reply α) : Prop :=
  ∃ e t, reply = .error e t ∧ e.cause.kind = .nestingTooDeep

/-- The limit is a threshold for strict parses: below it they run out of levels, and from it on they
    all answer the same. -/
theorem Program.exists_threshold (stream : TokenStream) :
    ∃ limit reply, (∀ depth < limit,
        (Program.parser (.withFallback stream depth false) .initial).IsTooDeep) ∧
      ¬ reply.IsTooDeep ∧
      ∀ depth, limit ≤ depth →
        Program.parser (.withFallback stream depth false) .initial = reply := by
  have exists_shallow :
      ∃ depth, ¬ (Program.parser (.withFallback stream depth false) .initial).IsTooDeep := by
    refine ⟨stream.size + longestText stream.toList + 1, fun ⟨e, t, failed, deep⟩ => ?_⟩
    have shallow := parser_shallow (Nat.lt_succ_self _) failed
    rw [Cause.kind_eq_nestingTooDeep, shallow] at deep
    cases deep
  classical
  refine ⟨Nat.find exists_shallow, _, fun depth less => ?_, Nat.find_spec exists_shallow,
    fun depth le => ?_⟩
  · exact Classical.not_not.mp (Nat.find_min exists_shallow less)
  · have agree : deepening.Agree Program.parser Program.parser :=
      Program.parser_agrees fun related => related.1
    rcases agree (a := ⟨false, Nat.find exists_shallow⟩) (b := ⟨false, depth⟩) ⟨⟨rfl, rfl⟩, le⟩
      stream none .initial with ⟨e, t, failed, stops⟩ | same
    · exact absurd ⟨e, t, failed, Cause.kind_eq_nestingTooDeep.mpr stops⟩
        (Nat.find_spec exists_shallow)
    · exact same.symm

namespace Parser

variable {α α' β β' σ σ' : Type}

/-- Where a run with the fallback succeeds, one that may nest deeper does as well, in the same state
    and with a related answer. -/
def Extends (R : α → α' → Prop) (p : Parser α) (p' : Parser α') : Prop :=
  ∀ ⦃a b⦄, lenient.options a b → ∀ stream quotation s ⦃x t⦄,
    p ⟨stream, a, quotation⟩ s = .ok x t → ∃ y, p' ⟨stream, b, quotation⟩ s = .ok y t ∧ R x y

variable {R : α → α' → Prop} {S : β → β' → Prop} {p : Parser α} {p' : Parser α'}

theorem extends_pure {x : α} {y : α'} (h : R x y) : Extends R (pure x) (pure y) := by
  intro a b _ stream quotation s _ _ ok
  cases ok
  exact ⟨y, rfl, h⟩

theorem extends_of_agree {p : Parser α} (h : lenient.Agree p p) : Extends Eq p p := by
  intro a b related stream quotation s x t ok
  rcases h related stream quotation s with ⟨e, u, failed, -⟩ | same
  · rw [failed] at ok
    cases ok
  · exact ⟨x, same ▸ ok, rfl⟩

theorem Extends.bind {f : α → Parser β} {f' : α' → Parser β'} (h : Extends R p p')
    (hf : ∀ x y, R x y → Extends S (f x) (f' y)) : Extends S (p >>= f) (p' >>= f') := by
  intro a b related stream quotation s z u ok
  obtain ⟨x, t, first, rest⟩ := bind_eq_ok.mp ok
  obtain ⟨y, second, here⟩ := h related stream quotation s first
  obtain ⟨z', last, there⟩ := hf x y here related stream quotation t rest
  exact ⟨z', bind_eq_ok.mpr ⟨y, t, second, last⟩, there⟩

theorem Extends.after {p : Parser α} {f : α → Parser β} {f' : α → Parser β'}
    (h : lenient.Agree p p) (hf : ∀ x, Extends S (f x) (f' x)) : Extends S (p >>= f) (p >>= f') :=
  (extends_of_agree h).bind fun x _ same => same ▸ hf x

theorem Extends.loop {R : σ → σ' → Prop} {step : σ → Parser (ForInStep σ)}
    {step' : σ' → Parser (ForInStep σ')}
    (h : ∀ x y, R x y → Extends (fun next next' => match next, next' with
      | .done z, .done w => R z w
      | .yield z, .yield w => R z w
      | _, _ => False) (step x) (step' y)) {x : σ} {y : σ'} (first : R x y) :
    Extends R (loop step x) (loop step' y) := by
  have rounds (n : Nat) {x : σ} {y : σ'} (related : R x y) :
      Extends R (iterate step n x) (iterate step' n y) := by
    induction n generalizing x y with
    | zero => exact extends_pure related
    | succ n ih =>
      refine (h x y related).bind fun next next' same => ?_
      cases next with
      | done z =>
        cases next' with
        | done w => exact extends_pure same
        | yield w => cases same
      | yield z =>
        cases next' with
        | done w => cases same
        | yield w => exact ih same
  intro a b related stream quotation s
  exact rounds (stream.size - s.cursor + 1) first related stream quotation s

end Parser

/-- The text of a style block and where it stands. -/
def StyleBlock.withoutRules (block : StyleBlock) : StyleBlock :=
  { block with rules := [], parseError := none }

def Declarations.withoutRules (d : Declarations) : Declarations :=
  { d with style := d.style.map (·.withoutRules) }

def Program.withoutRules (program : Program) : Program :=
  { program with toDeclarations := program.toDeclarations.withoutRules }

theorem StyleBlock.parser_extends :
    Extends (fun block block' => block.withoutRules = block'.withoutRules) parser parser := by
  rw [parser_eq]
  refine .after (agree_expect _) fun start => .after (agree_expect _) fun _ => .after agree_cursor
    fun first => ?_
  intro a b related stream quotation s block u ok
  obtain ⟨stop, t, found, rest⟩ := bind_eq_ok.mp ok
  obtain ⟨_, found', rfl⟩ := extends_of_agree Style.agree_findEnd related stream quotation s found
  obtain ⟨rfl, closes⟩ := Style.findEnd_closesAt found
  obtain ⟨-, closes'⟩ := Style.findEnd_closesAt found'
  have between (options : Options) : Style.tokensBetween first stop ⟨stream, options, quotation⟩ t =
      .ok (stream.between first stop) t := rfl
  let own (rules : List StyleNode) (parseError : Option String) (close : Token) : StyleBlock :=
    ⟨Style.block (stream.between first stop), rules, parseError, start.span.cover close.span⟩
  rw [bind_of_ok (between a)] at rest
  obtain ⟨_, _, answer⟩ := rulesUpTo_apply own closes (.inl related.1.1)
  obtain ⟨rules, parseError, answer'⟩ := rulesUpTo_apply own closes' (.inl related.1.2)
  cases answer.symm.trans rest
  refine ⟨own rules parseError (stream.get stop), ?_, rfl⟩
  rw [bind_of_ok found', bind_of_ok (between b)]
  exact answer'

theorem Declarations.eq_of_withoutRules {d d' : Declarations}
    (h : d.withoutRules = d'.withoutRules) : ∃ style, d' = { d with style := style } ∧
      style.map (·.withoutRules) = d.style.map (·.withoutRules) := by
  cases d
  cases d'
  simp only [withoutRules, mk.injEq] at h
  obtain ⟨rfl, rfl, rfl, rfl, rfl, rfl, rfl, same, rfl, rfl⟩ := h
  exact ⟨_, rfl, same.symm⟩

namespace Declarations

theorem extends_add {d d' : Declarations} (h : d.withoutRules = d'.withoutRules) :
    Extends (fun next next' => next.withoutRules = next'.withoutRules) d.add d'.add := by
  obtain ⟨style, rfl, same⟩ := eq_of_withoutRules h
  have once {α : Type} {p : Parser α} (h : lenient.Agree p p) (seen : Option α) (name : String)
      {next next' : Option α → Declarations}
      (alike : ∀ a, (next a).withoutRules = (next' a).withoutRules) :
      Extends (fun next next' => next.withoutRules = next'.withoutRules)
        (do return next (← once seen name p)) (do return next' (← once seen name p)) :=
    .after (agree_once h seen name) fun a => extends_pure (alike a)
  have fails : Extends (fun (next next' : Declarations) => next.withoutRules = next'.withoutRules)
      failUnknown failUnknown := fun _ _ _ _ _ _ _ _ ok => absurd ok failUnknown_ne_ok
  refine .after agree_current fun t => ?_
  split
  · exact .after Import.parser_agrees fun _ => extends_pure (by simp [withoutRules, same])
  · refine .after agree_peek fun next => ?_
    split
    · exact once PageDecl.parser_agrees _ _ fun _ => by simp [withoutRules, same]
    · exact once RouteDecl.parser_agrees _ _ fun _ => by simp [withoutRules, same]
    · exact fails
  · exact once (PropertyBlock.parser_agrees _) _ _ fun _ => by simp [withoutRules, same]
  · exact once (PropertyBlock.parser_agrees _) _ _ fun _ => by simp [withoutRules, same]
  · exact once ViewBlock.parser_agrees _ _ fun _ => by simp [withoutRules, same]
  · exact once ActionsBlock.parser_agrees _ _ fun _ => by simp [withoutRules, same]
  · refine Extends.bind (R := fun read read' =>
      read.map (·.withoutRules) = read'.map (·.withoutRules)) ?_ fun read read' alike =>
        extends_pure (by simp [withoutRules, alike])
    have seen : style.isSome = d.style.isSome := by
      simpa using congrArg Option.isSome same
    unfold Declarations.once
    dsimp only
    rw [seen]
    split
    · exact fun _ _ _ _ _ _ _ _ ok => absurd ok fail_ne_ok
    · exact StyleBlock.parser_extends.bind fun block block' alike =>
        extends_pure (by simp [alike])
  · exact once RouterBlock.parser_agrees _ _ fun _ => by simp [withoutRules, same]
  · exact once StoreBlock.parser_agrees _ _ fun _ => by simp [withoutRules, same]
  · exact .after agree_advance fun _ => extends_pure (by simp [withoutRules, same])
  · exact fails

end Declarations

theorem Program.parser_extends :
    Extends (fun program program' => program.withoutRules = program'.withoutRules)
      Program.parser Program.parser := by
  rw [parser_eq]
  refine .after agree_current fun start => ?_
  refine Extends.bind (R := fun d d' => d.withoutRules = d'.withoutRules) (Extends.loop ?_ rfl) ?_
  · intro d d' same
    refine .after (agree_is _) fun done => ?_
    split
    · exact extends_pure same
    · exact (Declarations.extends_add same).bind fun _ _ same => extends_pure same
  · intro d d' same
    exact .after agree_current fun _ => extends_pure (by simp [withoutRules, same])

/-- The limit of the nesting is a pure threshold. Without the fallback there is one number below
    which every parse of the tokens runs out of levels and from which on all give one answer. With
    the fallback a parse that succeeds does so with every higher limit, and the programs differ at
    most in the rules of the style block and in the error that it keeps. -/
theorem Program.parser_limit (tokens : List Token) :
    (∃ limit reply, (∀ depth < limit,
        (Program.parser (.withFallback (.ofList tokens) depth false) .initial).IsTooDeep) ∧
      ¬ reply.IsTooDeep ∧
      ∀ depth, limit ≤ depth →
        Program.parser (.withFallback (.ofList tokens) depth false) .initial = reply) ∧
    ∀ depth depth' program t, depth ≤ depth' →
      Program.parser (.withFallback (.ofList tokens) depth true) .initial = .ok program t →
      ∃ program', Program.parser (.withFallback (.ofList tokens) depth' true) .initial =
        .ok program' t ∧ program.withoutRules = program'.withoutRules := by
  refine ⟨exists_threshold _, fun depth depth' program t le ok => ?_⟩
  exact parser_extends (a := ⟨true, depth⟩) (b := ⟨true, depth'⟩) ⟨⟨rfl, rfl⟩, le⟩ _ none .initial ok

/-- Rules that nest too deep are kept as text, and are read with one level more. -/
theorem Program.parser_limit_rules :
    ∃ program program' t,
      Program.parser (.withFallback (.ofList (tokenize "style { a { b {}}}")) 1 true)
        .initial = .ok program t ∧
      Program.parser (.withFallback (.ofList (tokenize "style { a { b {}}}")) 2 true)
        .initial = .ok program' t ∧
      program.withoutRules = program'.withoutRules ∧ program.styleError ≠ program'.styleError := by
  generalize hs : "style { a { b {}}}" = source
  have read : (Program.parser (.withFallback (.ofList (tokenize source)) 1 true)
      .initial).styleError?.isSome := by
    subst hs
    decide +kernel
  have readAll : (Program.parser (.withFallback (.ofList (tokenize source)) 2 true)
      .initial).styleError? = none := by
    subst hs
    decide +kernel
  cases shallow : Program.parser (.withFallback (.ofList (tokenize source)) 1 true) .initial with
  | error e t =>
    rw [shallow] at read
    cases read
  | ok program t =>
    obtain ⟨program', deep, same⟩ :=
      (Program.parser_limit (tokenize source)).2 1 2 program t (by decide) shallow
    rw [shallow] at read
    rw [deep] at readAll
    refine ⟨program, program', t, rfl, deep, same, fun alike => ?_⟩
    rw [Reply.styleError?, alike, ← Reply.styleError?, readAll] at read
    cases read

end PulseSyntax
