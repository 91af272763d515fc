import PulseSyntax.Proofs.Program.Roles

namespace PulseSyntax

open PulseSyntax.Parser

variable {scope : Scope}

namespace Param

/-- At most the last parameter takes the rest, and it has no default then. -/
structure RestLast (params : List Param) : Prop where
  last : ∀ p ∈ params.dropLast, ¬ p.rest
  bare : ∀ p ∈ params, p.rest → p.default = none

theorem RestLast.push {before : List Param} {p : Param} (h : RestLast before)
    (plain : ¬ before.getLast?.any (·.rest)) (bare : p.rest → p.default = none) :
    RestLast (before ++ [p]) := by
  constructor
  · rw [List.dropLast_concat]
    intro q member
    rcases List.eq_nil_or_concat before with rfl | ⟨init, final, rfl⟩
    · cases member
    · rw [List.concat_eq_append] at h plain member
      rcases List.mem_append.mp member with earlier | final
      · have inInit : q ∈ (init ++ [final]).dropLast := by rwa [List.dropLast_concat]
        exact h.last q inInit
      · obtain rfl := List.mem_singleton.mp final
        simpa using plain
  · intro q member
    rcases List.mem_append.mp member with earlier | final
    · exact h.bare q earlier
    · obtain rfl := List.mem_singleton.mp final
      exact bare

theorem parser_restLast (before : Array Param) (h : RestLast before.toList) :
    Gives scope (fun p => RestLast (before.push p).toList) (parser before) := by
  intro s
  simp [parser]
  intro plain
  rw [← Array.getLast?_toList] at plain
  have push {p : Param} (bare : p.rest → p.default = none) : RestLast (before.toList ++ [p]) :=
    h.push (plain ▸ Bool.false_ne_true) bare
  refine ⟨fun _ _ _ => push fun _ => rfl, fun _ _ => ⟨fun _ => ?_, fun _ => push fun _ => rfl⟩⟩
  exact fun e t read => push fun given => absurd given Bool.false_ne_true

theorem listParser_restLast : Gives scope RestLast listParser := by
  intro s
  simp [listParser]
  intro _
  have none : RestLast (#[] : Array Param).toList := by constructor <;> simp
  exact (Gives.commaSeparatedAfter_push .closeParen parser_restLast none _).mono
    fun params t own _ => own

end Param

namespace Expr

theorem isParam_spread {e : Expr} (h : e.isParam) (spread : e.isSpread) :
    ∃ name place span, e = .spread (.identifier name place) span := by
  unfold isParam at h
  split at h
  · cases spread
  · cases spread
  · cases spread
  · cases spread
  · exact ⟨_, _, _, rfl⟩
  · cases h

def paramsOf : Expr → List Expr
  | .arrow params _ _ _ => params
  | _ => []

theorem exists_arrow_of_mem {e p : Expr} (h : p ∈ e.paramsOf) :
    ∃ body isAsync span, e = .arrow e.paramsOf body isAsync span := by
  cases e with
  | arrow params body isAsync span => exact ⟨body, isAsync, span, rfl⟩
  | _ => cases h

variable {i j : Nat} {params : List Expr} {body : ArrowBody} {isAsync : Bool} {span : Span}

theorem Stands.params_valid (h : Stands scope (.expr (.arrow params body isAsync span)) i j) :
    params.all isParam := by
  generalize same : Piece.expr (.arrow params body isAsync span) = piece at h
  induction h with
  | arrow list valid | asyncArrow hw raw list valid =>
    cases same
    exact valid
  | group ho inner hc ih => exact ih same
  | literal h =>
    cases same
    unfold literalOf? at h
    split at h <;> cases h
  | _ => cases same

theorem Stood.params_valid (h : Stood scope (.arrow params body isAsync span)) :
    params.all isParam := by
  obtain ⟨i, name | ⟨j, own⟩⟩ := h
  · cases name
  · cases own with
    | item inner => exact inner.params_valid

end Expr

namespace Scope

variable {role : Role} {e : Expr}

theorem Reads.params_valid (h : scope.Reads e) : ∀ params body isAsync span,
    .arrow params body isAsync span ∈ e.nodes → params.all Expr.isParam :=
  fun _ _ _ _ member => (Expr.stood_of_reads h _ member).params_valid

theorem Fills.params_valid (h : scope.Fills role e) : ∀ params body isAsync span,
    .arrow params body isAsync span ∈ e.nodes → params.all Expr.isParam := by
  cases h with
  | read h => exact h.params_valid
  | spread h =>
    intro params body isAsync span member
    rcases List.mem_cons.mp member with own | inner
    · cases own
    · exact h.params_valid params body isAsync span inner
  | flag =>
    intro params body isAsync span member
    cases List.mem_singleton.mp member

end Scope

/-- The lists of parameters of the functions and the guards of a component. -/
def Declarations.paramLists (d : Declarations) : List (List Param) :=
  d.actions.toList.flatMap (·.functions.map (·.params)) ++
    ((d.store.bind (·.actions)).toList.flatMap (·.functions.map (·.params)) ++
      d.router.toList.flatMap fun r =>
        r.beforeEach.toList.map (·.params) ++ r.afterEach.toList.map (·.params))

theorem ActionsBlock.parser_restLast :
    Gives scope (∀ a ∈ ·.functions, Param.RestLast a.params) ActionsBlock.parser :=
  ActionsBlock.parser_each (Action.parser_params Param.listParser_restLast)

theorem Declarations.Reached.restLast {d : Declarations} {s : ParserState} (h : d.Reached scope s) :
    ∀ params ∈ d.paramLists, Param.RestLast params := by
  have guard : Gives scope (fun g => Param.RestLast g.params) Guard.parser :=
    Guard.parser_params Param.listParser_restLast
  have any {α : Type} {p : Parser α} : Gives scope (fun _ => True) p := fun _ _ _ _ => trivial
  have each := h.each any any any ActionsBlock.parser_restLast
    (RouterBlock.parser_each (any.mono fun _ _ _ _ => trivial) guard)
    (StoreBlock.parser_each any ActionsBlock.parser_restLast fun _ _ => any _)
  have functions (b : ActionsBlock) (own : ∀ a ∈ b.functions, Param.RestLast a.params) :
      ∀ params ∈ b.functions.map (·.params), Param.RestLast params := List.forall_mem_map.mpr own
  refine List.forall_mem_append.mpr ⟨?_, List.forall_mem_append.mpr ⟨?_, ?_⟩⟩
  · refine List.forall_mem_flatMap.mpr fun b member => ?_
    exact functions b (each.actions b (Option.mem_toList.mp member))
  · refine List.forall_mem_flatMap.mpr fun b member => ?_
    obtain ⟨store, own, has⟩ := Option.bind_eq_some_iff.mp (Option.mem_toList.mp member)
    exact functions b ((each.store store own).2.1 b has)
  · refine List.forall_mem_flatMap.mpr fun router member => ?_
    obtain ⟨-, before, after⟩ := each.router router (Option.mem_toList.mp member)
    exact List.forall_mem_append.mpr ⟨by simpa using before, by simpa using after⟩

/-- Of the parameters of a function or a guard at most the last takes the rest, and it has no default
    then. A parameter of an arrow function that takes the rest has no default either, wherever the
    function stands, in an interpolation too; where among the others it stands is left open. -/
theorem Component.parse_params {source : String} {options : Options} {c : Component}
    (parsed : Component.parse source options = .ok c) :
    (∀ params ∈ c.program.paramLists, Param.RestLast params) ∧
    ∀ e ∈ c.program.expressions, ∀ params body isAsync span,
      .arrow params body isAsync span ∈ e.nodes → (∀ p ∈ params, p.isParam) ∧
        ∀ p ∈ params, p.isSpread → ∃ name place span, p = .spread (.identifier name place) span := by
  obtain ⟨filled, has⟩ := Component.filled parsed
  obtain ⟨-, t, read⟩ := Component.parse_ok parsed
  have reached := (Program.reached (rfl : (Scope.mk (.ofList (tokenize source)) options
    none).quotation = none) read).1
  refine ⟨reached.restLast, fun e member params body isAsync span inside => ?_⟩
  have valid : params.all Expr.isParam := by
    rcases Declarations.mem_expressions.mp member with own | ⟨t, part, own, inText⟩
    · obtain ⟨role, own⟩ := Declarations.mem_roles.mpr own
      exact (filled _ own).params_valid params body isAsync span inside
    · obtain ⟨i, start, hole, -, -, -, read⟩ := has _ own part e inText
      exact (Scope.reads_of_readHole read).params_valid params body isAsync span inside
  rw [List.all_eq_true] at valid
  exact ⟨valid, fun p own => Expr.isParam_spread (valid p own)⟩

/-- The first of the two parameters of an arrow function takes the rest. -/
theorem Component.parse_params_arrow :
    ∃ c e params body isAsync span, Component.parse "state { a: (...b, c) => 1 }" .standard = .ok c ∧
      e ∈ c.program.expressions ∧ .arrow params body isAsync span ∈ e.nodes ∧
      params.map Expr.isSpread = [true, false] ∧
      ∀ p ∈ params, p.isSpread → ∃ name place span, p = .spread (.identifier name place) span := by
  generalize hs : "state { a: (...b, c) => 1 }" = source
  have read : (Component.parse source .standard).toOption.map (fun c =>
      c.program.expressions.map (·.paramsOf.map Expr.isSpread)) = some [[true, false]] := by
    subst hs
    decide +kernel
  cases parsed : Component.parse source .standard with
  | error e =>
    rw [parsed] at read
    cases read
  | ok c =>
    rw [parsed] at read
    obtain ⟨e, only, form⟩ := List.map_eq_singleton_iff.mp (Option.some.inj read)
    have own : e ∈ c.program.expressions := by simp [only]
    obtain ⟨p, _, params, -, -⟩ := List.map_eq_cons_iff.mp form
    obtain ⟨body, isAsync, span, arrow⟩ := Expr.exists_arrow_of_mem (params ▸ List.mem_cons_self)
    have inside : .arrow e.paramsOf body isAsync span ∈ e.nodes := by
      rw [← arrow]
      exact List.mem_cons_self
    exact ⟨c, e, _, body, isAsync, span, rfl, own, inside, form,
      ((Component.parse_params parsed).2 e own _ body isAsync span inside).2⟩

end PulseSyntax
