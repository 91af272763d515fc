import PulseSyntax.Block.Parser
import PulseSyntax.Proofs.Markup.Course
import PulseSyntax.Proofs.Style.Block
import PulseSyntax.Proofs.Style.Course

namespace PulseSyntax

open PulseSyntax.Parser PulseSyntax.Course

variable {c : Course}

theorem Property.parser_starting : c.Starting Property.parser := by
  intro s hs
  refine .atIs ?_
  extract_lets rest
  have tail (name : Token) : c.Steady (rest name) :=
    (starting_expectSymbol _).steady.bind fun _ => Expr.parser_moving.steady.bind fun _ =>
      steady_pure _
  refine .ite (fun string => .token ?_ hs (Nat.le_refl _) (tail _)) fun _ =>
    starting_expectName.bind tail s hs
  rw [beq_iff_eq.mp string]
  nofun

theorem PropertyBlock.parser_starting (word : Keyword) : c.Starting (parser word) :=
  (starting_expectKeyword _).bind fun _ =>
    Property.parser_starting.moving.entry.braced.steady.bind fun _ => steady_pure _

theorem Param.parser_steady (before : Array Param) : c.Steady (parser before) := by
  refine .ite (steady_fail rfl) (steady_current.bind fun _ => (steady_eatSymbol _).bind fun _ => ?_)
  refine starting_expectName.steady.bind fun _ => (steady_eatSymbol _).bind fun _ =>
    .ite (steady_pure _) ?_
  exact .ite (steady_fail rfl) (Expr.parser_moving.steady.bind fun _ => steady_pure _)

theorem Param.starting_listParser : c.Starting listParser :=
  (starting_expectSymbol _).bind fun _ => (steady_commaSeparatedAfter parser_steady).bind fun _ =>
    (starting_expectSymbol _).steady.bind fun _ => steady_pure _

theorem Action.parser_moving : c.Moving Action.parser := by
  refine steady_current.andMoving fun first => steady_peek.andMoving fun next => ?_
  extract_lets isAsync rest
  have tail : c.Moving (rest ()) := by
    intro s hs
    refine .look rfl (.ite (fun _ => .failWanted) fun name => .token (isName_ne ?_) hs (Nat.zero_le _)
      (Param.starting_listParser.steady.bind fun _ => starting_rawBlock.steady.bind fun _ =>
        steady_previous.bind fun _ => steady_pure _))
    simpa using name
  intro s hs
  exact .ite (fun _ => steady_advance.andMoving (fun _ => tail) s hs) fun _ => tail s hs

theorem ActionsBlock.parser_starting : c.Starting ActionsBlock.parser :=
  (starting_expectKeyword _).bind fun _ => (starting_expectSymbol _).steady.bind fun _ =>
    (steady_manyAfter fun _ => Action.parser_moving.entry).bind fun _ =>
      (starting_expectSymbol _).steady.bind fun _ => steady_pure _

theorem steady_ensureFirst (seen : Bool) (field block : String) :
    c.Steady (ensureFirst seen field block) := .ite (steady_fail rfl) (steady_pure _)

theorem moving_fieldColon : c.Moving fieldColon :=
  steady_advance.andMoving fun _ => (starting_expectSymbol _).moving.bind fun _ => steady_pure _

theorem Route.parser_starting (before : Array Route) : c.Starting (parser before) :=
  (starting_expect (by simp)).bind fun _ => .ite (starting_failAt _ rfl).steady
    ((starting_expectSymbol _).steady.bind fun _ => Expr.parser_moving.steady.bind fun _ =>
      steady_pure _)

theorem Route.starting_listParser : c.Starting listParser :=
  (starting_expectKeyword _).bind fun _ => (steady_eatSymbol _).bind fun _ =>
    (starting_expectSymbol _).steady.bind fun _ =>
      (steady_manyAfter fun before => (parser_starting before).moving.entry).bind fun _ =>
        (starting_expectSymbol _).steady.bind fun _ => steady_pure _

theorem Guard.parser_moving : c.Moving Guard.parser :=
  steady_advance.andMoving fun _ => Param.starting_listParser.moving.bind fun _ =>
    starting_rawBlock.steady.bind fun _ => steady_previous.bind fun _ => steady_pure _

theorem RouterFields.moving_add (fields : RouterFields) : c.Moving fields.add := by
  intro s hs
  refine .atCurrent ?_
  split
  · exact (steady_ensureFirst _ _ _).andMoving (fun _ => moving_fieldColon.bind fun _ =>
      (starting_expectStringOr (by simp)).steady.bind fun _ => steady_pure _) s hs
  · exact (steady_ensureFirst _ _ _).andMoving (fun _ => moving_fieldColon.bind fun _ =>
      (starting_expect (by simp)).steady.bind fun _ => steady_pure _) s hs
  · exact (steady_ensureFirst _ _ _).andMoving (fun _ =>
      Route.starting_listParser.moving.bind fun _ => steady_pure _) s hs
  · exact (steady_ensureFirst _ _ _).andMoving (fun _ => Guard.parser_moving.bind fun _ =>
      steady_pure _) s hs
  · exact (steady_ensureFirst _ _ _).andMoving (fun _ => Guard.parser_moving.bind fun _ =>
      steady_pure _) s hs
  · exact .failWanted

theorem RouterBlock.parser_starting : c.Starting RouterBlock.parser :=
  (starting_expectKeyword _).bind fun _ => (starting_expectSymbol _).steady.bind fun _ =>
    (steady_foldEntries RouterFields.moving_add _).bind fun _ =>
      (starting_expectSymbol _).steady.bind fun _ => steady_pure _

theorem Getter.parser_starting : c.Starting Getter.parser := by
  intro s hs
  refine .look rfl (.ite (fun _ => .failWanted) fun name => .token (isName_ne ?_) hs (Nat.le_refl _) ?_)
  · simpa using name
  · refine (steady_eatSymbol _).bind fun _ => ?_
    extract_lets rest close
    have tail : c.Steady (rest ()) :=
      starting_rawBlock.steady.bind fun _ => steady_previous.bind fun _ => steady_pure _
    have closed (u : Unit) : c.Steady (close u) := steady_advance.bind fun _ => tail
    exact .ite (steady_current.bind fun _ => .ite ((steady_fail rfl).bind closed) (closed ())) tail

theorem Getter.starting_listParser : c.Starting listParser :=
  (starting_expectKeyword _).bind fun _ => parser_starting.moving.entry.braced.steady.bind fun _ =>
    steady_pure _

theorem StoreFields.moving_add (fields : StoreFields) : c.Moving fields.add := by
  intro s hs
  refine .atCurrent ?_
  split
  · exact (steady_ensureFirst _ _ _).andMoving (fun _ =>
      (PropertyBlock.parser_starting _).moving.bind fun _ => steady_pure _) s hs
  · exact (steady_ensureFirst _ _ _).andMoving (fun _ =>
      Getter.starting_listParser.moving.bind fun _ => steady_pure _) s hs
  · exact (steady_ensureFirst _ _ _).andMoving (fun _ =>
      ActionsBlock.parser_starting.moving.bind fun _ => steady_pure _) s hs
  · refine (steady_ensureFirst _ _ _).andMoving (fun _ => moving_fieldColon.bind fun _ =>
      steady_current.bind fun value => ?_) s hs
    extract_lets rest
    have tail (value : Bool) : c.Steady (rest value) := steady_advance.bind fun _ => steady_pure _
    split
    · exact (steady_pure _).bind tail
    · exact (steady_pure _).bind tail
    · exact (starting_failWanted _).steady.bind tail
  · exact (steady_ensureFirst _ _ _).andMoving (fun _ => moving_fieldColon.bind fun _ =>
      (starting_expect (by simp)).steady.bind fun _ => steady_pure _) s hs
  · exact (steady_ensureFirst _ _ _).andMoving (fun _ => moving_fieldColon.bind fun _ =>
      (steady_is _).bind fun _ => .ite (starting_failWanted _).steady
        (Expr.parser_moving.steady.bind fun _ => steady_pure _)) s hs
  · exact .failWanted

theorem StoreBlock.parser_starting : c.Starting StoreBlock.parser :=
  (starting_expectKeyword _).bind fun _ => (starting_expectSymbol _).steady.bind fun _ =>
    (steady_foldEntries StoreFields.moving_add _).bind fun _ =>
      (starting_expectSymbol _).steady.bind fun _ => steady_pure _

namespace Import

theorem steady_sourceParser (start : Span) (specifiers : List ImportSpecifier) :
    c.Steady (sourceParser start specifiers) :=
  (starting_expectKeyword _).steady.bind fun _ => (starting_expect (by simp)).steady.bind fun _ =>
    (steady_eatSymbol _).bind fun _ => steady_pure _

theorem steady_namedParser : c.Steady namedParser :=
  starting_expectName.steady.bind fun _ => (steady_eat (by simp)).bind fun _ =>
    .ite ((starting_expect (by simp)).steady.bind fun _ => steady_pure _) (steady_pure _)

theorem steady_namespaceParser : c.Steady namespaceParser :=
  steady_advance.bind fun _ => (starting_expectKeyword _).steady.bind fun _ =>
    (starting_expect (by simp)).steady.bind fun _ => steady_pure _

theorem steady_bindingsParser : c.Steady bindingsParser := by
  refine steady_current.bind fun _ => .ite ?_ (.ite ?_ (steady_fail rfl))
  · exact steady_namespaceParser.bind fun _ => steady_pure _
  · exact steady_advance.bind fun _ => (steady_commaSeparated steady_namedParser).bind fun _ =>
      (starting_expectSymbol _).steady.bind fun _ => steady_pure _

theorem parser_starting : c.Starting parser := by
  refine (starting_expectKeyword _).bind fun _ => (steady_is _).bind fun _ => .ite ?_
    ((steady_is _).bind fun _ => .ite ?_ (steady_bindingsParser.bind fun _ =>
      steady_sourceParser _ _))
  · exact steady_advance.bind fun _ => (steady_eatSymbol _).bind fun _ => steady_pure _
  · refine steady_advance.bind fun _ => (steady_eatSymbol _).bind fun _ => .ite ?_
      (steady_sourceParser _ _)
    exact steady_bindingsParser.bind fun _ => steady_sourceParser _ _

end Import

theorem PageDecl.parser_starting : c.Starting parser :=
  (starting_expectSymbol _).bind fun _ => (starting_expectKeyword _).steady.bind fun _ =>
    (starting_expectStringOr (by simp)).steady.bind fun _ => steady_pure _

theorem RouteDecl.parser_starting : c.Starting parser :=
  (starting_expectSymbol _).bind fun _ => (starting_expectKeyword _).steady.bind fun _ =>
    (starting_expect (by simp)).steady.bind fun _ => steady_pure _

namespace Declarations

theorem starting_failUnknown {α : Type} : c.Starting (failUnknown : Parser α) := fun s hs =>
  .atCurrent (.atPeek (starting_failAtToken (fun _ => rfl) s hs))

theorem moving_once {α : Type} {p : Parser α} (h : c.Starting p) (seen : Option α) (name : String) :
    c.Moving (once seen name p) := fun s hs =>
  .ite (fun _ => .fail rfl) fun _ => h.moving.bind (fun _ => steady_pure _) s hs

theorem moving_add (texts : c.fits → c.scope.TextsFit) (d : Declarations) : c.Moving d.add := by
  intro s hs
  have once {α : Type} {p : Parser α} (h : c.Starting p) (seen : Option α) (name : String)
      (next : Option α → Declarations) :
      c.Proceeds 0 (fun _ => True) (do return next (← once seen name p)) s :=
    (moving_once h seen name).bind (fun _ => steady_pure _) s hs
  refine .atCurrent ?_
  split
  · exact Import.parser_starting.moving.bind (fun _ => steady_pure _) s hs
  · refine .atPeek ?_
    split
    · exact once PageDecl.parser_starting _ _ _
    · exact once RouteDecl.parser_starting _ _ _
    · exact starting_failUnknown.moving s hs
  · exact once (PropertyBlock.parser_starting _) _ _ _
  · exact once (PropertyBlock.parser_starting _) _ _ _
  · exact once (ViewBlock.parser_starting texts) _ _ _
  · exact once ActionsBlock.parser_starting _ _ _
  · exact once StyleBlock.parser_starting _ _ _
  · exact once RouterBlock.parser_starting _ _ _
  · exact once StoreBlock.parser_starting _ _ _
  · next semicolon => exact .token (by simp [semicolon]) hs (Nat.zero_le _) (steady_pure _)
  · exact starting_failUnknown.moving s hs

def round (d : Declarations) : Parser (ForInStep Declarations) := do
  if ← is .endOfFile then return .done d else return .yield (← d.add)

theorem turning_round (texts : c.fits → c.scope.TextsFit) : c.Turning round := by
  intro d s hs
  unfold round
  refine .atIs (.ite (fun _ => .done) fun _ => ?_)
  exact (moving_add texts d).proceeds hs fun _ => steady_pure _

end Declarations

theorem Program.parser_eq : Program.parser = do
    let start := (← current).span
    let d ← loop Declarations.round .empty
    return { d with span := start.cover (← current).span } := rfl

theorem Program.parser_steady (texts : c.fits → c.scope.TextsFit) : c.Steady Program.parser :=
  steady_current.bind fun _ => ((Declarations.turning_round texts).steady _).bind fun _ =>
    steady_current.bind fun _ => steady_pure _

end PulseSyntax
