import PulseSyntax.Proofs.Outline.Fragments

namespace PulseSyntax

/-- Which part of a node an expression is. -/
inductive Role where
  /-- An expression that stands alone: a value, a condition, a list, a key, an option. -/
  | value
  /-- One of a list of arguments: the handler of an event, the path and the options of a link or a
      navigation, the container of an outlet. -/
  | argument
  | binding
deriving DecidableEq, Repr

def ElementProp.roles (p : ElementProp) : List (Role × Expr) := [(.value, p.expr)]

def EventHandler.roles (h : EventHandler) : List (Role × Expr) :=
  h.handler.toList.map (.argument, ·)

def Directive.roles : Directive → List (Role × Expr)
  | event h _ => h.roles
  | model _ binding _ => [(.binding, binding)]
  | a11y attributes _ => attributes.flatMap fun a => [(.value, a.value)]
  | focusTrap options _ => options.toList.map (.value, ·)
  | live .. | srOnly _ | boundary .. => []

def LoopHead.roles (h : LoopHead) : List (Role × Expr) :=
  (.value, h.iterable) :: h.key.toList.map (.value, ·)

mutual

def MarkupNode.roles : MarkupNode → List (Role × Expr)
  | .element _ props directives _ children _ =>
    props.flatMap ElementProp.roles ++ (directives.flatMap Directive.roles ++
      MarkupNode.rolesOfList children)
  | .text _ => []
  | .conditional condition consequent branches none _ =>
    (.value, condition) :: (MarkupNode.rolesOfList consequent ++ Branch.rolesOfList branches)
  | .conditional condition consequent branches (some alternate) _ =>
    (.value, condition) ::
      (MarkupNode.rolesOfList consequent ++ (Branch.rolesOfList branches ++
        MarkupNode.rolesOfList alternate))
  | .loop head body _ => head.roles ++ MarkupNode.rolesOfList body
  | .event h children _ => h.roles ++ MarkupNode.rolesOfList children
  | .boundary _ children _ | .slot _ children _ => MarkupNode.rolesOfList children
  | .link path options _ children _ =>
    (.argument, path) :: (options.toList.map (.argument, ·) ++ MarkupNode.rolesOfList children)
  | .outlet container _ => container.toList.map (.argument, ·)
  | .navigate path options _ => (.argument, path) :: options.toList.map (.argument, ·)
  | .back _ | .forward _ => []

def MarkupNode.rolesOfList : List MarkupNode → List (Role × Expr)
  | [] => []
  | n :: ns => n.roles ++ MarkupNode.rolesOfList ns

def Branch.roles : Branch → List (Role × Expr)
  | .mk condition consequent _ => (.value, condition) :: MarkupNode.rolesOfList consequent

def Branch.rolesOfList : List Branch → List (Role × Expr)
  | [] => []
  | b :: bs => b.roles ++ Branch.rolesOfList bs

end

@[simp] theorem MarkupNode.rolesOfList_eq (ns : List MarkupNode) :
    MarkupNode.rolesOfList ns = ns.flatMap MarkupNode.roles := by
  induction ns with
  | nil => rfl
  | cons n ns ih => rw [rolesOfList, ih, List.flatMap_cons]

@[simp] theorem Branch.rolesOfList_eq (bs : List Branch) :
    Branch.rolesOfList bs = bs.flatMap Branch.roles := by
  induction bs with
  | nil => rfl
  | cons b bs ih => rw [rolesOfList, ih, List.flatMap_cons]

def ViewBlock.roles (b : ViewBlock) : List (Role × Expr) := b.children.flatMap MarkupNode.roles

def Property.roles (p : Property) : List (Role × Expr) := [(.value, p.value)]

def PropertyBlock.roles (b : PropertyBlock) : List (Role × Expr) :=
  b.properties.flatMap Property.roles

def Param.roles (p : Param) : List (Role × Expr) := p.default.toList.map (.value, ·)

def Action.roles (a : Action) : List (Role × Expr) := a.params.flatMap Param.roles

def ActionsBlock.roles (b : ActionsBlock) : List (Role × Expr) := b.functions.flatMap Action.roles

def Route.roles (r : Route) : List (Role × Expr) := [(.value, r.handler)]

def Guard.roles (g : Guard) : List (Role × Expr) := g.params.flatMap Param.roles

def RouterBlock.roles (b : RouterBlock) : List (Role × Expr) :=
  b.routes.flatMap Route.roles ++ (b.beforeEach.toList.flatMap Guard.roles ++
    b.afterEach.toList.flatMap Guard.roles)

def StoreBlock.roles (b : StoreBlock) : List (Role × Expr) :=
  b.state.toList.flatMap PropertyBlock.roles ++
    (b.actions.toList.flatMap ActionsBlock.roles ++ b.plugins.toList.map (.value, ·))

/-- The expressions of a component but those between the braces of texts, each with its role. -/
def Declarations.roles (d : Declarations) : List (Role × Expr) :=
  d.props.toList.flatMap PropertyBlock.roles ++
    (d.state.toList.flatMap PropertyBlock.roles ++
      (d.view.toList.flatMap ViewBlock.roles ++
        (d.actions.toList.flatMap ActionsBlock.roles ++
          (d.router.toList.flatMap RouterBlock.roles ++
            d.store.toList.flatMap StoreBlock.roles))))

def Fragment.expression? : Fragment → Option Expr
  | expression e => some e
  | body .. | text _ => none

/-- The roles are those of the expressions among the fragments. -/
abbrev RolesOf (roles : List (Role × Expr)) (fragments : List Fragment) : Prop :=
  roles.map Prod.snd = fragments.filterMap Fragment.expression?

namespace RolesOf

variable {α : Type} {role : Role} {e : Expr} {roles roles' : List (Role × Expr)}
variable {fragments fragments' : List Fragment}

theorem append (h : RolesOf roles fragments) (h' : RolesOf roles' fragments') :
    RolesOf (roles ++ roles') (fragments ++ fragments') := by
  rw [RolesOf, List.map_append, h, h', List.filterMap_append]

theorem cons (h : RolesOf roles fragments) :
    RolesOf ((role, e) :: roles) (.expression e :: fragments) :=
  congrArg (e :: ·) h

theorem flatMap {f : α → List (Role × Expr)} {g : α → List Fragment}
    (h : ∀ x, RolesOf (f x) (g x)) (xs : List α) : RolesOf (xs.flatMap f) (xs.flatMap g) := by
  rw [RolesOf, List.map_flatMap, List.filterMap_flatMap]
  exact congrArg (xs.flatMap ·) (funext h)

theorem map (role : Role) (es : List Expr) : RolesOf (es.map (role, ·)) (es.map .expression) := by
  rw [RolesOf, List.map_map, List.filterMap_map]
  exact (List.map_id es).trans List.filterMap_some.symm

theorem texts (ts : List TextNode) : RolesOf [] (ts.map .text) := by
  induction ts with
  | nil => rfl
  | cons t ts ih => exact ih

end RolesOf

theorem Directive.rolesOf (d : Directive) : RolesOf d.roles d.fragments := by
  cases d with
  | event h => exact .map .argument _
  | focusTrap options => exact .map .value _
  | a11y attributes => exact .flatMap (fun _ => rfl) attributes
  | _ => rfl

theorem LoopHead.rolesOf (h : LoopHead) : RolesOf h.roles h.fragments := .cons (.map _ _)

mutual

theorem MarkupNode.rolesOf : ∀ n : MarkupNode, RolesOf n.roles n.fragments
  | .element _ props directives texts children _ =>
    .append (.flatMap (fun _ => rfl) props) (.append (.flatMap Directive.rolesOf directives)
      (.append (.texts texts) (MarkupNode.rolesOf_list children)))
  | .text _ | .back _ | .forward _ => rfl
  | .conditional _ consequent branches none _ =>
    .cons (.append (MarkupNode.rolesOf_list consequent) (Branch.rolesOf_list branches))
  | .conditional _ consequent branches (some alternate) _ =>
    .cons (.append (MarkupNode.rolesOf_list consequent) (.append (Branch.rolesOf_list branches)
      (MarkupNode.rolesOf_list alternate)))
  | .loop head body _ => .append head.rolesOf (MarkupNode.rolesOf_list body)
  | .event _ children _ => .append (.map _ _) (MarkupNode.rolesOf_list children)
  | .boundary _ children _ | .slot _ children _ => MarkupNode.rolesOf_list children
  | .link _ _ caption children _ =>
    .cons (.append (.map _ _) (.append (.texts caption.toList) (MarkupNode.rolesOf_list children)))
  | .outlet _ _ => .map _ _
  | .navigate _ _ _ => .cons (.map _ _)

theorem MarkupNode.rolesOf_list : ∀ ns : List MarkupNode,
    RolesOf (MarkupNode.rolesOfList ns) (MarkupNode.fragmentsOfList ns)
  | [] => rfl
  | n :: ns => .append n.rolesOf (MarkupNode.rolesOf_list ns)

theorem Branch.rolesOf : ∀ b : Branch, RolesOf b.roles b.fragments
  | .mk _ consequent _ => .cons (MarkupNode.rolesOf_list consequent)

theorem Branch.rolesOf_list : ∀ bs : List Branch,
    RolesOf (Branch.rolesOfList bs) (Branch.fragmentsOfList bs)
  | [] => rfl
  | b :: bs => .append b.rolesOf (Branch.rolesOf_list bs)

end

theorem ViewBlock.rolesOf (b : ViewBlock) : RolesOf b.roles b.fragments :=
  .flatMap MarkupNode.rolesOf b.children

theorem PropertyBlock.rolesOf (b : PropertyBlock) : RolesOf b.roles b.fragments :=
  .flatMap (fun _ => rfl) _

theorem Param.rolesOf_list (ps : List Param) :
    RolesOf (ps.flatMap Param.roles) (ps.flatMap Param.fragments) :=
  .flatMap (fun _ => .map _ _) ps

theorem Action.rolesOf (a : Action) : RolesOf a.roles a.fragments := Param.rolesOf_list a.params

theorem ActionsBlock.rolesOf (b : ActionsBlock) : RolesOf b.roles b.fragments :=
  .flatMap Action.rolesOf b.functions

theorem Guard.rolesOf (g : Guard) : RolesOf g.roles g.fragments := Param.rolesOf_list g.params

theorem RouterBlock.rolesOf (b : RouterBlock) : RolesOf b.roles b.fragments :=
  .append (.flatMap (fun _ => rfl) _)
    (.append (.flatMap Guard.rolesOf _) (.flatMap Guard.rolesOf _))

theorem Getter.rolesOf_list (gs : List Getter) : RolesOf [] (gs.flatMap Getter.fragments) := by
  induction gs with
  | nil => rfl
  | cons g gs ih => exact ih

theorem StoreBlock.rolesOf (b : StoreBlock) : RolesOf b.roles b.fragments := by
  have getters := Getter.rolesOf_list b.getters
  exact .append (.flatMap PropertyBlock.rolesOf _)
    (getters.append (.append (.flatMap ActionsBlock.rolesOf _) (.map _ _)))

theorem Declarations.rolesOf (d : Declarations) : RolesOf d.roles d.fragments :=
  .append (.flatMap PropertyBlock.rolesOf _) (.append (.flatMap PropertyBlock.rolesOf _)
    (.append (.flatMap ViewBlock.rolesOf _)
      (.append (.flatMap ActionsBlock.rolesOf _) (.append (.flatMap RouterBlock.rolesOf _)
        (.flatMap StoreBlock.rolesOf _)))))

theorem Declarations.mem_roles {d : Declarations} {e : Expr} :
    (∃ role, (role, e) ∈ d.roles) ↔ .expression e ∈ d.fragments := by
  have same : e ∈ d.roles.map Prod.snd ↔ e ∈ d.fragments.filterMap Fragment.expression? := by
    rw [d.rolesOf]
  rw [List.mem_map, List.mem_filterMap] at same
  constructor
  · rintro ⟨role, member⟩
    obtain ⟨f, own, read⟩ := same.mp ⟨_, member, rfl⟩
    cases f with
    | expression e' => cases read; exact own
    | _ => cases read
  · intro member
    obtain ⟨⟨role, e'⟩, own, rfl⟩ := same.mpr ⟨_, member, rfl⟩
    exact ⟨role, own⟩

namespace Scope

/-- An expression is what its role lets it be. Only an argument may be spread, and only what can be
    assigned to is bound. -/
inductive Fills (scope : Scope) : Role → Expr → Prop
  | read {role : Role} {e : Expr} (h : scope.Reads e)
      (assignable : role = .binding → e.isAssignable) : Fills scope role e
  | spread {e : Expr} {span : Span} (h : scope.Reads e) : Fills scope .argument (.spread e span)
  | flag {span : Span} : Fills scope .value (.literal (.bool true) "true" span)

/-- All expressions are what their roles let them be. -/
def FillsAll (scope : Scope) (roles : List (Role × Expr)) : Prop :=
  ∀ r ∈ roles, scope.Fills r.1 r.2

variable {scope : Scope} {α : Type} {roles roles' : List (Role × Expr)} {role : Role} {e : Expr}

theorem fills_value (h : scope.Reads e) : scope.Fills .value e := .read h nofun

theorem fills_argument (h : scope.Reads e) : scope.Fills .argument e := .read h nofun

@[simp] theorem fillsAll_nil : scope.FillsAll [] := List.forall_mem_nil _

@[simp] theorem fillsAll_cons :
    scope.FillsAll ((role, e) :: roles) ↔ scope.Fills role e ∧ scope.FillsAll roles :=
  List.forall_mem_cons

@[simp] theorem fillsAll_append :
    scope.FillsAll (roles ++ roles') ↔ scope.FillsAll roles ∧ scope.FillsAll roles' :=
  List.forall_mem_append

@[simp] theorem fillsAll_flatMap {xs : List α} {f : α → List (Role × Expr)} :
    scope.FillsAll (xs.flatMap f) ↔ ∀ x ∈ xs, scope.FillsAll (f x) := List.forall_mem_flatMap

@[simp] theorem fillsAll_map {es : List Expr} :
    scope.FillsAll (es.map (role, ·)) ↔ ∀ e ∈ es, scope.Fills role e := List.forall_mem_map

end Scope

end PulseSyntax
