import PulseSyntax.Proofs.Expr.Edges
import PulseSyntax.Proofs.Expr.Print
import PulseSyntax.Proofs.Expr.Stands

namespace PulseSyntax

def PropertyKey.operands : PropertyKey → List Expr
  | computed key => [key]
  | identifier _ | string _ | number _ => []

def ObjectMember.operands : ObjectMember → List Expr
  | property key value _ _ => key.operands ++ [value]
  | spread e _ => [e]

def ArrowBody.operands : ArrowBody → List Expr
  | expression body => [body]
  | block _ | inline _ => []

namespace Expr

/-- The elements of an array, the arguments of a call, the parameters of a function. -/
def items : Expr → List Expr
  | array items _ | arrow items _ _ _ | call _ items _ _ => items
  | _ => []

/-- All that an expression is made of besides its items. -/
def operands : Expr → List Expr
  | identifier .. | literal .. | template .. | array .. => []
  | object members _ => members.flatMap ObjectMember.operands
  | spread e _ | unary _ e _ | update _ _ e _ => [e]
  | binary _ left right _ => [left, right]
  | assignment _ target value _ => [target, value]
  | conditional test consequent alternate _ => [test, consequent, alternate]
  | arrow _ body _ _ => body.operands
  | member owner property _ _ _ => [owner, property]
  | call callee _ _ _ => [callee]

/-- What an expression assigns to by itself. -/
def targets : Expr → List Expr
  | update _ _ e _ | assignment _ e _ _ => [e]
  | _ => []

/-- What is assigned to anywhere in an expression. -/
def assigned (e : Expr) : List Expr := e.nodes.flatMap targets

def hasPlainLinks : Expr → Bool
  | member owner _ _ optional _ => !optional && owner.hasPlainLinks
  | call callee _ optional _ => !optional && callee.hasPlainLinks
  | _ => true

/-- A name, or a member whose chain has no optional link. -/
def isReference (e : Expr) : Bool := e.isAssignable && e.hasPlainLinks

end Expr

namespace Expr

/-- Each of the nodes is one of the roots, or a node among them has it as an operand or an item. -/
def Rooted (roots nodes : List Expr) : Prop :=
  ∀ node ∈ nodes, node ∈ roots ∨ ∃ parent ∈ nodes, node ∈ parent.operands ++ parent.items

namespace Rooted

variable {roots roots' nodes nodes' : List Expr} {e : Expr}

theorem nil : Rooted [] [] := List.forall_mem_nil _

theorem append (h : Rooted roots nodes) (h' : Rooted roots' nodes') :
    Rooted (roots ++ roots') (nodes ++ nodes') := by
  intro node member
  rcases List.mem_append.mp member with first | second
  · refine (h node first).imp (List.mem_append_left _) fun ⟨parent, own, child⟩ => ?_
    exact ⟨parent, List.mem_append_left _ own, child⟩
  · refine (h' node second).imp (List.mem_append_right _) fun ⟨parent, own, child⟩ => ?_
    exact ⟨parent, List.mem_append_right _ own, child⟩

theorem swap (h : Rooted (roots ++ roots') nodes) : Rooted (roots' ++ roots) nodes :=
  fun node member => (h node member).imp_left fun root =>
    List.mem_append.mpr (List.mem_append.mp root).symm

theorem node (h : Rooted (e.operands ++ e.items) e.inner) : Rooted [e] e.nodes := by
  intro node member
  rcases List.mem_cons.mp member with rfl | inside
  · exact .inl (List.mem_singleton_self _)
  · rcases h node inside with child | ⟨parent, own, child⟩
    · exact .inr ⟨e, List.mem_cons_self, child⟩
    · exact .inr ⟨parent, List.mem_cons_of_mem _ own, child⟩

end Rooted

mutual

theorem rooted_inner : (e : Expr) → Rooted (e.operands ++ e.items) e.inner
  | .identifier .. | .literal .. | .template .. => .nil
  | .array es _ => rooted_items es
  | .object ms _ => by simpa [operands, items] using rooted_members ms
  | .spread e _ | .unary _ e _ | .update _ _ e _ => rooted e
  | .binary _ left right _ => (rooted left).append (rooted right)
  | .assignment _ target value _ => (rooted target).append (rooted value)
  | .conditional test consequent alternate _ =>
    (rooted test).append ((rooted consequent).append (rooted alternate))
  | .arrow params body _ _ => ((rooted_items params).append (rooted_body body)).swap
  | .member owner property _ _ _ => (rooted owner).append (rooted property)
  | .call callee arguments _ _ => (rooted callee).append (rooted_items arguments)

theorem rooted (e : Expr) : Rooted [e] e.nodes := (rooted_inner e).node

theorem rooted_items : (es : List Expr) → Rooted es (nodesOfList es)
  | [] => .nil
  | e :: es => (rooted e).append (rooted_items es)

theorem rooted_members : (ms : List ObjectMember) →
    Rooted (ms.flatMap ObjectMember.operands) (ObjectMember.nodesOfList ms)
  | [] => .nil
  | m :: ms => (rooted_member m).append (rooted_members ms)

theorem rooted_member : (m : ObjectMember) → Rooted m.operands m.nodes
  | .property key value _ _ => (rooted_key key).append (rooted value)
  | .spread e _ => rooted e

theorem rooted_key : (k : PropertyKey) → Rooted k.operands k.nodes
  | .computed e => rooted e
  | .identifier _ | .string _ | .number _ => .nil

theorem rooted_body : (b : ArrowBody) → Rooted b.operands b.nodes
  | .expression e => rooted e
  | .block _ | .inline _ => .nil

end

theorem exists_parent {e node : Expr} (h : node ∈ e.inner) :
    ∃ parent ∈ e.nodes, node ∈ parent.operands ++ parent.items := by
  rcases rooted_inner e node h with child | ⟨parent, inside, child⟩
  · exact ⟨e, List.mem_cons_self, child⟩
  · exact ⟨parent, List.mem_cons_of_mem _ inside, child⟩

section

variable {scope : Scope} {piece : Piece} {e : Expr} {i j : Nat}

/-- An expression stands on tokens, or a token is the name of a member. -/
def StandsAlone (scope : Scope) (e : Expr) : Prop :=
  ∃ i, e = .ofName (scope.stream.get i) ∨ ∃ j, Stands scope (.expr e) i j

theorem Stands.alone (h : Stands scope (.expr e) i j) : StandsAlone scope e := ⟨i, .inr ⟨j, h⟩⟩

theorem standsAlone_name (scope : Scope) (i : Nat) :
    StandsAlone scope (.ofName (scope.stream.get i)) :=
  ⟨i, .inl rfl⟩

theorem StandsAlone.not_isSpread (h : StandsAlone scope e) : ¬ e.isSpread := by
  obtain ⟨i, rfl | ⟨j, own⟩⟩ := h
  · nofun
  · generalize same : Piece.expr e = piece at own
    induction own with
    | group _ _ _ ih => exact ih same
    | literal h =>
      cases same
      unfold literalOf? at h
      split at h <;> cases h <;> nofun
    | _ => cases same <;> nofun

@[simp] def Piece.operands : Piece → List Expr
  | expr e | item e => e.operands
  | params _ | items _ => []
  | body b _ => b.operands
  | key k => k.operands
  | member m => m.operands
  | members ms => ms.flatMap ObjectMember.operands

attribute [local simp] Expr.operands PropertyKey.operands ObjectMember.operands ArrowBody.operands
  or_imp forall_and mkMember mkIndex mkCall mkBinary in
theorem Stands.operands_alone (h : Stands scope piece i j) :
    ∀ e ∈ piece.operands, StandsAlone scope e := by
  induction h with
  | literal h =>
    unfold literalOf? at h
    split at h <;> cases h <;> simp [ofLiteral]
  | plainKey h =>
    unfold keyOf? at h
    split at h <;> cases h <;> simp
  | block first delimits => unfold Expr.body; split <;> simp [Quotation.inline]
  | group ho inner hc ih | item inner ih => exact ih
  | object ho inner hc ih => exact ih
  | arrow list valid ha inner params body | asyncArrow hw raw list valid ha inner params body =>
    exact body
  | shorthand hk => simpa using standsAlone_name _ _
  | property operand hd hk ih => simpa using ⟨operand.alone, standsAlone_name _ _⟩
  | index operand dotted ho inner hc ih ih' => simpa using ⟨operand.alone, inner.alone⟩
  | binary first ht second ih ih' | assignment first assignable ht second ih ih' =>
    simpa using ⟨first.alone, second.alone⟩
  | conditional condition hq one hc other ih ih' ih'' =>
    simpa using ⟨condition.alone, one.alone, other.alone⟩
  | parsedBody noBrace inner ih | computedKey ho inner hc ih | spreadMember hd inner ih
  | call inner dotted ho items hc ih ih' | spreadItem hd inner ih
  | updateAfter inner assignable ht ih | unary ht inner ih
  | updateBefore ht inner assignable ih =>
    simpa using inner.alone
  | keyed named hc inner ih ih' =>
    exact List.forall_mem_append.mpr ⟨ih, by simpa using inner.alone⟩
  | lastMember only ih => simpa using ih
  | moreMembers first hc rest ih ih' => exact List.forall_mem_append.mpr ⟨ih, ih'⟩
  | name | importName | array | bareParam | paramList | noItems | lastItem | moreItems
  | noMembers => exact List.forall_mem_nil _

@[simp] def Piece.targets : Piece → List Expr
  | expr e | item e => e.targets
  | _ => []

theorem Stands.targets_alone (h : Stands scope piece i j) :
    ∀ e ∈ piece.targets, e.isAssignable ∧ ∃ k l, Stands scope (.expr e) k l := by
  induction h with
  | literal h =>
    unfold literalOf? at h
    split at h <;> cases h <;> exact List.forall_mem_nil _
  | group ho inner hc ih | item inner ih => exact ih
  | updateAfter inner assignable | updateBefore ht inner assignable
  | assignment inner assignable =>
    exact List.forall_mem_singleton.mpr ⟨assignable, _, _, inner⟩
  | _ => exact List.forall_mem_nil _

theorem Stood.operands_alone (h : Stood scope e) : ∀ child ∈ e.operands, StandsAlone scope child := by
  obtain ⟨i, rfl | ⟨j, own⟩⟩ := h
  · exact List.forall_mem_nil _
  · exact own.operands_alone

theorem Stood.targets_alone (h : Stood scope e) :
    ∀ target ∈ e.targets, target.isAssignable ∧ ∃ k l, Stands scope (.expr target) k l := by
  obtain ⟨i, rfl | ⟨j, own⟩⟩ := h
  · exact List.forall_mem_nil _
  · exact own.targets_alone

theorem Stands.le (h : Stands scope piece i j) : i ≤ j := by
  induction h with
  | index operand dotted | call operand dotted =>
    have := dotted.le
    omega
  | block first delimits =>
    have := delimits.matched.le
    omega
  | _ => omega

/-- A token `?.` from index `i` on and before `j`. -/
def HasOptional (scope : Scope) (i j : Nat) : Prop :=
  ∃ k, i ≤ k ∧ k < j ∧ (scope.stream.get k).kind = .symbol .questionDot

theorem HasOptional.link {k l : Nat} {optional : Bool} (operand : Stands scope (.expr e) i j)
    (chain : ¬ e.hasPlainLinks → HasOptional scope i j) (dotted : Dotted scope optional j k)
    (after : k < l) (h : ¬ (!optional && e.hasPlainLinks)) : HasOptional scope i l := by
  cases dotted with
  | plain =>
    obtain ⟨n, first, before, kind⟩ := chain (by simpa using h)
    exact ⟨n, first, by omega, kind⟩
  | optional hd => exact ⟨j, operand.le, by omega, hd⟩

theorem Stands.hasOptional (h : Stands scope (.expr e) i j) :
    ¬ e.hasPlainLinks → HasOptional scope i j := by
  generalize same : Piece.expr e = piece at h
  induction h generalizing e with
  | literal h =>
    cases same
    unfold literalOf? at h
    split at h <;> cases h <;> exact fun optional => absurd rfl optional
  | group ho inner hc ih =>
    intro optional
    obtain ⟨k, first, before, kind⟩ := ih same optional
    exact ⟨k, by omega, by omega, kind⟩
  | @property _ j _ optional operand hd hk ih =>
    cases same
    refine HasOptional.link (k := if optional then j + 1 else j) operand (ih rfl) ?_ ?_
    · cases optional
      · exact .plain
      · exact .optional hd
    · split <;> omega
  | index operand dotted ho inner hc ih =>
    cases same
    have := inner.le
    exact HasOptional.link operand (ih rfl) dotted (by omega)
  | call operand dotted ho inner hc ih =>
    cases same
    have := inner.le
    exact HasOptional.link operand (ih rfl) dotted (by omega)
  | _ => cases same <;> exact fun optional => absurd rfl optional

theorem Stands.isReference_or (h : Stands scope (.expr e) i j) (assignable : e.isAssignable) :
    e.isReference ∨ HasOptional scope i j := by
  by_cases plain : e.hasPlainLinks
  · exact .inl (Bool.and_eq_true_iff.mpr ⟨assignable, plain⟩)
  · exact .inr (h.hasOptional plain)

end

end Expr

end PulseSyntax
