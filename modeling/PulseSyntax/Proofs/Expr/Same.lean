import PulseSyntax.Expr.Parser
import PulseSyntax.Proofs.Parser.Run
import PulseSyntax.Proofs.Token.Body

namespace PulseSyntax

/-- The block of a function as an interpolation keeps it. -/
def Quotation.inline (q : Quotation) (range : TokenRange) : ArrowBody :=
  .inline (String.ofList (range.text q.text q.spans))

namespace Expr

/-- The block of a function as a scope keeps it. -/
def body (scope : Scope) (r : TokenRange) : ArrowBody :=
  match scope.quotation with
  | some q => q.inline r
  | none => .block r

open PulseSyntax.Parser in
theorem arrowBlock_eq_ok {scope : Scope} {s t : ParserState} {x : ArrowBody} :
    arrowBlock scope s = .ok x t ↔ ∃ r, rawBlock scope s = .ok r t ∧ x = body scope r := by
  unfold arrowBlock body
  rw [bind_eq_ok]
  simp only [bind_of_ok scope_apply]
  cases scope.quotation with
  | none =>
    constructor
    · rintro ⟨r, u, read, ok⟩
      cases ok
      exact ⟨r, read, rfl⟩
    · rintro ⟨r, read, rfl⟩
      exact ⟨r, t, read, rfl⟩
  | some q =>
    constructor
    · rintro ⟨r, u, read, ok⟩
      cases ok
      exact ⟨r, read, rfl⟩
    · rintro ⟨r, read, rfl⟩
      exact ⟨r, t, read, rfl⟩

section

variable (block : TokenRange → ArrowBody)

mutual

/-- The tree without the places of its nodes, and with its blocks replaced. -/
@[simp] def unplaced : Expr → Expr
  | identifier name _ => identifier name default
  | literal value raw _ => literal value raw default
  | template text raw _ => template text raw default
  | array elements _ => array (unplacedItems elements) default
  | object members _ => object (unplacedMembers members) default
  | spread e _ => spread (unplaced e) default
  | binary op left right _ => binary op (unplaced left) (unplaced right) default
  | unary op e _ => unary op (unplaced e) default
  | update op before e _ => update op before (unplaced e) default
  | assignment op target value _ => assignment op (unplaced target) (unplaced value) default
  | conditional test consequent alternate _ =>
    conditional (unplaced test) (unplaced consequent) (unplaced alternate) default
  | arrow params body isAsync _ => arrow (unplacedItems params) (unplacedBody body) isAsync default
  | member owner property computed optional _ =>
    member (unplaced owner) (unplaced property) computed optional default
  | call callee arguments optional _ =>
    call (unplaced callee) (unplacedItems arguments) optional default

@[simp] def unplacedItems : List Expr → List Expr
  | [] => []
  | e :: es => unplaced e :: unplacedItems es

@[simp] def unplacedMembers : List ObjectMember → List ObjectMember
  | [] => []
  | m :: ms => unplacedMember m :: unplacedMembers ms

@[simp] def unplacedMember : ObjectMember → ObjectMember
  | .property key value shorthand _ =>
    .property (unplacedKey key) (unplaced value) shorthand default
  | .spread e _ => .spread (unplaced e) default

@[simp] def unplacedKey : PropertyKey → PropertyKey
  | .computed key => .computed (unplaced key)
  | key => key

@[simp] def unplacedBody : ArrowBody → ArrowBody
  | .expression body => .expression (unplaced body)
  | .block range => block range
  | .inline text => .inline text

end

theorem isAssignable_unplaced (e : Expr) : (unplaced block e).isAssignable = e.isAssignable := by
  cases e with
  | member _ _ _ optional _ => cases optional <;> rfl
  | _ => rfl

theorem isParam_unplaced (e : Expr) : (unplaced block e).isParam = e.isParam := by
  cases e with
  | assignment op target _ _ => cases op <;> cases target <;> rfl
  | spread e _ => cases e <;> rfl
  | _ => rfl

end

variable {q : Quotation}

/-- An expression that is read alone, and the same one in an interpolation. -/
def Same (q : Quotation) (e e' : Expr) : Prop := unplaced .block e' = unplaced q.inline e

def SameMember (q : Quotation) (m m' : ObjectMember) : Prop :=
  unplacedMember .block m' = unplacedMember q.inline m

def SameKey (q : Quotation) (key key' : PropertyKey) : Prop :=
  unplacedKey .block key' = unplacedKey q.inline key

def SameBody (q : Quotation) (body body' : ArrowBody) : Prop :=
  unplacedBody .block body' = unplacedBody q.inline body

namespace Same

variable {e e' f f' g g' : Expr} {s s' : Span}

theorem isAssignable (h : Same q e e') : e.isAssignable = e'.isAssignable := by
  rw [← isAssignable_unplaced q.inline, ← isAssignable_unplaced .block e', h]

theorem isParam (h : Same q e e') : e.isParam = e'.isParam := by
  rw [← isParam_unplaced q.inline, ← isParam_unplaced .block e', h]

theorem items {es es' : List Expr} (h : List.Forall₂ (Same q) es es') :
    unplacedItems .block es' = unplacedItems q.inline es := by
  induction h with
  | nil => rfl
  | cons first _ ih => rw [unplacedItems, unplacedItems, first, ih]

theorem members {ms ms' : List ObjectMember} (h : List.Forall₂ (SameMember q) ms ms') :
    unplacedMembers .block ms' = unplacedMembers q.inline ms := by
  induction h with
  | nil => rfl
  | cons first _ ih => rw [unplacedMembers, unplacedMembers, first, ih]

theorem all_isParam {es es' : List Expr} (h : List.Forall₂ (Same q) es es') :
    es.all Expr.isParam = es'.all Expr.isParam := by
  induction h with
  | nil => rfl
  | cons first _ ih => rw [List.all_cons, List.all_cons, first.isParam, ih]

theorem ofName {t u : Token} (h : t.content = u.content) : Same q (.ofName t) (.ofName u) := by
  rw [Same, Expr.ofName, Expr.ofName, Token.raw_of_content h]
  rfl

theorem array {es es' : List Expr} (h : List.Forall₂ (Same q) es es') :
    Same q (.array es s) (.array es' s') := by
  rw [Same, unplaced, unplaced, items h]

theorem object {ms ms' : List ObjectMember} (h : List.Forall₂ (SameMember q) ms ms') :
    Same q (.object ms s) (.object ms' s') := by
  rw [Same, unplaced, unplaced, members h]

theorem spread (h : Same q e e') : Same q (.spread e s) (.spread e' s') := by
  rw [Same, unplaced, unplaced, h]

theorem binary (op : BinaryOp) (h : Same q e e') (h' : Same q f f') :
    Same q (.binary op e f s) (.binary op e' f' s') := by
  rw [Same, unplaced, unplaced, h, h']

theorem unary (op : UnaryOp) (h : Same q e e') : Same q (.unary op e s) (.unary op e' s') := by
  rw [Same, unplaced, unplaced, h]

theorem update (op : UpdateOp) (before : Bool) (h : Same q e e') :
    Same q (.update op before e s) (.update op before e' s') := by
  rw [Same, unplaced, unplaced, h]

theorem assignment (op : AssignOp) (h : Same q e e') (h' : Same q f f') :
    Same q (.assignment op e f s) (.assignment op e' f' s') := by
  rw [Same, unplaced, unplaced, h, h']

theorem conditional (h : Same q e e') (h' : Same q f f') (h'' : Same q g g') :
    Same q (.conditional e f g s) (.conditional e' f' g' s') := by
  rw [Same, unplaced, unplaced, h, h', h'']

theorem arrow {es es' : List Expr} {body body' : ArrowBody} {isAsync : Bool}
    (h : List.Forall₂ (Same q) es es') (h' : SameBody q body body') :
    Same q (.arrow es body isAsync s) (.arrow es' body' isAsync s') := by
  rw [Same, unplaced, unplaced, items h, h']

theorem member (computed optional : Bool) (h : Same q e e') (h' : Same q f f') :
    Same q (.member e f computed optional s) (.member e' f' computed optional s') := by
  rw [Same, unplaced, unplaced, h, h']

theorem call {es es' : List Expr} (optional : Bool) (h : Same q e e')
    (h' : List.Forall₂ (Same q) es es') :
    Same q (.call e es optional s) (.call e' es' optional s') := by
  rw [Same, unplaced, unplaced, h, items h']

end Same

section

variable {e e' : Expr} {s s' : Span}

theorem SameMember.property {key key' : PropertyKey} (shorthand : Bool) (h : SameKey q key key')
    (h' : Same q e e') :
    SameMember q (.property key e shorthand s) (.property key' e' shorthand s') := by
  rw [SameMember, unplacedMember, unplacedMember, h, h']

theorem SameMember.spread (h : Same q e e') : SameMember q (.spread e s) (.spread e' s') := by
  rw [SameMember, unplacedMember, unplacedMember, h]

theorem SameKey.computed (h : Same q e e') : SameKey q (.computed e) (.computed e') := by
  rw [SameKey, unplacedKey, unplacedKey, h]

theorem SameBody.expression (h : Same q e e') : SameBody q (.expression e) (.expression e') := by
  rw [SameBody, unplacedBody, unplacedBody, h]

end

theorem sameKey_refl_of_keyOf? {t : Token} {key : PropertyKey} (h : keyOf? t = some key) :
    SameKey q key key := by
  unfold keyOf? at h
  split at h <;> cases h <;> rfl

theorem keyOf?_of_content {t u : Token} (h : t.content = u.content) : keyOf? t = keyOf? u := by
  rw [keyOf?, keyOf?, Token.kind_of_content h, Token.raw_of_content h, Token.text_of_content h,
    Token.number?_of_content h]

theorem literalOf?_of_content {t u : Token} (h : t.content = u.content) :
    Option.Rel (Same q) (literalOf? t) (literalOf? u) := by
  rw [literalOf?, literalOf?, Token.kind_of_content h, Token.text_of_content h,
    Token.value_of_content h, Token.number?_of_content h, Token.raw_of_content h]
  split
  all_goals first | exact .none | refine .some ?_
  all_goals
    first
    | rfl
    | rw [ofLiteral, ofLiteral, Token.raw_of_content h]; rfl

end Expr

end PulseSyntax
