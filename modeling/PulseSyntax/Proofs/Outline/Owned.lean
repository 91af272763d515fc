import PulseSyntax.Proofs.Outline.Fragments

namespace PulseSyntax

def blocksOf (arrows : List (Span × ArrowBody)) : List (Span × TokenRange) :=
  arrows.flatMap fun (span, body) =>
    match body with
    | .block r => [(span, r)]
    | .expression _ | .inline _ => []

def Fragment.owned : Fragment → List (Span × TokenRange)
  | body owner r => [(owner, r)]
  | expression e => blocksOf e.arrows
  | text t => t.parts.flatMap fun
    | .literal _ => []
    | .interpolation _ e => blocksOf e.arrows

section

variable {as bs : List (Span × ArrowBody)} {span : Span} {body : ArrowBody}

@[simp] theorem blocksOf_append : blocksOf (as ++ bs) = blocksOf as ++ blocksOf bs := List.flatMap_append

theorem mem_blocksOf {r : TokenRange} : (span, r) ∈ blocksOf as ↔ (span, .block r) ∈ as := by
  simp only [blocksOf, List.mem_flatMap, Prod.exists]
  constructor
  · rintro ⟨owner, body, member, own⟩
    cases body with
    | block r' =>
      cases List.mem_singleton.mp own
      exact member
    | expression e => cases own
    | inline text => cases own
  · exact fun member => ⟨span, .block r, member, List.mem_singleton_self _⟩

end

namespace Outline

variable {os os' : List Outline} {o : Outline}

@[simp] theorem ownedOfList_nil : ownedOfList [] = [] := rfl

@[simp] theorem ownedOfList_cons : ownedOfList (o :: os) = o.owned ++ ownedOfList os := rfl

@[simp] theorem ownedOfList_append : ownedOfList (os ++ os') = ownedOfList os ++ ownedOfList os' := by
  simp only [ownedOfList_eq, List.flatMap_append]

theorem ownedOfList_map {α : Type} (f : α → Outline) (xs : List α) :
    ownedOfList (xs.map f) = xs.flatMap fun x => (f x).owned := by
  rw [ownedOfList_eq, List.flatMap_map]

theorem owned_node {kind : String} {span : Span} {detail : OutlineDetail} :
    (node kind span detail os).owned = detail.bodies.map (span, ·) ++ ownedOfList os := rfl

end Outline

open Outline

mutual

theorem Expr.owned_outline : ∀ e : Expr, e.outline.owned = blocksOf e.arrows
  | .identifier .. | .literal .. | .template .. => rfl
  | .array es _ => Expr.owned_listOutline es
  | .object ms _ => ObjectMember.owned_listOutline ms
  | .spread e _ | .unary _ e _ | .update _ _ e _ =>
    (List.append_nil _).trans (Expr.owned_outline e)
  | .binary _ left right _ => by
    simp [Expr.outline, owned_node, Expr.detail, OutlineDetail.bodies, Expr.blockBody?,
      Expr.owned_outline left, Expr.owned_outline right]
  | .assignment _ target value _ => by
    simp [Expr.outline, owned_node, Expr.detail, OutlineDetail.bodies, Expr.blockBody?,
      Expr.owned_outline target, Expr.owned_outline value]
  | .conditional test consequent alternate _ => by
    simp [Expr.outline, owned_node, Expr.detail, OutlineDetail.bodies, Expr.blockBody?,
      Expr.owned_outline test, Expr.owned_outline consequent, Expr.owned_outline alternate]
  | .arrow params body isAsync span => by
    have own : (Expr.arrow params body isAsync span).detail.bodies.map (span, ·) =
        blocksOf [(span, body)] := by cases body <;> rfl
    change (Expr.arrow params body isAsync span).detail.bodies.map (span, ·) ++
        ownedOfList (Expr.listOutline params ++ body.outline) =
      blocksOf ([(span, body)] ++ (Expr.arrowsOfList params ++ body.arrows))
    rw [own, ownedOfList_append, blocksOf_append, blocksOf_append, Expr.owned_listOutline params,
      ArrowBody.owned_outline body]
  | .member object property _ _ _ => by
    simp [Expr.outline, owned_node, Expr.detail, OutlineDetail.bodies, Expr.blockBody?,
      Expr.owned_outline object, Expr.owned_outline property]
  | .call callee args _ _ => by
    simp [Expr.outline, owned_node, Expr.detail, OutlineDetail.bodies, Expr.blockBody?,
      Expr.owned_outline callee, Expr.owned_listOutline args]

theorem Expr.owned_listOutline :
    ∀ es : List Expr, ownedOfList (Expr.listOutline es) = blocksOf (Expr.arrowsOfList es)
  | [] => rfl
  | e :: es => by
    rw [Expr.listOutline, Expr.arrowsOfList, ownedOfList_cons, blocksOf_append, Expr.owned_outline e,
      Expr.owned_listOutline es]

theorem ObjectMember.owned_outline :
    ∀ m : ObjectMember, ownedOfList m.outline = blocksOf m.arrows
  | .property key value _ _ => by
    rw [ObjectMember.outline, ObjectMember.arrows, ownedOfList_append, blocksOf_append,
      PropertyKey.owned_outline key,
      ownedOfList_cons, ownedOfList_nil, List.append_nil, Expr.owned_outline value]
  | .spread e _ => (List.append_nil _).trans (Expr.owned_outline e)

theorem ObjectMember.owned_listOutline : ∀ ms : List ObjectMember,
    ownedOfList (ObjectMember.listOutline ms) = blocksOf (ObjectMember.arrowsOfList ms)
  | [] => rfl
  | m :: ms => by
    rw [ObjectMember.listOutline, ObjectMember.arrowsOfList, ownedOfList_append, blocksOf_append,
      ObjectMember.owned_outline m, ObjectMember.owned_listOutline ms]

theorem PropertyKey.owned_outline : ∀ key : PropertyKey, ownedOfList key.outline = blocksOf key.arrows
  | .computed key => (List.append_nil _).trans (Expr.owned_outline key)
  | .identifier _ | .string _ | .number _ => rfl

theorem ArrowBody.owned_outline : ∀ body : ArrowBody, ownedOfList body.outline = blocksOf body.arrows
  | .expression body => (List.append_nil _).trans (Expr.owned_outline body)
  | .block _ | .inline _ => rfl

end

@[simp] theorem Expr.owned_optionOutline (e? : Option Expr) :
    ownedOfList (Expr.optionOutline e?) =
      (e?.toList.map Fragment.expression).flatMap Fragment.owned := by
  cases e? with
  | none => rfl
  | some e => simp [optionOutline, Expr.owned_outline, Fragment.owned]

theorem TextNode.owned_outline (t : TextNode) : t.outline.owned = (Fragment.text t).owned := by
  rw [outline, owned_node, OutlineDetail.bodies_text, List.map_nil, List.nil_append, ownedOfList_eq,
    List.flatMap_assoc]
  refine congrArg (t.parts.flatMap ·) (funext fun part => ?_)
  cases part with
  | literal text => rfl
  | interpolation source e =>
    rw [TextPart.outline, List.flatMap_singleton, Expr.owned_outline]

attribute [local simp] owned_node Expr.owned_outline TextNode.owned_outline ownedOfList_map
  Fragment.owned

theorem ElementProp.owned_outline (p : ElementProp) :
    p.outline.owned = p.fragments.flatMap Fragment.owned := by
  simp [outline, fragments]

theorem Directive.owned_outline (d : Directive) :
    d.outline.owned = d.fragments.flatMap Fragment.owned := by
  cases d <;> simp [outline, fragments, List.flatMap_assoc]

mutual

theorem MarkupNode.owned_outline :
    ∀ n : MarkupNode, n.outline.owned = n.fragments.flatMap Fragment.owned
  | .element _ props directives texts children _ => by
    simp only [MarkupNode.outline, MarkupNode.fragments, owned_node, OutlineDetail.bodies_none,
      List.map_nil, List.nil_append, ownedOfList_append, ownedOfList_map, List.flatMap_append,
      List.flatMap_assoc, List.flatMap_map, ElementProp.owned_outline, Directive.owned_outline,
      TextNode.owned_outline, MarkupNode.owned_listOutline children, List.append_assoc]
  | .text t => by
    simp [MarkupNode.outline, MarkupNode.fragments]
  | .conditional condition consequent branches none _ => by
    simp [MarkupNode.outline, MarkupNode.fragments, MarkupNode.owned_listOutline consequent,
      Branch.owned_listOutline branches, -MarkupNode.fragmentsOfList_eq, -Branch.fragmentsOfList_eq]
  | .conditional condition consequent branches (some alternate) _ => by
    simp [MarkupNode.outline, MarkupNode.fragments, MarkupNode.owned_listOutline consequent,
      Branch.owned_listOutline branches, MarkupNode.owned_listOutline alternate,
      -MarkupNode.fragmentsOfList_eq, -Branch.fragmentsOfList_eq]
  | .loop head body _ => by
    simp [MarkupNode.outline, MarkupNode.fragments, MarkupNode.owned_listOutline body,
      -MarkupNode.fragmentsOfList_eq]
  | .event h children _ => by
    simp [MarkupNode.outline, MarkupNode.fragments, MarkupNode.owned_listOutline children,
      -MarkupNode.fragmentsOfList_eq]
  | .boundary _ children _ | .slot _ children _ => by
    simp [MarkupNode.outline, MarkupNode.fragments, MarkupNode.owned_listOutline children,
      -MarkupNode.fragmentsOfList_eq]
  | .link path options none children _ | .link path options (some caption) children _ => by
    simp [MarkupNode.outline, MarkupNode.fragments, MarkupNode.owned_listOutline children,
      -MarkupNode.fragmentsOfList_eq]
  | .outlet container _ => by simp [MarkupNode.outline, MarkupNode.fragments]
  | .navigate path options _ => by simp [MarkupNode.outline, MarkupNode.fragments]
  | .back _ | .forward _ => rfl

theorem MarkupNode.owned_listOutline : ∀ ns : List MarkupNode,
    ownedOfList (MarkupNode.listOutline ns) =
      (MarkupNode.fragmentsOfList ns).flatMap Fragment.owned
  | [] => rfl
  | n :: ns => by
    rw [MarkupNode.listOutline, MarkupNode.fragmentsOfList, ownedOfList_cons, List.flatMap_append,
      MarkupNode.owned_outline n, MarkupNode.owned_listOutline ns]

theorem Branch.owned_outline :
    ∀ b : Branch, b.outline.owned = b.fragments.flatMap Fragment.owned
  | .mk condition consequent _ => by
    simp [Branch.outline, Branch.fragments, MarkupNode.owned_listOutline consequent,
      -MarkupNode.fragmentsOfList_eq]

theorem Branch.owned_listOutline : ∀ bs : List Branch,
    ownedOfList (Branch.listOutline bs) = (Branch.fragmentsOfList bs).flatMap Fragment.owned
  | [] => rfl
  | b :: bs => by
    rw [Branch.listOutline, Branch.fragmentsOfList, ownedOfList_cons, List.flatMap_append,
      Branch.owned_outline b, Branch.owned_listOutline bs]

end

theorem ownedOfList_toList {α : Type} {f : α → Outline} {g : α → List Fragment}
    (h : ∀ a, (f a).owned = (g a).flatMap Fragment.owned) (a? : Option α) :
    ownedOfList (a?.map f).toList = (a?.toList.flatMap g).flatMap Fragment.owned := by
  cases a? with
  | none => rfl
  | some a => simp [h]

theorem ownedOfList_of {α : Type} {f : α → Outline} {g : α → List Fragment}
    (h : ∀ a, (f a).owned = (g a).flatMap Fragment.owned) (as : List α) :
    ownedOfList (as.map f) = (as.flatMap g).flatMap Fragment.owned := by
  simp [h, List.flatMap_assoc]

theorem ViewBlock.owned_outline (b : ViewBlock) :
    b.outline.owned = b.fragments.flatMap Fragment.owned :=
  ownedOfList_of MarkupNode.owned_outline _

theorem PropertyBlock.owned_outline (kind : String) (b : PropertyBlock) :
    (b.outline kind).owned = b.fragments.flatMap Fragment.owned :=
  ownedOfList_of (g := Property.fragments)
    (fun p => by simp [Property.outline, Property.fragments]) _

theorem Param.owned_outline (p : Param) : p.outline.owned = p.fragments.flatMap Fragment.owned :=
  Expr.owned_optionOutline _

theorem Action.owned_outline (a : Action) : a.outline.owned = a.fragments.flatMap Fragment.owned :=
  congrArg ((a.span, a.body) :: ·) (ownedOfList_of Param.owned_outline _)

theorem ActionsBlock.owned_outline (b : ActionsBlock) :
    b.outline.owned = b.fragments.flatMap Fragment.owned :=
  ownedOfList_of Action.owned_outline _

theorem Route.owned_outline (r : Route) : r.outline.owned = r.fragments.flatMap Fragment.owned := by
  simp [outline, fragments]

theorem Guard.owned_outline (g : Guard) : g.outline.owned = g.fragments.flatMap Fragment.owned :=
  congrArg ((g.span, g.body) :: ·) (ownedOfList_of Param.owned_outline _)

theorem RouterBlock.owned_outline (b : RouterBlock) :
    b.outline.owned = b.fragments.flatMap Fragment.owned := by
  simp only [outline, fragments, owned_node, OutlineDetail.bodies_none, List.map_nil,
    List.nil_append, ownedOfList_append, List.flatMap_append, List.append_assoc,
    ownedOfList_of Route.owned_outline, ownedOfList_toList Guard.owned_outline]

theorem Getter.owned_outline (g : Getter) : g.outline.owned = g.fragments.flatMap Fragment.owned :=
  rfl

theorem StoreBlock.owned_outline (b : StoreBlock) :
    b.outline.owned = b.fragments.flatMap Fragment.owned := by
  simp only [outline, fragments, owned_node, OutlineDetail.bodies_none, List.map_nil,
    List.nil_append, ownedOfList_append, List.flatMap_append, List.append_assoc,
    ownedOfList_of Getter.owned_outline, ownedOfList_toList ActionsBlock.owned_outline,
    ownedOfList_toList (PropertyBlock.owned_outline _), Expr.owned_optionOutline]

mutual

theorem StyleNode.owned_outline : ∀ n : StyleNode, n.outline.owned = []
  | .rule _ _ rules _ | .atRule _ _ _ _ rules _ => by
    simp [StyleNode.outline, StyleDeclaration.outline, OutlineDetail.bodies_style,
      StyleNode.owned_listOutline rules]

theorem StyleNode.owned_listOutline :
    ∀ ns : List StyleNode, ownedOfList (StyleNode.listOutline ns) = []
  | [] => rfl
  | n :: ns => by
    rw [StyleNode.listOutline, ownedOfList_cons, StyleNode.owned_outline n,
      StyleNode.owned_listOutline ns, List.append_nil]

end

theorem StyleBlock.owned_outline (b : StyleBlock) : b.outline.owned = [] := by
  simp [outline, StyleNode.owned_outline]

theorem Program.owned_outline (p : Program) :
    p.outline.owned = p.fragments.flatMap Fragment.owned := by
  have none {α : Type} {f : α → Outline} (h : ∀ a, (f a).owned = []) (a? : Option α) :
      ownedOfList (a?.map f).toList = [] := by
    cases a? <;> simp [h]
  have imports (a : Import) : a.outline.owned = [] := by
    simp [Import.outline, ImportSpecifier.outline]
  simp only [outline, Declarations.fragments, owned_node, OutlineDetail.bodies_none, List.map_nil,
    List.nil_append, ownedOfList_append, List.flatMap_append, List.append_assoc,
    ownedOfList_map Import.outline, imports, none (f := PageDecl.outline) fun _ => rfl,
    none (f := RouteDecl.outline) fun _ => rfl, none StyleBlock.owned_outline,
    ownedOfList_toList (PropertyBlock.owned_outline _), ownedOfList_toList ViewBlock.owned_outline,
    ownedOfList_toList ActionsBlock.owned_outline, ownedOfList_toList RouterBlock.owned_outline,
    ownedOfList_toList StoreBlock.owned_outline]
  simp

end PulseSyntax
