import PulseSyntax.Markup.Json
import PulseSyntax.Program.Json
import PulseSyntax.Proofs.Expr.Encoding
import PulseSyntax.Proofs.Outline.Fragments
import PulseSyntax.Proofs.Program.Functions

namespace PulseSyntax

section

def TextPart.IsWritten : TextPart → Prop
  | literal _ => True
  | interpolation _ e => AreWritten e.nodes

def Fragment.IsWritten : Fragment → Prop
  | body _ _ => True
  | expression e => AreWritten e.nodes
  | text t => ∀ part ∈ t.parts, part.IsWritten

def Written (fragments : List Fragment) : Prop := ∀ f ∈ fragments, f.IsWritten

section

variable {α : Type} {fs gs : List Fragment} {xs : List α} {owner : Span} {r : TokenRange} {e : Expr}
  {t : TextNode}

@[simp] theorem written_nil : Written [] := List.forall_mem_nil _

@[simp] theorem written_body : Written (.body owner r :: fs) ↔ Written fs :=
  List.forall_mem_cons.trans (iff_of_eq (true_and _))

@[simp] theorem written_expression :
    Written (.expression e :: fs) ↔ AreWritten e.nodes ∧ Written fs := List.forall_mem_cons

@[simp] theorem written_text :
    Written (.text t :: fs) ↔ (Fragment.text t).IsWritten ∧ Written fs := List.forall_mem_cons

@[simp] theorem written_append : Written (fs ++ gs) ↔ Written fs ∧ Written gs :=
  List.forall_mem_append

@[simp] theorem written_flatMap {f : α → List Fragment} :
    Written (xs.flatMap f) ↔ ∀ x ∈ xs, Written (f x) := List.forall_mem_flatMap

@[simp] theorem written_map_expression {es : List Expr} :
    Written (es.map .expression) ↔ ∀ e ∈ es, AreWritten e.nodes := List.forall_mem_map

@[simp] theorem written_map_text {ts : List TextNode} :
    Written (ts.map .text) ↔ ∀ t ∈ ts, (Fragment.text t).IsWritten := List.forall_mem_map

end

open Json

theorem Expr.injects_toJson : Injects (AreWritten ·.nodes) toJson := eq_of_toJson

theorem Expr.injects_option : Injects (∀ e ∈ ·, AreWritten e.nodes) (ofOption toJson) :=
  injects_toJson.option value_toJson_ne_null

theorem Property.injects_toJson : Injects (Written ·.fragments) toJson := by
  rintro ⟨name, value, span⟩ ⟨name', value', span'⟩ hp hp' h
  obtain ⟨fields, rfl⟩ := record_injective h rfl (by simp)
  simp [fragments] at fields hp hp'
  obtain ⟨rfl, same⟩ := fields
  rw [Expr.injects_toJson hp hp' same]

theorem PropertyBlock.injects_toJson : Injects (Written ·.fragments) toJson := by
  rintro ⟨properties, span⟩ ⟨properties', span'⟩ hb hb' h
  obtain ⟨fields, rfl⟩ := record_injective h rfl (by simp)
  simp [fragments] at fields hb hb'
  rw [Property.injects_toJson.list hb hb' fields]

theorem Param.injects_toJson : Injects (Written ·.fragments) toJson := by
  rintro ⟨name, default?, rest, span⟩ ⟨name', default?', rest', span'⟩ hp hp' h
  obtain ⟨fields, rfl⟩ := record_injective h rfl (by simp)
  simp [fragments] at fields hp hp'
  obtain ⟨rfl, same, rfl⟩ := fields
  rw [Expr.injects_option hp hp' same]

theorem Action.injects_toJson : Injects (Written ·.fragments) toJson := by
  rintro ⟨name, params, body, isAsync, span⟩ ⟨name', params', body', isAsync', span'⟩ ha ha' h
  obtain ⟨fields, rfl⟩ := record_injective h rfl (by simp)
  simp [fragments] at fields ha ha'
  obtain ⟨rfl, same, range, rfl⟩ := fields
  rw [Param.injects_toJson.list ha ha' same, TokenRange.injects_toJson trivial trivial range]

theorem ActionsBlock.injects_toJson : Injects (Written ·.fragments) toJson := by
  rintro ⟨functions, span⟩ ⟨functions', span'⟩ hb hb' h
  obtain ⟨fields, rfl⟩ := record_injective h rfl (by simp)
  simp [fragments] at fields hb hb'
  rw [Action.injects_toJson.list hb hb' fields]

theorem Route.injects_toJson : Injects (Written ·.fragments) toJson := by
  rintro ⟨path, handler, span⟩ ⟨path', handler', span'⟩ hr hr' h
  obtain ⟨fields, rfl⟩ := record_injective h rfl (by simp)
  simp [fragments] at fields hr hr'
  obtain ⟨rfl, same⟩ := fields
  rw [Expr.injects_toJson hr hr' same]

theorem Guard.injects_toJson : Injects (Written ·.fragments) toJson := by
  rintro ⟨name, params, body, span⟩ ⟨name', params', body', span'⟩ hg hg' h
  obtain ⟨fields, rfl⟩ := record_injective h rfl (by simp)
  simp [fragments] at fields hg hg'
  obtain ⟨rfl, same, range⟩ := fields
  rw [Param.injects_toJson.list hg hg' same, TokenRange.injects_toJson trivial trivial range]

theorem injects_optionalString : Injects (fun _ => True) (ofOption string) :=
  (injects_string.option nofun).mono fun _ _ _ _ => trivial

theorem RouterBlock.injects_toJson : Injects (Written ·.fragments) toJson := by
  rintro ⟨mode, base, routes, before, after, span⟩ ⟨mode', base', routes', before', after', span'⟩
    hb hb' h
  obtain ⟨fields, rfl⟩ := record_injective h rfl (by simp)
  simp [fragments] at fields hb hb'
  obtain ⟨modes, bases, same, first, second⟩ := fields
  have guard := Guard.injects_toJson.option fun _ => value_record_ne_null
  rw [injects_optionalString trivial trivial modes, injects_optionalString trivial trivial bases,
    Route.injects_toJson.list hb.1 hb'.1 same, guard hb.2.1 hb'.2.1 first,
    guard hb.2.2 hb'.2.2 second]

theorem Getter.injects_toJson : Injects (fun _ => True) toJson := by
  rintro ⟨name, body, span⟩ ⟨name', body', span'⟩ - - h
  obtain ⟨fields, rfl⟩ := record_injective h rfl (by simp)
  simp at fields
  obtain ⟨rfl, range⟩ := fields
  rw [TokenRange.injects_toJson trivial trivial range]

theorem StoreBlock.injects_toJson : Injects (Written ·.fragments) toJson := by
  rintro ⟨state, getters, actions, persist, key, plugins, span⟩
    ⟨state', getters', actions', persist', key', plugins', span'⟩ hb hb' h
  obtain ⟨fields, rfl⟩ := record_injective h rfl (by simp)
  simp [fragments] at fields hb hb'
  obtain ⟨states, gets, acts, persists, keys, exprs⟩ := fields
  rw [PropertyBlock.injects_toJson.option (fun _ => value_record_ne_null) hb.1 hb'.1 states,
    Getter.injects_toJson.list (fun _ _ => trivial) (fun _ _ => trivial) gets,
    ActionsBlock.injects_toJson.option (fun _ => value_record_ne_null) hb.2.2.1 hb'.2.2.1 acts,
    injects_bool.option (by simp) (fun _ _ => trivial) (fun _ _ => trivial) persists,
    injects_optionalString trivial trivial keys, Expr.injects_option hb.2.2.2 hb'.2.2.2 exprs]

end

open Json

theorem TextPart.injects_toJson : Injects IsWritten toJson := by
  rintro (text | ⟨source, e⟩) (text' | ⟨source', e'⟩) hp hp' h
  · simpa using fields_injective h rfl (by simp)
  · exact absurd (object_type h) (by simp)
  · exact absurd (object_type h) (by simp)
  · have fields := fields_injective h rfl (by simp)
    simp at fields
    obtain ⟨rfl, same⟩ := fields
    rw [Expr.injects_toJson hp hp' same]

namespace TextNode

theorem injects_fields {t t' : TextNode} (ht : (Fragment.text t).IsWritten)
    (ht' : (Fragment.text t').IsWritten)
    (same : t.fields.map (·.2.value) = t'.fields.map (·.2.value)) (spans : t.span = t'.span) :
    t = t' := by
  obtain ⟨parts, raw, span⟩ := t
  obtain ⟨parts', raw', span'⟩ := t'
  obtain rfl : span = span' := spans
  simp [fields] at same
  obtain ⟨same, rfl⟩ := same
  obtain rfl : parts = parts' := TextPart.injects_toJson.list ht ht' same
  rfl

theorem injects_toJson : Injects (fun t => (Fragment.text t).IsWritten) toJson := by
  intro t t' ht ht' h
  obtain ⟨same, spans⟩ := record_injective h rfl (by simp [fields])
  exact injects_fields ht ht' same spans

end TextNode

theorem ElementProp.injects_toJson : Injects (Written ·.fragments) toJson := by
  intro p p' hp hp' h
  simp [fragments] at hp hp'
  cases p with
  | named name value shorthand span =>
    cases p' with
    | named name' value' shorthand' =>
      obtain ⟨fields, rfl⟩ := node_injective h rfl (by simp)
      simp at fields
      obtain ⟨rfl, same, rfl⟩ := fields
      obtain rfl : value = value' := Expr.injects_toJson hp hp' same
      rfl
    | spread => exact absurd (node_type h) (by simp)
  | spread argument span =>
    cases p' with
    | named => exact absurd (node_type h) (by simp)
    | spread argument' =>
      obtain ⟨fields, rfl⟩ := node_injective h rfl (by simp)
      simp at fields
      obtain rfl : argument = argument' := Expr.injects_toJson hp hp' fields
      rfl

theorem A11yAttribute.injects_toJson : Injects (fun a => AreWritten a.value.nodes) toJson := by
  rintro ⟨name, value, span⟩ ⟨name', value', span'⟩ ha ha' h
  obtain ⟨fields, rfl⟩ := record_injective h rfl (by simp)
  simp at fields
  obtain ⟨rfl, same⟩ := fields
  obtain rfl : value = value' := Expr.injects_toJson ha ha' same
  rfl

theorem ModelModifier.injects_name : Injects (fun _ => True) fun m : ModelModifier => .string m.name := by
  rintro m m' - - h
  cases m <;> cases m' <;> simp_all [name]

theorem BoundaryTarget.name_injective : Function.Injective name := by
  intro target target' same
  cases target <;> cases target' <;> simp_all [name]

theorem EventHandler.injects_fields {handler handler' : EventHandler} {children children' : Json}
    (h : Written handler.fragments) (h' : Written handler'.fragments)
    (same : (handler.fields children).map (·.2.value) =
      (handler'.fields children').map (·.2.value)) :
    handler = handler' ∧ children.value = children'.value := by
  obtain ⟨event, modifiers, handler⟩ := handler
  obtain ⟨event', modifiers', handler'⟩ := handler'
  simp [fields] at same h h'
  obtain ⟨rfl, names, own, inner⟩ := same
  rw [injects_string.list (fun _ _ => trivial) (fun _ _ => trivial) names,
    Expr.injects_option h h' own]
  exact ⟨rfl, inner⟩

theorem Directive.injects_toJson : Injects (Written ·.fragments) toJson := by
  intro d d' hd hd' h
  cases d with
  | event handler span =>
    cases d' with
    | event handler' =>
      obtain ⟨fields, rfl⟩ := node_injective h rfl (by simp [EventHandler.fields])
      rw [(EventHandler.injects_fields hd hd' fields).1]
    | _ => exact absurd (node_type h) (by simp)
  | model modifiers binding span =>
    cases d' with
    | model modifiers' binding' =>
      obtain ⟨fields, rfl⟩ := node_injective h rfl (by simp)
      simp [fragments] at fields hd hd'
      rw [ModelModifier.injects_name.list (fun _ _ => trivial) (fun _ _ => trivial) fields.1,
        Expr.injects_toJson hd hd' fields.2]
    | _ => exact absurd (node_type h) (by simp)
  | a11y attributes span =>
    cases d' with
    | a11y attributes' =>
      obtain ⟨fields, rfl⟩ := node_injective h rfl (by simp)
      simp [fragments] at fields hd hd'
      rw [A11yAttribute.injects_toJson.list hd hd' fields]
    | _ => exact absurd (node_type h) (by simp)
  | live priority span =>
    cases d' with
    | live priority' =>
      obtain ⟨fields, rfl⟩ := node_injective h rfl (by simp)
      simpa using fields
    | _ => exact absurd (node_type h) (by simp)
  | focusTrap options span =>
    cases d' with
    | focusTrap options' =>
      obtain ⟨fields, rfl⟩ := node_injective h rfl (by simp)
      simp [fragments] at fields hd hd'
      rw [Expr.injects_option hd hd' fields]
    | _ => exact absurd (node_type h) (by simp)
  | srOnly span =>
    cases d' with
    | srOnly =>
      obtain ⟨-, rfl⟩ := node_injective h rfl (by simp)
      rfl
    | _ => exact absurd (node_type h) (by simp)
  | boundary target span =>
    cases d' with
    | boundary target' =>
      obtain ⟨fields, rfl⟩ := node_injective h rfl (by simp [BoundaryTarget.fields])
      simp [BoundaryTarget.fields] at fields
      rw [BoundaryTarget.name_injective fields]
    | _ => exact absurd (node_type h) (by simp)

theorem LoopHead.injects_fields {head head' : LoopHead} (h : Written head.fragments)
    (h' : Written head'.fragments)
    (same : head.fields.map (·.2.value) = head'.fields.map (·.2.value)) : head = head' := by
  obtain ⟨keyword, item, index, iteration, iterable, key⟩ := head
  obtain ⟨keyword', item', index', iteration', iterable', key'⟩ := head'
  simp [fields] at same h h'
  obtain ⟨keywords, rfl, indices, iterations, own, keys⟩ := same
  have first : keyword = keyword' := by
    cases keyword <;> cases keyword' <;> simp_all [LoopKeyword.name]
  have second : iteration = iteration' := by
    cases iteration <;> cases iteration' <;> simp_all [IterationKind.name]
  rw [first, second, injects_optionalString trivial trivial indices,
    Expr.injects_toJson h.1 h'.1 own, Expr.injects_option h.2 h'.2 keys]

namespace MarkupNode

def type : MarkupNode → String
  | element .. => "Element"
  | text _ => "Text"
  | conditional .. => "If"
  | loop .. => "For"
  | event .. => "Event"
  | boundary .. => "Boundary"
  | slot .. => "Slot"
  | link .. => "Link"
  | outlet .. => "Outlet"
  | navigate .. => "Navigate"
  | back _ => "Back"
  | forward _ => "Forward"

theorem toJson_conditional (condition : Expr) (consequent : List MarkupNode)
    (branches : List Branch) (alternate : Option (List MarkupNode)) (span : Span) :
    (conditional condition consequent branches alternate span).toJson =
      .node "If" [("condition", condition.toJson), ("consequent", .array (listToJson consequent)),
        ("elseIfBranches", .array (Branch.listToJson branches)),
        ("alternate", .ofOption (.array <| listToJson ·) alternate)] span := by
  cases alternate <;> rfl

theorem exists_node (n : MarkupNode) : ∃ fields, n.toJson = .node n.type fields n.span := by
  cases n with
  | conditional => exact ⟨_, toJson_conditional ..⟩
  | _ => exact ⟨_, rfl⟩

theorem type_eq {n n' : MarkupNode} (h : n.toJson.value = n'.toJson.value) : n.type = n'.type := by
  obtain ⟨fields, own⟩ := n.exists_node
  obtain ⟨fields', own'⟩ := n'.exists_node
  rw [own, own'] at h
  exact node_type h

end MarkupNode

attribute [local simp] MarkupNode.type Json.ofOption

mutual

theorem MarkupNode.eq_of_toJson : ∀ n n' : MarkupNode, Written n.fragments →
    Written n'.fragments → n.toJson.value = n'.toJson.value → n = n'
  | .element selector props directives texts children span, n', hn, hn', h => by
    cases n' with
    | element selector' props' directives' texts' children' =>
      obtain ⟨fields, rfl⟩ := node_injective h rfl (by simp)
      simp [MarkupNode.fragments] at fields hn hn'
      obtain ⟨rfl, ps, ds, ts, cs⟩ := fields
      rw [ElementProp.injects_toJson.list hn.1 hn'.1 ps,
        Directive.injects_toJson.list hn.2.1 hn'.2.1 ds,
        TextNode.injects_toJson.list hn.2.2.1 hn'.2.2.1 ts,
        MarkupNode.list_eq_of_toJson children children' hn.2.2.2 hn'.2.2.2 cs]
    | _ => exact absurd (MarkupNode.type_eq h) (by simp)
  | .text t, n', hn, hn', h => by
    cases n' with
    | text t' =>
      obtain ⟨fields, spans⟩ := node_injective h rfl (by simp [TextNode.fields])
      simp [MarkupNode.fragments] at hn hn'
      rw [TextNode.injects_fields hn hn' fields spans]
    | _ => exact absurd (MarkupNode.type_eq h) (by simp)
  | .conditional condition consequent branches none span, n', hn, hn', h => by
    cases n' with
    | conditional condition' consequent' branches' alternate' =>
      rw [MarkupNode.toJson_conditional, MarkupNode.toJson_conditional] at h
      obtain ⟨fields, rfl⟩ := node_injective h rfl (by simp)
      cases alternate' with
      | none =>
        simp [MarkupNode.fragments] at fields hn hn'
        rw [Expr.injects_toJson hn.1 hn'.1 fields.1,
          MarkupNode.list_eq_of_toJson consequent consequent' hn.2.1 hn'.2.1 fields.2.1,
          Branch.list_eq_of_toJson branches branches' hn.2.2 hn'.2.2 fields.2.2]
      | some nodes => simp at fields
    | _ => exact absurd (MarkupNode.type_eq h) (by simp)
  | .conditional condition consequent branches (some alternate) span, n', hn, hn', h => by
    cases n' with
    | conditional condition' consequent' branches' alternate' =>
      rw [MarkupNode.toJson_conditional, MarkupNode.toJson_conditional] at h
      obtain ⟨fields, rfl⟩ := node_injective h rfl (by simp)
      cases alternate' with
      | none => simp at fields
      | some nodes =>
        simp [MarkupNode.fragments] at fields hn hn'
        rw [Expr.injects_toJson hn.1 hn'.1 fields.1,
          MarkupNode.list_eq_of_toJson consequent consequent' hn.2.1 hn'.2.1 fields.2.1,
          Branch.list_eq_of_toJson branches branches' hn.2.2.1 hn'.2.2.1 fields.2.2.1,
          MarkupNode.list_eq_of_toJson alternate nodes hn.2.2.2 hn'.2.2.2 fields.2.2.2]
    | _ => exact absurd (MarkupNode.type_eq h) (by simp)
  | .loop head body span, n', hn, hn', h => by
    cases n' with
    | loop head' body' =>
      obtain ⟨fields, rfl⟩ := node_injective h rfl (by simp [LoopHead.fields])
      rw [List.map_append, List.map_append] at fields
      obtain ⟨heads, bodies⟩ := List.append_inj fields rfl
      simp [MarkupNode.fragments, -LoopHead.fragments] at bodies hn hn'
      rw [LoopHead.injects_fields hn.1 hn'.1 heads,
        MarkupNode.list_eq_of_toJson body body' hn.2 hn'.2 bodies]
    | _ => exact absurd (MarkupNode.type_eq h) (by simp)
  | .event handler children span, n', hn, hn', h => by
    cases n' with
    | event handler' children' =>
      obtain ⟨fields, rfl⟩ := node_injective h rfl (by simp [EventHandler.fields])
      simp [MarkupNode.fragments, -EventHandler.fragments] at hn hn'
      obtain ⟨rfl, inner⟩ := EventHandler.injects_fields hn.1 hn'.1 fields
      rw [MarkupNode.list_eq_of_toJson children children' hn.2 hn'.2 (by simpa using inner)]
    | _ => exact absurd (MarkupNode.type_eq h) (by simp)
  | .boundary target children span, n', hn, hn', h => by
    cases n' with
    | boundary target' children' =>
      obtain ⟨fields, rfl⟩ := node_injective h rfl (by simp [BoundaryTarget.fields])
      simp [BoundaryTarget.fields, MarkupNode.fragments] at fields hn hn'
      rw [BoundaryTarget.name_injective fields.1,
        MarkupNode.list_eq_of_toJson children children' hn hn' fields.2]
    | _ => exact absurd (MarkupNode.type_eq h) (by simp)
  | .slot name fallback span, n', hn, hn', h => by
    cases n' with
    | slot name' fallback' =>
      obtain ⟨fields, rfl⟩ := node_injective h rfl (by simp)
      simp [MarkupNode.fragments, -Json.ofOption] at fields hn hn'
      rw [injects_optionalString trivial trivial fields.1,
        MarkupNode.list_eq_of_toJson fallback fallback' hn hn' fields.2]
    | _ => exact absurd (MarkupNode.type_eq h) (by simp)
  | .link path options caption children span, n', hn, hn', h => by
    cases n' with
    | link path' options' caption' children' =>
      obtain ⟨fields, rfl⟩ := node_injective h rfl (by simp)
      simp [MarkupNode.fragments, -Json.ofOption] at fields hn hn'
      rw [Expr.injects_toJson hn.1 hn'.1 fields.1,
        Expr.injects_option hn.2.1 hn'.2.1 fields.2.1,
        TextNode.injects_toJson.option (fun _ => value_record_ne_null) hn.2.2.1 hn'.2.2.1
          fields.2.2.1,
        MarkupNode.list_eq_of_toJson children children' hn.2.2.2 hn'.2.2.2 fields.2.2.2]
    | _ => exact absurd (MarkupNode.type_eq h) (by simp)
  | .outlet container span, n', hn, hn', h => by
    cases n' with
    | outlet container' =>
      obtain ⟨fields, rfl⟩ := node_injective h rfl (by simp)
      simp [MarkupNode.fragments, -Json.ofOption] at fields hn hn'
      rw [Expr.injects_option hn hn' fields]
    | _ => exact absurd (MarkupNode.type_eq h) (by simp)
  | .navigate path options span, n', hn, hn', h => by
    cases n' with
    | navigate path' options' =>
      obtain ⟨fields, rfl⟩ := node_injective h rfl (by simp)
      simp [MarkupNode.fragments, -Json.ofOption] at fields hn hn'
      rw [Expr.injects_toJson hn.1 hn'.1 fields.1, Expr.injects_option hn.2 hn'.2 fields.2]
    | _ => exact absurd (MarkupNode.type_eq h) (by simp)
  | .back span, n', hn, hn', h => by
    cases n' with
    | back =>
      obtain ⟨-, rfl⟩ := node_injective h rfl (by simp)
      rfl
    | _ => exact absurd (MarkupNode.type_eq h) (by simp)
  | .forward span, n', hn, hn', h => by
    cases n' with
    | forward =>
      obtain ⟨-, rfl⟩ := node_injective h rfl (by simp)
      rfl
    | _ => exact absurd (MarkupNode.type_eq h) (by simp)

theorem MarkupNode.list_eq_of_toJson : ∀ ns ns' : List MarkupNode,
    (∀ n ∈ ns, Written n.fragments) → (∀ n ∈ ns', Written n.fragments) →
    values (MarkupNode.listToJson ns) = values (MarkupNode.listToJson ns') → ns = ns'
  | [], [], _, _, _ => rfl
  | [], _ :: _, _, _, h => nomatch h
  | _ :: _, [], _, _, h => nomatch h
  | n :: ns, n' :: ns', hn, hn', h => by
    simp [MarkupNode.listToJson] at h hn hn'
    rw [MarkupNode.eq_of_toJson n n' hn.1 hn'.1 h.1,
      MarkupNode.list_eq_of_toJson ns ns' hn.2 hn'.2 h.2]

theorem Branch.eq_of_toJson : ∀ b b' : Branch, Written b.fragments → Written b'.fragments →
    b.toJson.value = b'.toJson.value → b = b'
  | .mk condition consequent span, .mk condition' consequent' span', hb, hb', h => by
    obtain ⟨fields, rfl⟩ := record_injective h rfl (by simp)
    simp [Branch.fragments] at fields hb hb'
    rw [Expr.injects_toJson hb.1 hb'.1 fields.1,
      MarkupNode.list_eq_of_toJson consequent consequent' hb.2 hb'.2 fields.2]

theorem Branch.list_eq_of_toJson : ∀ bs bs' : List Branch,
    (∀ b ∈ bs, Written b.fragments) → (∀ b ∈ bs', Written b.fragments) →
    values (Branch.listToJson bs) = values (Branch.listToJson bs') → bs = bs'
  | [], [], _, _, _ => rfl
  | [], _ :: _, _, _, h => nomatch h
  | _ :: _, [], _, _, h => nomatch h
  | b :: bs, b' :: bs', hb, hb', h => by
    simp [Branch.listToJson] at h hb hb'
    rw [Branch.eq_of_toJson b b' hb.1 hb'.1 h.1, Branch.list_eq_of_toJson bs bs' hb.2 hb'.2 h.2]

end

theorem MarkupNode.injects_toJson : Injects (Written ·.fragments) toJson := eq_of_toJson

theorem ViewBlock.injects_toJson : Injects (Written ·.fragments) toJson := by
  rintro ⟨children, span⟩ ⟨children', span'⟩ hb hb' h
  obtain ⟨fields, rfl⟩ := record_injective h rfl (by simp)
  simp [fragments] at fields hb hb'
  rw [MarkupNode.injects_toJson.list hb hb' fields]

theorem StyleDeclaration.injects_toJson : Injects (fun _ => True) toJson := by
  rintro ⟨property, text, important, span⟩ ⟨property', text', important', span'⟩ - - h
  obtain ⟨fields, rfl⟩ := record_injective h rfl (by simp)
  simpa using fields

theorem StyleDeclaration.injects_list : Injects (fun _ => True) (ofList toJson) :=
  injects_toJson.list.mono fun _ _ _ _ => trivial

mutual

theorem StyleNode.eq_of_toJson : ∀ n n' : StyleNode, n.toJson.value = n'.toJson.value → n = n'
  | .rule selector declarations rules span, n', h => by
    cases n' with
    | rule selector' declarations' rules' =>
      obtain ⟨fields, rfl⟩ := node_injective h rfl (by simp)
      simp at fields
      obtain ⟨rfl, own, inner⟩ := fields
      rw [StyleDeclaration.injects_list trivial trivial own,
        StyleNode.list_eq_of_toJson rules rules' inner]
    | atRule => exact absurd (node_type h) (by simp)
  | .atRule name prelude hasBlock declarations rules span, n', h => by
    cases n' with
    | rule => exact absurd (node_type h) (by simp)
    | atRule name' prelude' hasBlock' declarations' rules' =>
      obtain ⟨fields, rfl⟩ := node_injective h rfl (by simp)
      simp at fields
      obtain ⟨rfl, rfl, rfl, own, inner⟩ := fields
      rw [StyleDeclaration.injects_list trivial trivial own,
        StyleNode.list_eq_of_toJson rules rules' inner]

theorem StyleNode.list_eq_of_toJson : ∀ ns ns' : List StyleNode,
    values (StyleNode.listToJson ns) = values (StyleNode.listToJson ns') → ns = ns'
  | [], [], _ => rfl
  | [], _ :: _, h => nomatch h
  | _ :: _, [], h => nomatch h
  | n :: ns, n' :: ns', h => by
    simp [StyleNode.listToJson] at h
    rw [StyleNode.eq_of_toJson n n' h.1, StyleNode.list_eq_of_toJson ns ns' h.2]

end

theorem StyleBlock.injects_toJson : Injects (fun _ => True) toJson := by
  rintro ⟨raw, rules, failure, span⟩ ⟨raw', rules', failure', span'⟩ - - h
  obtain ⟨fields, rfl⟩ := record_injective h rfl (by simp)
  simp at fields
  obtain ⟨rfl, own, failures⟩ := fields
  have nodes : Injects (fun _ => True) StyleNode.toJson := fun n n' _ _ => n.eq_of_toJson n'
  rw [nodes.list (fun _ _ => trivial) (fun _ _ => trivial) own,
    injects_optionalString trivial trivial failures]

theorem ImportSpecifier.injects_toJson : Injects (fun _ => True) toJson := by
  rintro ⟨kind, imported, name, span⟩ ⟨kind', imported', name', span'⟩ - - h
  obtain ⟨fields, rfl⟩ := record_injective h rfl (by simp)
  simp at fields
  obtain ⟨kinds, rfl, rfl⟩ := fields
  have same : kind = kind' := by cases kind <;> cases kind' <;> simp_all [ImportKind.name]
  rw [same]

theorem Import.injects_toJson : Injects (fun _ => True) toJson := by
  rintro ⟨specifiers, source, span⟩ ⟨specifiers', source', span'⟩ - - h
  obtain ⟨fields, rfl⟩ := record_injective h rfl (by simp)
  simp at fields
  obtain ⟨own, rfl⟩ := fields
  rw [ImportSpecifier.injects_toJson.list (fun _ _ => trivial) (fun _ _ => trivial) own]

theorem PageDecl.injects_toJson : Injects (fun _ => True) toJson := by
  rintro ⟨name, span⟩ ⟨name', span'⟩ - - h
  obtain ⟨fields, rfl⟩ := record_injective h rfl (by simp)
  simpa using fields

theorem RouteDecl.injects_toJson : Injects (fun _ => True) toJson := by
  rintro ⟨path, span⟩ ⟨path', span'⟩ - - h
  obtain ⟨fields, rfl⟩ := record_injective h rfl (by simp)
  simpa using fields

theorem Program.injects_toJson : Injects (Written ·.fragments) toJson := by
  rintro ⟨⟨imports, page, route, props, state, view, actions, style, router, store⟩, span⟩
    ⟨⟨imports', page', route', props', state', view', actions', style', router', store'⟩, span'⟩
    hp hp' h
  obtain ⟨fields, rfl⟩ := record_injective h rfl (by simp)
  simp [Declarations.fragments] at fields hp hp'
  obtain ⟨e₁, e₂, e₃, e₄, e₅, e₆, e₇, e₈, e₉, e₁₀⟩ := fields
  obtain ⟨h₄, h₅, h₆, h₇, h₉, h₁₀⟩ := hp
  obtain ⟨h₄', h₅', h₆', h₇', h₉', h₁₀'⟩ := hp'
  rw [Import.injects_toJson.list (fun _ _ => trivial) (fun _ _ => trivial) e₁,
    PageDecl.injects_toJson.option (fun _ => value_record_ne_null) (fun _ _ => trivial)
      (fun _ _ => trivial) e₂,
    RouteDecl.injects_toJson.option (fun _ => value_record_ne_null) (fun _ _ => trivial)
      (fun _ _ => trivial) e₃,
    PropertyBlock.injects_toJson.option (fun _ => value_record_ne_null) h₄ h₄' e₄,
    PropertyBlock.injects_toJson.option (fun _ => value_record_ne_null) h₅ h₅' e₅,
    ViewBlock.injects_toJson.option (fun _ => value_record_ne_null) h₆ h₆' e₆,
    ActionsBlock.injects_toJson.option (fun _ => value_record_ne_null) h₇ h₇' e₇,
    StyleBlock.injects_toJson.option (fun _ => value_record_ne_null) (fun _ _ => trivial)
      (fun _ _ => trivial) e₈,
    RouterBlock.injects_toJson.option (fun _ => value_record_ne_null) h₉ h₉' e₉,
    StoreBlock.injects_toJson.option (fun _ => value_record_ne_null) h₁₀ h₁₀' e₁₀]

namespace Scope

variable {scope : Scope} {e : Expr}

theorem Reads.areWritten (h : scope.Reads e) (exact : scope.IsExact) : AreWritten e.nodes := by
  obtain ⟨s, t, ok⟩ := h
  have own := Expr.parser_sound scope s ok
  have nodes : ∀ n ∈ e.nodes, Expr.Stood scope n :=
    List.forall_mem_cons.mpr ⟨own.stood, own.inner_stood⟩
  intro n member
  cases n with
  | literal value raw span =>
    obtain ⟨k, written⟩ := (nodes _ member).literalOf
    exact Expr.isWritten_of_literalOf? (exact _ (TokenStream.get_mem _ _)) written
  | _ => trivial

theorem HasExpr.areWritten (h : scope.HasExpr e) (exact : scope.IsExact) : AreWritten e.nodes := by
  cases h with
  | read h => exact h.areWritten exact
  | spread h => exact areWritten_cons.mpr ⟨trivial, h.areWritten exact⟩
  | flag => exact areWritten_cons.mpr ⟨trivial, areWritten_nil⟩

theorem isExact_holeScope (options : Options) (t : Token) (start : Nat) (hole : List Char) :
    (TextNode.holeScope options t start hole).IsExact := by
  intro u member
  rw [TextNode.toList_holeScope] at member
  unfold TextNode.holeTokens at member
  split at member
  · exact Lexer.isExact_of_place member
  · obtain ⟨inner, inside, rfl⟩ := List.mem_map.mp member
    have own : inner.own.IsExact := Lexer.isExact_of_place inside
    exact own

theorem Has.written {fragments : List Fragment} (h : scope.Has fragments) (exact : scope.IsExact) :
    Written fragments := by
  intro f member
  have own := h f member
  cases f with
  | body owner r => trivial
  | expression e => exact own.areWritten exact
  | text t =>
    intro part inText
    cases part with
    | literal text => trivial
    | interpolation source e =>
      obtain ⟨i, start, hole, -, -, -, inner⟩ := own source e inText
      exact (reads_of_readHole inner).areWritten (isExact_holeScope _ _ _ _)

end Scope

theorem Component.written_of_parse {source : String} {options : Options} {c : Component}
    (parsed : Component.parse source options = .ok c) : Written c.program.fragments := by
  obtain ⟨-, t, read⟩ := Component.parse_ok parsed
  let scope : Scope := ⟨.ofList (tokenize source), options, none⟩
  have has := ((Program.reached (rfl : scope.quotation = none) read).1.captured rfl).has
  exact has.written (Scope.isExact_tokenize rfl)

/-- Programs with the same data are the same, whatever they were read from and with which options. -/
theorem Component.parse_toJson_injective {source source' : String} {options options' : Options}
    {c c' : Component} (parsed : Component.parse source options = .ok c)
    (parsed' : Component.parse source' options' = .ok c')
    (same : c.program.toJson.value = c'.program.toJson.value) : c.program = c'.program :=
  Program.injects_toJson (written_of_parse parsed) (written_of_parse parsed') same

/-- With a number without end beside `null`, and a whole number of any size beside a string. -/
theorem Component.parse_toJson_injective_literals :
    ∃ c c',
      Component.parse r"state { a: 1e999, b: null, c: 5n, d: '5n' } // one" .standard = .ok c ∧
      Component.parse r"state { a: 1e999, b: null, c: 5n, d: '5n' } // two" .standard = .ok c' ∧
      c.source ≠ c'.source ∧ c.program.toJson.value = c'.program.toJson.value ∧
      c.program = c'.program := by
  generalize hs : r"state { a: 1e999, b: null, c: 5n, d: '5n' } // one" = source
  generalize hs' : r"state { a: 1e999, b: null, c: 5n, d: '5n' } // two" = source'
  have tokens : tokenize source = tokenize source' := by
    subst hs hs'
    decide +kernel
  have reads : (Component.parse source .standard).toOption.isSome := by
    subst hs
    decide +kernel
  have reads' : (Component.parse source' .standard).toOption.isSome := by
    subst hs'
    decide +kernel
  cases parsed : Component.parse source .standard with
  | error e => rw [parsed] at reads; cases reads
  | ok c =>
    cases parsed' : Component.parse source' .standard with
    | error e => rw [parsed'] at reads'; cases reads'
    | ok c' =>
      obtain ⟨-, t, read⟩ := Component.parse_ok parsed
      obtain ⟨-, t', read'⟩ := Component.parse_ok parsed'
      have same : c.program.toJson.value = c'.program.toJson.value := by
        rw [tokens] at read
        rw [(Reply.ok.inj (read.symm.trans read')).1]
      refine ⟨c, c', rfl, rfl, ?_, same, Component.parse_toJson_injective parsed parsed' same⟩
      rw [Component.source_of_parse parsed, Component.source_of_parse parsed', ← hs, ← hs']
      simp

end PulseSyntax
