import PulseSyntax.Proofs.Expr.Stands
import PulseSyntax.Proofs.Parser.Renamed

namespace PulseSyntax

/-- The reserved word for the name, any other name as it is. -/
def Keyword.standsFor (k : Keyword) (x name : String) : String := if name = x then k.spelling else name

section

variable (x : String) (k : Keyword)

mutual

/-- The expression with the reserved word wherever it has the name. -/
@[simp] def Expr.renamed : Expr → Expr
  | .identifier name span => .identifier (k.standsFor x name) span
  | .literal value raw span => .literal value raw span
  | .template text raw span => .template text raw span
  | .array elements span => .array (Expr.renamedItems elements) span
  | .object members span => .object (Expr.renamedMembers members) span
  | .spread e span => .spread e.renamed span
  | .binary op left right span => .binary op left.renamed right.renamed span
  | .unary op e span => .unary op e.renamed span
  | .update op before e span => .update op before e.renamed span
  | .assignment op target value span => .assignment op target.renamed value.renamed span
  | .conditional test consequent alternate span =>
    .conditional test.renamed consequent.renamed alternate.renamed span
  | .arrow params body isAsync span => .arrow (Expr.renamedItems params) body.renamed isAsync span
  | .member owner property computed optional span =>
    .member owner.renamed property.renamed computed optional span
  | .call callee arguments optional span =>
    .call callee.renamed (Expr.renamedItems arguments) optional span

@[simp] def Expr.renamedItems : List Expr → List Expr
  | [] => []
  | e :: es => e.renamed :: Expr.renamedItems es

@[simp] def Expr.renamedMembers : List ObjectMember → List ObjectMember
  | [] => []
  | m :: ms => m.renamed :: Expr.renamedMembers ms

@[simp] def ObjectMember.renamed : ObjectMember → ObjectMember
  | .property key value shorthand span =>
    .property key.renamed value.renamed shorthand span
  | .spread e span => .spread e.renamed span

@[simp] def PropertyKey.renamed : PropertyKey → PropertyKey
  | .identifier name => .identifier (k.standsFor x name)
  | .string text => .string text
  | .number number => .number number
  | .computed key => .computed key.renamed

@[simp] def ArrowBody.renamed : ArrowBody → ArrowBody
  | .expression body => .expression body.renamed
  | .block range => .block range
  | .inline text => .inline text

end

end

/-- The name stands before an arrow. -/
def Scope.BareAt (x : String) (scope : Scope) (i : Nat) : Prop :=
  (scope.stream.get i).Names x ∧ (scope.stream.get (i + 1)).kind = .symbol .arrow

namespace Expr

section

variable {x : String} {k : Keyword} {e : Expr}

theorem renamedItems_eq (es : List Expr) : renamedItems x k es = es.map (renamed x k) := by
  induction es with
  | nil => rfl
  | cons e es ih => rw [renamedItems, ih, List.map_cons]

theorem renamedMembers_eq (ms : List ObjectMember) :
    renamedMembers x k ms = ms.map (ObjectMember.renamed x k) := by
  induction ms with
  | nil => rfl
  | cons m ms ih => rw [renamedMembers, ih, List.map_cons]

@[simp] theorem span_renamed : (e.renamed x k).span = e.span := by cases e <;> simp [span]

@[simp] theorem isAssignable_renamed : (e.renamed x k).isAssignable = e.isAssignable := by
  cases e with
  | member _ _ _ optional _ => cases optional <;> rfl
  | _ => simp [isAssignable]

@[simp] theorem isParam_renamed : (e.renamed x k).isParam = e.isParam := by
  cases e with
  | assignment op target _ _ => cases op <;> cases target <;> simp [isParam]
  | spread e _ => cases e <;> simp [isParam]
  | _ => simp [isParam]

theorem all_isParam_renamed (es : List Expr) :
    (es.map (renamed x k)).all isParam = es.all isParam := by
  simp [List.all_map, Function.comp_def]

end

variable (scope : Scope) (x : String)

/-- The name is read as an identifier that it has to be: it is a member of the object alone, or the
    parameter of the function and stands before the arrow. -/
def Pins : Expr → Prop
  | object members _ => ∃ value span, .property (.identifier x) value true span ∈ members
  | arrow params _ _ _ => ∃ i, params = [.ofName (scope.stream.get i)] ∧ scope.BareAt x i
  | _ => False

/-- Something in the expression is pinned to the name. -/
def Pinned (e : Expr) : Prop := ∃ n ∈ e.nodes, n.Pins scope x

end Expr

section

variable (scope : Scope) (x : String)

def ArrowBody.Pinned (b : ArrowBody) : Prop := ∃ n ∈ b.nodes, n.Pins scope x

def PropertyKey.Pinned (key : PropertyKey) : Prop := ∃ n ∈ key.nodes, n.Pins scope x

def ObjectMember.Pinned (m : ObjectMember) : Prop :=
  (∃ value span, m = .property (.identifier x) value true span) ∨ ∃ n ∈ m.nodes, n.Pins scope x

end

namespace Expr

variable {scope : Scope} {x name : String} {span : Span} {e f g : Expr} {es : List Expr}
variable {ms : List ObjectMember}

theorem pinned_items :
    (∃ n ∈ nodesOfList es, n.Pins scope x) ↔ ∃ e ∈ es, e.Pinned scope x := by
  simp only [mem_nodesOfList, Pinned]
  grind

theorem pinned_iff : e.Pinned scope x ↔ e.Pins scope x ∨ ∃ n ∈ e.inner, n.Pins scope x := by
  simp [Pinned, nodes]

theorem pinned_inner (h : ¬ e.Pins scope x) :
    e.Pinned scope x ↔ ∃ n ∈ e.inner, n.Pins scope x := by
  rw [pinned_iff, or_iff_right h]

@[simp] theorem pinned_ofName {t : Token} : ¬ (ofName t).Pinned scope x := by
  rw [pinned_inner id]
  simp

theorem pinned_literalOf? {t : Token} (h : literalOf? t = some e) : ¬ e.Pinned scope x := by
  unfold literalOf? at h
  split at h <;> cases h <;> rw [pinned_inner id] <;> simp [ofLiteral]

section

attribute [local simp] nodes or_and_right exists_or or_assoc

@[simp] theorem pinned_array :
    (array es span).Pinned scope x ↔ ∃ e ∈ es, e.Pinned scope x := by
  rw [pinned_inner id]
  exact pinned_items

@[simp] theorem pinned_object :
    (object ms span).Pinned scope x ↔ ∃ m ∈ ms, m.Pinned scope x := by
  simp only [pinned_iff, Pins, inner, mem_nodesOfMembers, ObjectMember.Pinned]
  grind

@[simp] theorem pinned_spread : (spread e span).Pinned scope x ↔ e.Pinned scope x := by
  rw [pinned_inner id]
  simp [Pinned]

@[simp] theorem pinned_unary {op : UnaryOp} :
    (unary op e span).Pinned scope x ↔ e.Pinned scope x := by
  rw [pinned_inner id]
  simp [Pinned]

@[simp] theorem pinned_update {op : UpdateOp} {before : Bool} :
    (update op before e span).Pinned scope x ↔ e.Pinned scope x := by
  rw [pinned_inner id]
  simp [Pinned]

@[simp] theorem pinned_binary {op : BinaryOp} :
    (binary op e f span).Pinned scope x ↔ e.Pinned scope x ∨ f.Pinned scope x := by
  rw [pinned_inner id]
  simp [Pinned]

@[simp] theorem pinned_assignment {op : AssignOp} :
    (assignment op e f span).Pinned scope x ↔ e.Pinned scope x ∨ f.Pinned scope x := by
  rw [pinned_inner id]
  simp [Pinned]

@[simp] theorem pinned_conditional :
    (conditional e f g span).Pinned scope x ↔
      e.Pinned scope x ∨ f.Pinned scope x ∨ g.Pinned scope x := by
  rw [pinned_inner id]
  simp [Pinned]

@[simp] theorem pinned_member {computed optional : Bool} :
    (member e f computed optional span).Pinned scope x ↔ e.Pinned scope x ∨ f.Pinned scope x := by
  rw [pinned_inner id]
  simp [Pinned]

@[simp] theorem pinned_call {optional : Bool} :
    (call e es optional span).Pinned scope x ↔
      e.Pinned scope x ∨ ∃ f ∈ es, f.Pinned scope x := by
  rw [pinned_inner id, ← pinned_items]
  simp [Pinned]

@[simp] theorem pinned_arrow {body : ArrowBody} {isAsync : Bool} :
    (arrow es body isAsync span).Pinned scope x ↔
      (∃ i, es = [.ofName (scope.stream.get i)] ∧ scope.BareAt x i) ∨
        (∃ f ∈ es, f.Pinned scope x) ∨ body.Pinned scope x := by
  rw [pinned_iff, ← pinned_items]
  simp [Pins, ArrowBody.Pinned]

end

end Expr

section

variable {scope : Scope} {x : String} {e : Expr} {key : PropertyKey} {span : Span}

@[simp] theorem ArrowBody.pinned_expression :
    (ArrowBody.expression e).Pinned scope x ↔ e.Pinned scope x := by
  simp [ArrowBody.Pinned, Expr.Pinned, Expr.nodes]

theorem ArrowBody.pinned_body {r : TokenRange} : ¬ (Expr.body scope r).Pinned scope x := by
  unfold Expr.body
  split <;> simp [ArrowBody.Pinned, Quotation.inline]

@[simp] theorem PropertyKey.pinned_computed :
    (PropertyKey.computed e).Pinned scope x ↔ e.Pinned scope x := by
  simp [PropertyKey.Pinned, Expr.Pinned, Expr.nodes]

theorem PropertyKey.pinned_keyOf? {t : Token} (h : Expr.keyOf? t = some key) :
    ¬ key.Pinned scope x := by
  unfold Expr.keyOf? at h
  split at h <;> cases h <;> simp [PropertyKey.Pinned]

namespace ObjectMember

@[simp] theorem pinned_spread : (spread e span).Pinned scope x ↔ e.Pinned scope x := by
  simp [Pinned, Expr.Pinned, Expr.nodes]

@[simp] theorem pinned_property :
    (property key e false span).Pinned scope x ↔ key.Pinned scope x ∨ e.Pinned scope x := by
  simp [Pinned, PropertyKey.Pinned, Expr.Pinned, Expr.nodes, or_and_right, exists_or]

theorem pinned_shorthand {t : Token} :
    (property (.identifier t.raw) (.ofName t) true span).Pinned scope x ↔ t.raw = x := by
  simp [Pinned, Expr.Pins, Expr.ofName]

end ObjectMember

/-- A run that meets the reserved word has to stop here: around a name that stands before an arrow. -/
def Scope.Halts (x : String) (scope : Scope) (s : ParserState) : Prop :=
  ∃ i, scope.BareAt x i ∧ (s.cursor = i ∨ s.cursor = i + 1)

theorem Scope.Halts.kind_renamed {s : ParserState} {k : Keyword} (h : scope.Halts x s) :
    ((scope.stream.get s.cursor).renamed x k).kind = .keyword k ∨
      ((scope.stream.get s.cursor).renamed x k).kind = .symbol .arrow := by
  obtain ⟨i, ⟨names, arrow⟩, at_name | at_arrow⟩ := h
  · exact .inl (by rw [at_name, Token.renamed_of_names names])
  · exact .inr (by rw [at_arrow, Token.kind_renamed_symbol, arrow])

theorem Scope.Halts.kind_ne {s : ParserState} {sign : Symbol} (h : scope.Halts x s)
    (other : sign ≠ .arrow) : (scope.stream.get s.cursor).kind ≠ .symbol sign := by
  obtain ⟨i, ⟨⟨name, -⟩, arrow⟩, at_name | at_arrow⟩ := h
  · rw [at_name, name]
    simp
  · rw [at_arrow, arrow]
    simpa using other.symm

end

end PulseSyntax
