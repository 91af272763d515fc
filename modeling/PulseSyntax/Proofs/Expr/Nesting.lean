import PulseSyntax.Proofs.Expr.Print
import PulseSyntax.Proofs.Expr.Stands
import PulseSyntax.Proofs.Outline.Fragments

namespace PulseSyntax

open PulseSyntax.Parser

namespace Expr

mutual

/-- The height of the tree where a chain of operators, members and calls counts as one node: the
    left operand, the object and the callee are on the level of the whole. -/
@[simp] def nesting : Expr → Nat
  | identifier .. | literal .. | template .. => 0
  | array elements _ => nestingOfItems elements + 1
  | object members _ => nestingOfMembers members + 1
  | spread e _ | unary _ e _ | update _ _ e _ => nesting e + 1
  | binary _ left right _ => max (nesting left) (nesting right + 1)
  | assignment _ target value _ => max (nesting target) (nesting value) + 1
  | conditional test consequent alternate _ =>
    max (nesting test) (max (nesting consequent) (nesting alternate)) + 1
  | arrow params body _ _ => max (nestingOfItems params) (nestingOfBody body) + 1
  | member owner property _ _ _ => max (nesting owner) (nesting property + 1)
  | call callee arguments _ _ => max (nesting callee) (nestingOfItems arguments + 1)

@[simp] def nestingOfItems : List Expr → Nat
  | [] => 0
  | e :: es => max (nesting e) (nestingOfItems es)

@[simp] def nestingOfMembers : List ObjectMember → Nat
  | [] => 0
  | m :: ms => max (nestingOfMember m) (nestingOfMembers ms)

@[simp] def nestingOfMember : ObjectMember → Nat
  | .property key value _ _ => max (nestingOfKey key) (nesting value)
  | .spread e _ => nesting e

@[simp] def nestingOfKey : PropertyKey → Nat
  | .computed key => nesting key
  | _ => 0

@[simp] def nestingOfBody : ArrowBody → Nat
  | .expression body => nesting body
  | .block _ | .inline _ => 0

end

/-- How many operators, members and calls the chain has whose last one the expression is. -/
@[simp] def links : Expr → Nat
  | binary _ first _ _ | member first _ _ _ _ | call first _ _ _ => first.links + 1
  | _ => 0

/-- No chain among the nodes has more links than the limit. -/
def Short (limit : Nat) (nodes : List Expr) : Prop := ∀ node ∈ nodes, node.links ≤ limit

section

variable {limit : Nat} {e : Expr} {nodes rest : List Expr}

theorem Short.inner (h : Short limit e.nodes) : Short limit e.inner :=
  fun node member => h node (List.mem_cons_of_mem _ member)

theorem short_append : Short limit (nodes ++ rest) ↔ Short limit nodes ∧ Short limit rest :=
  List.forall_mem_append

theorem cons_inner (e : Expr) : e :: e.inner = e.nodes := rfl

theorem cons_inner_append (e : Expr) (rest : List Expr) :
    e :: (e.inner ++ rest) = e.nodes ++ rest := rfl

end

/-- The height is what the nesting allows where no chain has more links than the limit. -/
def Fits (limit height nesting : Nat) : Prop := height ≤ nesting * (limit + 1) + limit

namespace Fits

variable {limit links height height' nesting nesting' : Nat}

theorem zero : Fits limit 0 0 := Nat.zero_le _

theorem mono (h : Fits limit height nesting) (le : nesting ≤ nesting') :
    Fits limit height nesting' :=
  Nat.le_trans h (Nat.add_le_add_right (Nat.mul_le_mul_right _ le) _)

protected theorem max (h : Fits limit height nesting) (h' : Fits limit height' nesting') :
    Fits limit (max height height') (max nesting nesting') :=
  Nat.max_le.mpr ⟨h.mono (Nat.le_max_left _ _), h'.mono (Nat.le_max_right _ _)⟩

theorem level (h : Fits limit height nesting) : height + 1 ≤ (nesting + 1) * (limit + 1) := by
  rw [Nat.succ_mul]
  exact Nat.succ_le_succ h

theorem link (chain : height ≤ nesting * (limit + 1) + links) (h : Fits limit height' nesting') :
    max height height' + 1 ≤ max nesting (nesting' + 1) * (limit + 1) + (links + 1) := by
  have first : nesting * (limit + 1) ≤ max nesting (nesting' + 1) * (limit + 1) :=
    Nat.mul_le_mul_right _ (Nat.le_max_left _ _)
  have second : (nesting' + 1) * (limit + 1) ≤ max nesting (nesting' + 1) * (limit + 1) :=
    Nat.mul_le_mul_right _ (Nat.le_max_right _ _)
  have level := h.level
  omega

end Fits

section

variable {limit : Nat}

attribute [local simp] cons_inner cons_inner_append short_append

mutual

theorem height_le : (e : Expr) → Short limit e.inner →
    e.height ≤ e.nesting * (limit + 1) + e.links
  | .identifier .., _ | .literal .., _ | .template .., _ => Nat.zero_le _
  | .array es _, short => (fits_items es short).level
  | .object ms _, short => (fits_members ms short).level
  | .spread e _, short | .unary _ e _, short | .update _ _ e _, short => (fits e short).level
  | .binary _ left right _, short => by
    simp at short
    exact Fits.link (height_le left short.1.inner) (fits right short.2)
  | .assignment _ target value _, short => by
    simp at short
    exact ((fits target short.1).max (fits value short.2)).level
  | .conditional test consequent alternate _, short => by
    simp at short
    obtain ⟨first, second, third⟩ := short
    exact ((fits test first).max ((fits consequent second).max (fits alternate third))).level
  | .arrow params body _ _, short => by
    simp at short
    exact ((fits_items params short.1).max (fits_body body short.2)).level
  | .member owner property _ _ _, short => by
    simp at short
    exact Fits.link (height_le owner short.1.inner) (fits property short.2)
  | .call callee arguments _ _, short => by
    simp at short
    exact Fits.link (height_le callee short.1.inner) (fits_items arguments short.2)

theorem fits (e : Expr) (short : Short limit e.nodes) : Fits limit e.height e.nesting :=
  Nat.le_trans (height_le e short.inner) (Nat.add_le_add_left (short e List.mem_cons_self) _)

theorem fits_items : (es : List Expr) → Short limit (nodesOfList es) →
    Fits limit (heightOfItems es) (nestingOfItems es)
  | [], _ => .zero
  | e :: es, short => by
    simp at short
    exact (fits e short.1).max (fits_items es short.2)

theorem fits_members : (ms : List ObjectMember) → Short limit (ObjectMember.nodesOfList ms) →
    Fits limit (heightOfMembers ms) (nestingOfMembers ms)
  | [], _ => .zero
  | m :: ms, short => by
    obtain ⟨first, rest⟩ := short_append.mp short
    exact (fits_member m first).max (fits_members ms rest)

theorem fits_member : (m : ObjectMember) → Short limit m.nodes →
    Fits limit (heightOfMember m) (nestingOfMember m)
  | .property key value _ _, short => by
    simp at short
    exact (fits_key key short.1).max (fits value short.2)
  | .spread e _, short => fits e short

theorem fits_key : (k : PropertyKey) → Short limit k.nodes →
    Fits limit (heightOfKey k) (nestingOfKey k)
  | .computed e, short => fits e short
  | .identifier _, _ | .string _, _ | .number _, _ => .zero

theorem fits_body : (b : ArrowBody) → Short limit b.nodes →
    Fits limit (heightOfBody b) (nestingOfBody b)
  | .expression e, short => fits e short
  | .block _, _ | .inline _, _ => .zero

end

end

/-- What the reader answers with nests at most so deep. -/
abbrev Nests (scope : Scope) (limit : Nat) (p : Parser Expr) : Prop :=
  ∀ s, Yields p scope s fun e _ => e.nesting ≤ limit

structure Nested.Nests (scope : Scope) (limit : Nat) (nested : Nested) : Prop where
  assignment : Expr.Nests scope limit nested.assignment
  unary : Expr.Nests scope limit nested.unary

section

variable {scope : Scope} {s : ParserState} {limit : Nat} {expr : Parser Expr} {nested : Nested}

attribute [local simp] ofName mkBinary mkMember mkIndex mkCall

theorem nests_spreadable (h : Nests scope limit expr) :
    Nests scope (limit + 1) (spreadable expr) := by
  intro s
  simp [spreadable]
  exact ⟨fun _ => (h _).mono fun e t le => by simpa using le,
    fun _ => (h s).mono fun e t le => Nat.le_succ_of_le le⟩

theorem yields_items_nesting (h : Nests scope limit expr) (close : Symbol) :
    Yields (commaSeparated close (spreadable expr)) scope s fun es _ =>
      nestingOfItems es ≤ limit + 1 :=
  yields_commaSeparated (fun e _ _ => e.nesting ≤ limit + 1)
    (fun es _ _ => nestingOfItems es ≤ limit + 1) close (fun _ => Nat.zero_le _)
    (fun le => by simpa using le) (fun first _ rest => Nat.max_le.mpr ⟨first, rest⟩)
    (nests_spreadable h)

theorem yields_arguments_nesting (h : Nests scope limit expr) :
    Yields (arguments expr) scope s fun answer _ => nestingOfItems answer.1 ≤ limit + 1 := by
  simp [arguments]
  exact fun _ => (yields_items_nesting h _).mono fun items t le _ => le

theorem yields_arrowBlock_nesting :
    Yields arrowBlock scope s fun b _ => nestingOfBody b = 0 := by
  intro b t ok
  obtain ⟨r, raw, rfl⟩ := arrowBlock_eq_ok.mp ok
  unfold Expr.body
  split <;> rfl

theorem nests_arrowFunction (h : nested.Nests scope limit) (start : Span) (isAsync : Bool) :
    Nests scope (limit + 2) (arrowFunction nested start isAsync) := by
  intro s
  refine yields_bind.mpr (yields_isSymbol.mpr ?_)
  extract_lets rest
  have tail {params : List Expr} {t : ParserState} (le : nestingOfItems params ≤ limit + 1) :
      Yields (rest params) scope t fun e _ => e.nesting ≤ limit + 2 := by
    simp [rest]
    intro _ _
    refine ⟨fun _ => yields_arrowBlock_nesting.mono fun body u none => ?_,
      fun _ => (h.assignment _).mono fun body u inner => ?_⟩
    · simp [none, le]
    · exact ⟨le, Nat.le_succ_of_le inner⟩
  clear_value rest
  simp only [yields_ite, yields_bind, yields_expect, yields_pure]
  exact ⟨fun _ => (yields_arguments_nesting h.assignment).mono fun answer t le => tail le,
    fun _ _ => tail (by simp)⟩

theorem nests_arrayLiteral (h : nested.Nests scope limit) :
    Nests scope (limit + 2) (arrayLiteral nested) := by
  intro s
  simp [arrayLiteral]
  exact fun _ => (yields_items_nesting h.assignment _).mono fun items t le _ => le

theorem yields_propertyValue_nesting (h : nested.Nests scope limit) {start : Span}
    {key : PropertyKey} (le : nestingOfKey key ≤ limit) :
    Yields (propertyValue nested start key) scope s fun m _ => nestingOfMember m ≤ limit := by
  simp [propertyValue]
  exact fun _ => (h.assignment _).mono fun value t inner => ⟨le, inner⟩

theorem nestingOfKey_of_keyOf? {t : Token} {key : PropertyKey} (h : keyOf? t = some key) :
    nestingOfKey key = 0 := by
  unfold keyOf? at h
  split at h <;> cases h <;> rfl

theorem yields_objectMember_nesting (h : nested.Nests scope limit) :
    Yields (objectMember nested) scope s fun m _ => nestingOfMember m ≤ limit := by
  simp [objectMember]
  refine ⟨fun _ => (h.assignment _).mono fun e t le => le, fun _ => ⟨fun _ => ?_, fun _ => ?_⟩⟩
  · exact (h.assignment _).mono fun key t le _ => yields_propertyValue_nesting h le
  · split
    · simp
    · next key read =>
      have none := nestingOfKey_of_keyOf? read
      simp [none]
      exact fun _ => yields_propertyValue_nesting h (by simp [none])

theorem nests_objectLiteral (h : nested.Nests scope limit) :
    Nests scope (limit + 1) (objectLiteral nested) := by
  intro s
  simp [objectLiteral]
  exact fun _ => (yields_commaSeparated (fun m _ _ => nestingOfMember m ≤ limit)
    (fun ms _ _ => nestingOfMembers ms ≤ limit) _ (fun _ => Nat.zero_le _)
    (fun le => by simpa using le) (fun first _ rest => Nat.max_le.mpr ⟨first, rest⟩)
    fun _ => yields_objectMember_nesting h).mono fun members t le _ => le

theorem nests_nameOrBrackets (h : nested.Nests scope limit) (t next : Token) :
    Nests scope (limit + 2) (nameOrBrackets nested t next) := by
  intro s
  simp [nameOrBrackets]
  intro _
  split
  · simp [grouped]
    exact (h.assignment _).mono fun e t le _ => Nat.le_add_right_of_le le
  · exact nests_arrayLiteral h s
  · exact (nests_objectLiteral h s).mono fun e t le => Nat.le_succ_of_le le
  · simp

theorem nesting_of_literalOf? {t : Token} {e : Expr} (h : literalOf? t = some e) :
    e.nesting = 0 := by
  unfold literalOf? at h
  split at h <;> cases h <;> rfl

theorem nests_primary (h : nested.Nests scope limit) :
    Nests scope (limit + 2) (primary nested) := by
  intro s
  simp [primary]
  split
  · next e literal => simp [nesting_of_literalOf? literal]
  · simp
    refine yields_startsAsyncArrow_raw fun isAsync _ =>
      ⟨fun _ => nests_arrowFunction h _ true _, fun _ => ?_⟩
    exact yields_startsArrow fun arrow =>
      ⟨fun _ => nests_arrowFunction h _ false _, fun _ => nests_nameOrBrackets h _ _ _⟩

theorem yields_link_nesting (h : nested.Nests scope limit) {e : Expr}
    (le : e.nesting ≤ limit + 2) :
    Yields (link nested e) scope s fun next _ => (next.getD e).nesting ≤ limit + 2 := by
  have called {t : ParserState} {optional : Bool} :
      Yields (do
          let inside ← arguments nested.assignment
          return some (mkCall e inside.1 optional inside.2)) scope t fun next _ =>
        (next.getD e).nesting ≤ limit + 2 := by
    simp only [yields_bind, yields_pure, Option.getD_some]
    exact (yields_arguments_nesting h.assignment).mono fun inside u inner =>
      Nat.max_le.mpr ⟨le, Nat.succ_le_succ inner⟩
  have indexed {t : ParserState} {optional : Bool} :
      Yields (do
          let inside ← index nested
          return some (mkIndex e inside.1 optional inside.2)) scope t fun next _ =>
        (next.getD e).nesting ≤ limit + 2 := by
    simp [index]
    exact (h.assignment _).mono fun property u inner _ => ⟨le, Nat.le_succ_of_le inner⟩
  have named {t : ParserState} {optional : Bool} :
      Yields (do return some (mkMember e (← memberName) optional)) scope t fun next _ =>
        (next.getD e).nesting ≤ limit + 2 := by
    simp [memberName, le]
  refine yields_bind.mpr (yields_current.mpr ?_)
  split
  · exact yields_bind.mpr (yields_advance.mpr named)
  · refine yields_bind.mpr (yields_advance.mpr (yields_bind.mpr (yields_current.mpr ?_)))
    split
    · exact indexed
    · exact called
    · exact named
  · exact indexed
  · exact called
  · exact yields_pure.mpr le

theorem nests_linked (h : nested.Nests scope limit) : Nests scope (limit + 2) (linked nested) := by
  intro s
  refine yields_bind.mpr ((nests_primary h s).mono fun e t le => ?_)
  exact yields_chain (I := fun (e : Expr) _ => e.nesting ≤ limit + 2)
    (fun e u le => yields_link_nesting h le) le

theorem nests_postfixed (h : nested.Nests scope limit) :
    Nests scope (limit + 3) (postfixed nested) := by
  intro s
  refine yields_bind.mpr ((nests_linked h s).mono fun e t le => ?_)
  have kept : e.nesting ≤ limit + 3 := Nat.le_succ_of_le le
  simp
  split
  · exact yields_pure.mpr kept
  · simp [kept, le]

theorem nests_unaryAt (h : nested.Nests scope limit) :
    Nests scope (limit + 3) (unaryAt nested) := by
  intro s
  simp [unaryAt]
  split
  · simp
    exact (h.unary _).mono fun e t le => Nat.le_add_right_of_le le
  · simp
    exact (h.unary _).mono fun e t le _ => Nat.le_add_right_of_le le
  · exact nests_postfixed h s

theorem nests_binaryAt (h : Nests scope limit expr) (level : Nat) :
    Nests scope (limit + level) (binaryAt expr level) := by
  induction level with
  | zero => exact h
  | succ level ih =>
    intro s
    refine yields_bind.mpr ((ih s).mono fun first t le => ?_)
    refine yields_chain (I := fun (e : Expr) _ => e.nesting ≤ limit + (level + 1))
      (fun left u le => ?_) (Nat.le_succ_of_le le)
    simp [join]
    split
    · exact yields_pure.mpr le
    · simp
      exact (ih _).mono fun right u second => ⟨le, Nat.succ_le_succ second⟩

theorem nests_conditionalAt (h : nested.Nests scope limit) :
    Nests scope (limit + 9) (conditionalAt nested) := by
  intro s
  refine yields_bind.mpr ((nests_binaryAt (nests_unaryAt h) BinaryOp.loosest s).mono
    fun test t le => ?_)
  have within : test.nesting ≤ limit + 8 := le
  simp
  refine ⟨fun _ => ?_, fun _ => Nat.le_succ_of_le within⟩
  refine (h.assignment _).mono fun consequent t one _ => ?_
  refine (h.assignment _).mono fun alternate t other => ?_
  exact ⟨within, Nat.le_add_right_of_le one, Nat.le_add_right_of_le other⟩

theorem nests_assignmentAt (h : nested.Nests scope limit) :
    Nests scope (limit + 10) (assignmentAt nested) := by
  intro s
  refine yields_bind.mpr ((nests_conditionalAt h s).mono fun target t le => ?_)
  simp
  split
  · exact yields_pure.mpr (Nat.le_succ_of_le le)
  · simp
    exact fun _ => (h.assignment _).mono fun value u right =>
      ⟨le, Nat.le_add_right_of_le right⟩

theorem Nests.deeper (h : Nests scope limit expr) : Nests scope limit (deeper expr) := by
  intro s e t ok
  obtain ⟨u, inner, -⟩ := deeper_eq_ok.mp ok
  exact h { s with depth := s.depth + 1 } inner

end

/-- With so many levels left, ten nodes of the tree are one level at most: an operator of each level
    of the table, a function or an element of a list, and what it spreads. -/
theorem nests_within (scope : Scope) (levels : Nat) :
    Nested.Nests scope (10 * levels) ⟨parserWithin levels, unaryWithin levels⟩ := by
  induction levels with
  | zero =>
    exact ⟨fun _ => yields_failTooDeep.mpr trivial, fun _ => yields_failTooDeep.mpr trivial⟩
  | succ levels ih =>
    refine ⟨(nests_assignmentAt ih).deeper, fun s => ?_⟩
    exact ((nests_unaryAt ih).deeper s).mono fun e t le => by omega

theorem nesting_le_of_reads {scope : Scope} {e : Expr} (h : scope.Reads e) :
    e.nesting ≤ 10 * scope.options.maxDepth := by
  obtain ⟨s, t, read⟩ := h
  have le : e.nesting ≤ 10 * (scope.options.maxDepth - s.depth) :=
    (nests_within scope _).assignment s read
  omega

end Expr

end PulseSyntax
