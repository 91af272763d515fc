import PulseSyntax.Proofs.Expr.Balance
import PulseSyntax.Proofs.Expr.Course
import PulseSyntax.Proofs.Expr.Writable
import PulseSyntax.Proofs.Parser.Finds

namespace PulseSyntax

open PulseSyntax.Parser Lexeme

def ArrowBody.IsExpression : ArrowBody → Prop
  | expression _ => True
  | block _ | inline _ => False

instance : (body : ArrowBody) → Decidable body.IsExpression
  | .expression _ => .isTrue trivial
  | .block _ | .inline _ => .isFalse id

def ArePlain (arrows : List (Span × ArrowBody)) : Prop := ∀ a ∈ arrows, a.2.IsExpression

instance (arrows : List (Span × ArrowBody)) : Decidable (ArePlain arrows) :=
  inferInstanceAs (Decidable (∀ a ∈ arrows, a.2.IsExpression))

section

variable {α : Type} {as bs : List (Span × ArrowBody)} {a : Span × ArrowBody} {xs : List α}
  {f : α → List (Span × ArrowBody)}

@[simp] theorem arePlain_nil : ArePlain [] := fun _ member => nomatch member

@[simp] theorem arePlain_cons : ArePlain (a :: as) ↔ a.2.IsExpression ∧ ArePlain as :=
  List.forall_mem_cons

@[simp] theorem arePlain_append : ArePlain (as ++ bs) ↔ ArePlain as ∧ ArePlain bs :=
  List.forall_mem_append

@[simp] theorem arePlain_flatMap : ArePlain (xs.flatMap f) ↔ ∀ x ∈ xs, ArePlain (f x) :=
  List.forall_mem_flatMap

end

namespace Expr

def CanWrite (e : Expr) : Prop := ArePlain e.arrows → e.IsWritable

def ItemCanWrite (e : Expr) : Prop := ArePlain e.arrows → e.unspread.IsWritable

theorem CanWrite.item {e : Expr} (h : e.CanWrite) : e.ItemCanWrite := by
  intro plain
  have writable := h plain
  cases e with
  | spread e span =>
    cases writable with
    | literal h =>
      unfold literalOf? at h
      split at h <;> cases h
  | _ => exact writable

variable {scope : Scope} {first depth braces : Nat} {s : ParserState}

structure Nested.Finds (scope : Scope) (first depth : Nat) (nested : Nested) : Prop where
  assignment : Parser.Finds scope first depth CanWrite nested.assignment
  unary : Parser.Finds scope first depth CanWrite nested.unary

variable {expr : Parser Expr} {nested : Nested}

theorem finds_spreadable {P Q : Expr → Prop} (h : Finds scope first depth P expr)
    (spread : ∀ e span, P e → Q (.spread e span)) (item : ∀ e, P e → Q e) :
    Finds scope first depth Q (spreadable expr) := by
  intro braces s o
  simp [spreadable]
  refine ⟨fun sign => h.step (o.read sign rfl (by simp)) fun e t o holds => ⟨o, spread e _ holds⟩,
    fun _ => h.step o fun e t o holds => ⟨o, item e holds⟩⟩

theorem finds_arguments {P Q : Expr → Prop} (h : Finds scope first depth P expr)
    (spread : ∀ e span, P e → Q (.spread e span)) (item : ∀ e, P e → Q e) :
    Finds scope first depth (∀ e ∈ ·.1, Q e) (arguments expr) := by
  intro braces s o
  simp [arguments]
  intro opening
  refine (Finds.commaSeparated _ (finds_spreadable h spread item)).step (o.read opening rfl (by simp)) ?_
  exact fun items t o holds closing => ⟨o.read closing rfl (by simp), holds⟩

theorem finds_items (h : Finds scope first depth CanWrite expr) :
    Finds scope first depth (∀ e ∈ ·.1, e.ItemCanWrite) (arguments expr) :=
  finds_arguments h (fun _ _ writable => writable) fun _ writable => writable.item

theorem word_eq_spelling {name : String} {k : Keyword} (h : (word name).kind = .keyword k) :
    name = k.spelling := by
  unfold word at h
  split at h
  · next k' found =>
    obtain rfl : k' = k := TokenKind.keyword.inj h
    exact (Keyword.spelling_of_ofSpelling? found).symm
  · cases h

theorem isName_of_isSpelled {t : Token} (spelled : t.own.IsSpelled false) (h : t.kind.isName)
    {span : Span} : IsWritable (.identifier t.raw span) := by
  obtain ⟨isWord, own⟩ := word_of_isSpelled spelled (by
    rcases kind_of_isName h with kind | ⟨word, kind, -⟩ <;> simp [kind, TokenKind.isKeyword])
  refine .name isWord ?_
  rw [← own]
  exact h

theorem keepsDepth_rawBlock : Yields rawBlock scope s fun _ t => t.depth = s.depth :=
  fun _ _ ok => ((Course.starting_rawBlock (c := ⟨scope, s.depth, False⟩) s rfl).reaches ok).depth

theorem yields_arrowFunction_canWrite (h : nested.Finds scope first depth) (spelled : scope.IsSpelled first)
    (start : Span) (isAsync : Bool) (o : s.InBlock scope first depth braces) :
    Yields (arrowFunction nested start isAsync) scope s fun e t =>
      t.InBlock scope first depth braces ∧ e.CanWrite := by
  refine yields_bind.mpr (yields_isSymbol.mpr ?_)
  extract_lets rest
  have tail {params : List Expr} {t : ParserState} (o : t.InBlock scope first depth braces)
      (writable : ∀ e ∈ params, e.ItemCanWrite) :
      Yields (rest params) scope t fun e u => u.InBlock scope first depth braces ∧ e.CanWrite := by
    simp [rest]
    intro valid arrow
    have o := o.read arrow rfl (by simp)
    refine ⟨fun _ => ?_, fun _ => h.assignment.step o fun body u o inner =>
      ⟨o, fun plain => ?_⟩⟩
    · have inside : Yields rawBlock scope _ fun r u => scope.stream.Open first u.cursor _ ∧
          scope.Delimits r ∧ u.cursor = r.stop + 1 :=
        yields_rawBlock o.braces fun r u left delimits _ stop => ⟨left, delimits, stop⟩
      refine yields_bind.mpr ((keepsDepth_rawBlock.and inside).mono fun r u read => ?_)
      obtain ⟨same, left, delimits, stop⟩ := read
      have after : u.InBlock scope first depth braces := by
        refine ⟨same.trans o.depth, left, ?_⟩
        rw [stop, Nat.add_sub_cancel, delimits.closing]
        simp
      simp only [yields_bind, yields_scope]
      split
      all_goals exact yields_pure.mpr ⟨after, fun plain => absurd plain (by simp [ArrowBody.IsExpression])⟩
    · simp at plain
      obtain ⟨-, params, inside⟩ := plain
      refine .arrow ?_ (fun e member => writable e member (params e member)) (inner inside)
      exact List.all_eq_true.mpr valid
  simp
  refine ⟨fun _ => (finds_items h.assignment).step o fun items t o writable => tail o writable,
    fun _ name => tail (o.readName (by rw [name]; rfl)) ?_⟩
  simp only [List.mem_singleton, forall_eq]
  exact fun _ => isName_of_isSpelled (o.spelled spelled) (by rw [name]; rfl)

theorem finds_arrayLiteral (h : nested.Finds scope first depth) :
    Finds scope first depth CanWrite (arrayLiteral nested) := by
  intro braces s o
  simp [arrayLiteral]
  intro opening
  have items : Finds scope first depth ItemCanWrite (spreadable nested.assignment) :=
    finds_spreadable h.assignment (fun _ _ writable => writable) fun _ writable => writable.item
  refine (Finds.commaSeparated _ items).step (o.read opening rfl (by simp))
    fun items t o writable closing => ⟨o.read closing rfl (by simp), fun plain => ?_⟩
  simp at plain
  exact .array fun e member => writable e member (plain e member)

def MemberCanWrite (m : ObjectMember) : Prop :=
  m.IsWritable ∧ (ArePlain m.arrows → ∀ e ∈ m.parts, e.IsWritable)

def KeyCanWrite (key : PropertyKey) : Prop :=
  key.IsWritable ∧ (ArePlain key.arrows → ∀ e ∈ key.parts, e.IsWritable)

theorem finds_propertyValue (h : nested.Finds scope first depth) (start : Span) {key : PropertyKey}
    (named : KeyCanWrite key) : Finds scope first depth MemberCanWrite (propertyValue nested start key) := by
  intro braces s o
  simp [propertyValue]
  intro colon
  refine h.assignment.step (o.read colon rfl (by simp)) fun value t o writable =>
    ⟨o, .property named.1, fun plain => ?_⟩
  simp at plain
  simp only [ObjectMember.parts, List.forall_mem_append, List.forall_mem_singleton]
  exact ⟨named.2 plain.1, writable plain.2⟩

theorem keyCanWrite_of_keyOf? {t : Token} {key : PropertyKey} (h : keyOf? t = some key)
    (spelled : t.own.IsSpelled false) : KeyCanWrite key := by
  unfold keyOf? at h
  split at h
  case h_5 => cases h
  all_goals
    rename_i kind
    cases h
  · exact ⟨(word_of_isSpelled spelled (.inl kind)).1, by simp [PropertyKey.parts]⟩
  · exact ⟨(word_of_isSpelled spelled (.inr (by rw [kind]; rfl))).1, by simp [PropertyKey.parts]⟩
  · exact ⟨trivial, by simp [PropertyKey.parts]⟩
  · refine ⟨?_, by simp [PropertyKey.parts]⟩
    have here : t.own.kind = .number := kind
    unfold Lexeme.IsSpelled at spelled
    rw [here] at spelled
    obtain ⟨⟨n, value, canonical⟩, -⟩ := spelled
    have value : t.value = .number n := value
    simp only [Token.number?, value, Option.getD_some]
    exact canonical

theorem finds_objectMember (h : nested.Finds scope first depth) (spelled : scope.IsSpelled first) :
    Finds scope first depth MemberCanWrite (objectMember nested) := by
  intro braces s o
  simp [objectMember]
  refine ⟨fun spread => ?_, fun _ => ⟨fun opening => ?_, fun _ => ?_⟩⟩
  · refine h.assignment.step (o.read spread rfl (by simp)) fun e t o writable =>
      ⟨o, .spread, fun plain => ?_⟩
    simp only [ObjectMember.parts, List.forall_mem_singleton]
    exact writable plain
  · refine h.assignment.step (o.read opening rfl (by simp)) fun key t o writable closing => ?_
    have named : KeyCanWrite (.computed key) :=
      ⟨trivial, fun plain => List.forall_mem_singleton.mpr (writable plain)⟩
    exact finds_propertyValue h _ named (o.read closing rfl (by simp))
  · split
    · simp
    · next key read =>
      have named := keyCanWrite_of_keyOf? read (o.spelled spelled)
      have next := o.readPlain fun sign here => by simp [keyOf?, here] at read
      simp
      refine ⟨fun isName _ => ⟨next, ?_⟩, fun _ => finds_propertyValue h _ named next⟩
      obtain ⟨isWord, own⟩ := word_of_isSpelled (o.spelled spelled) (.inl isName)
      have plain : (word (scope.stream.get s.cursor).raw).kind = .identifier := by
        rw [← own]
        exact isName
      obtain rfl : key = .identifier (scope.stream.get s.cursor).raw := by
        simpa [keyOf?, isName] using read.symm
      refine ⟨.shorthand isWord plain, fun _ => ?_⟩
      simp only [ObjectMember.parts, PropertyKey.parts, List.nil_append, List.forall_mem_singleton]
      exact .name isWord (by rw [plain]; rfl)

theorem finds_objectLiteral (h : nested.Finds scope first depth) (spelled : scope.IsSpelled first) :
    Finds scope first depth CanWrite (objectLiteral nested) := by
  intro braces s o
  simp [objectLiteral]
  intro opening
  refine (Finds.commaSeparated _ (finds_objectMember h spelled)).step (o.opening opening)
    fun members t o writable closing => ⟨o.closing closing, fun plain => ?_⟩
  simp at plain
  exact .object (fun m member => (writable m member).1)
    fun m member => (writable m member).2 (plain m member)

def IsImport (e : Expr) : Prop := ∃ span, e = .identifier "import" span

theorem yields_nameOrBrackets_canWrite (h : nested.Finds scope first depth)
    (spelled : scope.IsSpelled first) (o : s.InBlock scope first depth braces) :
    Yields (nameOrBrackets nested (scope.stream.get s.cursor) (scope.stream.get (s.cursor + 1)))
      scope s fun e t => t.InBlock scope first depth braces ∧
        (e.CanWrite ∨ e.IsImport ∧ (scope.stream.get t.cursor).kind = .symbol .openParen) := by
  simp [nameOrBrackets]
  refine ⟨fun name => ?_, fun _ => ?_⟩
  · simp only [readsAsName, Bool.or_eq_true, Bool.and_eq_true, beq_iff_eq] at name
    rcases name with name | ⟨import_, next⟩
    · exact ⟨o.readName name, .inl fun _ => isName_of_isSpelled (o.spelled spelled) name⟩
    · refine ⟨o.readWord (.inr (by rw [import_]; rfl)), .inr ⟨⟨(scope.stream.get s.cursor).span, ?_⟩, ?_⟩⟩
      · obtain ⟨-, own⟩ := word_of_isSpelled (o.spelled spelled) (.inr (by rw [import_]; rfl))
        have kind : (word (scope.stream.get s.cursor).raw).kind = .keyword .import_ := by
          rw [← own]
          exact import_
        rw [ofName, word_eq_spelling kind]
        rfl
      · rw [ParserState.next_of_kind import_ (by simp)]
        exact next
  · split
    · next opening =>
      simp [grouped]
      exact h.assignment.step (o.read opening rfl (by simp)) fun e t o writable closing =>
        ⟨o.read closing rfl (by simp), .inl writable⟩
    · exact (finds_arrayLiteral h).step o fun e t o writable => ⟨o, .inl writable⟩
    · exact (finds_objectLiteral h spelled).step o fun e t o writable => ⟨o, .inl writable⟩
    · simp

theorem yields_primary_canWrite (h : nested.Finds scope first depth) (spelled : scope.IsSpelled first)
    (o : s.InBlock scope first depth braces) :
    Yields (primary nested) scope s fun e t => t.InBlock scope first depth braces ∧
      (e.CanWrite ∨ e.IsImport ∧ (scope.stream.get t.cursor).kind = .symbol .openParen) := by
  have arrow (isAsync : Bool) {t : ParserState} (start : Span) (o : t.InBlock scope first depth braces) :
      Yields (arrowFunction nested start isAsync) scope t fun e t =>
        t.InBlock scope first depth braces ∧
          (e.CanWrite ∨ e.IsImport ∧ (scope.stream.get t.cursor).kind = .symbol .openParen) :=
    (yields_arrowFunction_canWrite h spelled start isAsync o).mono fun e t ⟨o, writable⟩ =>
      ⟨o, .inl writable⟩
  simp [primary]
  split
  · next e literal =>
    simp
    refine ⟨o.readPlain fun sign here => ?_, .inl fun _ => .literal literal (o.spelled spelled)⟩
    have kind := kind_of_literalOf? literal
    rw [here] at kind
    simp [literalKinds] at kind
  · simp
    refine yields_startsAsyncArrow fun isAsync name => ⟨fun yes => ?_, fun _ => ?_⟩
    · exact arrow true _ (o.readName (by rw [name yes]; rfl))
    · exact yields_startsArrow fun starts =>
        ⟨fun _ => arrow false _ o, fun _ => yields_nameOrBrackets_canWrite h spelled o⟩

theorem yields_mkCall (h : nested.Finds scope first depth) {e : Expr} (optional : Bool)
    (called : ∀ es span, (∀ e ∈ es, e.ItemCanWrite) → CanWrite (.call e es optional span))
    (o : s.InBlock scope first depth braces) :
    Yields (do
        let inside ← arguments nested.assignment
        return some (mkCall e inside.1 optional inside.2)) scope s
      fun next t => t.InBlock scope first depth braces ∧ ∃ e, next = some e ∧ e.CanWrite := by
  simp
  exact (finds_items h.assignment).step o fun args t o writable =>
    ⟨o, called _ _ writable⟩

theorem finds_link (h : nested.Finds scope first depth) (spelled : scope.IsSpelled first) {e : Expr}
    (he : e.CanWrite) : Finds scope first depth (∀ e ∈ ·, e.CanWrite) (link nested e) := by
  have call {braces : Nat} {s : ParserState} (optional : Bool) (o : s.InBlock scope first depth braces) :
      Yields (do
          let inside ← arguments nested.assignment
          return some (mkCall e inside.1 optional inside.2)) scope s
        fun next t => t.InBlock scope first depth braces ∧ ∀ e ∈ next, e.CanWrite := by
    refine (yields_mkCall h optional (fun es span writable plain => ?_) o).mono ?_
    · simp at plain
      exact .call (he plain.1) fun e member => writable e member (plain.2 e member)
    · rintro _ t ⟨o, e, rfl, writable⟩
      exact ⟨o, by simpa using writable⟩
  have indexed {braces : Nat} {s : ParserState} (optional : Bool) (o : s.InBlock scope first depth braces)
      (opening : (scope.stream.get s.cursor).kind = .symbol .openBracket) :
      Yields (do
          let inside ← index nested
          return some (mkIndex e inside.1 optional inside.2)) scope s
        fun next t => t.InBlock scope first depth braces ∧ ∀ e ∈ next, e.CanWrite := by
    simp [index]
    refine h.assignment.step (o.read opening rfl (by simp)) fun property t o writable closing =>
      ⟨o.read closing rfl (by simp), fun plain => ?_⟩
    simp [mkIndex] at plain
    exact .index (he plain.1) (writable plain.2)
  have member {braces : Nat} {s : ParserState} (optional : Bool) (o : s.InBlock scope first depth braces) :
      Yields (do return some (mkMember e (← memberName) optional)) scope s
        fun next t => t.InBlock scope first depth braces ∧ ∀ e ∈ next, e.CanWrite := by
    simp [memberName]
    refine fun isWord => ⟨o.readWord isWord, fun plain => ?_⟩
    simp [mkMember, ofName] at plain
    exact .property (he plain) (word_of_isSpelled (o.spelled spelled) isWord).1
  intro braces s o
  refine yields_bind.mpr (yields_current.mpr ?_)
  split
  · next dot => exact yields_bind.mpr (yields_advance.mpr (member false (o.read dot rfl (by simp))))
  · next dot =>
    refine yields_bind.mpr (yields_advance.mpr (yields_bind.mpr (yields_current.mpr ?_)))
    have o := o.read dot rfl (by simp)
    split
    · next opening => exact indexed true o opening
    · exact call true o
    · exact member true o
  · next opening => exact indexed false o opening
  · exact call false o
  · exact yields_pure.mpr ⟨o, by simp⟩

theorem finds_linked (h : nested.Finds scope first depth) (spelled : scope.IsSpelled first) :
    Finds scope first depth CanWrite (linked nested) := by
  intro braces s o
  refine yields_bind.mpr ((yields_primary_canWrite h spelled o).mono ?_)
  rintro e t ⟨o, writable | ⟨⟨span, rfl⟩, opening⟩⟩
  · exact Finds.chain (fun e => finds_link h spelled) writable o
  · refine Finds.chainAfter (fun e => finds_link h spelled) (yields_bind.mpr (yields_current.mpr ?_))
    rw [opening]
    refine yields_mkCall h false (fun es span writable plain => ?_) o
    simp at plain
    exact .importCall fun e member => writable e member (plain e member)

theorem updateOp_noAt {kind : TokenKind} {op : UpdateOp} (h : UpdateOp.ofKind? kind = some op) :
    kind ≠ .symbol .atSign := by
  rintro rfl
  cases h

theorem finds_postfixed (h : nested.Finds scope first depth) (spelled : scope.IsSpelled first) :
    Finds scope first depth CanWrite (postfixed nested) := by
  intro braces s o
  refine yields_bind.mpr ((finds_linked h spelled).step o fun e t o writable => ?_)
  simp
  split
  · exact yields_pure.mpr ⟨o, writable⟩
  · next op read =>
    simp
    refine ⟨fun _ assignable => ⟨o.read rfl (updateOp_plain read) (updateOp_noAt read),
      fun plain => ?_⟩, fun _ => ⟨o, writable⟩⟩
    simp at plain
    exact .update assignable (writable plain)

theorem finds_unaryAt (h : nested.Finds scope first depth) (spelled : scope.IsSpelled first) :
    Finds scope first depth CanWrite (unaryAt nested) := by
  intro braces s o
  simp [unaryAt]
  split
  · next op read =>
    simp
    have noAt : (scope.stream.get s.cursor).kind ≠ .symbol .atSign := by
      intro here
      rw [here] at read
      cases read
    refine h.unary.step (o.read rfl (unaryOp_plain read) noAt) fun e t o writable =>
      ⟨o, fun plain => ?_⟩
    simp at plain
    exact .unary (writable plain)
  · next op none read =>
    simp
    refine h.unary.step (o.read rfl (updateOp_plain read) (updateOp_noAt read))
      fun e t o writable assignable => ⟨o, fun plain => ?_⟩
    simp at plain
    exact .update assignable (writable plain)
  · exact finds_postfixed h spelled o

theorem finds_binaryAt (h : Finds scope first depth CanWrite expr) (level : Nat) :
    Finds scope first depth CanWrite (binaryAt expr level) := by
  induction level with
  | zero => exact h
  | succ level ih =>
    intro braces s o
    refine yields_bind.mpr (ih.step o fun left t o writable => ?_)
    refine Finds.chain (fun left writable => ?_) writable o
    intro braces s o
    simp [join]
    split
    · exact yields_pure.mpr ⟨o, by simp⟩
    · next op read =>
      simp
      have noAt : (scope.stream.get s.cursor).kind ≠ .symbol .atSign := by
        intro here
        have fits := List.find?_some read
        simp [here] at fits
        cases op <;> cases fits.2
      refine ih.step (o.read rfl (binaryOp_plain read) noAt) fun right t o writable' =>
        ⟨o, fun plain => ?_⟩
      simp [mkBinary] at plain
      exact .binary (writable plain.1) (writable' plain.2)

theorem finds_conditionalAt (h : nested.Finds scope first depth) (spelled : scope.IsSpelled first) :
    Finds scope first depth CanWrite (conditionalAt nested) := by
  intro braces s o
  refine yields_bind.mpr ((finds_binaryAt (finds_unaryAt h spelled) _).step o
    fun test t o tested => ?_)
  simp
  refine ⟨fun question => ?_, fun _ => ⟨o, tested⟩⟩
  refine h.assignment.step (o.read question rfl (by simp)) fun consequent t o one colon => ?_
  refine h.assignment.step (o.read colon rfl (by simp)) fun alternate t o other =>
    ⟨o, fun plain => ?_⟩
  simp at plain
  exact .conditional (tested plain.1) (one plain.2.1) (other plain.2.2)

theorem finds_assignmentAt (h : nested.Finds scope first depth) (spelled : scope.IsSpelled first) :
    Finds scope first depth CanWrite (assignmentAt nested) := by
  intro braces s o
  refine yields_bind.mpr ((finds_conditionalAt h spelled).step o fun target t o writable => ?_)
  simp
  split
  · exact yields_pure.mpr ⟨o, writable⟩
  · next op read =>
    simp
    have noAt : (scope.stream.get t.cursor).kind ≠ .symbol .atSign := by
      intro here
      rw [here] at read
      cases read
    refine fun assignable => h.assignment.step (o.read rfl (assignOp_plain read) noAt)
      fun value t o writable' => ⟨o, fun plain => ?_⟩
    simp at plain
    exact .assignment assignable (writable plain.1) (writable' plain.2)

theorem finds_within (spelled : scope.IsSpelled first) (levels : Nat) :
    (Nested.within levels).Finds scope first depth := by
  induction levels generalizing depth with
  | zero => exact ⟨fun _ _ _ => yields_failTooDeep.mpr trivial,
      fun _ _ _ => yields_failTooDeep.mpr trivial⟩
  | succ levels ih =>
    exact ⟨(finds_assignmentAt ih spelled).deeper, (finds_unaryAt ih spelled).deeper⟩

theorem parser_finds (spelled : scope.IsSpelled first) : Finds scope first depth CanWrite parser :=
  .withLevels (finds_within spelled _).assignment

end Expr

end PulseSyntax
