import PulseSyntax.Proofs.Expr.Course
import PulseSyntax.Proofs.Expr.Primary
import PulseSyntax.Proofs.Expr.Sound

namespace PulseSyntax

open PulseSyntax.Parser

namespace Expr

/-- The levels that the text of an expression takes in the place of a phrase of some level. -/
def cost (safe last : Bool) (bound : Nat) (e : Expr) : Nat :=
  enclosedRoom bound (e.levelAt last) (e.room false true) (e.room safe last)

def ownerCost (safe : Bool) (e : Expr) : Nat :=
  enclosedRoom 1 e.ownerLevel (e.room false true) (e.room safe false)

theorem enclosedRoom_le {bound level alone text text' : Nat} (h : text ≤ text' + 1) :
    enclosedRoom bound level alone text ≤ enclosedRoom bound level alone text' + 1 := by
  unfold enclosedRoom
  split <;> omega

theorem max_le_max_succ {m m' n n' : Nat} (h : m ≤ m' + 1) (h' : n ≤ n' + 1) :
    max m n ≤ max m' n' + 1 := by omega

theorem levelAt_eq (last : Bool) (e : Expr) :
    e.levelAt last = e.level ∨ ∃ params body isAsync span, e = .arrow params body isAsync span := by
  cases e with
  | arrow => exact .inr ⟨_, _, _, _, rfl⟩
  | _ => exact .inl rfl

theorem cost_le_succ {safe last last' : Bool} {bound : Nat} {e : Expr}
    (h : e.room safe last ≤ e.room false last' + 1) :
    e.cost safe last bound ≤ e.cost false last' bound + 1 := by
  unfold cost
  rcases levelAt_eq last e with same | ⟨params, body, isAsync, span, rfl⟩
  · rcases levelAt_eq last' e with same' | ⟨params, body, isAsync, span, rfl⟩
    · rw [same, same']
      exact enclosedRoom_le h
    · unfold enclosedRoom
      simp only [room]
      split <;> split <;> omega
  · unfold enclosedRoom
    simp only [room]
    split <;> split <;> omega

/-- What a text takes where it must not start with a brace, or where something follows it, is at most
    one level more, as in parentheses. -/
theorem room_le (safe last last' : Bool) : (e : Expr) →
    e.room safe last ≤ e.room false last' + 1
  | identifier .. | literal .. | template .. | array .. | spread .. | arrow .. => by
    simp only [room]
    omega
  | object .. => by
    simp only [room, Bool.toNat_false]
    have := Bool.toNat_le safe
    omega
  | unary _ e _ => by
    have operand : e.cost false last 3 ≤ e.cost false last' 3 + 1 :=
      cost_le_succ (room_le false last last' e)
    unfold cost at operand
    simp only [room]
    omega
  | update _ true _ _ => by
    simp only [room]
    omega
  | update _ false e _ => by
    simp only [room]
    exact room_le safe false false e
  | assignment _ target _ _ => by
    simp only [room]
    exact max_le_max_succ (room_le safe false false target) (Nat.le_succ _)
  | conditional test _ _ _ => by
    simp only [room]
    exact max_le_max_succ (enclosedRoom_le (room_le safe false false test)) (Nat.le_succ _)
  | member owner _ _ _ _ => by
    simp only [room]
    exact max_le_max_succ (enclosedRoom_le (room_le safe false false owner)) (Nat.le_succ _)
  | call callee _ _ _ => by
    simp only [room]
    exact max_le_max_succ (enclosedRoom_le (room_le safe false false callee)) (Nat.le_succ _)
  | binary op left right _ => by
    have second : right.cost false last (2 + op.level) ≤ right.cost false last' (2 + op.level) + 1 :=
      cost_le_succ (room_le false last last' right)
    unfold cost at second
    simp only [room]
    exact max_le_max_succ (enclosedRoom_le (room_le safe false false left)) second

variable {e : Expr} {safe last : Bool} {bound levels : Nat}

theorem cost_of_tight (tight : e.levelAt last ≤ bound) : e.cost safe last bound = e.room safe last :=
  if_neg (Nat.not_lt.mpr tight)

theorem cost_le_of_room (h : e.room false true + 1 ≤ levels) : e.cost safe last bound ≤ levels := by
  have := room_le safe last true e
  unfold cost enclosedRoom
  split <;> omega

theorem ownerCost_le_of_room (h : e.room false true + 1 ≤ levels) : e.ownerCost safe ≤ levels := by
  have := room_le safe false true e
  unfold ownerCost enclosedRoom
  split <;> omega

theorem cost_widen {m n : Nat} (h : e.cost safe last m ≤ levels) (le : m ≤ n) :
    e.cost safe last n ≤ levels := by
  by_cases tight : e.levelAt last ≤ m
  · rw [cost_of_tight tight] at h
    rwa [cost_of_tight (Nat.le_trans tight le)]
  · refine cost_le_of_room ?_
    rwa [cost, enclosedRoom, if_pos (Nat.not_le.mp tight)] at h

variable {scope : Scope} {first next : Nat} {s : ParserState} {nested : Nested}

/-- What is read from one token up to another, in the place of a phrase of some level, takes the
    levels that there are, where it starts with a brace or an operator follows it only if the tokens
    do so. -/
def Costs (scope : Scope) (levels bound first : Nat) (e : Expr) (next : Nat) : Prop :=
  ArePlain e.arrows → ∀ safe last, (safe = true → (scope.stream.get first).kind ≠ .symbol .openBrace) →
    (last = false → 4 ≤ (scope.stream.get next).kind.goesOnAt ∧
      (scope.stream.get next).kind.goesOnAt ≤ 10) → e.cost safe last bound ≤ levels

/-- What is read in the place of a phrase of some level. What stands after it goes on with none of
    the levels of operators up to that one, and a link stands only after `++` or `--`. -/
structure PartFits (scope : Scope) (levels bound first : Nat) (e : Expr) (next : Nat) : Prop where
  cost : Costs scope levels bound first e next
  unjoined : ∀ level, 4 ≤ level → level ≤ bound → (scope.stream.get next).kind.goesOnAt ≠ level
  linked : (scope.stream.get next).kind.goesOnAt = 1 → e.endsUpdated ∧ e.level ≤ bound

structure OwnerFits (scope : Scope) (levels first : Nat) (e : Expr) (next : Nat) : Prop where
  cost : Costs scope levels 1 first e next
  owner : ArePlain e.arrows → ∀ safe,
    (safe = true → (scope.stream.get first).kind ≠ .symbol .openBrace) →
    (scope.stream.get next).kind.goesOnAt = 1 → e.ownerCost safe ≤ levels

namespace PartFits

theorem alone (h : PartFits scope levels 10 first e next) (plain : ArePlain e.arrows) :
    e.room false true ≤ levels := by
  have := h.cost plain false true (by simp) (by simp)
  rwa [cost_of_tight (Nat.le_trans (levelAt_le _ _) (level_le e))] at this

theorem body (h : PartFits scope levels 10 first e next) (plain : ArePlain e.arrows)
    (noBrace : (scope.stream.get first).kind ≠ .symbol .openBrace) :
    e.room true true ≤ levels := by
  have := h.cost plain true true (fun _ => noBrace) (by simp)
  rwa [cost_of_tight (Nat.le_trans (levelAt_le _ _) (level_le e))] at this

end PartFits

structure Nested.Fitting (scope : Scope) (levels : Nat) (nested : Nested) : Prop where
  moving : ∀ depth, Nested.Moving ⟨scope, depth, False⟩ nested
  assignment : ∀ s : ParserState, Yields nested.assignment scope s fun e t =>
    ∃ left, levels = left + 1 ∧ PartFits scope left 10 s.cursor e t.cursor
  unary : ∀ s : ParserState, Yields nested.unary scope s fun e t =>
    ∃ left, levels = left + 1 ∧ PartFits scope left 3 s.cursor e t.cursor

/-- A level more than its text takes. -/
def InnerFits (levels : Nat) (e : Expr) : Prop := ArePlain e.arrows → e.room false true + 1 ≤ levels

theorem Nested.Fitting.nests (h : nested.Fitting scope levels) :
    Gives scope (InnerFits levels) nested.assignment :=
  fun s => (h.assignment s).mono fun e t read plain => by
  obtain ⟨left, rfl, fits⟩ := read
  exact Nat.succ_le_succ (fits.alone plain)

theorem gives_spreadable {expr : Parser Expr} (h : Gives scope (InnerFits levels) expr) :
    Gives scope (InnerFits levels) (spreadable expr) := by
  intro s
  simp only [spreadable, yields_bind, yields_isSymbol, yields_ite, yields_advance, yields_pure]
  exact ⟨fun _ => (h _).mono fun e t fits => fits, fun _ => h s⟩

theorem roomOfItems_le {es : List Expr} (h : ∀ e ∈ es, InnerFits levels e)
    (plain : ArePlain (es.flatMap Expr.arrows)) : roomOfItems es ≤ levels := by
  induction es with
  | nil => exact Nat.zero_le _
  | cons e es ih =>
    simp only [List.flatMap_cons, arePlain_append] at plain
    obtain ⟨here, rest⟩ := List.forall_mem_cons.mp h
    rw [roomOfItems, Nat.max_le]
    exact ⟨here plain.1, ih rest plain.2⟩

theorem gives_arguments {expr : Parser Expr} (h : Gives scope (InnerFits levels) expr) :
    Gives scope (fun answer => ∀ e ∈ answer.1, InnerFits levels e) (arguments expr) := by
  intro s
  simp only [arguments, yields_bind, yields_expectSymbol, yields_pure]
  exact fun _ => (Gives.commaSeparated _ (gives_spreadable h) _).mono fun items t fits _ => fits

namespace OwnerFits

theorem notArrow {e : Expr} (h : e.level ≤ 1) (last : Bool) : e.levelAt last = e.level := by
  rcases levelAt_eq last e with same | ⟨_, _, _, _, rfl⟩
  · exact same
  · simp [level] at h

theorem closed (tight : e.level ≤ 1) (h : ArePlain e.arrows → ∀ safe last,
    (safe = true → (scope.stream.get first).kind ≠ .symbol .openBrace) →
    e.room safe last ≤ levels) : OwnerFits scope levels first e next where
  cost plain safe last starts _ := by
    rw [cost_of_tight (notArrow tight last ▸ tight)]
    exact h plain safe last starts
  owner plain safe starts _ := by
    rw [ownerCost, enclosedRoom, if_neg (by rw [ownerLevel, notArrow tight]; omega)]
    exact h plain safe false starts

theorem group (h : InnerFits levels e) : OwnerFits scope levels first e next where
  cost plain _ _ _ _ := cost_le_of_room (h plain)
  owner plain _ _ _ := ownerCost_le_of_room (h plain)

theorem arrow {params : List Expr} {body : Expr} {isAsync : Bool} {span : Span} {start left : Nat}
    (items : ∀ e ∈ params, InnerFits (left + 1) e)
    (noBrace : (scope.stream.get start).kind ≠ .symbol .openBrace)
    (inner : PartFits scope left 10 start body next) :
    OwnerFits scope (left + 1) first (.arrow params (.expression body) isAsync span) next := by
  have room (plain : ArePlain (Expr.arrow params (.expression body) isAsync span).arrows)
      (safe last : Bool) :
      (Expr.arrow params (.expression body) isAsync span).room safe last ≤ left + 1 := by
    simp only [arrows, arrowsOfList_eq, ArrowBody.arrows, arePlain_cons, arePlain_append] at plain
    rw [Expr.room, roomOfBody, Nat.max_le]
    exact ⟨roomOfItems_le items plain.2.1, Nat.succ_le_succ (inner.body plain.2.2 noBrace)⟩
  refine ⟨fun plain safe last _ follows => ?_, fun plain safe _ link => ?_⟩
  · cases last with
    | true =>
      rw [cost_of_tight (by simp [levelAt])]
      exact room plain safe true
    | false =>
      obtain ⟨low, high⟩ := follows rfl
      exact absurd rfl (inner.unjoined _ low high)
  · have updated : (Expr.arrow params (.expression body) isAsync span).isUpdatedArrow :=
      (inner.linked link).1
    rw [ownerCost, enclosedRoom, if_neg (by simp [ownerLevel, updated, levelAt])]
    exact room plain safe false

end OwnerFits

theorem yields_arrowFunction_fits (h : nested.Fitting scope levels) (start : Span) (isAsync : Bool) :
    Yields (arrowFunction nested start isAsync) scope s fun e t =>
      OwnerFits scope levels first e t.cursor := by
  refine yields_bind.mpr (yields_isSymbol.mpr ?_)
  extract_lets rest
  have tail {params : List Expr} {t : ParserState}
      (items : 0 < levels → ∀ e ∈ params, InnerFits levels e) :
      Yields (rest params) scope t fun e u => OwnerFits scope levels first e u.cursor := by
    simp only [rest, yields_ite, yields_fail, yields_bind, yields_expectSymbol, yields_isSymbol,
      yields_pure, beq_iff_eq]
    refine ⟨fun _ => trivial, fun _ _ => ⟨fun _ => ?_, fun noBrace => ?_⟩⟩
    · simp only [arrowBlock, yields_bind, yields_scope, yields_previous]
      intro range u _
      split
      all_goals
        rw [yields_pure]
        exact ⟨fun plain => absurd plain (by simp [ArrowBody.IsExpression]),
          fun plain => absurd plain (by simp [ArrowBody.IsExpression])⟩
    · refine (h.assignment _).mono fun body u read => ?_
      obtain ⟨left, rfl, fits⟩ := read
      exact .arrow (items (Nat.succ_pos left)) noBrace fits
  simp only [yields_ite, yields_bind, yields_pure, yields_expect]
  refine ⟨fun _ => (gives_arguments h.nests s).mono fun items t fits => tail fun _ => fits,
    fun _ _ => tail fun pos => ?_⟩
  simp only [List.mem_singleton, forall_eq]
  exact fun _ => pos

def MemberFits (levels : Nat) (m : ObjectMember) : Prop := ArePlain m.arrows → roomOfMember m ≤ levels

theorem roomOfMembers_le {ms : List ObjectMember} (h : ∀ m ∈ ms, MemberFits levels m)
    (plain : ArePlain (ms.flatMap ObjectMember.arrows)) : roomOfMembers ms ≤ levels := by
  induction ms with
  | nil => exact Nat.zero_le _
  | cons m ms ih =>
    simp only [List.flatMap_cons, arePlain_append] at plain
    obtain ⟨here, rest⟩ := List.forall_mem_cons.mp h
    rw [roomOfMembers, Nat.max_le]
    exact ⟨here plain.1, ih rest plain.2⟩

theorem gives_propertyValue (h : nested.Fitting scope levels) (start : Span) {key : PropertyKey}
    (named : ArePlain key.arrows → roomOfKey key ≤ levels) :
    Gives scope (MemberFits levels) (propertyValue nested start key) := by
  intro s
  simp only [propertyValue, yields_bind, yields_expectSymbol, yields_pure]
  refine fun _ => (h.nests _).mono fun value t fits plain => ?_
  simp only [ObjectMember.arrows, arePlain_append] at plain
  rw [roomOfMember, if_neg (by simp), Nat.max_le]
  exact ⟨named plain.1, fits plain.2⟩

theorem gives_objectMember (h : nested.Fitting scope levels) :
    Gives scope (MemberFits levels) (objectMember nested) := by
  intro s
  simp only [objectMember, yields_bind, yields_current, yields_ite, yields_advance, yields_pure,
    yields_expectSymbol]
  refine ⟨fun _ => (h.nests _).mono fun e t fits plain => fits plain,
    fun _ => ⟨fun _ => ?_, fun _ => ?_⟩⟩
  · refine (h.nests _).mono fun key t fits _ => ?_
    have named : ArePlain (PropertyKey.computed key).arrows → roomOfKey (.computed key) ≤ levels := fits
    exact gives_propertyValue h _ named _
  · split
    · exact yields_failWanted.mpr trivial
    · next key read =>
      have named : roomOfKey key = 0 := by
        unfold keyOf? at read
        split at read
        all_goals cases read
        all_goals rfl
      simp only [yields_bind, yields_advance, yields_current, yields_ite, yields_pure]
      exact ⟨fun _ _ => by simp [roomOfMember],
        fun _ => gives_propertyValue h _ (fun _ => named ▸ Nat.zero_le _) _⟩

theorem yields_nameOrBrackets_fits (h : nested.Fitting scope levels) :
    Yields (nameOrBrackets nested (scope.stream.get s.cursor) (scope.stream.get (s.cursor + 1))) scope s
      fun e t => OwnerFits scope levels s.cursor e t.cursor := by
  simp only [nameOrBrackets, yields_ite, yields_bind, yields_advance, yields_pure]
  refine ⟨fun _ => .closed (by simp [ofName, level]) fun _ _ _ _ => by simp [ofName, room], fun _ => ?_⟩
  split
  · simp only [grouped, yields_bind, yields_advance, yields_expectSymbol, yields_pure]
    exact (h.nests _).mono fun e t fits _ => .group fits
  · simp only [arrayLiteral, yields_bind, yields_expectSymbol, yields_pure]
    refine fun _ => (Gives.commaSeparated _ (gives_spreadable h.nests) _).mono fun items t fits _ => ?_
    refine .closed (by simp [level]) fun plain _ _ _ => ?_
    simp only [arrows, arrowsOfList_eq] at plain
    exact roomOfItems_le fits plain
  · simp only [objectLiteral, yields_bind, yields_expectSymbol, yields_pure]
    refine fun brace => (Gives.commaSeparated _ (gives_objectMember h) _).mono
      fun members t fits _ => ?_
    refine .closed (by simp [level]) fun plain safe _ starts => ?_
    cases safe with
    | true => exact absurd brace (starts rfl)
    | false =>
      simp only [arrows, ObjectMember.arrowsOfList_eq] at plain
      exact roomOfMembers_le fits plain
  · exact yields_failWanted.mpr trivial

theorem yields_primary_fits (h : nested.Fitting scope levels) :
    Yields (primary nested) scope s fun e t => OwnerFits scope levels s.cursor e t.cursor := by
  simp only [primary, yields_bind, yields_current, yields_peek]
  split
  · next e literal =>
    simp only [yields_bind, yields_advance, yields_pure]
    unfold literalOf? at literal
    split at literal
    all_goals cases literal
    all_goals
      exact .closed (by simp [level, Expr.ofLiteral]) fun _ _ _ _ => by simp [room, Expr.ofLiteral]
  · refine yields_bind.mpr (yields_startsAsyncArrow fun isAsync _ =>
      yields_ite.mpr ⟨fun _ => ?_, fun _ => ?_⟩)
    · simp only [yields_bind, yields_advance]
      exact yields_arrowFunction_fits h _ true
    · refine yields_bind.mpr (yields_startsArrow fun starts =>
        yields_ite.mpr ⟨fun _ => ?_, fun _ => ?_⟩)
      · exact yields_arrowFunction_fits h _ false
      · exact yields_nameOrBrackets_fits h

theorem gives_memberName : Gives scope (fun e => e.room false true = 0) memberName := by
  intro s
  simp only [memberName, yields_bind, yields_current, yields_ite, yields_advance, yields_pure]
  exact ⟨fun _ => rfl, fun _ => yields_failWanted.mpr trivial⟩

section

variable {optional : Bool} {close : Span} {property : Expr} {args : List Expr}

namespace OwnerFits

theorem mkMember (h : OwnerFits scope levels first e next)
    (link : (scope.stream.get next).kind.goesOnAt = 1) {next' : Nat} :
    OwnerFits scope levels first (mkMember e property optional) next' := by
  refine .closed (by simp [Expr.mkMember, level]) fun plain safe last starts => ?_
  simp only [Expr.mkMember, arrows, arePlain_append] at plain
  rw [Expr.mkMember, room, if_neg (by simp), Nat.max_zero]
  exact h.owner plain.1 safe starts link

theorem mkIndex (h : OwnerFits scope levels first e next)
    (link : (scope.stream.get next).kind.goesOnAt = 1) (inner : InnerFits levels property)
    {next' : Nat} :
    OwnerFits scope levels first (mkIndex e property optional close) next' := by
  refine .closed (by simp [Expr.mkIndex, level]) fun plain safe last starts => ?_
  simp only [Expr.mkIndex, arrows, arePlain_append] at plain
  rw [Expr.mkIndex, room, Nat.max_le]
  exact ⟨h.owner plain.1 safe starts link, inner plain.2⟩

theorem mkCall (h : OwnerFits scope levels first e next)
    (link : (scope.stream.get next).kind.goesOnAt = 1) (items : ∀ e ∈ args, InnerFits levels e)
    {next' : Nat} : OwnerFits scope levels first (mkCall e args optional close) next' := by
  refine .closed (by simp [Expr.mkCall, level]) fun plain safe last starts => ?_
  simp only [Expr.mkCall, arrows, arrowsOfList_eq, arePlain_append] at plain
  rw [Expr.mkCall, room, Nat.max_le]
  exact ⟨h.owner plain.1 safe starts link, roomOfItems_le items plain.2⟩

end OwnerFits

end

theorem yields_link_fits (h : nested.Fitting scope levels)
    (fits : OwnerFits scope levels first e s.cursor) :
    Yields (link nested e) scope s fun next t =>
      match next with
      | none => (scope.stream.get t.cursor).kind.goesOnAt ≠ 1 ∧ Costs scope levels 1 first e t.cursor
      | some e => OwnerFits scope levels first e t.cursor := by
  simp only [link, yields_bind, yields_current]
  split
  · next dot =>
    simp only [yields_bind, yields_advance, yields_pure]
    exact (gives_memberName _).mono fun _ _ _ => fits.mkMember (by rw [dot]; rfl)
  · next dot =>
    have link : (scope.stream.get s.cursor).kind.goesOnAt = 1 := by rw [dot]; rfl
    simp only [yields_bind, yields_advance, yields_current]
    split
    · simp only [index, yields_bind, yields_advance, yields_expectSymbol, yields_pure]
      exact (h.nests _).mono fun property t inner _ => fits.mkIndex link inner
    · simp only [yields_bind, yields_pure]
      exact (gives_arguments h.nests _).mono fun args t inner => fits.mkCall link inner
    · simp only [yields_bind, yields_pure]
      exact (gives_memberName _).mono fun _ _ _ => fits.mkMember link
  · next opening =>
    simp only [index, yields_bind, yields_advance, yields_expectSymbol, yields_pure]
    exact (h.nests _).mono fun property t inner _ => fits.mkIndex (by rw [opening]; rfl) inner
  · next opening =>
    simp only [yields_bind, yields_pure]
    exact (gives_arguments h.nests _).mono fun args t inner => fits.mkCall (by rw [opening]; rfl) inner
  · next dot questionDot openBracket openParen =>
    refine yields_pure.mpr ⟨fun link => ?_, fits.cost⟩
    unfold TokenKind.goesOnAt at link
    split at link <;> simp_all

theorem yields_linked_fits (h : nested.Fitting scope levels) :
    Yields (linked nested) scope s fun e t =>
      Costs scope levels 1 s.cursor e t.cursor ∧ (scope.stream.get t.cursor).kind.goesOnAt ≠ 1 := by
  refine yields_bind.mpr ((yields_primary_fits h).mono fun e t fits => ?_)
  refine yields_chain_until (extending_link (h.moving t.depth))
    (I := fun e u => OwnerFits scope levels s.cursor e u.cursor) (fun e u fits => ?_) rfl fits
  refine (yields_link_fits h fits).mono fun next v goesOn => ?_
  cases next with
  | none => exact goesOn.symm
  | some e => exact goesOn

namespace Costs

theorem widen {m n : Nat} (h : Costs scope levels m first e next) (le : m ≤ n) :
    Costs scope levels n first e next :=
  fun plain safe last starts follows => cost_widen (h plain safe last starts follows) le

theorem ofRoom (tight : ∀ last, e.levelAt last ≤ bound)
    (h : ArePlain e.arrows → ∀ safe last,
      (safe = true → (scope.stream.get first).kind ≠ .symbol .openBrace) →
      (last = false → 4 ≤ (scope.stream.get next).kind.goesOnAt ∧
        (scope.stream.get next).kind.goesOnAt ≤ 10) → e.room safe last ≤ levels) :
    Costs scope levels bound first e next := fun plain safe last starts follows => by
  rw [cost_of_tight (tight last)]
  exact h plain safe last starts follows

theorem assignable (h : Costs scope levels bound first e next) (low : 1 ≤ bound)
    (assignable : e.isAssignable) (plain : ArePlain e.arrows) (safe : Bool)
    (starts : safe = true → (scope.stream.get first).kind ≠ .symbol .openBrace) :
    e.room safe false ≤ levels := by
  have tight := ReadsBack.level_of_isAssignable assignable
  have this := h plain safe true starts (by simp)
  rw [cost_of_tight (by rw [OwnerFits.notArrow tight]; omega)] at this
  cases e with
  | identifier | member => exact this
  | _ => cases assignable

end Costs

theorem PartFits.widen {m : Nat} (h : PartFits scope levels m first e next) (le : m ≤ bound)
    (unjoined : ∀ level, 4 ≤ level → level ≤ bound → (scope.stream.get next).kind.goesOnAt ≠ level) :
    PartFits scope levels bound first e next where
  cost := h.cost.widen le
  unjoined := unjoined
  linked link := ⟨(h.linked link).1, Nat.le_trans (h.linked link).2 le⟩

theorem yields_postfixed_fits (h : nested.Fitting scope levels) :
    Yields (postfixed nested) scope s fun e t => PartFits scope levels 2 s.cursor e t.cursor := by
  refine yields_bind.mpr ((yields_linked_fits h).mono fun e t read => ?_)
  obtain ⟨costs, unlinked⟩ := read
  have alone : PartFits scope levels 2 s.cursor e t.cursor :=
    ⟨costs.widen (by omega), fun _ low high => by omega, fun link => absurd link unlinked⟩
  simp only [yields_bind, yields_current]
  split
  · exact yields_pure.mpr alone
  · simp only [yields_bind, yields_previous, yields_ite, yields_fail, yields_advance, yields_pure,
      Bool.not_eq_true', Bool.not_eq_false]
    refine ⟨fun _ => alone, fun _ => ⟨fun _ => trivial, fun assignable => ⟨?_, ?_, fun _ => ?_⟩⟩⟩
    · refine .ofRoom (fun last => by simp [levelAt, level]) fun plain safe last starts _ => ?_
      exact costs.assignable (Nat.le_refl 1) assignable plain safe starts
    · exact fun _ low high => by omega
    · exact ⟨rfl, Nat.le_refl 2⟩

theorem yields_unaryAt_fits (h : nested.Fitting scope levels) :
    Yields (unaryAt nested) scope s fun e t => PartFits scope levels 3 s.cursor e t.cursor := by
  simp only [unaryAt, yields_bind, yields_current]
  split
  · simp only [yields_bind, yields_advance, yields_pure]
    refine (h.unary _).mono fun e t read => ?_
    obtain ⟨left, rfl, fits⟩ := read
    refine ⟨.ofRoom (fun last => by simp [levelAt, level]) fun plain safe last _ follows => ?_,
      fun _ low high => by omega, fun link => ?_⟩
    · rw [room]
      exact Nat.succ_le_succ (fits.cost plain false last (by simp) follows)
    · obtain ⟨updated, tight⟩ := fits.linked link
      exact ⟨by simp [endsUpdated, updated, tight], Nat.le_refl 3⟩
  · simp only [yields_bind, yields_advance, yields_pure, yields_ite, yields_fail, Bool.not_eq_true',
      Bool.not_eq_false]
    refine (h.unary _).mono fun e t read => ⟨fun _ => trivial, fun assignable => ?_⟩
    obtain ⟨left, rfl, fits⟩ := read
    refine ⟨.ofRoom (fun last => by simp [levelAt, level]) fun plain safe last _ follows => ?_,
      fun _ low high => by omega, fun link => ?_⟩
    · rw [room]
      exact Nat.succ_le_succ (fits.cost.assignable (by omega) assignable plain false (by simp))
    · have updated := (fits.linked link).1
      cases e with
      | identifier | member => cases updated
      | _ => cases assignable
  · refine (yields_postfixed_fits h).mono fun e t fits => fits.widen (by omega) ?_
    exact fun _ low high => by omega

theorem level_of_ofKind? {level : Nat} {kind : TokenKind} {op : BinaryOp}
    (h : BinaryOp.ofKind? level kind = some op) : op.level = level := by
  have found := List.find?_some h
  simp only [Bool.and_eq_true, beq_iff_eq] at found
  exact found.1

theorem goesOnAt_ne_of_ofKind? {level : Nat} {kind : TokenKind} (low : 1 ≤ level) (high : level ≤ 5)
    (h : BinaryOp.ofKind? level kind = none) : kind.goesOnAt ≠ 3 + level := by
  intro joins
  obtain rfl | rfl | rfl | rfl | rfl : level = 1 ∨ level = 2 ∨ level = 3 ∨ level = 4 ∨ level = 5 := by
    omega
  all_goals
    unfold TokenKind.goesOnAt at joins
    split at joins
    all_goals first
      | omega
      | cases h

/-- An expression to which an operator of the next level may join another one. -/
structure Joins (scope : Scope) (levels bound first : Nat) (e : Expr) (next : Nat) : Prop where
  cost : Costs scope levels (bound + 1) first e next
  unjoined : ∀ level, 4 ≤ level → level ≤ bound → (scope.stream.get next).kind.goesOnAt ≠ level
  linked : (scope.stream.get next).kind.goesOnAt = 1 → e.endsUpdated ∧ e.level ≤ bound + 1

theorem PartFits.joins (h : PartFits scope levels bound first e next) :
    Joins scope levels bound first e next where
  cost := h.cost.widen (Nat.le_succ _)
  unjoined := h.unjoined
  linked link := ⟨(h.linked link).1, Nat.le_succ_of_le (h.linked link).2⟩

theorem Joins.fits (h : Joins scope levels bound first e next)
    (none : (scope.stream.get next).kind.goesOnAt ≠ bound + 1) :
    PartFits scope levels (bound + 1) first e next where
  cost := h.cost
  unjoined level low high := by
    rcases Nat.lt_or_eq_of_le high with less | rfl
    · exact h.unjoined level low (Nat.le_of_lt_succ less)
    · exact none
  linked := h.linked

theorem Joins.binary {op : BinaryOp} {left right : Expr} {join start : Nat}
    (h : Joins scope levels (2 + op.level) first left join)
    (follows : (scope.stream.get join).kind.goesOnAt = 3 + op.level)
    (h' : PartFits scope levels (2 + op.level) start right next) :
    Joins scope levels (2 + op.level) first (mkBinary op left right) next where
  cost := by
    have high := op.level_le
    have low := op.level_pos
    refine .ofRoom (fun last => by simp [mkBinary, levelAt, level]; omega)
      fun plain safe last starts after => ?_
    simp only [mkBinary, arrows, arePlain_append] at plain
    rw [mkBinary, room, Nat.max_le]
    have bound : 2 + op.level + 1 = 3 + op.level := by omega
    have one := bound ▸ h.cost plain.1 safe false starts fun _ => ⟨by omega, by omega⟩
    have same : left.levelAt false = left.level := by cases left <;> rfl
    rw [Expr.cost, same] at one
    exact ⟨one, h'.cost plain.2 false last (by simp) after⟩
  unjoined := h'.unjoined
  linked link := by
    obtain ⟨updated, tight⟩ := h'.linked link
    exact ⟨by simp [mkBinary, endsUpdated, updated, tight], by simp [mkBinary, level]; omega⟩

theorem yields_binaryAt_fits (h : nested.Fitting scope levels) {level : Nat} (high : level ≤ 5) :
    Yields (binaryAt (unaryAt nested) level) scope s fun e t =>
      PartFits scope levels (3 + level) s.cursor e t.cursor := by
  induction level generalizing s with
  | zero => exact yields_unaryAt_fits h
  | succ level ih =>
    have operand (s : ParserState) := ih (s := s) (by omega)
    refine yields_bind.mpr ((operand s).mono fun e t fits => ?_)
    have moving := (starting_binaryAt (starting_unaryAt (h.moving t.depth)) level).steady
    refine yields_chain_until (extending_join moving (level + 1))
      (I := fun e u => Joins scope levels (3 + level) s.cursor e u.cursor) (fun e u joins => ?_) rfl
      fits.joins
    simp only [join, yields_bind, yields_current]
    split
    · next none =>
      exact yields_pure.mpr (joins.fits (goesOnAt_ne_of_ofKind? (by omega) high none))
    · next op read =>
      simp only [yields_bind, yields_advance, yields_pure]
      have same := level_of_ofKind? read
      have follows := goesOnAt_of_binary read
      obtain rfl : level = op.level - 1 := by omega
      have bound : 3 + (op.level - 1) = 2 + op.level := by omega
      rw [bound] at joins operand ⊢
      refine (operand _).mono fun right v fits => joins.binary (by omega) fits

theorem goesOnAt_ne_of_assign {kind : TokenKind} (h : AssignOp.ofKind? kind = none) :
    kind.goesOnAt ≠ 10 := by
  intro joins
  unfold TokenKind.goesOnAt at joins
  split at joins
  all_goals first
    | omega
    | cases h

theorem yields_conditionalAt_joins (h : nested.Fitting scope levels) :
    Yields (conditionalAt nested) scope s fun e t => Joins scope levels 9 s.cursor e t.cursor := by
  refine yields_bind.mpr ((yields_binaryAt_fits h (Nat.le_refl BinaryOp.loosest)).mono
    fun test t fits => ?_)
  simp only [yields_bind, yields_eatSymbol]
  refine ⟨fun question => ?_, fun none => ?_⟩
  · rw [if_neg (by simp)]
    simp only [yields_bind, yields_expectSymbol, yields_pure]
    refine (h.nests _).mono fun consequent u one _ => (h.assignment _).mono fun alternate v read => ?_
    obtain ⟨left, rfl, other⟩ := read
    refine ⟨.ofRoom (fun last => by simp [levelAt, level]) fun plain safe last starts _ => ?_,
      fun level low high => other.unjoined level low (by omega), fun link => ?_⟩
    · simp only [arrows, arePlain_append] at plain
      have condition := fits.cost plain.1 safe false starts fun _ => by rw [question]; decide
      have same : test.levelAt false = test.level := by cases test <;> rfl
      rw [Expr.cost, same] at condition
      have first := one plain.2.1
      have second := other.alone plain.2.2
      rw [room, Nat.max_le]
      exact ⟨condition, by omega⟩
    · exact ⟨(other.linked link).1, Nat.le_refl 10⟩
  · rw [if_pos (by simp), yields_pure]
    have unasked : (scope.stream.get t.cursor).kind.goesOnAt ≠ 9 := by
      intro asks
      unfold TokenKind.goesOnAt at asks
      split at asks <;> simp_all
    exact (fits.joins.fits unasked).joins

theorem yields_assignmentAt_fits (h : nested.Fitting scope levels) :
    Yields (assignmentAt nested) scope s fun e t => PartFits scope levels 10 s.cursor e t.cursor := by
  refine yields_bind.mpr ((yields_conditionalAt_joins h).mono fun target t joins => ?_)
  simp only [yields_bind, yields_current]
  split
  · next none => exact yields_pure.mpr (joins.fits (goesOnAt_ne_of_assign none))
  · simp only [yields_bind, yields_advance, yields_pure, yields_ite, yields_fail, Bool.not_eq_true',
      Bool.not_eq_false]
    refine ⟨fun _ => trivial, fun assignable => (h.assignment _).mono fun value u read => ?_⟩
    obtain ⟨left, rfl, fits⟩ := read
    refine ⟨.ofRoom (fun last => by simp [levelAt, level]) fun plain safe last starts _ => ?_,
      fits.unjoined, fun link => ⟨(fits.linked link).1, Nat.le_refl 10⟩⟩
    simp only [arrows, arePlain_append] at plain
    rw [room, Nat.max_le]
    exact ⟨joins.cost.assignable (by omega) assignable plain.1 safe starts,
      Nat.succ_le_succ (fits.alone plain.2)⟩

theorem fitting_within (levels : Nat) : (Nested.within levels).Fitting scope levels := by
  induction levels with
  | zero => exact ⟨fun _ => moving_within 0 False.elim, fun _ => yields_failTooDeep.mpr trivial,
      fun _ => yields_failTooDeep.mpr trivial⟩
  | succ levels ih =>
    refine ⟨fun _ => moving_within _ False.elim, fun s a t ok => ?_, fun s a t ok => ?_⟩
    · obtain ⟨u, inner, rfl⟩ := deeper_eq_ok.mp ok
      have fits := yields_assignmentAt_fits ih inner
      exact ⟨levels, rfl, fits⟩
    · obtain ⟨u, inner, rfl⟩ := deeper_eq_ok.mp ok
      have fits := yields_unaryAt_fits ih inner
      exact ⟨levels, rfl, fits⟩

theorem parser_room : Yields parser scope s fun e _ =>
    ArePlain e.arrows → e.room false true + 1 ≤ scope.options.maxDepth - s.depth :=
  (fitting_within (scope.options.maxDepth - s.depth)).nests s

end Expr

end PulseSyntax
