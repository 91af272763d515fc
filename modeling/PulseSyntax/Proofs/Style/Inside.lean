import PulseSyntax.Proofs.Parser.Yields
import PulseSyntax.Proofs.Style.Block
import PulseSyntax.Proofs.Token.Due

namespace PulseSyntax

open PulseSyntax.Parser

def Symbol.isRound : Symbol → Bool
  | closeParen | closeBracket => true
  | _ => false

/-- The brackets of a style block nest well, from the index of its first token to that of its
    closing brace. -/
structure TokenStream.Nests (stream : TokenStream) (stop : Nat) : Prop where
  size : stop < stream.size
  close : (stream.get stop).kind = .symbol .closeBrace
  noEnd : ∀ i, i < stop → (stream.get i).kind ≠ .endOfFile

namespace Style

variable {stream : TokenStream} {stop i rules depth : Nat} {due : List Symbol}

/-- At an index inside at least so many rules of a block. -/
def Inside (stream : TokenStream) (stop rules i : Nat) : Prop :=
  ∃ due, stream.Due stop due i ∧ rules ≤ due.count .closeBrace

/-- At an index in an item in which so many parentheses and brackets are open. Braces are open in
    it only within these. -/
def InItem (stream : TokenStream) (stop rules depth i : Nat) : Prop :=
  ∃ own due, stream.Due stop (own ++ due) i ∧ own.countP Symbol.isRound = depth ∧
    (∀ last, own.getLast? = some last → last.isRound) ∧ rules ≤ due.count .closeBrace

variable (nests : stream.Nests stop)

theorem openAfter_of_plain {sign : Symbol} (opens : sign.closing? = none)
    (closes : ¬sign.isClosing) : openAfter depth (.symbol sign) = depth := by
  unfold openAfter
  split
  · next same => cases same; cases opens
  · next same => cases same; cases opens
  · next same => cases same; exact absurd rfl closes
  · next same => cases same; exact absurd rfl closes
  · rfl

theorem Inside.le (h : Inside stream stop rules i) : i ≤ stop := h.choose_spec.1.le

theorem InItem.le (h : InItem stream stop rules depth i) : i ≤ stop := by
  obtain ⟨own, due, inside, -⟩ := h
  exact inside.le

theorem Inside.inItem (h : Inside stream stop rules i) : InItem stream stop rules 0 i := by
  obtain ⟨due, inside, count⟩ := h
  exact ⟨[], due, inside, rfl, nofun, count⟩

theorem InItem.inside (h : InItem stream stop rules depth i) : Inside stream stop rules i := by
  obtain ⟨own, due, inside, -, -, count⟩ := h
  exact ⟨own ++ due, inside, by rw [List.count_append]; omega⟩

include nests

theorem Inside.kind_ne (h : Inside stream stop rules i) :
    (stream.get i).kind ≠ .endOfFile := by
  rcases Nat.eq_or_lt_of_le h.le with rfl | lt
  · rw [nests.close]
    simp
  · exact nests.noEnd i lt

theorem Inside.lt (h : Inside stream stop rules i)
    (other : (stream.get i).kind ≠ .symbol .closeBrace) : i < stop :=
  Nat.lt_of_le_of_ne h.le fun same => other (same ▸ nests.close)

theorem Inside.pass (h : Inside stream stop rules i)
    (other : (stream.get i).kind ≠ .symbol .closeBrace) : Inside stream stop rules (i + 1) := by
  have lt := h.lt nests other
  obtain ⟨due, inside, count⟩ := h
  obtain ⟨due', step, after⟩ := inside.step lt nests.size
  refine ⟨due', after, Nat.le_trans count ?_⟩
  cases kind : (stream.get i).kind with
  | symbol sign =>
    rw [kind] at step other
    by_cases closes : sign.isClosing
    · obtain rfl := TokenKind.due?_of_closing closes step
      rw [List.count_cons_of_ne (by rintro rfl; exact other rfl)]
    · cases opens : sign.closing? with
      | none =>
        simp only [TokenKind.due?, opens, closes] at step
        cases step
        exact Nat.le_refl _
      | some close =>
        simp only [TokenKind.due?, opens] at step
        cases step
        exact List.count_le_count_cons
  | _ =>
    rw [kind] at step
    cases step
    exact Nat.le_refl _

theorem Inside.open (h : Inside stream stop rules i)
    (kind : (stream.get i).kind = .symbol .openBrace) :
    Inside stream stop (rules + 1) (i + 1) := by
  have lt := h.lt nests (by simp [kind])
  obtain ⟨due, inside, count⟩ := h
  obtain ⟨due', step, after⟩ := inside.step lt nests.size
  rw [kind] at step
  cases step
  exact ⟨_, after, by rw [List.count_cons_self]; omega⟩

theorem Inside.close (h : Inside stream stop (rules + 1) i)
    (kind : (stream.get i).kind = .symbol .closeBrace) : Inside stream stop rules (i + 1) := by
  obtain ⟨due, inside, count⟩ := h
  rcases Nat.eq_or_lt_of_le inside.le with rfl | lt
  · rw [inside.at_stop] at count
    simp at count
  · obtain ⟨due', step, after⟩ := inside.step lt nests.size
    rw [kind] at step
    obtain rfl := TokenKind.due?_of_closing rfl step
    rw [List.count_cons_self] at count
    exact ⟨due', after, by omega⟩

theorem InItem.pass (h : InItem stream stop rules depth i)
    (more : (depth == 0 && endsItem (stream.get i).kind) = false) :
    InItem stream stop rules (openAfter depth (stream.get i).kind) (i + 1) := by
  obtain ⟨own, due, inside, rfl, last, count⟩ := h
  have outside : own = [] → endsItem (stream.get i).kind = false := by
    rintro rfl
    simpa using more
  have lt : i < stop := by
    refine Nat.lt_of_le_of_ne inside.le fun same => ?_
    subst same
    have none := outside (List.append_eq_nil_iff.mp inside.at_stop).1
    rw [nests.close] at none
    cases none
  obtain ⟨due', step, after⟩ := inside.step lt nests.size
  cases kind : (stream.get i).kind with
  | symbol sign =>
    rw [kind] at step outside
    by_cases closes : sign.isClosing
    · have first := TokenKind.due?_of_closing closes step
      cases own with
      | nil =>
        obtain rfl : due = sign :: due' := first
        obtain rfl | rfl | rfl := Symbol.eq_of_isClosing closes
        · exact ⟨[], due', after, rfl, nofun, count⟩
        · exact ⟨[], due', after, rfl, nofun, count⟩
        · cases outside rfl
      | cons top own =>
        obtain ⟨rfl, rfl⟩ := List.cons_eq_cons.mp first
        refine ⟨own, due, after, ?_, fun x found => last x ?_, count⟩
        · obtain rfl | rfl | rfl := Symbol.eq_of_isClosing closes <;>
            simp [openAfter, Symbol.isRound, List.countP_cons]
        · rw [List.getLast?_cons, found, Option.getD_some]
    · cases opens : sign.closing? with
      | none =>
        simp only [TokenKind.due?, opens, closes] at step
        cases step
        refine ⟨own, due, after, (openAfter_of_plain opens closes).symm, last, count⟩
      | some close =>
        simp only [TokenKind.due?, opens] at step
        cases step
        refine ⟨close :: own, due, after, ?_, fun x found => ?_, count⟩
        · obtain ⟨rfl, rfl⟩ | ⟨rfl, rfl⟩ | ⟨rfl, rfl⟩ := Symbol.eq_of_closing? opens <;>
            simp [openAfter, Symbol.isRound, List.countP_cons]
        · cases own with
          | nil =>
            obtain rfl : close = x := Option.some.inj found
            obtain ⟨rfl, rfl⟩ | ⟨rfl, rfl⟩ | ⟨rfl, rfl⟩ := Symbol.eq_of_closing? opens
            · rfl
            · rfl
            · cases outside rfl
          | cons top own =>
            rw [List.getLast?_cons_cons] at found
            exact last x found
  | _ =>
    rw [kind] at step
    cases step
    exact ⟨own, due, after, rfl, last, count⟩

end Style

namespace Parser

variable {α β σ : Type} {scope : Scope} {stop : Nat} {s : ParserState}

/-- Where the parser succeeds, its answer and the state that it leaves are as told; where it fails,
    it stops no later than at the index. -/
def Halts (scope : Scope) (stop : Nat) (p : Parser α) (s : ParserState)
    (Q : α → ParserState → Prop) : Prop :=
  match p scope s with
  | .ok x t => Q x t
  | .error _ t => t.cursor ≤ stop

section

variable {p q : Parser α} {Q R : α → ParserState → Prop}

theorem Halts.mono (h : Halts scope stop p s Q) (imp : ∀ x t, Q x t → R x t) :
    Halts scope stop p s R := by
  unfold Halts at h ⊢
  cases answer : p scope s with
  | ok x t =>
    rw [answer] at h
    exact imp x t h
  | error e t =>
    rw [answer] at h
    exact h

theorem halts_of_apply {x : α} {t : ParserState} (h : p scope s = .ok x t) :
    Halts scope stop p s Q ↔ Q x t := by
  rw [Halts, h]

@[simp] theorem halts_bind {f : α → Parser β} {R : β → ParserState → Prop} :
    Halts scope stop (p >>= f) s R ↔ Halts scope stop p s fun x t => Halts scope stop (f x) t R := by
  unfold Halts
  rw [bind_apply]
  cases p scope s <;> rfl

@[simp] theorem halts_pure {x : α} : Halts scope stop (pure x) s Q ↔ Q x s := Iff.rfl

@[simp] theorem halts_ite {condition : Prop} [Decidable condition] :
    Halts scope stop (if condition then p else q) s Q ↔
      (condition → Halts scope stop p s Q) ∧ (¬ condition → Halts scope stop q s Q) := by
  split <;> simp [*]

@[simp] theorem halts_fail {cause : Cause} :
    Halts scope stop (fail cause) s Q ↔ s.cursor ≤ stop := Iff.rfl

@[simp] theorem halts_failAtToken {cause : Token → Cause} :
    Halts scope stop (failAtToken cause) s Q ↔ s.cursor ≤ stop := by
  refine halts_bind.trans ((halts_of_apply current_apply).trans ?_)
  split <;> rfl

@[simp] theorem halts_current {Q : Token → ParserState → Prop} :
    Halts scope stop current s Q ↔ Q (scope.stream.get s.cursor) s := Iff.rfl

@[simp] theorem halts_previous {Q : Token → ParserState → Prop} :
    Halts scope stop previous s Q ↔ Q (scope.stream.get (s.cursor - 1)) s := Iff.rfl

@[simp] theorem halts_cursor {Q : Nat → ParserState → Prop} :
    Halts scope stop cursor s Q ↔ Q s.cursor s := Iff.rfl

@[simp] theorem halts_scope {Q : Scope → ParserState → Prop} :
    Halts scope stop Parser.scope s Q ↔ Q scope s := Iff.rfl

@[simp] theorem halts_is {kind : TokenKind} {Q : Bool → ParserState → Prop} :
    Halts scope stop (is kind) s Q ↔ Q ((scope.stream.get s.cursor).kind == kind) s := Iff.rfl

@[simp] theorem halts_advance {Q : Token → ParserState → Prop} :
    Halts scope stop advance s Q ↔ Q (scope.stream.get s.cursor) (s.next scope) := Iff.rfl

@[simp] theorem halts_expect {kind : TokenKind} {Q : Token → ParserState → Prop} :
    Halts scope stop (expect kind) s Q ↔
      ((scope.stream.get s.cursor).kind = kind → Q (scope.stream.get s.cursor) (s.next scope)) ∧
        ((scope.stream.get s.cursor).kind ≠ kind → s.cursor ≤ stop) := by
  simp [expect]

@[simp] theorem halts_eat {kind : TokenKind} {Q : Bool → ParserState → Prop} :
    Halts scope stop (eat kind) s Q ↔
      ((scope.stream.get s.cursor).kind = kind → Q true (s.next scope)) ∧
        ((scope.stream.get s.cursor).kind ≠ kind → Q false s) := by
  simp [eat, -bind_pure_comp]

theorem Halts.deeper {I : Nat → Prop}
    (h : ∀ s, I s.cursor → Halts scope stop p s fun _ t => I t.cursor) (here : I s.cursor) :
    Halts scope stop (deeper p) s fun _ t => I t.cursor := by
  have inner := h { s with depth := s.depth + 1 } here
  unfold Halts Parser.deeper at *
  generalize p scope { s with depth := s.depth + 1 } = reply at inner
  cases reply <;> exact inner

end

def Turns (I Q : σ → ParserState → Prop) : ForInStep σ → ParserState → Prop
  | .done x, t => Q x t
  | .yield x, t => I x t

theorem halts_loop {step : σ → Parser (ForInStep σ)} {I Q : σ → ParserState → Prop}
    (ends : ∀ x s, I x s → Q x s)
    (round : ∀ x s, I x s → Halts scope stop (step x) s (Turns I Q)) {x : σ}
    (here : I x s) : Halts scope stop (loop step x) s Q := by
  suffices rounds : ∀ n x s, I x s → Halts scope stop (iterate step n x) s Q from rounds _ x s here
  intro n
  induction n with
  | zero => exact fun x s here => ends x s here
  | succ n ih =>
    intro x s here
    refine halts_bind.mpr ((round x s here).mono fun next t kept => ?_)
    cases next with
    | done y => exact kept
    | yield y => exact ih y t kept

end Parser

namespace Style

variable {scope : Scope} {stop rules : Nat} {s : ParserState}

/-- The reader starts and ends within the same rules. -/
def HaltsInside (scope : Scope) (stop rules : Nat) (p : Parser α) : Prop :=
  ∀ s, Inside scope.stream stop rules s.cursor →
    Halts scope stop p s fun _ t => Inside scope.stream stop rules t.cursor

variable (nests : scope.stream.Nests stop)

include nests

theorem Inside.next (h : Inside scope.stream stop rules s.cursor)
    (other : (scope.stream.get s.cursor).kind ≠ .symbol .closeBrace) :
    Inside scope.stream stop rules (s.next scope).cursor := by
  rw [ParserState.next_of_kind rfl (h.kind_ne nests)]
  exact h.pass nests other

theorem halts_itemToken {depth : Nat} (h : InItem scope.stream stop rules depth s.cursor) :
    Halts scope stop (itemToken depth) s
      (Turns (fun depth t => InItem scope.stream stop rules depth t.cursor)
        fun _ t => Inside scope.stream stop rules t.cursor) := by
  simp only [itemToken, halts_bind, halts_current, halts_ite, halts_pure, halts_advance]
  refine ⟨fun _ => h.inside, fun more => ?_⟩
  simp only [Bool.or_eq_true, not_or, Bool.not_eq_true] at more
  rw [ParserState.next_of_kind rfl (h.inside.kind_ne nests)]
  exact h.pass nests more.2

theorem halts_itemTokens : HaltsInside scope stop rules itemTokens := by
  intro s here
  simp only [itemTokens, tokensBetween, halts_bind, halts_cursor, halts_scope, halts_pure]
  exact halts_loop (I := fun depth t => InItem scope.stream stop rules depth t.cursor)
    (Q := fun _ t => Inside scope.stream stop rules t.cursor) (fun _ _ h => h.inside) (fun _ _ h => halts_itemToken nests h) here.inItem

theorem halts_propertyTokens : HaltsInside scope stop rules propertyTokens := by
  intro s here
  simp only [propertyTokens, tokensBetween, halts_bind, halts_cursor, halts_scope, halts_pure]
  refine halts_loop (I := fun _ t => Inside scope.stream stop rules t.cursor)
    (Q := fun _ t => Inside scope.stream stop rules t.cursor) (fun _ _ h => h) (fun _ t h => ?_) here
  simp only [propertyToken, halts_bind, halts_current, halts_ite, halts_pure, halts_advance]
  refine ⟨fun _ => h, fun more => h.next nests fun close => more ?_⟩
  rw [close]
  rfl

theorem Inside.eat (h : Inside scope.stream stop rules s.cursor) {sign : Symbol}
    (other : sign ≠ .closeBrace) {Q : Bool → ParserState → Prop}
    (rest : ∀ eaten t, Inside scope.stream stop rules t.cursor → Q eaten t) :
    Halts scope stop (eatSymbol sign) s Q :=
  halts_eat.mpr ⟨fun kind => rest _ _ (h.next nests (by simpa [kind] using other)),
    fun _ => rest _ _ h⟩

theorem halts_declaration : HaltsInside scope stop rules declaration := by
  intro s here
  simp only [declaration, halts_bind, halts_current]
  refine (halts_propertyTokens nests s here).mono fun property t here => ?_
  simp only [isSymbol, halts_ite, halts_fail, halts_bind, halts_is, halts_current, halts_advance]
  refine ⟨fun _ => here.le, fun _ => ⟨fun _ => here.le, fun colon => ?_⟩⟩
  have colon : (scope.stream.get t.cursor).kind = .symbol .colon := by simpa using colon
  refine (halts_itemTokens nests _ (here.next nests (by simp [colon]))).mono fun value t here => ?_
  exact ⟨fun _ => here.le, fun _ => halts_previous.mpr
    (here.eat nests (by simp) fun _ _ here => here)⟩

/-- The readers of rules start and end within the same rules, whichever these are. -/
structure Nested.Halts (scope : Scope) (stop : Nat) (nested : Nested) : Prop where
  rule : ∀ rules, HaltsInside scope stop rules nested.rule
  atRule : ∀ rules, HaltsInside scope stop rules nested.atRule

variable {nested : Nested}

theorem halts_bodyItem (h : nested.Halts scope stop) (body : Body)
    (here : Inside scope.stream stop rules s.cursor) :
    Parser.Halts scope stop (bodyItem nested body) s
      (Turns (fun _ t => Inside scope.stream stop rules t.cursor)
        fun _ t => Inside scope.stream stop rules t.cursor) := by
  simp only [bodyItem, halts_bind, halts_current]
  split
  · exact here
  · exact here
  · next semicolon => exact here.next nests (by simp [semicolon])
  · exact halts_bind.mpr ((h.atRule rules s here).mono fun _ _ here => here)
  · simp only [blockFollows, halts_bind, halts_cursor, halts_scope, halts_pure, halts_ite]
    exact ⟨fun _ => (h.rule rules s here).mono fun _ _ here => here,
      fun _ => (halts_declaration nests s here).mono fun _ _ here => here⟩

theorem halts_bodyParser (h : nested.Halts scope stop)
    (here : Inside scope.stream stop (rules + 1) s.cursor) :
    Parser.Halts scope stop (bodyParser nested) s fun _ t =>
      Inside scope.stream stop rules t.cursor := by
  refine halts_bind.mpr ((halts_loop
    (I := fun _ t => Inside scope.stream stop (rules + 1) t.cursor)
    (Q := fun _ t => Inside scope.stream stop (rules + 1) t.cursor)
    (fun _ _ h => h) (fun body t here => halts_bodyItem nests h body here) here).mono
    fun _ t here => ?_)
  simp only [expectSymbol, halts_bind, halts_expect, halts_pure]
  refine ⟨fun close => ?_, fun _ => here.le⟩
  rw [ParserState.next_of_kind close (by simp)]
  exact here.close nests close

theorem Inside.body (here : Inside scope.stream stop rules s.cursor)
    (opening : (scope.stream.get s.cursor).kind = .symbol .openBrace) :
    Inside scope.stream stop (rules + 1) (s.next scope).cursor := by
  rw [ParserState.next_of_kind opening (by simp)]
  exact here.open nests opening

theorem halts_ruleAt (h : nested.Halts scope stop) (rules : Nat) :
    HaltsInside scope stop rules (ruleAt nested) := by
  intro s here
  simp only [ruleAt, halts_bind, halts_current]
  refine (halts_itemTokens nests s here).mono fun selector t here => ?_
  simp only [expectSymbol, halts_ite, halts_fail, halts_bind, halts_expect, halts_pure]
  exact ⟨fun _ => here.le, fun _ => ⟨fun opening =>
    halts_bodyParser nests h (here.body nests opening), fun _ => here.le⟩⟩

theorem halts_atRuleAt (h : nested.Halts scope stop) (rules : Nat) :
    HaltsInside scope stop rules (atRuleAt nested) := by
  intro s here
  simp only [atRuleAt, atName, expectSymbol, halts_bind, halts_expect, halts_current, halts_ite,
    halts_fail, halts_advance, halts_pure]
  refine ⟨fun sign => ?_, fun _ => here.le⟩
  have here := here.next nests (by simp [sign])
  refine ⟨fun _ => here.le, fun named => ⟨fun _ => here.le, fun _ => ?_⟩⟩
  have name : (scope.stream.get (s.next scope).cursor).kind = .identifier := by
    by_contra other
    exact named (by simp [other])
  refine (halts_itemTokens nests _ (here.next nests (by simp [name]))).mono fun prelude t here => ?_
  refine halts_eat.mpr ⟨fun opening => ⟨fun _ => ?_, fun none => absurd rfl none⟩,
    fun _ => ⟨fun none => absurd none Bool.false_ne_true, fun _ => halts_previous.mpr ?_⟩⟩
  · exact halts_bodyParser nests h (here.body nests opening)
  · exact here.eat nests (by simp) fun _ _ here => here

theorem halts_within (levels : Nat) :
    Nested.Halts scope stop ⟨ruleWithin levels, atRuleWithin levels⟩ := by
  induction levels with
  | zero => exact ⟨fun _ _ here => here.le, fun _ _ here => here.le⟩
  | succ levels ih =>
    exact ⟨fun rules _ here => Halts.deeper (halts_ruleAt nests ih rules) here,
      fun rules _ here => Halts.deeper (halts_atRuleAt nests ih rules) here⟩

theorem halts_rulesParser (here : Inside scope.stream stop 0 s.cursor) :
    Parser.Halts scope stop (rulesParser stop) s fun _ t => t.cursor ≤ stop := by
  refine halts_bind.mpr ((halts_loop (I := fun _ t => Inside scope.stream stop 0 t.cursor)
    (Q := fun _ t => Inside scope.stream stop 0 t.cursor) (fun _ _ h => h)
    (fun rules t here => ?_) here).mono fun _ _ here => here.le)
  simp only [rulesItem, halts_bind, halts_cursor, halts_ite, halts_pure, halts_current]
  refine ⟨fun _ => here, fun _ => ?_⟩
  split
  · next semicolon => exact here.next nests (by simp [semicolon])
  · exact halts_bind.mpr (((halts_within nests _).atRule 0 t here).mono fun _ _ here => here)
  · simp only [blockFollows, halts_bind, halts_cursor, halts_scope, halts_pure, halts_ite,
      halts_current, halts_fail]
    exact ⟨fun _ => ((halts_within nests _).rule 0 t here).mono fun _ _ here => here,
      fun _ => here.le⟩

end Style

end PulseSyntax
