import PulseSyntax.Proofs.Parser.Echo
import PulseSyntax.Proofs.Program.Unplaced
import PulseSyntax.Proofs.Style.Course

namespace PulseSyntax

open PulseSyntax.Parser Scope.Track

namespace Style

/-- Of each two tokens in a row, whether they touch and whether a line break is between them. -/
def gaps : List Token → List (Bool × Bool)
  | t :: u :: rest => (t.span.stop == u.span.start, decide (t.line < u.line)) :: gaps (u :: rest)
  | _ => []

/-- All that the text of some tokens depends on. -/
def form (ts : List Token) : List (TokenKind × TokenValue × String) × List (Bool × Bool) :=
  (ts.map Token.content, gaps ts)

section

variable {ts us : List Token}

theorem gaps_take (n : Nat) (ts : List Token) : gaps (ts.take n) = (gaps ts).take (n - 1) := by
  induction ts generalizing n with
  | nil => simp [gaps]
  | cons t ts ih =>
    rcases n with _ | _ | n
    · rfl
    · simp [gaps]
    · cases ts with
      | nil => rfl
      | cons u rest =>
        have later := ih (n + 1)
        rw [List.take_succ_cons, Nat.add_sub_cancel] at later
        rw [List.take_succ_cons, List.take_succ_cons, gaps, gaps, later]
        rfl

theorem form_take (h : form ts = form us) (n : Nat) : form (ts.take n) = form (us.take n) := by
  obtain ⟨contents, apart⟩ := Prod.mk.inj h
  rw [form, form, gaps_take, gaps_take, apart, List.map_take, List.map_take, contents]

theorem form_cons {t u : Token} (h : form (t :: ts) = form (u :: us)) :
    t.content = u.content ∧ form ts = form us := by
  obtain ⟨contents, apart⟩ := Prod.mk.inj h
  obtain ⟨content, rest⟩ := List.cons.inj contents
  refine ⟨content, ?_⟩
  cases ts with
  | nil =>
    rw [List.map_eq_nil_iff.mp rest.symm]
  | cons t' ts =>
    obtain ⟨u', us', rfl, -, -⟩ := List.map_eq_cons_iff.mp rest.symm
    exact Prod.ext rest (List.cons.inj apart).2

theorem needsSpace_congr {t u t' u' : Token} {part : Part} (h : t.content = u.content)
    (h' : t'.content = u'.content)
    (touch : (t.span.stop == t'.span.start) = (u.span.stop == u'.span.start)) :
    needsSpace part t t' = needsSpace part u u' := by
  have unit : isUnit t' = isUnit u' := by rw [isUnit, isUnit, Token.raw_of_content h']
  have function : isFunction t = isFunction u := by
    rw [isFunction, isFunction, Token.kind_of_content h, Token.raw_of_content h]
  rw [needsSpace, needsSpace, touch, unit, function, Token.kind_of_content h,
    Token.kind_of_content h']

theorem lineAfter_congr {t u : Token} (part : Part) (h : form (t :: ts) = form (u :: us)) :
    lineAfter part t ts = lineAfter part u us := by
  induction ts generalizing t u us with
  | nil =>
    rw [List.map_eq_nil_iff.mp (Prod.mk.inj (form_cons h).2).1.symm]
    rfl
  | cons t' ts ih =>
    obtain ⟨content, rest⟩ := form_cons h
    obtain ⟨u', us', rfl, -, -⟩ := List.map_eq_cons_iff.mp (Prod.mk.inj rest).1.symm
    have next := (form_cons rest).1
    have touch := (Prod.mk.inj (List.cons.inj (Prod.mk.inj h).2).1).1
    rw [lineAfter, lineAfter, ih rest, needsSpace_congr content next touch,
      Token.raw_of_content next]

theorem line_congr (part : Part) (h : form ts = form us) : line part ts = line part us := by
  cases ts with
  | nil => rw [List.map_eq_nil_iff.mp (Prod.mk.inj h).1.symm]
  | cons t ts =>
    obtain ⟨u, us', rfl, -, -⟩ := List.map_eq_cons_iff.mp (Prod.mk.inj h).1.symm
    rw [line, line, lineAfter_congr part h, Token.raw_of_content (form_cons h).1]

theorem blockAfter_congr {t u : Token} (depth : Nat) (h : form (t :: ts) = form (u :: us)) :
    blockAfter depth t ts = blockAfter depth u us := by
  induction ts generalizing depth t u us with
  | nil =>
    rw [List.map_eq_nil_iff.mp (Prod.mk.inj (form_cons h).2).1.symm]
    rfl
  | cons t' ts ih =>
    obtain ⟨content, rest⟩ := form_cons h
    obtain ⟨u', us', rfl, -, -⟩ := List.map_eq_cons_iff.mp (Prod.mk.inj rest).1.symm
    have next := (form_cons rest).1
    obtain ⟨touch, break_⟩ := Prod.mk.inj (List.cons.inj (Prod.mk.inj h).2).1
    have lines : t.line < t'.line ↔ u.line < u'.line := by simpa using break_
    simp only [blockAfter, depthAt, depthAfter, lines, needsSpace_congr content next touch,
      Token.kind_of_content next, Token.raw_of_content next, ih _ rest]

theorem block_congr (h : form ts = form us) : block ts = block us := by
  cases ts with
  | nil => rw [List.map_eq_nil_iff.mp (Prod.mk.inj h).1.symm]
  | cons t ts =>
    obtain ⟨u, us', rfl, -, -⟩ := List.map_eq_cons_iff.mp (Prod.mk.inj h).1.symm
    have first := (form_cons h).1
    simp only [block, depthAt, depthAfter, Token.kind_of_content first, Token.raw_of_content first,
      blockAfter_congr _ h]

def endsImportant : List (TokenKind × TokenValue × String) → Bool
  | word :: bang :: _ => bang.1 == .symbol .not && lower word.2.2 == "important"
  | _ => false

theorem beforeImportant?_eq (ts : List Token) : beforeImportant? ts =
    if endsImportant (ts.reverse.map Token.content) then some (ts.take (ts.length - 2))
    else none := by
  have whole := List.reverse_reverse ts
  rw [beforeImportant?]
  rcases parts : ts.reverse with _ | ⟨word, _ | ⟨bang, rest⟩⟩
  · rfl
  · rfl
  · rw [parts] at whole
    have own : ts.take (ts.length - 2) = rest.reverse := by
      rw [← whole]
      simp
    rw [own]
    rfl

theorem beforeImportant?_congr (h : form ts = form us) :
    (beforeImportant? ts).map form = (beforeImportant? us).map form := by
  have contents := (Prod.mk.inj h).1
  have length : ts.length = us.length := by simpa using congrArg List.length contents
  rw [beforeImportant?_eq, beforeImportant?_eq, List.map_reverse, List.map_reverse, contents, length]
  split
  · exact congrArg some (form_take h _)
  · rfl

end

end Style

/-- From one index on the tokens touch and stand on one line in both runs or in none, and whatever
    starts with one of them ends with the same symbol. -/
structure Scope.Track.Laid {a b : Scope} (T : a.Track b) (first : Nat) : Prop where
  free : T.Free first
  touches : ∀ {i}, first ≤ i → i < T.limit →
    ((a.stream.get i).span.stop = (a.stream.get (i + 1)).span.start ↔
      (b.stream.get (i + T.shift)).span.stop = (b.stream.get (i + 1 + T.shift)).span.start)
  lines : ∀ {i}, first ≤ i → i < T.limit →
    ((a.stream.get i).line < (a.stream.get (i + 1)).line ↔
      (b.stream.get (i + T.shift)).line < (b.stream.get (i + 1 + T.shift)).line)
  ends : ∀ {i}, first ≤ i → i ≤ T.limit →
    Style.terminator 0 (a.stream.tokensFrom i) =
      Style.terminator 0 (b.stream.tokensFrom (i + T.shift))

namespace Style

variable {a b : Scope} {T : a.Track b} {first : Nat} (h : T.Laid first)

include h

theorem form_between {i : Nat} (start : first ≤ i) (n : Nat) (le : i + n ≤ T.limit + 1) :
    form (a.stream.between i (i + n)) =
      form (b.stream.between (i + T.shift) (i + T.shift + n)) := by
  have inside := T.inside
  have fits := T.fits
  induction n generalizing i with
  | zero => rw [Nat.add_zero, Nat.add_zero, TokenStream.between_self, TokenStream.between_self]
  | succ n ih =>
    have later := ih (i := i + 1) (by omega) (by omega)
    have content := h.free.content (i := i) start (by omega)
    have parts {stream : TokenStream} {i : Nat} (n : Nat) (lt : i < stream.size) :
        stream.between i (i + (n + 1)) = stream.get i :: stream.between (i + 1) (i + 1 + n) := by
      rw [stream.between_append (Nat.le_succ i) (by omega), TokenStream.between_succ lt,
        show i + (n + 1) = i + 1 + n by omega]
      rfl
    rw [parts n (by omega), parts n (by omega)]
    rw [Nat.add_right_comm i 1 T.shift] at later
    cases n with
    | zero =>
      rw [Nat.add_zero, Nat.add_zero, TokenStream.between_self, TokenStream.between_self]
      exact Prod.ext (congrArg (fun c => [c]) content) rfl
    | succ n =>
      have touch := h.touches (i := i) start (by omega)
      have line := h.lines (i := i) start (by omega)
      rw [Nat.add_right_comm i 1 T.shift] at touch line
      rw [parts n (by omega), parts n (by omega)] at later ⊢
      obtain ⟨contents, apart⟩ := Prod.mk.inj later
      refine Prod.ext (List.cons_eq_cons.mpr ⟨content, contents⟩) ?_
      simp only [form, gaps, apart, line, beq_eq_beq.mpr touch]

theorem echo_tokensBetween {i j : Nat} (start : first ≤ i) (le : j ≤ T.limit + 1) :
    T.Echo first form (tokensBetween i j) (tokensBetween (i + T.shift) (j + T.shift)) where
  reads := readsOn_tokensBetween i j
  replied s _ _ := by
    refine .ok ?_
    rcases Nat.le_total i j with order | order
    · obtain ⟨n, rfl⟩ := Nat.exists_eq_add_of_le order
      rw [Nat.add_right_comm]
      exact form_between h start n le
    · have none {stream : TokenStream} {i j : Nat} (order : j ≤ i) : stream.between i j = [] := by
        simp [TokenStream.between, order]
      rw [none order, none (Nat.add_le_add_right order _)]

theorem echo_itemToken {x y : Nat} (same : x = y) :
    T.Echo first (round id) (itemToken x) (itemToken y) := by
  subst same
  refine echo_current h.free fun t u content => ?_
  dsimp only
  rw [← Token.kind_of_content content]
  refine .ite (echo_pure rfl) ((echo_advance h.free).bind fun _ _ _ => echo_pure rfl)

theorem echo_itemTokens : T.Echo first form itemTokens itemTokens := by
  refine echo_cursor readsOn_itemTokens fun i start _ => ?_
  have items : T.Echo first id (loop itemToken 0) (loop itemToken 0) :=
    .loop (fun _ => turning_itemToken) (fun _ _ => echo_itemToken h) rfl
  refine items.bind fun _ _ _ => echo_cursor ?_ fun j _ le => ?_
  · exact readsOn_cursor.bind fun _ => readsOn_tokensBetween _ _
  · exact echo_tokensBetween h start (Nat.le_succ_of_le le)

theorem echo_propertyToken (x y : Unit) :
    T.Echo first (round id) (propertyToken x) (propertyToken y) := by
  refine echo_current h.free fun t u content => ?_
  rw [← Token.kind_of_content content]
  refine .ite (echo_pure rfl) ((echo_advance h.free).bind fun _ _ _ => echo_pure rfl)

theorem echo_propertyTokens : T.Echo first form propertyTokens propertyTokens := by
  refine echo_cursor readsOn_propertyTokens fun i start _ => ?_
  have items : T.Echo first id (loop propertyToken ()) (loop propertyToken ()) :=
    .loop (fun _ => turning_propertyToken) (fun x y _ => echo_propertyToken h x y) rfl
  refine items.bind fun _ _ _ => echo_cursor ?_ fun j _ le => ?_
  · exact readsOn_cursor.bind fun _ => readsOn_tokensBetween _ _
  · exact echo_tokensBetween h start (Nat.le_succ_of_le le)

omit h in
theorem alike_styleColon {property property' : String} {t u : Token} (same : property = property')
    (content : t.content = u.content) :
    (Cause.styleColon property t).Alike (.styleColon property' u) := by
  subst same
  exact ⟨congrArg ("Expected ':' after property '" ++ property ++ "', found " ++ ·)
    (describe_congr content), rfl⟩

theorem echo_declaration :
    T.Echo first StyleDeclaration.unplaced declaration declaration := by
  refine echo_current h.free fun t u _ => (echo_propertyTokens h).bind fun ts us name => ?_
  dsimp only
  rw [← line_congr .value name]
  refine .ite (echo_fail (.refl _)) ((echo_is h.free _).bind fun colon _ same => ?_)
  obtain rfl : colon = _ := same
  refine .ite (echo_current h.free fun t u content => echo_fail (alike_styleColon rfl content)) ?_
  refine (echo_advance h.free).bind fun _ _ _ => (echo_itemTokens h).bind fun xs ys value => ?_
  have plain := beforeImportant?_congr value
  have text : line .value ((beforeImportant? xs).getD xs) =
      line .value ((beforeImportant? ys).getD ys) := by
    refine line_congr .value ?_
    have shown := congrArg (Option.getD · (form xs)) plain
    rwa [Option.getD_map, value, Option.getD_map] at shown
  have marked : (beforeImportant? xs).isSome = (beforeImportant? ys).isSome := by
    simpa using congrArg Option.isSome plain
  rw [text, marked]
  refine .ite (echo_fail (.refl _)) (echo_previous.bind fun _ _ _ => ?_)
  exact (echo_eat h.free _).bind fun _ _ _ => echo_pure rfl

structure Nested.Echo (T : a.Track b) (first : Nat) (nested : Nested) : Prop where
  rule : T.Echo first StyleNode.unplaced nested.rule nested.rule
  atRule : T.Echo first StyleNode.unplaced nested.atRule nested.atRule

variable {nested : Nested}

/-- What two runs have in common of what has been read of a body. -/
def Body.unplaced (body : Body) : List StyleDeclaration × List StyleNode :=
  (items StyleDeclaration.unplaced body.declarations, items StyleNode.unplaced body.rules)

theorem echo_blockFollows : T.Echo first id blockFollows blockFollows where
  reads := readsOn_blockFollows
  replied s start within := by
    rw [blockFollows_apply, blockFollows_apply]
    exact .ok (congrArg (· == _) (h.ends start within))

theorem echo_bodyItem (inner : nested.Echo T first) {body body' : Body}
    (same : body.unplaced = body'.unplaced) :
    T.Echo first (round Body.unplaced) (bodyItem nested body) (bodyItem nested body') := by
  obtain ⟨declarations, rules⟩ := Prod.mk.inj same
  refine echo_current h.free fun t u content => ?_
  rw [← Token.kind_of_content content]
  split
  · exact echo_pure (congrArg ForInStep.done same)
  · exact echo_pure (congrArg ForInStep.done same)
  · exact (echo_advance h.free).bind fun _ _ _ => echo_pure (congrArg ForInStep.yield same)
  · exact inner.atRule.bind fun _ _ alike => echo_pure (congrArg ForInStep.yield
      (by simp [Body.unplaced, declarations, rules, alike]))
  · refine (echo_blockFollows h).bind fun block _ same => ?_
    obtain rfl : block = _ := same
    refine .ite (inner.rule.bind fun _ _ alike => ?_) ((echo_declaration h).bind fun _ _ alike => ?_)
    · exact echo_pure (congrArg ForInStep.yield
        (by simp [Body.unplaced, declarations, rules, alike]))
    · exact echo_pure (congrArg ForInStep.yield
        (by simp [Body.unplaced, declarations, rules, alike]))

theorem echo_bodyParser (inner : nested.Echo T first)
    (moving : ∀ depth, nested.Moving (a.course depth)) :
    T.Echo first (fun x : Body × Span => x.1.unplaced) (bodyParser nested) (bodyParser nested) := by
  have body : T.Echo first Body.unplaced (loop (bodyItem nested) ⟨#[], #[]⟩)
      (loop (bodyItem nested) ⟨#[], #[]⟩) :=
    .loop (fun depth => turning_bodyItem (moving depth)) (fun _ _ => echo_bodyItem h inner) rfl
  exact body.bind fun _ _ same => (echo_expect h.free _).bind fun _ _ _ => echo_pure same

theorem echo_ruleAt (inner : nested.Echo T first)
    (moving : ∀ depth, nested.Moving (a.course depth)) :
    T.Echo first StyleNode.unplaced (ruleAt nested) (ruleAt nested) := by
  refine echo_current h.free fun _ _ _ => (echo_itemTokens h).bind fun _ _ selector => ?_
  dsimp only
  rw [line_congr .selector selector]
  refine .ite (echo_fail (.refl _)) ((echo_expect h.free _).bind fun _ _ _ => ?_)
  refine (echo_bodyParser h inner moving).bind fun x y same => echo_pure ?_
  obtain ⟨declarations, rules⟩ := Prod.mk.inj same
  dsimp only [items] at declarations rules
  simp [StyleNode.unplaced, StyleNode.unplacedAll_eq, declarations, rules]

def nameAt (apart : Bool) (t : Token) : Parser String := do
  let name := lower t.raw
  if t.kind != .identifier || apart then fail .styleAtName
  else if !isAtRule name then fail (.styleAtRule t.raw)
  else
    let _ ← advance
    return name

omit h in
theorem atName_apply {scope : Scope} {s : ParserState} (t : Token) : atName t scope s =
    nameAt ((scope.stream.get s.cursor).span.start != t.span.stop) (scope.stream.get s.cursor)
      scope s := rfl

theorem echo_nameAt (apart : Bool) {t u : Token} (content : t.content = u.content) :
    T.Echo first id (nameAt apart t) (nameAt apart u) := by
  rw [nameAt, nameAt, Token.kind_of_content content, Token.raw_of_content content]
  refine .ite (echo_fail (.refl _)) (.ite (echo_fail (.refl _)) ?_)
  exact (echo_advance h.free).bind fun _ _ _ => echo_pure rfl

theorem echo_atHead {α ε : Type} {e : α → ε} {f g : Token → String → Parser α}
    (hf : ∀ t u name, T.Echo first e (f t name) (g u name)) :
    T.Echo first e (expectSymbol .atSign >>= fun t => atName t >>= f t)
      (expectSymbol .atSign >>= fun t => atName t >>= g t) := by
  have reads : ReadsOn (expectSymbol .atSign >>= fun t => atName t >>= f t) :=
    (readsOn_expect _).bind fun t => (readsOn_atName t).bind fun name => (hf t t name).reads
  refine ⟨reads, fun s start within => ?_⟩
  have le := Nat.le_trans (reads a s).cursor within
  have sign : (expectSymbol .atSign a s).state.cursor ≤ T.limit → T.Replied Token.content
      (expectSymbol .atSign a s) (expectSymbol .atSign b (T.moved s)) :=
    (echo_expect h.free (.symbol .atSign)).replied s start
  cases read : expectSymbol .atSign a s with
  | error e t =>
    rw [read] at sign
    rw [bind_apply, read] at within ⊢
    have replied := sign within
    rw [bind_apply]
    generalize expectSymbol .atSign b (T.moved s) = second at replied
    cases replied with
    | error alike => exact .error alike
  | ok t v =>
    obtain ⟨kind, rfl, rfl⟩ := (expect_eq_ok (by simp)).mp read
    have other : expectSymbol .atSign b (T.moved s) = _ :=
      (expect_moved (I := fun _ => True) (by simp) (sees_symbol _) read trivial le).1
    rw [bind_of_ok read] at within ⊢
    rw [bind_of_ok other]
    refine replied_bind (readsOn_atName _) (fun within => ?_)
      (fun name _ (same : name = _) => same ▸ hf _ _ name) (Nat.le_succ_of_le start) within
    have lt : s.cursor < T.limit := Nat.le_trans (readsOn_atName _ a (s.ahead 1)).cursor within
    have content := h.free.content (i := s.cursor + 1) (Nat.le_succ_of_le start) lt
    have touch : ((a.stream.get (s.cursor + 1)).span.start != (a.stream.get s.cursor).span.stop) =
        ((b.stream.get (s.cursor + 1 + T.shift)).span.start !=
          (b.stream.get (s.cursor + T.shift)).span.stop) := by
      rw [bne, bne, Bool.beq_comm, beq_eq_beq.mpr (h.touches start lt), Bool.beq_comm]
    rw [atName_apply, atName_apply, moved_cursor, ParserState.ahead_cursor, ← touch]
    exact (echo_nameAt h _ content).replied _ (Nat.le_succ_of_le start) within

theorem echo_atRuleAt (inner : nested.Echo T first)
    (moving : ∀ depth, nested.Moving (a.course depth)) :
    T.Echo first StyleNode.unplaced (atRuleAt nested) (atRuleAt nested) := by
  refine echo_atHead h fun t u name => (echo_itemTokens h).bind fun _ _ prelude => ?_
  dsimp only
  rw [line_congr .value prelude]
  refine (echo_eat h.free _).bind fun block _ same => ?_
  obtain rfl : block = _ := same
  refine .ite ?_ (echo_previous.bind fun _ _ _ => (echo_eat h.free _).bind fun _ _ _ => ?_)
  · refine (echo_bodyParser h inner moving).bind fun x y same => echo_pure ?_
    obtain ⟨declarations, rules⟩ := Prod.mk.inj same
    dsimp only [items] at declarations rules
    simp [StyleNode.unplaced, StyleNode.unplacedAll_eq, declarations, rules]
  · exact echo_pure rfl

theorem echo_within (levels : Nat) :
    Nested.Echo T first ⟨ruleWithin levels, atRuleWithin levels⟩ := by
  induction levels with
  | zero => exact ⟨echo_failTooDeep, echo_failTooDeep⟩
  | succ levels ih =>
    have moving (depth : Nat) : Nested.Moving (a.course depth)
        ⟨ruleWithin levels, atRuleWithin levels⟩ := moving_within levels False.elim
    exact ⟨(echo_ruleAt h ih moving).deeper, (echo_atRuleAt h ih moving).deeper⟩

theorem echo_rulesItem (stop : Nat) {rules rules' : Array StyleNode}
    (same : items StyleNode.unplaced rules = items StyleNode.unplaced rules') :
    T.Echo first (round (items StyleNode.unplaced)) (rulesItem stop rules)
      (rulesItem (stop + T.shift) rules') := by
  have pushed {x y : StyleNode} (alike : x.unplaced = y.unplaced) :
      items StyleNode.unplaced (rules.push x) = items StyleNode.unplaced (rules'.push y) := by
    simp [same, alike]
  refine echo_cursor (readsOn_rulesItem stop rules) fun i _ _ => ?_
  simp only [Nat.add_le_add_iff_right]
  refine .ite (echo_pure (congrArg ForInStep.done same)) (echo_current h.free fun t u content => ?_)
  rw [← Token.kind_of_content content]
  split
  · exact (echo_advance h.free).bind fun _ _ _ => echo_pure (congrArg ForInStep.yield same)
  · exact (Echo.withLevels fun levels => (echo_within h levels).atRule).bind fun _ _ alike =>
      echo_pure (congrArg ForInStep.yield (pushed alike))
  · refine (echo_blockFollows h).bind fun block _ same => ?_
    obtain rfl : block = _ := same
    refine .ite ?_ (echo_current h.free fun t u content => echo_fail ?_)
    · exact (Echo.withLevels fun levels => (echo_within h levels).rule).bind fun _ _ alike =>
        echo_pure (congrArg ForInStep.yield (pushed alike))
    · exact ⟨congrArg ("Declarations must be inside a rule, found " ++ ·)
        (describe_congr content), rfl⟩

theorem echo_rulesParser (stop : Nat) :
    T.Echo first (List.map StyleNode.unplaced) (rulesParser stop) (rulesParser (stop + T.shift)) := by
  have rules : T.Echo first (items StyleNode.unplaced) (loop (rulesItem stop) #[])
      (loop (rulesItem (stop + T.shift)) #[]) :=
    .loop (fun _ => turning_rulesItem stop) (fun _ _ => echo_rulesItem h stop) rfl
  exact rules.bind fun _ _ same => echo_pure same

end Style

end PulseSyntax
