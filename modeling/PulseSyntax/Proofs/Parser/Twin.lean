import PulseSyntax.Proofs.Parser.Track

namespace PulseSyntax

open PulseSyntax.Parser

namespace Scope.Track

variable {a b : Scope} {T : a.Track b} {α β ε ζ σ τ : Type}
variable {I J : Nat → Prop} {e : α → ε}

def round (e : σ → ε) : ForInStep σ → ForInStep ε
  | .done x => .done (e x)
  | .yield x => .yield (e x)

/-- What both runs show of the items that have been read. -/
def items (e : α → ε) (xs : Array α) : List ε := xs.toList.map e

@[simp] theorem items_push (e : α → ε) (xs : Array α) (x : α) :
    items e (xs.push x) = items e xs ++ [e x] := by
  simp [items]

section

variable {d : σ → ε} {step step' : σ → Parser (ForInStep σ)}

theorem twin_done {x y : σ} (same : d x = d y) :
    T.Twin I I (round d) (pure (.done x)) (pure (.done y)) :=
  twin_pure (congrArg ForInStep.done same)

theorem twin_yield {x y : σ} (same : d x = d y) :
    T.Twin I I (round d) (pure (.yield x)) (pure (.yield y)) :=
  twin_pure (congrArg ForInStep.yield same)

/-- What both runs have before or after a round that leads to an index. -/
inductive Rounded (R : Nat → σ → σ → Prop) (i : Nat) : ForInStep σ → ForInStep σ → Prop
  | done {x y : σ} (h : R i x y) : Rounded R i (.done x) (.done y)
  | yield {x y : σ} (h : R i x y) : Rounded R i (.yield x) (.yield y)

theorem loop_moved {R : Nat → σ → σ → Prop} (turning : ∀ depth, (a.course depth).Turning step)
    (h : ∀ {x s next t}, step x a s = .ok next t → I s.cursor → t.cursor ≤ T.limit →
      ∀ y, R s.cursor x y → I t.cursor ∧
        ∃ next', step' y b (T.moved s) = .ok next' (T.moved t) ∧ Rounded R t.cursor next next')
    {x y z : σ} {s t : ParserState} (ok : loop step x a s = .ok z t) (here : I s.cursor)
    (within : t.cursor ≤ T.limit) (related : R s.cursor x y) :
    I t.cursor ∧ ∃ y', loop step' y b (T.moved s) = .ok y' (T.moved t) ∧ R t.cursor z y' := by
  have onward := (((turning s.depth).steady x s rfl).reaches ok).cursor
  suffices rounds : ∀ {x : σ} {s' : ParserState} {reply : Reply σ}, Repeats step a x s' reply →
      reply = .ok z t → s'.depth = s.depth → s'.cursor ≤ t.cursor ∧
        (I s'.cursor → ∀ y, R s'.cursor x y → ∀ n, t.cursor - s'.cursor < n → I t.cursor ∧
          ∃ y', iterate step' n y b (T.moved s') = .ok y' (T.moved t) ∧ R t.cursor z y') from
    (rounds ((turning s.depth).repeats rfl
      (Nat.lt_of_le_of_lt (Nat.le_trans onward within) T.inside)) ok rfl).2 here y related
        (b.stream.size - (s.cursor + T.shift) + 1) (by have := T.fits; omega)
  intro x s' reply repeats ok at_depth
  induction repeats with
  | @done x w s' u inside read =>
    cases ok
    refine ⟨((turning s.depth x s' at_depth).reaches read).cursor,
      fun here y related n enough => ?_⟩
    obtain ⟨there, next, second, alike⟩ := h read here within y related
    obtain ⟨n, rfl⟩ := Nat.exists_eq_succ_of_ne_zero (Nat.ne_of_gt (Nat.zero_lt_of_lt enough))
    cases alike with
    | done last => exact ⟨there, _, by rw [iterate, bind_of_ok second]; rfl, last⟩
  | failed => cases ok
  | @yield x w s' u reply inside read rest ih =>
    have proceeds := turning s.depth x s' at_depth
    have progress := proceeds.progress read ⟨w, rfl⟩
    have later := ih ok ((proceeds.reaches read).depth.trans at_depth)
    refine ⟨Nat.le_trans (Nat.le_of_lt progress) later.1, fun here y related n enough => ?_⟩
    obtain ⟨there, next, second, alike⟩ := h read here (Nat.le_trans later.1 within) y related
    obtain ⟨n, rfl⟩ := Nat.exists_eq_succ_of_ne_zero (Nat.ne_of_gt (Nat.zero_lt_of_lt enough))
    cases alike with
    | yield last =>
      obtain ⟨final, y', third, same⟩ := later.2 there _ last n (by omega)
      exact ⟨final, y', by rw [iterate, bind_of_ok second]; exact third, same⟩

theorem Twin.loop (turning : ∀ depth, (a.course depth).Turning step)
    (h : ∀ x y, d x = d y → T.Twin I I (round d) (step x) (step' y)) {x y : σ}
    (same : d x = d y) : T.Twin I I d (loop step x) (loop step' y) := by
  intro s z t ok
  refine ⟨(((turning s.depth).steady x s rfl).reaches ok).cursor, fun here within => ?_⟩
  refine loop_moved (R := fun _ x y => d x = d y) turning ?_ ok here within same
  intro x s next t read here within y same
  obtain ⟨there, next', second, alike⟩ := (h x y same read).2 here within
  refine ⟨there, next', second, ?_⟩
  cases next with
  | done =>
    cases next' with
    | done => exact .done (ForInStep.done.inj alike)
    | yield => cases alike
  | yield =>
    cases next' with
    | done => cases alike
    | yield => exact .yield (ForInStep.yield.inj alike)

end

section

variable {step step' : α → Parser (Option α)}

theorem Twin.chain (extending : ∀ depth, (a.course depth).Extending step)
    (h : ∀ x y, e x = e y → T.Twin I I (Option.map e) (step x) (step' y)) {x y : α}
    (same : e x = e y) : T.Twin I I e (chain step x) (chain step' y) := by
  refine .loop (fun depth => (extending depth).turning) (fun x y same => ?_) same
  refine (h x y same).bind fun next next' alike => ?_
  cases next with
  | none =>
    cases next' with
    | none => exact twin_done same
    | some => cases alike
  | some x' =>
    cases next' with
    | none => cases alike
    | some y' => exact twin_yield (Option.some.inj alike)

end

section

variable {item item' : Array α → Parser α} {close : Symbol}

theorem Twin.manyAfter (moving : ∀ depth before, (a.course depth).Moving (item before))
    (h : ∀ xs ys, items e xs = items e ys → T.Twin I I e (item xs) (item' ys)) :
    T.Twin I I (List.map e) (manyAfter close item) (manyAfter close item') := by
  rw [manyAfter_eq, manyAfter_eq]
  refine (Twin.loop (d := items e) (fun depth => Course.turning_manyRound (moving depth))
    (fun xs ys same => ?_) rfl).bind fun xs ys same => twin_pure same
  refine twin_near fun t u near => ?_
  dsimp only
  rw [near.beq_kind rfl, near.beq_kind rfl]
  refine .ite (fun _ => (twin_done same).atKind) fun _ => ?_
  refine ((h xs ys same).bind fun x y alike => twin_yield ?_).atKind
  simp [same, alike]

theorem Twin.many {item item' : Parser α} (moving : ∀ depth, (a.course depth).Moving item)
    (h : T.Twin I I e item item') :
    T.Twin I I (List.map e) (many close item) (many close item') :=
  .manyAfter (fun depth _ => moving depth) fun _ _ _ => h

variable {parens : Nat}

theorem Twin.commaSeparatedAfter
    (steady : ∀ depth before, (a.course depth).Steady (item before))
    (h : ∀ xs ys, items e xs = items e ys →
      T.Twin (T.Open parens) (T.Open parens) e (item xs) (item' ys)) :
    T.Twin (T.Open parens) (T.Open parens) (List.map e) (commaSeparatedAfter close item)
      (commaSeparatedAfter close item') := by
  refine (Twin.loop (d := items e) (fun depth => Course.turning_commaRound (steady depth))
    (fun xs ys same => ?_) rfl).bind fun xs ys same => twin_pure same
  refine twin_isSymbol ?_ ?_
  · exact (twin_done same).atKind
  · refine (h xs ys same).bind fun x y alike => ?_
    have more : items e (xs.push x) = items e (ys.push y) := by simp [same, alike]
    exact twin_eatSymbol (twin_yield more) (twin_done more)

theorem Twin.commaSeparated {item item' : Parser α}
    (steady : ∀ depth, (a.course depth).Steady item)
    (h : T.Twin (T.Open parens) (T.Open parens) e item item') :
    T.Twin (T.Open parens) (T.Open parens) (List.map e) (commaSeparated close item)
      (commaSeparated close item') :=
  .commaSeparatedAfter (fun depth _ => steady depth) fun _ _ _ => h

theorem twin_passName {kind : TokenKind} (name : kind.isName) :
    T.Twin (a.At (T.Open (parens + 1)) kind) (T.Open (parens + 1)) Token.content advance advance := by
  refine twin_pass (Course.isName_ne name) ?_
  cases kind with
  | symbol sign => simp [TokenKind.isName, TokenKind.isContextualKeyword] at name
  | _ => rfl

theorem twin_isName {J : Nat → Prop} {f g : Bool → Parser α}
    (yes : ∀ kind : TokenKind, kind.isName →
      T.Twin (a.At (T.Open (parens + 1)) kind) J e (f true) (g true))
    (no : T.Twin (T.Open (parens + 1)) J e (f false) (g false)) :
    T.Twin (T.Open (parens + 1)) J e (isName >>= f) (isName >>= g) := by
  have regroup (f : Bool → Parser α) : isName >>= f = current >>= fun t => f t.kind.isName := rfl
  rw [regroup, regroup]
  refine twin_current exact_open fun t u content => ?_
  rw [← Token.kind_of_content content]
  cases name : t.kind.isName with
  | true => exact yes _ name
  | false => exact no.atKind

theorem twin_expectName :
    T.Twin (T.Open (parens + 1)) (T.Open (parens + 1)) Token.content expectName expectName :=
  twin_isName (fun _ name => twin_passName name) (twin_expect (by simp) exact_open.sees)

theorem twin_expectStringOr {kind : TokenKind} (real : kind ≠ .endOfFile)
    (plain : kind.parensAfter (parens + 1) = parens + 1) :
    T.Twin (T.Open (parens + 1)) (T.Open (parens + 1)) Token.content (expectStringOr kind)
      (expectStringOr kind) := by
  have wanted : T.Twin (T.Open (parens + 1)) _ Token.content (expect kind) (expect kind) :=
    twin_expect real exact_open.sees
  rw [plain] at wanted
  exact twin_is (sees_of_plain rfl) (twin_advance (by simp) (exact_at rfl)) wanted

theorem twin_skipSeparators :
    T.Twin (T.Open parens) (T.Open parens) id skipSeparators skipSeparators := by
  rw [skipSeparators_eq]
  refine .loop (fun _ => Course.turning_separatorRound) (fun _ _ _ => ?_) rfl
  refine twin_near fun t u near => ?_
  dsimp only
  rw [near.beq_kind rfl, near.beq_kind rfl]
  refine .ite (fun separator => ?_) fun _ => (twin_pure rfl).atKind
  rw [Bool.or_eq_true, beq_iff_eq, beq_iff_eq] at separator
  rcases separator with kind | kind
  · rw [near.kind_eq_iff rfl |>.mpr kind]
    exact (twin_advance_text (by simp)).bind fun _ _ _ => twin_pure rfl
  · rw [near.kind_eq_iff rfl |>.mpr kind]
    exact (twin_advance_text (by simp)).bind fun _ _ _ => twin_pure rfl

theorem Twin.entry {item item' : Parser α} (h : T.Twin I (T.Open parens) e item item') :
    T.Twin I (T.Open parens) e (entry item) (entry item') :=
  h.bind fun _ _ same => twin_skipSeparators.bind fun _ _ _ => twin_pure same

theorem Twin.foldEntries {d : σ → ε} {add add' : σ → Parser σ}
    (moving : ∀ depth x, (a.course depth).Moving (add x))
    (h : ∀ x y, d x = d y → T.Twin (T.Open parens) (T.Open parens) d (add x) (add' y)) {x y : σ}
    (same : d x = d y) :
    T.Twin (T.Open parens) (T.Open parens) d (foldEntries add x) (foldEntries add' y) := by
  rw [foldEntries_eq, foldEntries_eq]
  refine .loop (fun depth => Course.turning_entryRound (moving depth)) (fun x y same => ?_) same
  refine twin_near fun t u near => ?_
  dsimp only
  rw [near.beq_kind rfl, near.beq_kind rfl]
  refine .ite (fun _ => (twin_done same).atKind) fun _ => ?_
  exact ((h x y same).entry.bind fun x y alike => twin_yield alike).atKind

theorem Twin.closing_braced {item item' : Parser α}
    (moving : ∀ depth, (a.course depth).Moving item)
    (h : T.Twin (T.Open parens) (T.Open parens) e item item') :
    T.Closing (T.Open parens) (fun x : List α × Span => x.1.map e) (braced item) (braced item') :=
  (twin_expectSymbol .openBrace).close fun _ _ _ => (Twin.many moving h).close fun _ _ same =>
    (closing_expectSymbol _).map fun _ _ _ => same

theorem Twin.braced {item item' : Parser α} (moving : ∀ depth, (a.course depth).Moving item)
    (h : T.Twin (T.Open parens) (T.Open parens) e item item') :
    T.Twin (T.Open parens) (T.Open parens) (fun x : List α × Span => x.1.map e) (braced item)
      (braced item') :=
  (twin_expectSymbol .openBrace).bind fun _ _ _ => (Twin.many moving h).bind fun _ _ same =>
    (twin_expectSymbol .closeBrace).bind fun _ _ _ => twin_pure same

end

section

theorem twin_rawToken {x y : Nat} (same : x = y) :
    T.Twin (fun _ => True) (fun _ => True) (round id) (rawToken x) (rawToken y) := by
  subst same
  refine twin_near fun t u near => ?_
  dsimp only
  rw [← near.beq_kind rfl, ← near.beq_kind rfl, ← near.beq_kind rfl]
  refine .ite (fun _ => ?_) fun real => .ite (fun _ => ?_) fun _ => ?_
  · exact (twin_expect_of (by simp) (sees_symbol _) fun _ _ _ _ => trivial).bind fun _ _ _ =>
      twin_pure rfl
  · exact (twin_pure rfl).from fun _ _ => trivial
  · refine Twin.bind (e := fun _ => ()) (J := fun _ => True)
      (twin_advance_of (by simpa using real) (fun _ _ _ => ⟨trivial, rfl⟩) (sees_of_plain rfl))
      fun _ _ _ => ?_
    exact .ite (fun _ => twin_pure rfl) fun _ =>
      .ite (fun _ => twin_pure rfl) fun _ => twin_pure rfl

theorem rawBlock_moved {s t : ParserState} {r : TokenRange} (ok : rawBlock a s = .ok r t)
    (within : t.cursor ≤ T.limit) :
    rawBlock b (T.moved s) = .ok ⟨r.start + T.shift, r.stop + T.shift⟩ (T.moved t) := by
  rw [rawBlock_eq] at ok ⊢
  obtain ⟨opening, u, first, ok⟩ := bind_eq_ok.mp ok
  rw [bind_of_ok cursor_apply] at ok
  obtain ⟨_, v, inner, ok⟩ := bind_eq_ok.mp ok
  rw [bind_of_ok cursor_apply] at ok
  obtain ⟨close, w, last, ok⟩ := bind_eq_ok.mp ok
  cases ok
  have loops : T.Twin (fun _ => True) (fun _ => True) id (Parser.loop rawToken 0)
      (Parser.loop rawToken 0) :=
    .loop (fun _ => Course.turning_rawToken) (fun _ _ => twin_rawToken) rfl
  have ends := Course.steady_advance (c := a.course v.depth) v rfl
  have upTo : v.cursor ≤ T.limit := Nat.le_trans (ends.reaches last).cursor within
  have start : s.cursor ≤ T.limit := by
    obtain ⟨-, -, rfl⟩ := (expect_eq_ok (by simp)).mp first
    have := (loops inner).1
    rw [ParserState.ahead_cursor] at this
    omega
  have opens : expectSymbol .openBrace b (T.moved s) = .ok _ (T.moved u) :=
    (expect_moved (I := fun _ => True) (by simp) (sees_symbol _) first trivial start).1
  rw [bind_of_ok opens, bind_of_ok cursor_apply]
  obtain ⟨-, _, second, -⟩ := (loops inner).2 trivial upTo
  rw [bind_of_ok second, bind_of_ok cursor_apply]
  have passes : advance b (T.moved v) = .ok (b.stream.get (T.moved v).cursor) (T.moved t) := by
    have same : _ = TokenKind.endOfFile ↔ _ := (T.near upTo).kind_eq_iff rfl
    by_cases atEnd : (a.stream.get v.cursor).kind = .endOfFile
    · have other : (b.stream.get (T.moved v).cursor).kind = .endOfFile := same.mp atEnd
      simp only [advance, atEnd, ↓reduceIte] at last
      cases last
      simp only [advance, other, ↓reduceIte]
    · have other : (b.stream.get (T.moved v).cursor).kind ≠ .endOfFile := mt same.mpr atEnd
      rw [advance_apply atEnd] at last
      cases last
      rw [advance_apply other, moved_ahead]
  rw [bind_of_ok passes]
  rfl

theorem twin_rawBlock_of (kept : ∀ r, a.Delimits r → r.stop < T.limit → I (r.start - 1) →
      J (r.stop + 1)) : T.Twin I J T.keep rawBlock rawBlock := by
  intro s r t ok
  have first : r.start = s.cursor + 1 := by
    have opened := ok
    rw [rawBlock_eq] at opened
    obtain ⟨_, u, read, opened⟩ := bind_eq_ok.mp opened
    obtain ⟨-, -, rfl⟩ := (expect_eq_ok (by simp)).mp read
    rw [bind_of_ok cursor_apply] at opened
    obtain ⟨_, _, _, opened⟩ := bind_eq_ok.mp opened
    rw [bind_of_ok cursor_apply] at opened
    obtain ⟨_, _, _, opened⟩ := bind_eq_ok.mp opened
    cases opened
    rfl
  obtain ⟨delimits, stop⟩ := yields_rawBlock (.refl a.stream s.cursor)
    (Q := fun r t => a.Delimits r ∧ t.cursor = r.stop + 1)
    (fun _ _ _ delimits _ stop => ⟨delimits, stop⟩) ok
  have le := delimits.matched.le
  refine ⟨by omega, fun here within => ⟨?_, _, rawBlock_moved ok within, T.keep_shift r⟩⟩
  rw [stop] at within ⊢
  exact kept r delimits within (by rwa [first])

end

end Scope.Track

end PulseSyntax
