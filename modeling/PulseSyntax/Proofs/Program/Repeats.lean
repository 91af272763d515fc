import PulseSyntax.Proofs.Program.Blocks
import PulseSyntax.Proofs.Program.Twin

namespace PulseSyntax

open PulseSyntax.Parser Scope.Track

theorem TokenStream.BlockAt.wellNested {stream : TokenStream} {word : Keyword} {span : Span}
    {i j stop : Nat} (block : stream.BlockAt word span i j) (before : j < stop)
    (size : stop < stream.size) (nested : WellNested (stream.between 0 stop)) :
    WellNested (stream.between (i + 2) j) := by
  have le := block.inside.le
  obtain ⟨due, -, atWord⟩ := Due.exists_of_wellNested nested (Nat.zero_le i) (by omega)
  obtain ⟨due', passes, atOpening⟩ := atWord.step (by omega) size
  rw [block.word] at passes
  cases passes
  obtain ⟨due', opens, within⟩ := atOpening.step (by omega) size
  rw [block.opening] at opens
  cases opens
  have closes := within.closes
  rw [stream.between_append le (Nat.le_of_lt before), due?_append, Option.bind_eq_some_iff] at closes
  obtain ⟨middle, own, rest⟩ := closes
  obtain ⟨own', alone, rfl, none⟩ := due?_of_braces [] own block.inside.braces
  obtain ⟨due', last, -⟩ := (⟨Nat.le_of_lt before, rest⟩ : stream.Due stop _ j).step before size
  rw [block.closing] at last
  have first := TokenKind.due?_of_closing rfl last
  cases own' with
  | nil => exact alone
  | cons sign own' =>
    obtain ⟨rfl, -⟩ := List.cons_eq_cons.mp first
    simp at none

theorem Style.terminator_moved {first second : TokenStream} {shift stop rules : Nat}
    (nests : first.Nests stop) (fits : stop + shift < second.size) {i depth : Nat}
    (item : InItem first stop rules depth i)
    (same : ∀ {j}, i ≤ j → j ≤ stop → (first.get j).kind = (second.get (j + shift)).kind) :
    terminator depth (first.tokensFrom i) = terminator depth (second.tokensFrom (i + shift)) := by
  induction left : stop - i using Nat.strongRecOn generalizing i depth with
  | ind n ih =>
    have upTo := item.le
    have size := nests.size
    obtain ⟨rest, whole⟩ := TokenStream.exists_tokensFrom (show i < first.size by omega)
    obtain ⟨rest', whole'⟩ := TokenStream.exists_tokensFrom (show i + shift < second.size by omega)
    rw [whole, whole', terminator, terminator, ← same (Nat.le_refl i) upTo]
    split
    · rfl
    · next more =>
      have more : (depth == 0 && endsItem (first.get i).kind) = false := by simpa using more
      have next := item.pass nests more
      have beyond := next.le
      have later := ih (stop - (i + 1)) (by omega) next (fun start => same (by omega)) rfl
      rw [TokenStream.tokensFrom_succ whole, Nat.add_right_comm, TokenStream.tokensFrom_succ whole']
        at later
      rw [later]

/-- Up to an index the second scope repeats the tokens of the first, so many tokens further on; except
    that a name in markup may read as a selector in one of them and as an identifier in the other. -/
structure Scope.Repeats (a b : Scope) (shift stop : Nat) : Prop where
  options : a.options = b.options
  inFile : a.quotation = none
  inFile' : b.quotation = none
  inside : stop < a.stream.size
  fits : stop + shift < b.stream.size
  near : ∀ {i}, i < stop → (a.stream.get i).Near (b.stream.get (i + shift))
  name : ∀ {i}, i + 1 < stop → (a.stream.get i).kind = .symbol .atSign →
    (a.stream.get (i + 1)).kind = (b.stream.get (i + 1 + shift)).kind
  real : ∀ {i}, i < stop → (a.stream.get i).kind ≠ .endOfFile
  nested : WellNested (a.stream.between 0 stop)
  ends : (a.stream.get stop).kind ≠ .symbol .arrow
  ends' : (b.stream.get (stop + shift)).kind ≠ .symbol .arrow
  ordered : a.stream.Ordered
  ordered' : b.stream.Ordered
  touches : ∀ {i}, i + 1 < stop →
    ((a.stream.get (i + 1)).span.start = (a.stream.get i).span.stop ↔
      (b.stream.get (i + 1 + shift)).span.start = (b.stream.get (i + shift)).span.stop)
  lines : ∀ {i}, i < stop → UpdateOp.ofKind? (a.stream.get i).kind ≠ none →
    ((a.stream.get i).line = (a.stream.get (i - 1)).line ↔
      (b.stream.get (i + shift)).line = (b.stream.get (i + shift - 1)).line)

namespace Scope.Repeats

variable {a b : Scope} {shift stop : Nat} (h : a.Repeats b shift stop)

include h

theorem kind_iff {i : Nat} (lt : i < stop) {kind : TokenKind} (plain : kind.isHead = false) :
    (a.stream.get i).kind = kind ↔ (b.stream.get (i + shift)).kind = kind :=
  (h.near lt).kind_eq_iff plain

theorem bracketStep_eq {i : Nat} (lt : i < stop) :
    Expr.bracketStep (a.stream.get i).kind = Expr.bracketStep (b.stream.get (i + shift)).kind := by
  rcases (h.near lt).kind with same | ⟨head, head'⟩
  · rw [same]
  · obtain first | first := TokenKind.eq_of_isHead head <;>
    obtain second | second := TokenKind.eq_of_isHead head' <;> rw [first, second] <;> rfl

theorem beq_arrow {i : Nat} (le : i ≤ stop) :
    ((a.stream.get i).kind == .symbol .arrow) = ((b.stream.get (i + shift)).kind == .symbol .arrow) := by
  rcases Nat.eq_or_lt_of_le le with rfl | lt
  · rw [beq_eq_false_iff_ne.mpr h.ends, beq_eq_false_iff_ne.mpr h.ends']
  · exact (h.near lt).beq_kind rfl

theorem closesBeforeArrow_of_due {i depth : Nat} {due : List Symbol} (inside : a.stream.Due stop due i)
    (pos : 0 < depth) (le : depth ≤ due.length) :
    Expr.closesBeforeArrow depth (a.stream.tokensFrom i) =
      Expr.closesBeforeArrow depth (b.stream.tokensFrom (i + shift)) := by
  have size := h.inside
  have size' := h.fits
  have upTo := inside.le
  induction left : stop - i using Nat.strongRecOn generalizing i depth due with
  | ind n ih =>
    rcases Nat.eq_or_lt_of_le upTo with rfl | lt
    · rw [inside.at_stop] at le
      exact absurd le (Nat.not_le.mpr pos)
    · obtain ⟨due', step, after⟩ := inside.step lt size
      obtain ⟨rest, whole⟩ := TokenStream.exists_tokensFrom (show i < a.stream.size by omega)
      obtain ⟨rest', whole'⟩ := TokenStream.exists_tokensFrom (show i + shift < b.stream.size by omega)
      have tail := TokenStream.tokensFrom_succ whole
      have tail' := TokenStream.tokensFrom_succ whole'
      rw [Nat.add_right_comm] at tail'
      have later {depth : Nat} (pos : 0 < depth) (le : depth ≤ due'.length) :=
        ih (stop - (i + 1)) (by omega) after pos le lt rfl
      rw [tail, tail'] at later
      rw [whole, whole', Expr.closesBeforeArrow, Expr.closesBeforeArrow,
        (h.near lt).beq_kind rfl, ← h.bracketStep_eq lt]
      obtain ⟨sign, close, kind, opens, rfl⟩ | ⟨sign, kind, closes, rfl⟩ | ⟨plain, rfl⟩ :=
        TokenKind.due?_cases step
      · have opening : Expr.bracketStep (a.stream.get i).kind = some true := by
          obtain ⟨rfl, rfl⟩ | ⟨rfl, rfl⟩ | ⟨rfl, rfl⟩ := Symbol.eq_of_closing? opens <;> rw [kind] <;> rfl
        simp only [opening]
        rw [later (Nat.succ_pos _) (Nat.succ_le_succ le)]
      · have closing : Expr.bracketStep (a.stream.get i).kind = some false := by
          obtain rfl | rfl | rfl := Symbol.eq_of_isClosing closes <;> rw [kind] <;> rfl
        simp only [closing]
        split
        · rfl
        · split
          · have first : rest.head? = some (a.stream.get (i + 1)) := by
              obtain ⟨more, next⟩ := TokenStream.exists_tokensFrom (show i + 1 < a.stream.size by omega)
              rw [← tail, next, List.head?_cons]
            have first' : rest'.head? = some (b.stream.get (i + 1 + shift)) := by
              obtain ⟨more, next⟩ :=
                TokenStream.exists_tokensFrom (show i + 1 + shift < b.stream.size by omega)
              rw [← tail', next, List.head?_cons]
            rw [(h.near lt).beq_kind rfl, first, first', Option.any_some, Option.any_some,
              h.beq_arrow lt]
          · rw [List.length_cons] at le
            exact later (by omega) (by omega)
      · simp only [plain]
        rw [later pos le]

theorem closesBeforeArrow_eq {i : Nat} (lt : i < stop)
    (paren : (a.stream.get i).kind = .symbol .openParen) :
    Expr.closesBeforeArrow 0 (a.stream.tokensFrom i) =
      Expr.closesBeforeArrow 0 (b.stream.tokensFrom (i + shift)) := by
  have size := h.inside
  have size' := h.fits
  obtain ⟨due, -, inside⟩ := TokenStream.Due.exists_of_wellNested h.nested (Nat.zero_le i) (Nat.le_of_lt lt)
  obtain ⟨due', step, after⟩ := inside.step lt size
  rw [paren] at step
  cases step
  have paren' := (h.kind_iff lt rfl).mp paren
  obtain ⟨rest, whole⟩ := TokenStream.exists_tokensFrom (show i < a.stream.size by omega)
  obtain ⟨rest', whole'⟩ := TokenStream.exists_tokensFrom (show i + shift < b.stream.size by omega)
  have later := h.closesBeforeArrow_of_due after Nat.one_pos (Nat.succ_le_succ (Nat.zero_le _))
  rw [TokenStream.tokensFrom_succ whole, Nat.add_right_comm, TokenStream.tokensFrom_succ whole'] at later
  rw [whole, whole', Expr.closesBeforeArrow, Expr.closesBeforeArrow, paren, paren']
  exact later

def track {limit : Nat} (lt : limit < stop) (keep : TokenRange → TokenRange)
    (keep_shift : ∀ r, keep r = keep ⟨r.start + shift, r.stop + shift⟩) (Open : Nat → Nat → Prop)
    (exact_ : ∀ {parens i}, Open (parens + 1) i → i ≤ limit →
      (a.stream.get i).kind = (b.stream.get (i + shift)).kind)
    (step : ∀ {parens i}, Open parens i → i < limit →
      Open ((a.stream.get i).kind.parensAfter parens) (i + 1))
    (body : ∀ {parens r}, 2 ≤ r.start → (a.stream.get (r.start - 2)).kind = .symbol .arrow →
      a.Delimits r → r.stop < limit → Open parens (r.start - 1) → Open parens (r.stop + 1)) :
    a.Track b where
  shift := shift
  limit := limit
  Open := Open
  keep := keep
  options := h.options
  keep_shift := keep_shift
  inside := Nat.lt_trans lt h.inside
  fits := by
    have fits := h.fits
    omega
  near le := h.near (Nat.lt_of_le_of_lt le lt)
  exact_ := exact_
  name before := h.name (by omega)
  step := step
  body := body
  lines le := h.lines (Nat.lt_of_le_of_lt le lt)
  arrows le := h.closesBeforeArrow_eq (Nat.lt_of_le_of_lt le lt)

def copy {first limit : Nat} (lt : limit < stop) (keep : TokenRange → TokenRange)
    (keep_shift : ∀ r, keep r = keep ⟨r.start + shift, r.stop + shift⟩)
    (same : ∀ {i}, first ≤ i → i ≤ limit →
      (a.stream.get i).kind = (b.stream.get (i + shift)).kind) : a.Track b :=
  h.track lt keep keep_shift (fun _ i => first ≤ i) same (fun start _ => Nat.le_succ_of_le start)
    fun _ _ delimits _ start => by
      have le := delimits.matched.le
      omega

theorem plain_track (T : a.Track b) (close : (a.stream.get T.limit).kind = .symbol .closeBrace) :
    T.Plain where
  last := .inl close
  leaves r := by
    simp only [Expr.body, h.inFile, h.inFile', Expr.unplacedBody]
    exact congrArg ArrowBody.block (T.keep_shift r)

theorem touching_track (T : a.Track b) (same : T.shift = shift) (lt : T.limit < stop) :
    T.Touching where
  ordered _ := h.ordered.stop_le_stop (Nat.le_succ _)
  ordered' _ := h.ordered'.stop_le_stop (by omega)
  touches before := by
    rw [same]
    exact h.touches (Nat.lt_of_le_of_lt before lt)

theorem laid_copy {first limit : Nat} {lt : limit < stop} {keep : TokenRange → TokenRange}
    {keep_shift : ∀ r, keep r = keep ⟨r.start + shift, r.stop + shift⟩}
    {same : ∀ {i}, first ≤ i → i ≤ limit →
      (a.stream.get i).kind = (b.stream.get (i + shift)).kind}
    (close : (a.stream.get limit).kind = .symbol .closeBrace)
    (nested : WellNested (a.stream.between first limit))
    (rows : ∀ {i}, first ≤ i → i < limit →
      ((a.stream.get i).line < (a.stream.get (i + 1)).line ↔
        (b.stream.get (i + shift)).line < (b.stream.get (i + 1 + shift)).line)) :
    (h.copy lt keep keep_shift same).Laid first where
  free _ _ := Iff.rfl
  touches _ before := by
    rw [eq_comm, h.touches (Nat.lt_of_le_of_lt before lt), eq_comm]
    rfl
  lines := rows
  ends {i} start le := by
    have size := h.inside
    have nests : a.stream.Nests limit :=
      ⟨Nat.lt_trans lt h.inside, close, fun j before => h.real (Nat.lt_trans before lt)⟩
    obtain ⟨due, -, inside⟩ := TokenStream.Due.exists_of_wellNested nested start le
    have within : Style.Inside a.stream limit 0 i := ⟨due, inside, Nat.zero_le _⟩
    exact Style.terminator_moved nests (h.copy lt keep keep_shift same).fits within.inItem
      fun after => same (Nat.le_trans start after)

theorem exists_track_of_same {keep : TokenRange → TokenRange}
    (keep_shift : ∀ r, keep r = keep ⟨r.start + shift, r.stop + shift⟩) {s t : ParserState}
    {word : Keyword} {e : Declaration} (here : Declarations.reader.fieldAt? a s = some word)
    (read : Declaration.bare word a s = .ok e t) (le : t.cursor ≤ stop)
    (same : ∀ {i}, s.cursor ≤ i → i < t.cursor →
      (a.stream.get i).kind = (b.stream.get (i + shift)).kind)
    (rows : word = .style → ∀ {i}, s.cursor + 2 ≤ i → i + 1 < t.cursor →
      ((a.stream.get i).line < (a.stream.get (i + 1)).line ↔
        (b.stream.get (i + shift)).line < (b.stream.get (i + 1 + shift)).line)) :
    ∃ T : a.Track b, T.shift = shift ∧ T.keep = keep ∧ t.cursor = T.limit + 1 ∧
      T.Carries s.cursor word := by
  have onward := (Declared.reaches_of_bare here read).2
  obtain ⟨limit, ends⟩ := Nat.exists_eq_add_of_lt onward
  obtain ⟨limit, ends⟩ : ∃ limit, t.cursor = limit + 1 := ⟨_, ends⟩
  have lt : limit < stop := by omega
  have whole {i : Nat} (start : s.cursor ≤ i) (upTo : i ≤ limit) := same start (by omega)
  let T := h.copy lt keep keep_shift whole
  by_cases opens : word.opensBlock
  · obtain ⟨span, j, last, block⟩ := Declaration.bare_readsBlock h.inFile opens read
    obtain rfl : j = limit := by omega
    have plain : T.Plain := h.plain_track T block.closing
    have outer : T.Plain ∧ T.Open 1 s.cursor ∧ ∃ first, T.Free first :=
      ⟨plain, Nat.le_refl _, s.cursor, fun _ _ => Iff.rfl⟩
    cases word
    case props | state | actions | router | store => exact ⟨T, rfl, rfl, ends, outer⟩
    case view => exact ⟨T, rfl, rfl, ends, plain, h.touching_track T rfl lt, Nat.le_refl s.cursor⟩
    case style =>
      have nested := block.wellNested lt h.inside h.nested
      have inner {i : Nat} (start : s.cursor + 2 ≤ i) (upTo : i ≤ j) := whole (by omega) upTo
      refine ⟨h.copy lt keep keep_shift inner, rfl, rfl, ends, ?_, nested, fun i before => ?_⟩
      · exact h.laid_copy block.closing nested fun start before => rows rfl start (by omega)
      · exact h.real (Nat.lt_trans before lt)
    all_goals cases opens
  · cases word
    case import_ | page | route => exact ⟨T, rfl, rfl, ends, Nat.le_refl s.cursor⟩
    case props | state | view | actions | style | router | store => exact absurd rfl opens
    all_goals exact absurd read Declarations.failUnknown_ne_ok

end Scope.Repeats

end PulseSyntax
