import PulseSyntax.Proofs.Expr.Stands
import PulseSyntax.Proofs.Parser.Link

/-!
Two sequences of tokens that differ in one place, by tokens that no bracket is among. Looking ahead
passes over such tokens, and so does a body that is not read. What stands before the place is the same
in both, and so is what follows it, further on.
-/

namespace PulseSyntax

open PulseSyntax.Parser

/-- No bracket, no arrow and not the end of the file. -/
structure TokenKind.Loose (kind : TokenKind) : Prop where
  real : kind ≠ .endOfFile
  plain : Expr.bracketStep kind = none
  other : kind ≠ .symbol .arrow

theorem TokenKind.Loose.not_isBrace {kind : TokenKind} (h : kind.Loose) : kind.isBrace = false := by
  have plain := h.plain
  refine not_isBrace_of_ne ?_ ?_ <;> rintro rfl <;> cases plain

section

variable {p m q : List Token} {depth : Nat}

theorem openBraces?_insert (loose : ∀ t ∈ m, t.kind.Loose) :
    openBraces? depth (p ++ m ++ q) = openBraces? depth (p ++ q) := by
  have pass (d : Nat) : openBraces? d m = some d := by
    induction m with
    | nil => rfl
    | cons t m ih =>
      obtain ⟨first, rest⟩ := List.forall_mem_cons.mp loose
      rw [openBraces?_cons, openBraces?_plain first.not_isBrace, Option.bind_some, ih rest]
  rw [List.append_assoc, openBraces?_append, openBraces?_append p q]
  exact congrArg _ (funext fun d => by rw [openBraces?_append, pass, Option.bind_some])

theorem Expr.closesBeforeArrow_insert (loose : ∀ t ∈ m, t.kind.Loose)
    (quiet : firstKind q ≠ .symbol .arrow) :
    closesBeforeArrow depth (p ++ m ++ q) = closesBeforeArrow depth (p ++ q) := by
  have first (r : List Token) : (r.head?.any fun next => next.kind == .symbol .arrow) =
      (firstKind r == .symbol .arrow) := by
    cases r <;> rfl
  have quiet' : firstKind (m ++ q) ≠ .symbol .arrow := by
    cases m with
    | nil => exact quiet
    | cons t m => exact (List.forall_mem_cons.mp loose).1.other
  induction p generalizing depth with
  | nil =>
    clear quiet'
    induction m with
    | nil => rfl
    | cons t m ih =>
      obtain ⟨here, rest⟩ := List.forall_mem_cons.mp loose
      rw [List.nil_append, List.cons_append, closesBeforeArrow, here.plain]
      simpa [here.real] using ih rest
  | cons t p ih =>
    have next : (firstKind (p ++ m ++ q) == .symbol .arrow) = (firstKind (p ++ q) == .symbol .arrow) := by
      cases p with
      | nil =>
        rw [List.nil_append, List.nil_append, beq_eq_false_iff_ne.mpr quiet,
          beq_eq_false_iff_ne.mpr quiet']
      | cons => rfl
    rw [List.cons_append, List.cons_append, List.cons_append, closesBeforeArrow, closesBeforeArrow]
    simp only [first, next, ih]

end

section

variable {scope : Scope} {s t : ParserState} {r : TokenRange} {stop depth d i : Nat}

theorem Parser.rounds_rawToken (le : i ≤ stop) (size : stop < scope.stream.size)
    (braces : openBraces? d (scope.stream.between i stop) = some 0)
    (noEnd : ∀ j, i ≤ j → j < stop → (scope.stream.get j).kind ≠ .endOfFile) :
    Rounds rawToken scope d ⟨i, depth⟩ 0 ⟨stop, depth⟩ := by
  induction left : stop - i generalizing i d with
  | zero =>
    obtain rfl : i = stop := by omega
    rw [TokenStream.between_self] at braces
    cases braces
    exact .refl _ _
  | succ n ih =>
    have real := noEnd i (Nat.le_refl i) (by omega)
    rw [scope.stream.between_append (Nat.le_succ i) (by omega),
      TokenStream.between_succ (by omega), openBraces?_append, Option.bind_eq_some_iff] at braces
    obtain ⟨d', step, braces⟩ := braces
    have rest := ih (by omega) braces (fun j start => noEnd j (by omega)) (by omega)
    have first : rawToken d scope ⟨i, depth⟩ = .ok (.yield d') ⟨i + 1, depth⟩ := by
      have passes : advance scope ⟨i, depth⟩ = .ok _ ⟨i + 1, depth⟩ := advance_apply real
      rw [rawToken, bind_of_ok current_apply]
      by_cases opening : (scope.stream.get i).kind = .symbol .openBrace
      · rw [openBraces?_opening opening] at step
        cases step
        simp only [opening]
        exact bind_of_ok passes
      · by_cases closing : (scope.stream.get i).kind = .symbol .closeBrace
        · cases d with
          | zero => simp [openBraces?, closing] at step
          | succ d =>
            rw [openBraces?_closing closing] at step
            cases step
            simp only [closing]
            exact bind_of_ok passes
        · rw [openBraces?_plain (TokenKind.not_isBrace_of_ne opening closing)] at step
          cases step
          simp only [beq_eq_false_iff_ne.mpr real, beq_eq_false_iff_ne.mpr opening,
            beq_eq_false_iff_ne.mpr closing]
          exact bind_of_ok passes
    exact .head first (Nat.lt_of_succ_lt (TokenStream.lt_size_of_kind_ne real)) (Nat.lt_succ_self i) rest

/-- Braces that belong together stand at two indices. -/
structure Scope.Braced (scope : Scope) (i stop : Nat) : Prop where
  lt : i < stop
  opening : (scope.stream.get i).kind = .symbol .openBrace
  closing : (scope.stream.get stop).kind = .symbol .closeBrace
  matched : BracesMatch (scope.stream.between (i + 1) stop)
  real : ∀ {j}, i < j → j < stop → (scope.stream.get j).kind ≠ .endOfFile

theorem Parser.rawBlock_iff : rawBlock scope s = .ok r t ↔
    ∃ stop, scope.Braced s.cursor stop ∧ r = ⟨s.cursor + 1, stop⟩ ∧ t = ⟨stop + 1, s.depth⟩ := by
  constructor
  · intro ok
    obtain ⟨delimits, stop⟩ := yields_rawBlock (.refl scope.stream s.cursor)
      (Q := fun r t => scope.Delimits r ∧ t.cursor = r.stop + 1)
      (fun _ _ _ delimits _ stop => ⟨delimits, stop⟩) ok
    have reaches := (Course.starting_rawBlock (c := scope.course s.depth) s rfl).reaches ok
    have start := yields_rawBlock_start ok
    obtain ⟨first, last⟩ := r
    obtain rfl : first = s.cursor + 1 := start
    have matched := delimits.matched
    refine ⟨last, ⟨matched.le, delimits.opening, delimits.closing, matched.braces, ?_⟩, rfl, ?_⟩
    · intro j start lt
      exact reaches.inside j (Nat.le_of_lt start) (stop ▸ Nat.lt_succ_of_lt lt)
    · cases t
      cases stop
      exact congrArg _ reaches.depth
  · rintro ⟨stop, braced, rfl, rfl⟩
    have real : (scope.stream.get stop).kind ≠ .endOfFile := by simp [braced.closing]
    have size := Nat.lt_of_succ_lt (TokenStream.lt_size_of_kind_ne real)
    have last : rawToken 0 scope ⟨stop, s.depth⟩ = .ok (.done 0) ⟨stop, s.depth⟩ := by
      rw [rawToken, bind_of_ok current_apply]
      simp [braced.closing]
    have loops := (rounds_rawToken braced.lt size braced.matched
      fun j start => braced.real start).loop last
    rw [rawBlock_eq, expectSymbol, bind_of_ok (expect_apply braced.opening (by simp)),
      bind_of_ok cursor_apply, ParserState.ahead, bind_of_ok loops, bind_of_ok cursor_apply,
      bind_of_ok (advance_apply real)]
    rfl

end

theorem TokenStream.get_mem_of_toList {stream : TokenStream} {first mid rest : List Token} {i : Nat}
    (tokens : stream.toList = first ++ mid ++ rest) (start : first.length ≤ i)
    (stop : i < first.length + mid.length) : stream.get i ∈ mid := by
  rw [get_eq, tokens, List.append_assoc, List.getElem?_append_right start,
    List.getElem?_append_left (by omega), List.getElem?_eq_getElem (by omega), Option.getD_some]
  exact List.getElem_mem _

/-- The tokens of two scopes are the same before one index, and those from a later one on are those
    from another one on in the second scope. -/
structure Scope.Splice (a b : Scope) (gap after after' : Nat) : Prop where
  le : gap ≤ after
  le' : gap ≤ after'
  options : a.options = b.options
  inFile : a.quotation = none
  inFile' : b.quotation = none
  size : after < a.stream.size
  before : ∀ {i}, i < gap → a.stream.get i = b.stream.get i
  rest : a.stream.tokensFrom after = b.stream.tokensFrom after'
  loose : ∀ {i}, gap ≤ i → i < after → (a.stream.get i).kind.Loose
  loose' : ∀ {i}, gap ≤ i → i < after' → (b.stream.get i).kind.Loose
  quiet : (a.stream.get after).kind ≠ .symbol .arrow
  still : UpdateOp.ofKind? (a.stream.get after).kind = none

namespace Scope.Splice

variable {a b : Scope} {gap after after' : Nat} (S : a.Splice b gap after after')
variable {i n stop : Nat}

include S

theorem size_eq : b.stream.size + after = a.stream.size + after' := by
  have same := congrArg List.length S.rest
  rw [TokenStream.tokensFrom_eq, TokenStream.tokensFrom_eq, List.length_drop, List.length_drop] at same
  have length (stream : TokenStream) : stream.toList.length = stream.size := rfl
  have size := S.size
  rw [length, length] at same
  omega

theorem tokensFrom_after (n : Nat) :
    a.stream.tokensFrom (after + n) = b.stream.tokensFrom (after' + n) := by
  rw [TokenStream.tokensFrom_add, TokenStream.tokensFrom_add, S.rest]

theorem get_after (lt : after + n < a.stream.size) :
    a.stream.get (after + n) = b.stream.get (after' + n) := by
  obtain ⟨rest, whole⟩ := TokenStream.exists_tokensFrom lt
  rw [S.tokensFrom_after] at whole
  exact (TokenStream.get_of_tokensFrom whole).symm

theorem between_before (le : i ≤ gap) : a.stream.between i gap = b.stream.between i gap := by
  have size := S.size
  have same := S.size_eq
  have first := S.le
  have first' := S.le'
  obtain ⟨n, rfl⟩ := Nat.exists_eq_add_of_le le
  exact TokenStream.between_congr n (by omega) (by omega) fun k lt => S.before (by omega)

theorem between_after (le : i ≤ n) (size : after + n ≤ a.stream.size) :
    a.stream.between (after + i) (after + n) = b.stream.between (after' + i) (after' + n) := by
  have sizes := S.size_eq
  obtain ⟨k, rfl⟩ := Nat.exists_eq_add_of_le le
  rw [← Nat.add_assoc, ← Nat.add_assoc]
  exact TokenStream.between_congr k (by omega) (by omega) fun l lt => by
    rw [Nat.add_assoc, Nat.add_assoc]
    exact S.get_after (by omega)

theorem loose_between : ∀ t ∈ a.stream.between gap after, t.kind.Loose := fun t member => by
  obtain ⟨k, start, stop, rfl⟩ := TokenStream.exists_of_mem_between member
  exact S.loose start stop

theorem loose_between' : ∀ t ∈ b.stream.between gap after', t.kind.Loose := fun t member => by
  obtain ⟨k, start, stop, rfl⟩ := TokenStream.exists_of_mem_between member
  exact S.loose' start stop

theorem closesBeforeArrow_before (le : i ≤ gap) :
    Expr.closesBeforeArrow 0 (a.stream.tokensFrom i) =
      Expr.closesBeforeArrow 0 (b.stream.tokensFrom i) := by
  have quiet : firstKind (b.stream.tokensFrom after') ≠ .symbol .arrow := by
    obtain ⟨rest, whole⟩ := TokenStream.exists_tokensFrom S.size
    rw [← S.rest, whole]
    exact S.quiet
  rw [← a.stream.between_append_tokensFrom le, ← a.stream.between_append_tokensFrom S.le,
    ← b.stream.between_append_tokensFrom le, ← b.stream.between_append_tokensFrom S.le',
    ← List.append_assoc, ← List.append_assoc, S.rest, S.between_before le,
    Expr.closesBeforeArrow_insert S.loose_between quiet,
    Expr.closesBeforeArrow_insert S.loose_between' quiet]

theorem braced_before (h : a.Braced i stop) (lt : stop < gap) : b.Braced i stop := by
  have start := h.lt
  have size := S.size
  have sizes := S.size_eq
  have le := S.le
  have le' := S.le'
  have own : a.stream.between (i + 1) stop = b.stream.between (i + 1) stop := by
    obtain ⟨n, rfl⟩ := Nat.exists_eq_add_of_le start
    exact TokenStream.between_congr n (by omega) (by omega) fun k lt => S.before (by omega)
  refine ⟨start, ?_, ?_, own ▸ h.matched, fun {j} start stop => ?_⟩
  · rw [← S.before (show i < gap by omega), h.opening]
  · rw [← S.before lt, h.closing]
  · rw [← S.before (show j < gap by omega)]
    exact h.real start stop

theorem braced_after (h : a.Braced (after + i) (after + n)) : b.Braced (after' + i) (after' + n) := by
  have start := h.lt
  have real : (a.stream.get (after + n)).kind ≠ .endOfFile := by simp [h.closing]
  have size := Nat.lt_of_succ_lt (TokenStream.lt_size_of_kind_ne real)
  have own := S.between_after (show i + 1 ≤ n by omega) (Nat.le_of_lt size)
  refine ⟨by omega, ?_, ?_, own ▸ h.matched, fun {j} start stop => ?_⟩
  · rw [← S.get_after (by omega), h.opening]
  · rw [← S.get_after size, h.closing]
  · obtain ⟨k, rfl⟩ := Nat.exists_eq_add_of_le (show after' ≤ j by omega)
    rw [← S.get_after (show after + k < a.stream.size by omega)]
    exact h.real (by omega) (by omega)

theorem braced_across (h : a.Braced i (after + n)) (lt : i < gap) : b.Braced i (after' + n) := by
  have real : (a.stream.get (after + n)).kind ≠ .endOfFile := by simp [h.closing]
  have size := Nat.lt_of_succ_lt (TokenStream.lt_size_of_kind_ne real)
  have le := S.le
  have le' := S.le'
  have later : a.stream.between after (after + n) = b.stream.between after' (after' + n) :=
    S.between_after (Nat.zero_le n) (Nat.le_of_lt size)
  have matched := h.matched
  rw [BracesMatch, a.stream.between_append (show i + 1 ≤ gap by omega) (by omega),
    a.stream.between_append le (Nat.le_add_right after n), ← List.append_assoc,
    openBraces?_insert S.loose_between, S.between_before lt, later] at matched
  refine ⟨by omega, ?_, ?_, ?_, fun {j} start stop => ?_⟩
  · rw [← S.before lt, h.opening]
  · rw [← S.get_after size, h.closing]
  · rw [BracesMatch, b.stream.between_append (show i + 1 ≤ gap by omega) (by omega),
      b.stream.between_append le' (Nat.le_add_right after' n), ← List.append_assoc,
      openBraces?_insert S.loose_between']
    exact matched
  · rcases Nat.lt_or_ge j gap with early | late
    · rw [← S.before early]
      exact h.real start (by omega)
    · rcases Nat.lt_or_ge j after' with inner | late
      · exact (S.loose' late inner).real
      · obtain ⟨k, rfl⟩ := Nat.exists_eq_add_of_le late
        rw [← S.get_after (show after + k < a.stream.size by omega)]
        exact h.real (by omega) (by omega)

omit S in
theorem of_toList {first mid mid' rest : List Token} {next : Token} (options : a.options = b.options)
    (inFile : a.quotation = none) (inFile' : b.quotation = none)
    (tokens : a.stream.toList = first ++ mid ++ next :: rest)
    (tokens' : b.stream.toList = first ++ mid' ++ next :: rest) (loose : ∀ t ∈ mid, t.kind.Loose)
    (loose' : ∀ t ∈ mid', t.kind.Loose) (quiet : next.kind ≠ .symbol .arrow)
    (still : UpdateOp.ofKind? next.kind = none) :
    a.Splice b first.length (first.length + mid.length) (first.length + mid'.length) := by
  have size {scope : Scope} {mid : List Token} (tokens : scope.stream.toList = first ++ mid ++ next :: rest) :
      first.length + mid.length < scope.stream.size := by
    change _ < scope.stream.toList.length
    simp [tokens]
  have from_ {scope : Scope} {mid : List Token} (tokens : scope.stream.toList = first ++ mid ++ next :: rest) :
      scope.stream.tokensFrom (first.length + mid.length) = next :: rest := by
    rw [TokenStream.tokensFrom_eq, tokens, ← List.length_append, List.drop_left]
  have at_ {scope : Scope} {mid : List Token} (tokens : scope.stream.toList = first ++ mid ++ next :: rest) :
      scope.stream.get (first.length + mid.length) = next := TokenStream.get_of_tokensFrom (from_ tokens)
  have inner {scope : Scope} {mid : List Token} (tokens : scope.stream.toList = first ++ mid ++ next :: rest)
      (loose : ∀ t ∈ mid, t.kind.Loose) {i : Nat} (start : first.length ≤ i)
      (stop : i < first.length + mid.length) : (scope.stream.get i).kind.Loose :=
    loose _ (TokenStream.get_mem_of_toList tokens start stop)
  refine ⟨Nat.le_add_right _ _, Nat.le_add_right _ _, options, inFile, inFile', size tokens,
    fun {i} lt => ?_, ?_, inner tokens loose, inner tokens' loose', ?_, ?_⟩
  · rw [TokenStream.get_eq, TokenStream.get_eq, tokens, tokens', List.append_assoc, List.append_assoc,
      List.getElem?_append_left lt, List.getElem?_append_left lt, List.getElem?_eq_getElem lt]
    rfl
  · rw [from_ tokens, from_ tokens']
  · rwa [at_ tokens]
  · rwa [at_ tokens]

omit S in
/-- Where a token stands in the second scope that stands before the place or after it in the first. -/
def move (gap after after' i : Nat) : Nat := if i ≤ gap then i else i - after + after'

omit S in
theorem move_of_le (le : i ≤ gap) : move gap after after' i = i := if_pos le

omit S in
theorem move_after (some : gap < after) : move gap after after' (after + n) = after' + n := by
  rw [move, if_neg (by omega)]
  omega

omit S in
theorem move_succ (some : gap < after) (outside : i < gap ∨ after ≤ i) :
    move gap after after' (i + 1) = move gap after after' i + 1 := by
  rcases outside with lt | le
  · rw [move_of_le lt, move_of_le (Nat.le_of_lt lt)]
  · obtain ⟨n, rfl⟩ := Nat.exists_eq_add_of_le le
    rw [Nat.add_assoc, move_after some, move_after some]
    rfl

/-- Before the place, which may be where the first run ends. -/
def link (settles : a.stream.Settles gap ∧ b.stream.Settles gap) (keep : TokenRange → TokenRange) :
    a.Link b where
  move := id
  On i := i ≤ gap
  bound := some gap
  Forks _ := False
  left := keep
  right := keep
  same _ := rfl
  options := S.options
  quotation := S.inFile.trans S.inFile'.symm
  inside le := by
    have size := S.size
    have sizes := S.size_eq
    have first := S.le
    have first' := S.le'
    exact ⟨by omega, by rw [id]; omega⟩
  token _ within := S.before (within gap rfl)
  next _ within _ _ := ⟨within gap rfl, rfl⟩
  forks _ := False.elim
  settles _ here _ := Option.some.inj here ▸ settles
  lines _ within _ := by
    have lt := within gap rfl
    rw [S.before lt, S.before (show _ - 1 < gap by omega)]
    rfl
  arrows le _ _ := S.closesBeforeArrow_before le
  body ok le within := by
    obtain ⟨stop, braced, rfl, rfl⟩ := rawBlock_iff.mp ok
    have lt := within gap rfl
    refine ⟨lt, _, rawBlock_iff.mpr ⟨stop, S.braced_before braced lt, rfl, rfl⟩, ?_⟩
    rw [if_pos S.inFile]
    rfl

/-- After the place. -/
def linkAfter (keep : TokenRange → TokenRange)
    (shift : ∀ i n, keep ⟨after + i, after + n⟩ = keep ⟨after' + i, after' + n⟩) : a.Link b where
  move i := i - after + after'
  On i := after ≤ i ∧ i < a.stream.size
  bound := none
  Forks _ := False
  left := keep
  right := keep
  same := absurd rfl
  options := S.options
  quotation := S.inFile.trans S.inFile'.symm
  inside on := by
    have sizes := S.size_eq
    exact ⟨on.2, by omega⟩
  token on _ := by
    obtain ⟨n, rfl⟩ := Nat.exists_eq_add_of_le on.1
    rw [Nat.add_sub_cancel_left, Nat.add_comm n]
    exact S.get_after on.2
  next on _ _ real := ⟨⟨by omega, TokenStream.lt_size_of_kind_ne real⟩, by omega⟩
  forks _ := False.elim
  settles := nofun
  lines on _ update := by
    obtain ⟨n, rfl⟩ := Nat.exists_eq_add_of_le on.1
    rcases n with _ | n
    · exact absurd S.still update
    · have size := on.2
      rw [Nat.add_sub_cancel_left, Nat.add_comm (n + 1), S.get_after size, ← Nat.add_assoc,
        ← Nat.add_assoc, Nat.add_sub_cancel, Nat.add_sub_cancel, S.get_after (by omega)]
  arrows on _ _ := by
    obtain ⟨n, rfl⟩ := Nat.exists_eq_add_of_le on.1
    rw [Nat.add_sub_cancel_left, Nat.add_comm n, S.tokensFrom_after]
  body {s _ _} ok on _ := by
    obtain ⟨stop, braced, rfl, rfl⟩ := rawBlock_iff.mp ok
    have real : (a.stream.get stop).kind ≠ .endOfFile := by simp [braced.closing]
    have start := braced.lt
    obtain ⟨i, first⟩ := Nat.exists_eq_add_of_le on.1
    obtain ⟨n, rfl⟩ := Nat.exists_eq_add_of_le (show after ≤ stop by omega)
    have own := S.braced_after (i := i) (n := n) (by rwa [← first])
    refine ⟨⟨by simp only; omega, TokenStream.lt_size_of_kind_ne real⟩, _, rawBlock_iff.mpr
      ⟨after' + n, ?_, rfl, ?_⟩, ?_⟩
    · simp only [first, Nat.add_sub_cancel_left, Nat.add_comm i]
      exact own
    · simp only [ParserState.mk.injEq, and_true]
      omega
    · rw [if_pos S.inFile, first]
      simp only [Nat.add_sub_cancel_left, Nat.add_comm i, Nat.add_assoc]
      exact shift (1 + i) n

section

variable (some : gap < after) (some' : gap < after') (sign : a.stream.get gap = b.stream.get gap)

include some sign

omit some in
theorem get_of_le (le : i ≤ gap) : a.stream.get i = b.stream.get i := by
  rcases Nat.eq_or_lt_of_le le with rfl | lt
  · exact sign
  · exact S.before lt

theorem get_move (on : i ≤ gap ∨ after ≤ i ∧ i < a.stream.size) :
    a.stream.get i = b.stream.get (move gap after after' i) := by
  rcases on with le | ⟨late, size⟩
  · rw [move_of_le le, S.get_of_le sign le]
  · obtain ⟨n, rfl⟩ := Nat.exists_eq_add_of_le late
    rw [move_after some, S.get_after size]

include some'

omit sign in
theorem braced_move (h : a.Braced i stop) (on : i ≤ gap ∨ after ≤ i ∧ i < a.stream.size) :
    (i < gap ∨ after ≤ i) ∧ (stop < gap ∨ after ≤ stop) ∧
      b.Braced (move gap after after' i) (move gap after after' stop) := by
  have bracket {j : Nat} (start : gap ≤ j) (lt : j < after) (ends : Expr.bracketStep (a.stream.get j).kind ≠ none) :
      False := ends (S.loose start lt).plain
  rcases on with le | ⟨late, size⟩
  · have before : i < gap := by
      refine Nat.lt_of_le_of_ne le ?_
      rintro rfl
      exact bracket (Nat.le_refl _) some (by rw [h.opening]; simp [Expr.bracketStep])
    rw [move_of_le le]
    rcases Nat.lt_or_ge stop gap with early | late
    · rw [move_of_le (Nat.le_of_lt early)]
      exact ⟨.inl before, .inl early, S.braced_before h early⟩
    · rcases Nat.lt_or_ge stop after with inner | late
      · exact (bracket late inner (by rw [h.closing]; simp [Expr.bracketStep])).elim
      · obtain ⟨n, rfl⟩ := Nat.exists_eq_add_of_le late
        rw [move_after some]
        exact ⟨.inl before, .inr late, S.braced_across h before⟩
  · have start := h.lt
    obtain ⟨k, rfl⟩ := Nat.exists_eq_add_of_le late
    obtain ⟨n, rfl⟩ := Nat.exists_eq_add_of_le (show after ≤ stop by omega)
    rw [move_after some, move_after some]
    exact ⟨.inr late, .inr (Nat.le_add_right _ _), S.braced_after h⟩

/-- Before the place and after it, where a head of a branch stands there in both. -/
def linkAcross (branch : a.BranchAt gap (after - gap)) (branch' : b.BranchAt gap (after' - gap)) :
    a.Link b where
  move := move gap after after'
  On i := i ≤ gap ∨ after ≤ i ∧ i < a.stream.size
  bound := none
  Forks i := i = gap
  left r := ⟨move gap after after' r.start, move gap after after' r.stop⟩
  right := id
  same := absurd rfl
  options := S.options
  quotation := S.inFile.trans S.inFile'.symm
  inside on := by
    have size := S.size
    have sizes := S.size_eq
    refine ⟨by omega, ?_⟩
    rw [move]
    split <;> omega
  token on _ := S.get_move some sign on
  next {i} on _ unforked real := by
    have inside := TokenStream.lt_size_of_kind_ne real
    rcases on with le | ⟨late, -⟩
    · have before := Nat.lt_of_le_of_ne le unforked
      exact ⟨.inl before, move_succ some (.inl before)⟩
    · exact ⟨.inr ⟨Nat.le_succ_of_le late, inside⟩, move_succ some (.inr late)⟩
  forks {i} _ here := by
    obtain rfl : gap = i := here.symm
    refine ⟨after - gap, after' - gap, branch, ?_, ?_, ?_⟩
    · rwa [move_of_le (Nat.le_refl gap)]
    · rw [Nat.add_sub_cancel' (Nat.le_of_lt some)]
      exact .inr ⟨Nat.le_refl after, S.size⟩
    · rw [move_of_le (Nat.le_refl gap), Nat.add_sub_cancel' (Nat.le_of_lt some),
        Nat.add_sub_cancel' (Nat.le_of_lt some')]
      exact move_after (n := 0) some
  settles := nofun
  lines {i} on _ update := by
    rcases on with le | ⟨late, size⟩
    · rw [move_of_le le, S.get_of_le sign le, S.get_of_le sign (Nat.le_trans (Nat.sub_le i 1) le)]
    · obtain ⟨n, rfl⟩ := Nat.exists_eq_add_of_le late
      rcases n with _ | n
      · exact absurd S.still update
      · rw [move_after some, S.get_after size, ← Nat.add_assoc, ← Nat.add_assoc, Nat.add_sub_cancel,
          Nat.add_sub_cancel, S.get_after (by omega)]
  arrows on _ _ := by
    rcases on with le | ⟨late, -⟩
    · rw [move_of_le le, S.closesBeforeArrow_before le]
    · obtain ⟨n, rfl⟩ := Nat.exists_eq_add_of_le late
      rw [move_after some, S.tokensFrom_after]
  body {s _ _} ok on _ := by
    obtain ⟨stop, braced, rfl, rfl⟩ := rawBlock_iff.mp ok
    obtain ⟨outside, there, braced'⟩ := S.braced_move some some' braced on
    have real : (a.stream.get stop).kind ≠ .endOfFile := by simp [braced.closing]
    have size := TokenStream.lt_size_of_kind_ne real
    have inside : stop + 1 ≤ gap ∨ after ≤ stop + 1 ∧ stop + 1 < a.stream.size := by omega
    refine ⟨inside, _, rawBlock_iff.mpr ⟨_, braced', rfl, ?_⟩, ?_⟩
    · exact congrArg (ParserState.mk · s.depth) (move_succ some there)
    · rw [if_pos S.inFile]
      exact congrArg (TokenRange.mk · _) (move_succ some outside)

end

end Scope.Splice

end PulseSyntax
