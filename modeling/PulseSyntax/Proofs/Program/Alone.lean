import PulseSyntax.Proofs.Program.Repeats

namespace PulseSyntax

open PulseSyntax.Parser Scope.Track

/-- These tokens, and then the end of the file. -/
def TokenStream.alone (tokens : List Token) : TokenStream :=
  ofEnded (tokens ++ [.endOfFile .origin]) (.endOfFile .origin) (by simp) rfl

theorem Expr.closesBeforeArrow_append {own rest rest' : List Token} {next : Token} {due : List Symbol}
    {depth : Nat} (closes : due? due own = some []) (pos : 0 < depth) (le : depth ≤ due.length) :
    closesBeforeArrow depth (own ++ next :: rest) = closesBeforeArrow depth (own ++ next :: rest') := by
  induction own generalizing due depth with
  | nil =>
    obtain rfl := Option.some.inj closes
    exact absurd le (Nat.not_le.mpr pos)
  | cons u own ih =>
    rw [due?_cons, Option.bind_eq_some_iff] at closes
    obtain ⟨due', step, closes⟩ := closes
    have head : (own ++ next :: rest).head? = (own ++ next :: rest').head? := by
      cases own <;> rfl
    rw [List.cons_append, List.cons_append, closesBeforeArrow, closesBeforeArrow, head]
    obtain ⟨sign, close, kind, opens, rfl⟩ | ⟨sign, kind, shuts, rfl⟩ | ⟨plain, rfl⟩ :=
      TokenKind.due?_cases step
    · have opening : bracketStep u.kind = some true := by
        obtain ⟨rfl, -⟩ | ⟨rfl, -⟩ | ⟨rfl, -⟩ := Symbol.eq_of_closing? opens <;> rw [kind] <;> rfl
      simp only [opening, ih closes (Nat.succ_pos _) (Nat.succ_le_succ le)]
    · have closing : bracketStep u.kind = some false := by
        obtain rfl | rfl | rfl := Symbol.eq_of_isClosing shuts <;> rw [kind] <;> rfl
      simp only [closing]
      split
      · rfl
      · split
        · rfl
        · rw [List.length_cons] at le
          exact ih closes (by omega) (by omega)
    · simp only [plain, ih closes pos le]

namespace TokenStream

variable {tokens : List Token} {stream : TokenStream} {i j k : Nat}

theorem toList_alone (tokens : List Token) : (alone tokens).toList = tokens ++ [.endOfFile .origin] := rfl

theorem size_alone (tokens : List Token) : (alone tokens).size = tokens.length + 1 := by
  change (tokens ++ _).length = _
  rw [List.length_append, List.length_singleton]

theorem get_alone_between (size : j ≤ stream.size) (lt : k + i < j) :
    (alone (stream.between i j)).get k = stream.get (k + i) := by
  have inside : k < (stream.between i j).length := by
    rw [length_between size]
    omega
  rw [get_eq, toList_alone, List.getElem?_append_left inside, between_eq, List.getElem?_take,
    if_pos (by omega), List.getElem?_drop, Nat.add_comm i, get_eq, List.getElem?_eq_getElem]
  · rfl
  · exact Nat.lt_of_lt_of_le lt size

theorem tokensFrom_alone_between (size : j ≤ stream.size) (le : k + i ≤ j) :
    (alone (stream.between i j)).tokensFrom k = stream.between (k + i) j ++ [.endOfFile .origin] := by
  rw [tokensFrom_eq, toList_alone, List.drop_append_of_le_length, between_eq, between_eq,
    List.drop_take, List.drop_drop, Nat.add_comm i, Nat.sub_sub, Nat.add_comm i]
  rw [length_between size]
  omega

theorem between_alone_between (size : j ≤ stream.size) {l : Nat} (le : k + i ≤ j) (le' : l + i ≤ j) :
    (alone (stream.between i j)).between k l = stream.between (k + i) (l + i) := by
  rw [between_eq, ← tokensFrom_eq, tokensFrom_alone_between size le, between_eq, between_eq,
    List.take_append_of_le_length, List.take_take, Nat.add_sub_add_right, Nat.min_eq_left]
  · omega
  · rw [← between_eq, length_between size]
    omega

end TokenStream

namespace StyleBlock

variable {a b scope : Scope} {s t : ParserState} {start start' stop i n : Nat} {block : StyleBlock}

/-- The tokens of a block and no others. -/
def alone (scope : Scope) (start stop : Nat) : Scope :=
  ⟨.alone (scope.stream.between start (stop + 1)), scope.options, none⟩

namespace Stands

variable (h : Stands scope start stop)

include h

theorem get_alone (le : i ≤ stop - start) :
    (alone scope start stop).stream.get i = scope.stream.get (i + start) := by
  have before := h.le
  exact TokenStream.get_alone_between h.lt (by omega)

theorem between_alone (le : i ≤ stop - start) : (alone scope start stop).stream.between i (stop - start) =
    scope.stream.between (i + start) stop := by
  have before := h.le
  have same := TokenStream.between_alone_between (k := i) (i := start) (l := stop - start) h.lt
    (by omega) (by omega)
  rwa [Nat.sub_add_cancel (by omega)] at same

theorem stands_alone : Stands (alone scope start stop) 0 (stop - start) := by
  have le := h.le
  have own : (alone scope start stop).stream.between 2 (stop - start) =
      scope.stream.between (start + 2) stop := by
    rw [h.between_alone (by omega), Nat.add_comm]
  have size : (alone scope start stop).stream.size = stop + 1 - start + 1 := by
    rw [alone, TokenStream.size_alone, TokenStream.length_between h.lt]
  refine ⟨by omega, by omega, ?_, ?_, ?_, ?_, ?_⟩
  · rw [h.get_alone (Nat.zero_le _), Nat.zero_add, h.word]
  · rw [h.get_alone (by omega), Nat.add_comm, h.opening]
  · rw [h.get_alone (Nat.le_refl _), Nat.sub_add_cancel (by omega), h.close]
  · exact own ▸ h.matched
  · exact own ▸ h.inside

theorem noEnd_alone (lt : i < stop - start) :
    ((alone scope start stop).stream.get i).kind ≠ .endOfFile := by
  have size := h.lt
  rw [h.get_alone (Nat.le_of_lt lt)]
  rcases i with _ | _ | i
  · rw [Nat.zero_add, h.word]
    simp
  · rw [Nat.add_comm, h.opening]
    simp
  · exact h.inside _ (TokenStream.get_mem_between (by omega) (by omega) (by omega))

variable (nested : WellNested (scope.stream.between (start + 2) stop))

include nested

theorem arrows_alone (le : i ≤ stop - start)
    (paren : ((alone scope start stop).stream.get i).kind = .symbol .openParen) :
    Expr.closesBeforeArrow 0 ((alone scope start stop).stream.tokensFrom i) =
      Expr.closesBeforeArrow 0 (scope.stream.tokensFrom (i + start)) := by
  have before := h.le
  rw [h.get_alone le] at paren
  have inner : start + 2 ≤ i + start := by
    rcases i with _ | _ | i
    · rw [Nat.zero_add, h.word] at paren
      cases paren
    · rw [Nat.add_comm, h.opening] at paren
      cases paren
    · omega
  have lt : i + start < stop := by
    refine Nat.lt_of_le_of_ne (by omega) fun last => ?_
    rw [last, h.close] at paren
    cases paren
  obtain ⟨due, -, inside⟩ := TokenStream.Due.exists_of_wellNested nested inner (Nat.le_of_lt lt)
  obtain ⟨due', step, after⟩ := inside.step lt h.lt
  rw [paren] at step
  cases step
  have whole (rest : List Token) : Expr.closesBeforeArrow 0
      (scope.stream.get (i + start) :: (scope.stream.between (i + start + 1) stop ++
        scope.stream.get stop :: rest)) =
      Expr.closesBeforeArrow 1 (scope.stream.between (i + start + 1) stop ++
        scope.stream.get stop :: rest) := by
    rw [Expr.closesBeforeArrow, paren]
    rfl
  have parts : scope.stream.between (i + start) (stop + 1) = scope.stream.get (i + start) ::
      (scope.stream.between (i + start + 1) stop ++ [scope.stream.get stop]) := by
    rw [scope.stream.between_append (Nat.le_succ _) (by omega),
      TokenStream.between_succ (Nat.lt_trans lt h.lt),
      scope.stream.between_append lt (Nat.le_succ stop), TokenStream.between_succ h.lt]
    rfl
  rw [alone, TokenStream.tokensFrom_alone_between h.lt (by omega),
    ← scope.stream.between_append_tokensFrom (j := stop + 1) (by omega), parts]
  simp only [List.cons_append, List.append_assoc]
  rw [whole, whole]
  exact Expr.closesBeforeArrow_append after.closes Nat.one_pos (Nat.succ_le_succ (Nat.zero_le _))

def track : (alone scope start stop).Track scope where
  shift := start
  limit := stop - start
  Open _ i := 2 ≤ i
  keep _ := default
  options := rfl
  keep_shift _ := rfl
  inside := h.stands_alone.lt
  fits := by
    have le := h.le
    have lt := h.lt
    omega
  near le := .of_content (congrArg _ (h.get_alone le))
  exact_ _ le := congrArg _ (h.get_alone le)
  name lt _ := congrArg _ (h.get_alone lt)
  step start _ := Nat.le_succ_of_le start
  body _ _ delimits _ start := by
    have le := delimits.matched.le
    omega
  lines {i} le update := by
    rcases i with _ | i
    · rw [h.get_alone (Nat.zero_le _), Nat.zero_add, h.word] at update
      exact absurd rfl update
    · rw [h.get_alone le, Nat.add_sub_cancel, h.get_alone (Nat.le_of_succ_le le), Nat.add_right_comm,
        Nat.add_sub_cancel]
  arrows := h.arrows_alone nested

theorem laid_track : (h.track nested).Laid 2 where
  free _ _ := Iff.rfl
  touches {i} _ lt := by
    have lt : i < stop - start := lt
    rw [h.get_alone (Nat.le_of_lt lt), h.get_alone lt]
    rfl
  lines {i} _ lt := by
    have lt : i < stop - start := lt
    rw [h.get_alone (Nat.le_of_lt lt), h.get_alone lt]
    rfl
  ends {i} inner le := by
    have own := h.between_alone (i := 2) (by have := h.le; omega)
    rw [Nat.add_comm] at own
    rw [← own] at nested
    have nests : (alone scope start stop).stream.Nests (stop - start) :=
      ⟨h.stands_alone.lt, h.stands_alone.close, fun _ => h.noEnd_alone⟩
    obtain ⟨due, -, inside⟩ := TokenStream.Due.exists_of_wellNested nested inner le
    have within : Style.Inside (alone scope start stop).stream (stop - start) 0 i :=
      ⟨due, inside, Nat.zero_le _⟩
    exact Style.terminator_moved nests (h.track _).fits within.inItem
      fun _ le => congrArg _ (h.get_alone le)

theorem parser_alone_iff {depth : Nat} {t : ParserState} {x : StyleBlock} :
    (∃ block, parser (alone scope start stop) ⟨0, depth⟩ = .ok block t ∧ block.unplaced = x) ↔
      ∃ block, parser scope ⟨start, depth⟩ = .ok block ⟨t.cursor + start, t.depth⟩ ∧
        block.unplaced = x := by
  have own := h.between_alone (i := 2) (by have := h.le; omega)
  rw [Nat.add_comm] at own
  have replied := parser_replied (s := ⟨0, depth⟩) (h.laid_track nested) h.stands_alone (own ▸ nested)
    fun _ => h.noEnd_alone
  have here : (h.track nested).moved ⟨0, depth⟩ = ⟨start, depth⟩ :=
    congrArg (ParserState.mk · depth) (Nat.zero_add _)
  rw [here] at replied
  generalize parser (alone scope start stop) ⟨0, depth⟩ = first at replied ⊢
  generalize parser scope ⟨start, depth⟩ = second at replied ⊢
  cases replied with
  | @ok y z u same =>
    have states : u = t ↔ (h.track nested).moved u = ⟨t.cursor + start, t.depth⟩ := by
      cases u
      cases t
      simp [Scope.Track.moved, track]
    simp [same, states]
  | error => simp

end Stands

section

variable (size : start' + n < b.stream.size)
variable (same : ∀ k, k ≤ n → a.stream.get (start + k) = b.stream.get (start' + k))

include size same

theorem Stands.inner_congr (h : Stands a start (start + n)) :
    a.stream.between (start + 2) (start + n) = b.stream.between (start' + 2) (start' + n) := by
  have le := h.le
  have lt := h.lt
  have inner : a.stream.between _ (start + 2 + (n - 2)) = b.stream.between _ (start' + 2 + (n - 2)) :=
    TokenStream.between_congr (n - 2) (by omega) (by omega) fun k before => by
      rw [Nat.add_assoc, Nat.add_assoc]
      exact same _ (by omega)
  rwa [Nat.add_assoc, Nat.add_assoc, Nat.add_sub_cancel' (by omega)] at inner

theorem Stands.copied (h : Stands a start (start + n)) : Stands b start' (start' + n) := by
  have le := h.le
  have own := h.inner_congr size same
  refine ⟨by omega, size, ?_, ?_, ?_, own ▸ h.matched, own ▸ h.inside⟩
  · exact same 0 (Nat.zero_le _) ▸ h.word
  · exact same 1 (by omega) ▸ h.opening
  · exact same n (Nat.le_refl _) ▸ h.close

theorem parser_copied (options : a.options = b.options) {depth : Nat}
    (ok : parser a ⟨start, depth⟩ = .ok block ⟨start + n + 1, depth⟩)
    (nested : WellNested (a.stream.between (start + 2) (start + n))) :
    ∃ block', parser b ⟨start', depth⟩ = .ok block' ⟨start' + n + 1, depth⟩ ∧
      block.unplaced = block'.unplaced := by
  obtain ⟨stop, stands, ends⟩ := Stands.of_ok ok
  obtain rfl : stop = start + n := Nat.succ.inj ends.symm
  have there := stands.copied size same
  have whole : alone b start' (start' + n) = alone a start (start + n) := by
    have lt := stands.lt
    rw [alone, alone, options, Nat.add_assoc, Nat.add_assoc,
      TokenStream.between_congr (n + 1) (by omega) (by omega) fun k le => same k (Nat.le_of_lt_succ le)]
  have read := (stands.parser_alone_iff nested (t := ⟨n + 1, depth⟩)).mpr
    ⟨block, by rwa [Nat.add_comm, ← Nat.add_assoc], rfl⟩
  rw [← whole, there.parser_alone_iff (stands.inner_congr size same ▸ nested)] at read
  obtain ⟨block', second, alike⟩ := read
  refine ⟨block', ?_, alike.symm⟩
  rwa [Nat.add_comm, ← Nat.add_assoc] at second

end

end StyleBlock

end PulseSyntax
