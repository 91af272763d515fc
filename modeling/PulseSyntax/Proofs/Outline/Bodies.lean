import PulseSyntax.Outline.Program
import PulseSyntax.Proofs.Token.Order
import PulseSyntax.Proofs.Token.Stream

namespace PulseSyntax

def OutlineDetail.bodies : OutlineDetail → List TokenRange
  | body range => [range]
  | expression _ _ _ block => block.toList
  | none | text _ | style => []

namespace OutlineDetail

@[simp] theorem bodies_none : none.bodies = [] := rfl

@[simp] theorem bodies_text (interpolated : Bool) : (text interpolated).bodies = [] := rfl

@[simp] theorem bodies_style : style.bodies = [] := rfl

end OutlineDetail

namespace Outline

mutual

/-- The bodies in a node: its own, and those of its children. -/
def bodies : Outline → List TokenRange
  | node _ _ detail children => detail.bodies ++ bodiesOfList children

def bodiesOfList : List Outline → List TokenRange
  | [] => []
  | o :: os => o.bodies ++ bodiesOfList os

end

mutual

/-- The bodies in a node, each with the span of the node that it is the body of. -/
def owned : Outline → List (Span × TokenRange)
  | node _ span detail children => detail.bodies.map (span, ·) ++ ownedOfList children

def ownedOfList : List Outline → List (Span × TokenRange)
  | [] => []
  | o :: os => o.owned ++ ownedOfList os

end

mutual

theorem map_snd_owned : ∀ o : Outline, o.owned.map Prod.snd = o.bodies
  | node _ _ detail children => by
    rw [owned, bodies, List.map_append, map_snd_ownedOfList children, List.map_map]
    exact congrArg (· ++ _) (List.map_id _)

theorem map_snd_ownedOfList :
    ∀ os : List Outline, (ownedOfList os).map Prod.snd = bodiesOfList os
  | [] => rfl
  | o :: os => by
    rw [ownedOfList, bodiesOfList, List.map_append, map_snd_owned o, map_snd_ownedOfList os]

end

theorem ownedOfList_eq (os : List Outline) : ownedOfList os = os.flatMap owned := by
  induction os with
  | nil => rfl
  | cons o os ih => rw [ownedOfList, ih, List.flatMap_cons]

end Outline

namespace Scope

/-- The tokens of a body stand between the braces of a block and have their braces in pairs. -/
structure Delimits (scope : Scope) (r : TokenRange) : Prop where
  start_pos : 0 < r.start
  opening : (scope.stream.get (r.start - 1)).kind = .symbol .openBrace
  closing : (scope.stream.get r.stop).kind = .symbol .closeBrace
  matched : scope.stream.Open r.start r.stop 0

/-- A node of this span starts before the body and ends with its closing brace. -/
structure Encloses (scope : Scope) (span : Span) (r : TokenRange) : Prop
    extends Delimits scope r where
  covers : ∃ first < r.start,
    span = (scope.stream.get first).span.cover (scope.stream.get r.stop).span

/-- A node of this span has the body. Of an interpolation no tokens are kept. -/
structure Owns (scope : Scope) (span : Span) (r : TokenRange) : Prop
    extends Encloses scope span r where
  inFile : scope.quotation = none

end Scope

/-- The tokens of the range stand between two braces and have their own braces in pairs. -/
structure TokenRange.IsBody (r : TokenRange) (tokens : List Token) : Prop where
  start_pos : 0 < r.start
  le : r.start ≤ r.stop
  opening : ∃ t, tokens[r.start - 1]? = some t ∧ t.kind = .symbol .openBrace
  closing : ∃ t, tokens[r.stop]? = some t ∧ t.kind = .symbol .closeBrace
  matched : BracesMatch (r.tokens tokens)

/-- The range with its braces is in a node of this span, which ends where they do. -/
structure TokenRange.BelongsTo (r : TokenRange) (tokens : List Token) (owner : Span) : Prop where
  within : ∀ {i t}, r.start - 1 ≤ i → i ≤ r.stop → tokens[i]? = some t →
    owner.start ≤ t.span.start ∧ t.span.stop ≤ owner.stop
  ends : ∃ t, tokens[r.stop]? = some t ∧ t.span.stop = owner.stop

/-- The text is that of the source from the first token of the range to its last. -/
inductive TokenRange.Spells (r : TokenRange) (source : List Char) (tokens : List Token) :
    List Char → Prop
  | nothing (empty : r.start = r.stop) : Spells r source tokens []
  | part {first last : Token} {text : List Char} (less : r.start < r.stop)
    (starts : tokens[r.start]? = some first) (ends : tokens[r.stop - 1]? = some last)
    (slice : Text.slice? source first.span.start last.span.stop = some text) (nonempty : text ≠ []) :
    Spells r source tokens text

/-- Two ranges that share no token and none of their braces, or of which one is in the other. -/
def TokenRange.AreNested (r r' : TokenRange) : Prop :=
  r.stop < r'.start ∨ r'.stop < r.start ∨
    (r.start ≤ r'.start ∧ r'.stop ≤ r.stop) ∨ (r'.start ≤ r.start ∧ r.stop ≤ r'.stop)

theorem openBraces?_congr {xs ys : List Token} (h : xs.map Token.kind = ys.map Token.kind)
    (depth : Nat) : openBraces? depth xs = openBraces? depth ys := by
  induction xs generalizing ys depth with
  | nil =>
    cases List.map_eq_nil_iff.mp h.symm
    rfl
  | cons x xs ih =>
    obtain ⟨y, ys, rfl, same, rest⟩ := List.map_eq_cons_iff.mp h.symm
    simp only [openBraces?, same, ih rest.symm]

namespace TokenRange

variable {r : TokenRange} {tokens : List Token}

theorem IsBody.congr {tokens' : List Token} (h : r.IsBody tokens)
    (same : tokens.map Token.kind = tokens'.map Token.kind) : r.IsBody tokens' := by
  have token {i : Nat} {kind : TokenKind} (has : ∃ t, tokens[i]? = some t ∧ t.kind = kind) :
      ∃ t, tokens'[i]? = some t ∧ t.kind = kind := by
    obtain ⟨t, here, rfl⟩ := has
    have kinds := congrArg (·[i]?) same
    simp only [List.getElem?_map, here, Option.map_some] at kinds
    exact Option.map_eq_some_iff.mp kinds.symm
  refine ⟨h.start_pos, h.le, token h.opening, token h.closing, ?_⟩
  refine (openBraces?_congr ?_ 0).symm.trans h.matched
  simp only [TokenRange.tokens, List.map_take, List.map_drop, same]

theorem IsBody.spells {source : List Char} (h : r.IsBody (Lexer.tokens source)) :
    r.Spells source (Lexer.tokens source)
      (r.text source ((Lexer.tokens source).map Token.span)) := by
  have laid : Laid source [] (Lexer.tokens source) := laid_tokens source
  generalize Lexer.tokens source = tokens at h laid
  obtain ⟨close, atClose, -⟩ := h.closing
  have inside : r.stop < tokens.length := (List.getElem?_eq_some_iff.mp atClose).1
  have le := h.le
  rcases Nat.eq_or_lt_of_le le with empty | less
  · have own : r.text source (tokens.map Token.span) = [] := by
      have : r.isEmpty = true := by simp [isEmpty, length, empty]
      unfold text
      split <;> simp [this]
    rw [own]
    exact .nothing empty
  · have hf : r.start < tokens.length := by omega
    have hl : r.stop - 1 < tokens.length := by omega
    have starts := List.getElem?_eq_getElem hf
    have ends := List.getElem?_eq_getElem hl
    have standsIn := laid.standsIn
    have raw (i : Nat) (hi : i < tokens.length) (before : i < r.stop) :
        tokens[i].raw.toList ≠ [] := by
      intro empty
      have slice := (standsIn _ (List.getElem_mem hi)).raw
      rw [empty] at slice
      obtain ⟨text, after, -, start, stop⟩ := Text.slice?_eq_some.mp slice
      rw [List.append_nil, start] at stop
      exact Nat.ne_of_lt (laid.proper hi (by omega)) stop
    obtain ⟨text, slice, nonempty⟩ : ∃ text, Text.slice? source tokens[r.start].span.start
        tokens[r.stop - 1].span.stop = some text ∧ text ≠ [] := by
      rcases Nat.eq_or_lt_of_le (Nat.le_sub_one_of_lt less) with same | further
      · simp only [← same]
        exact ⟨_, (standsIn _ (List.getElem_mem hf)).raw, raw _ hf less⟩
      · have apart := List.pairwise_iff_getElem.mp laid.ordered _ _ hf hl further
        obtain ⟨between, whole⟩ := Text.slice?_join (standsIn _ (List.getElem_mem hf)).raw
          (standsIn _ (List.getElem_mem hl)).raw apart
        exact ⟨_, whole, by simp [raw _ hf less]⟩
    have own : r.text source (tokens.map Token.span) = text := by
      have proper : r.isEmpty = false := by simp [isEmpty, length]; omega
      simp [TokenRange.text, starts, ends, proper, slice]
    rw [own]
    exact .part less starts ends slice nonempty

end TokenRange

/-- The spans go on through the source. -/
def AreRising (tokens : List Token) : Prop := tokens.Pairwise fun a b =>
  a.span.start ≤ b.span.start ∧ a.span.stop ≤ b.span.stop

theorem Lexer.start_le_place (p : Position) (ps : List Piece) :
    ∀ t ∈ place p ps, p.byte ≤ t.span.start ∧ t.span.start ≤ t.span.stop := by
  induction ps generalizing p with
  | nil =>
    intro t member
    rw [List.mem_singleton.mp member]
    exact ⟨Nat.le_refl _, Nat.le_add_right _ _⟩
  | cons piece ps ih =>
    intro t member
    rcases List.mem_append.mp member with own | later
    · cases piece with
      | trivia text => cases own
      | lexeme kind value text =>
        rw [List.mem_singleton.mp own]
        exact ⟨Nat.le_refl _, Nat.le_add_right _ _⟩
    · have beyond := ih _ t later
      rw [Position.after_byte] at beyond
      omega

theorem Lexer.areRising_place (p : Position) (ps : List Piece) : AreRising (place p ps) := by
  induction ps generalizing p with
  | nil => exact List.pairwise_singleton _ _
  | cons piece ps ih =>
    refine List.pairwise_append.mpr ⟨?_, ih _, fun a own b later => ?_⟩
    · cases piece with
      | trivia text => exact .nil
      | lexeme kind value text => exact List.pairwise_singleton _ _
    · cases piece with
      | trivia text => cases own
      | lexeme kind value text =>
        have beyond := start_le_place _ _ b later
        rw [List.mem_singleton.mp own]
        simp only [Position.after_byte, Piece.text] at beyond
        simp only [Token.span, Position.place] at beyond ⊢
        omega

namespace TokenStream

variable {stream : TokenStream} {i : Nat}

theorem getElem?_toList (h : i < stream.size) : stream.toList[i]? = some (stream.get i) := by
  have inside : i < stream.toList.length := h
  rw [get_eq, List.getElem?_eq_getElem inside, Option.getD_some]

end TokenStream

namespace Scope

variable {scope : Scope} {r r' : TokenRange} {span : Span}

theorem Delimits.stop_lt (h : scope.Delimits r) : r.stop < scope.stream.size :=
  Nat.lt_of_succ_lt (TokenStream.lt_size_of_kind_ne (by simp [h.closing]))

theorem Delimits.isBody (h : scope.Delimits r) : r.IsBody scope.stream.toList := by
  have inside := h.stop_lt
  have le := h.matched.le
  refine ⟨h.start_pos, le, ⟨_, TokenStream.getElem?_toList (by omega), h.opening⟩,
    ⟨_, TokenStream.getElem?_toList inside, h.closing⟩, ?_⟩
  have braces := h.matched.braces
  rwa [TokenStream.between_eq] at braces

theorem Encloses.belongsTo (rising : AreRising scope.stream.toList) (h : scope.Encloses span r) :
    r.BelongsTo scope.stream.toList span := by
  have inside := h.stop_lt
  obtain ⟨first, before, rfl⟩ := h.covers
  have onward {i j : Nat} (le : i ≤ j) (hj : j ≤ r.stop) :
      (scope.stream.get i).span.start ≤ (scope.stream.get j).span.start ∧
        (scope.stream.get i).span.stop ≤ (scope.stream.get j).span.stop := by
    rcases Nat.eq_or_lt_of_le le with rfl | lt
    · exact ⟨Nat.le_refl _, Nat.le_refl _⟩
    · have hi : i < scope.stream.toList.length := by
        have : r.stop < scope.stream.toList.length := inside
        omega
      have hj : j < scope.stream.toList.length := Nat.lt_of_le_of_lt hj inside
      have own := List.pairwise_iff_getElem.mp rising i j hi hj lt
      rwa [← Option.some.inj ((List.getElem?_eq_getElem hi).symm.trans
          (TokenStream.getElem?_toList hi)),
        ← Option.some.inj ((List.getElem?_eq_getElem hj).symm.trans
          (TokenStream.getElem?_toList hj))]
  have le := h.matched.le
  have whole := onward (show first ≤ r.stop by omega) (Nat.le_refl _)
  refine ⟨fun {i t} since upTo here => ?_, _, TokenStream.getElem?_toList inside, ?_⟩
  · rw [TokenStream.getElem?_toList (by omega), Option.some.injEq] at here
    subst here
    have starts := (onward (show first ≤ i by omega) upTo).1
    have stops := (onward upTo (Nat.le_refl _)).2
    simp only [Span.cover]
    omega
  · simp only [Span.cover]
    omega

/-- A range that begins in another ends in it: else the closing brace of the other would close a
    brace that is open in this one. -/
theorem Delimits.stop_le (h : scope.Delimits r) (h' : scope.Delimits r') (le : r.start ≤ r'.start)
    (overlap : r'.start ≤ r.stop) : r'.stop ≤ r.stop := by
  by_contra beyond
  obtain ⟨d, inner⟩ := h'.matched.before overlap (by omega)
  rcases Nat.eq_or_lt_of_le le with same | less
  · -- Both open with the same brace.
    obtain ⟨d, closed⟩ := h'.matched.before (k := r.stop + 1) (by omega) (by omega)
    rw [TokenStream.between_append _ overlap (Nat.le_succ _),
      TokenStream.between_succ h.stop_lt, openBraces?_append, ← same, h.matched.braces] at closed
    simp [openBraces?, h.closing] at closed
  · have own := h.matched.braces
    have last : r'.start - 1 + 1 = r'.start := Nat.sub_add_cancel h'.start_pos
    have inside := h.stop_lt
    obtain ⟨e, outer⟩ := h.matched.before (k := r'.start - 1) (by omega) (by omega)
    rw [TokenStream.between_append _ (show r.start ≤ r'.start - 1 by omega)
        (show r'.start - 1 ≤ r.stop by omega), openBraces?_append, outer, Option.bind_some,
      TokenStream.between_append _ (show r'.start - 1 ≤ r'.start by omega) overlap,
      openBraces?_append] at own
    have first : scope.stream.between (r'.start - 1) r'.start =
        [scope.stream.get (r'.start - 1)] := by
      have one := @TokenStream.between_succ scope.stream (r'.start - 1) (by omega)
      rwa [last] at one
    rw [first, openBraces?_opening h'.opening, Option.bind_some] at own
    have more := openBraces?_add inner (e + 1)
    rw [Nat.zero_add, own] at more
    cases more

theorem Delimits.areNested (h : scope.Delimits r) (h' : scope.Delimits r') : r.AreNested r' := by
  rcases Nat.le_total r.start r'.start with le | le
  · rcases Nat.lt_or_ge r.stop r'.start with apart | overlap
    · exact .inl apart
    · exact .inr (.inr (.inl ⟨le, h.stop_le h' le overlap⟩))
  · rcases Nat.lt_or_ge r'.stop r.start with apart | overlap
    · exact .inr (.inl apart)
    · exact .inr (.inr (.inr ⟨le, h'.stop_le h le overlap⟩))

end Scope

end PulseSyntax
