import PulseSyntax.Proofs.Parser.Crossing
import PulseSyntax.Proofs.Program.Branches

namespace PulseSyntax

open PulseSyntax.Parser Scope.Link Scope.Crossing

/-- What may stand after an entry. -/
def TokenKind.IsSeparator (kind : TokenKind) : Prop := kind = .symbol .comma ∨ kind = .symbol .semicolon

namespace TokenKind.IsSeparator

variable {kind : TokenKind}

theorem loose (h : kind.IsSeparator) : kind.Loose := by
  obtain rfl | rfl := h <;> exact ⟨by simp, rfl, by simp⟩

theorem goesOnAt (h : kind.IsSeparator) : kind.goesOnAt = 11 := by
  obtain rfl | rfl := h <;> rfl

end TokenKind.IsSeparator

section

variable {scope : Scope} {s t : ParserState} {σ α : Type}

theorem separatorRound_apply (scope : Scope) (s : ParserState) :
    (((scope.stream.get s.cursor).kind.IsSeparator →
      separatorRound () scope s = .ok (.yield ()) (s.ahead 1)) ∧
    (¬ (scope.stream.get s.cursor).kind.IsSeparator →
      separatorRound () scope s = .ok (.done ()) s)) := by
  rw [separatorRound, bind_of_ok current_apply]
  constructor
  · intro separator
    rw [if_pos (by simpa [TokenKind.IsSeparator] using separator),
      bind_of_ok (advance_apply separator.loose.real)]
    rfl
  · intro other
    rw [if_neg (by simpa [TokenKind.IsSeparator] using other)]
    rfl

theorem skipSeparators_apply {n : Nat}
    (separators : ∀ k, k < n → (scope.stream.get (s.cursor + k)).kind.IsSeparator)
    (stop : ¬ (scope.stream.get (s.cursor + n)).kind.IsSeparator) :
    skipSeparators scope s = .ok () (s.ahead n) := by
  have rounds : Rounds separatorRound scope () s () (s.ahead n) := by
    induction n generalizing s with
    | zero => exact .refl _ _
    | succ n ih =>
      have first : (scope.stream.get s.cursor).kind.IsSeparator := separators 0 (Nat.succ_pos n)
      have size := Nat.lt_of_succ_lt (TokenStream.lt_size_of_kind_ne first.loose.real)
      have rest := ih (s := s.ahead 1) (fun k lt => by
        rw [ParserState.ahead_cursor, Nat.add_assoc, Nat.add_comm 1]
        exact separators (k + 1) (Nat.succ_lt_succ lt)) (by
        rwa [ParserState.ahead_cursor, Nat.add_assoc, Nat.add_comm 1])
      rw [ParserState.ahead_ahead, Nat.add_comm] at rest
      exact .head ((separatorRound_apply scope s).1 first) size (Nat.lt_succ_self _) rest
  exact rounds.loop ((separatorRound_apply scope _).2 stop)

/-- Reads one more item of a list. -/
def Parser.collect (item : Array α → Parser α) (items : Array α) : Parser (Array α) :=
  items.push <$> item items

theorem manyAfter_entry (item : Array α → Parser α) :
    manyAfter .closeBrace (fun before => entry (item before)) =
      Array.toList <$> foldEntries (collect item) #[] := by
  have rounds : manyRound .closeBrace (fun before => entry (item before)) =
      entryRound (collect item) := by
    funext items
    simp only [manyRound, entryRound, entry, collect, ← bind_pure_comp, bind_assoc, pure_bind]
  rw [manyAfter_eq, rounds, foldEntries_eq, bind_pure_comp]

/-- Of the entries that are read from a state on up to the end of their list, one ends at an index. -/
inductive Scope.EndsEntry (scope : Scope) (add : σ → Parser σ) (start : σ) (s : ParserState) (i : Nat) :
    Prop
  | intro {x y z : σ} {u v t : ParserState} (before : Rounds (entryRound add) scope start s x u)
    (read : add x scope u = .ok y v) (ends : v.cursor = i)
    (whole : foldEntries add start scope s = .ok z t) : EndsEntry scope add start s i

/-- In a list that starts at a state with a word, an entry ends at an index. -/
inductive Scope.AfterItem (scope : Scope) (s : ParserState) (i : Nat) : Keyword → Prop
  | props (entry : scope.EndsEntry (collect fun _ => Property.parser) #[] (s.ahead 2) i) :
    AfterItem scope s i .props
  | state (entry : scope.EndsEntry (collect fun _ => Property.parser) #[] (s.ahead 2) i) :
    AfterItem scope s i .state
  | actions (entry : scope.EndsEntry (collect fun _ => Action.parser) #[] (s.ahead 2) i) :
    AfterItem scope s i .actions
  | getters (entry : scope.EndsEntry (collect fun _ => Getter.parser) #[] (s.ahead 2) i) :
    AfterItem scope s i .getters
  | routes {t : ParserState} (opens : Route.OpensList scope s t)
    (entry : scope.EndsEntry (collect Route.parser) #[] t i) : AfterItem scope s i .routes

/-- In a block that starts at a state with a word, an entry of the block or of a list in it ends at an
    index. -/
inductive Scope.AfterEntry (scope : Scope) (s : ParserState) (i : Nat) : Keyword → Prop
  | list {word : Keyword} (item : scope.AfterItem s i word) : AfterEntry scope s i word
  | router (entry : scope.EndsEntry RouterFields.add RouterFields.filling.empty (s.ahead 2) i) :
    AfterEntry scope s i .router
  | store (entry : scope.EndsEntry StoreFields.add StoreFields.filling.empty (s.ahead 2) i) :
    AfterEntry scope s i .store
  | inRouter {u : ParserState} {fields : RouterFields}
    (before : Rounds (entryRound RouterFields.add) scope RouterFields.filling.empty (s.ahead 2) fields u)
    (here : (scope.stream.get u.cursor).kind = .keyword .routes)
    (item : scope.AfterItem u i .routes) : AfterEntry scope s i .router
  | inStore {u : ParserState} {fields : StoreFields} {word : Keyword}
    (before : Rounds (entryRound StoreFields.add) scope StoreFields.filling.empty (s.ahead 2) fields u)
    (here : (scope.stream.get u.cursor).kind = .keyword word) (item : scope.AfterItem u i word) :
    AfterEntry scope s i .store

/-- An entry starts at an index, with a token that nothing before it goes on with. -/
structure Scope.StartsEntry (scope : Scope) (i : Nat) : Prop where
  more : ¬ Filling.EndsBlock (scope.stream.get i).kind
  settles : scope.stream.Settles i

namespace Scope.EndsEntry

variable {add : σ → Parser σ} {start : σ} {i n : Nat}

theorem lt (h : scope.EndsEntry add start s i) (moving : ∀ scope depth x, (Scope.course scope depth).Moving (add x)) :
    s.cursor < i := by
  obtain ⟨before, read, rfl, -⟩ := h
  have reaches := before.reaches (Course.turning_entryRound (moving scope s.depth))
  exact Nat.lt_of_le_of_lt reaches.cursor ((moving scope _ _ _ rfl).progress read trivial)

theorem settles (h : scope.EndsEntry add start s i)
    (moving : ∀ scope depth x, (Scope.course scope depth).Moving (add x))
    (starts : ∀ {x y u v}, add x scope u = .ok y v → scope.StartsEntry u.cursor)
    (separators : ∀ k, k < n → (scope.stream.get (i + k)).kind.IsSeparator)
    (stop : ¬ (scope.stream.get (i + n)).kind.IsSeparator) : scope.stream.Settles (i + n) := by
  obtain @⟨x, y, z, u, v, t, before, read, rfl, whole⟩ := h
  have turning := Course.turning_entryRound (moving scope s.depth)
  have onward := (moving scope _ x u rfl).reaches read
  have progress := (moving scope _ x u rfl).progress read trivial
  have size : v.cursor < scope.stream.size := onward.lt_size progress
  have inside : u.cursor < scope.stream.size := Nat.lt_trans progress size
  have first : s.cursor < scope.stream.size :=
    Nat.lt_of_le_of_lt (before.reaches turning).cursor inside
  have round : entryRound add x scope u = .ok (.yield y) (v.ahead n) := by
    rw [entryRound_apply, if_neg (starts read).more, bind_of_ok (entry_eq_ok.mpr ⟨v, read,
      skipSeparators_apply separators stop⟩)]
    rfl
  -- What the list goes on with at the end of the separators has been read as well.
  have rounds : Rounds (entryRound add) scope start s y (v.ahead n) :=
    before.trans (.head round inside (Nat.lt_add_right n progress) (.refl _ _))
  have all : Parser.Repeats (entryRound add) scope start s (foldEntries add start scope s) :=
    turning.repeats rfl first
  have last := rounds.repeats (whole ▸ all)
  by_cases ends : Filling.EndsBlock (scope.stream.get (v.cursor + n)).kind
  · obtain kind | kind := ends <;> exact .inl (by rw [kind]; rfl)
  · have next {reply : ForInStep σ} {w : ParserState}
        (ok : entryRound add y scope (v.ahead n) = .ok reply w) : scope.stream.Settles (v.cursor + n) := by
      rw [entryRound_apply, ParserState.ahead_cursor, if_neg ends] at ok
      obtain ⟨_, _, more, -⟩ := bind_eq_ok.mp ok
      obtain ⟨_, next, -⟩ := entry_eq_ok.mp more
      exact (starts next).settles
    cases last with
    | done _ ok => exact next ok
    | yield _ ok => exact next ok

end Scope.EndsEntry

variable {i : Nat} {word : Keyword}

theorem Scope.StartsEntry.of_keyword (kind : (scope.stream.get i).kind = .keyword word) :
    scope.StartsEntry i := by
  refine ⟨?_, .inl ?_⟩
  · rw [kind]
    simp [Filling.EndsBlock]
  · rw [kind]
    rfl

theorem Scope.StartsEntry.of_string (kind : (scope.stream.get i).kind = .string) :
    scope.StartsEntry i := by
  refine ⟨?_, .inl ?_⟩
  · rw [kind]
    simp [Filling.EndsBlock]
  · rw [kind]
    rfl

theorem Scope.StartsEntry.of_name (name : (scope.stream.get i).kind.isName = true)
    (next : (scope.stream.get (i + 1)).kind ≠ .symbol .arrow) : scope.StartsEntry i := by
  by_cases identifier : (scope.stream.get i).kind = .identifier
  · refine ⟨?_, .inr ⟨identifier, next⟩⟩
    rw [identifier]
    simp [Filling.EndsBlock]
  · obtain ⟨word, keyword⟩ : ∃ word, (scope.stream.get i).kind = .keyword word := by
      generalize (scope.stream.get i).kind = kind at name identifier
      cases kind with
      | keyword word => exact ⟨word, rfl⟩
      | identifier => exact absurd rfl identifier
      | _ => cases name
    exact .of_keyword keyword

theorem Property.startsEntry {p : Property} (ok : parser scope s = .ok p t) :
    scope.StartsEntry s.cursor := by
  have colon {name : Token} {u : ParserState} (rest : (do
      let _ ← expectSymbol .colon
      let value ← Expr.parser
      return (⟨name.text, value, name.span.cover value.span⟩ : Property)) scope u = .ok p t) :
      (scope.stream.get u.cursor).kind = .symbol .colon := by
    obtain ⟨_, _, sign, -⟩ := bind_eq_ok.mp rest
    exact ((expect_eq_ok (by simp)).mp sign).1
  obtain ⟨string, _, look, ok⟩ := bind_eq_ok.mp ok
  cases look
  by_cases found : (scope.stream.get s.cursor).kind = .string
  · exact .of_string found
  · rw [if_neg (by simpa using found)] at ok
    obtain ⟨name, u, read, rest⟩ := bind_eq_ok.mp ok
    obtain ⟨isName, -, rfl⟩ := expectName_iff.mp read
    refine .of_name isName ?_
    rw [← ParserState.ahead_cursor, colon rest]
    simp

theorem Action.startsEntry {f : Action} (ok : parser scope s = .ok f t) :
    scope.StartsEntry s.cursor := by
  have called {first : Token} {isAsync : Bool} (ok : namedParser first isAsync scope s = .ok f t) :
      (scope.stream.get (s.cursor + 1)).kind = .symbol .openParen := by
    have name := isName_of_namedParser ok
    obtain ⟨_, _, look, rest⟩ := bind_eq_ok.mp ok
    cases look
    rw [if_neg (by simpa using name), bind_of_ok (advance_apply (Course.isName_ne name))] at rest
    obtain ⟨_, _, params, -⟩ := bind_eq_ok.mp rest
    obtain ⟨_, _, sign, -⟩ := bind_eq_ok.mp params
    exact ((expect_eq_ok (by simp)).mp sign).1
  rw [parser_eq, bind_of_ok current_apply, bind_of_ok peek_apply, parserAfter] at ok
  split at ok
  · next isAsync =>
    have identifier : (scope.stream.get s.cursor).kind = .identifier := by
      simp only [Bool.and_eq_true, beq_iff_eq] at isAsync
      exact isAsync.1.1
    rw [bind_of_ok (advance_apply (by simp [identifier]))] at ok
    have next : (scope.stream.get (s.cursor + 1)).kind.isName = true := isName_of_namedParser ok
    refine .of_name (by rw [identifier]; rfl) ?_
    rintro arrow
    rw [arrow] at next
    cases next
  · refine .of_name (isName_of_namedParser ok) ?_
    rw [called ok]
    simp

theorem Getter.startsEntry {g : Getter} (ok : parser scope s = .ok g t) :
    scope.StartsEntry s.cursor := by
  obtain ⟨_, _, look, ok⟩ := bind_eq_ok.mp ok
  cases look
  by_cases name : (scope.stream.get s.cursor).kind.isName = true
  · refine .of_name name fun arrow => ?_
    have closed : eatSymbol .openParen scope (s.ahead 1) = .ok false (s.ahead 1) := by
      rw [eatSymbol, eat_apply (by simp), if_neg (by simp [arrow])]
    rw [if_neg (by simpa using name), bind_of_ok (advance_apply (Course.isName_ne name)),
      bind_of_ok closed] at ok
    obtain ⟨_, _, body, -⟩ := bind_eq_ok.mp ok
    obtain ⟨_, braced, -⟩ := rawBlock_iff.mp body
    have opening := braced.opening
    rw [ParserState.ahead_cursor, arrow] at opening
    cases opening
  · rw [if_pos (by simpa using name)] at ok
    exact absurd ok failAtToken_ne_ok

theorem Route.startsEntry {before : Array Route} {r : Route} (ok : parser before scope s = .ok r t) :
    scope.StartsEntry s.cursor := by
  obtain ⟨_, _, path, -⟩ := bind_eq_ok.mp ok
  exact .of_string ((expect_eq_ok (by simp)).mp path).1

theorem EntryReader.startsEntry {σ ε : Type} {F : Filling σ ε Keyword} {R : EntryReader F} {x y : σ}
    (words : ∀ {kind next word}, R.field? kind next = some word → ∃ first, kind = .keyword first)
    (ok : R.add x scope s = .ok y t) : scope.StartsEntry s.cursor := by
  obtain ⟨_, entry, -⟩ := add_eq_ok.mp ok
  obtain ⟨word, here, -⟩ := entry_eq_ok.mp entry
  obtain ⟨first, kind⟩ := words here
  exact .of_keyword kind

theorem RouterFields.startsEntry {x y : RouterFields} (ok : x.add scope s = .ok y t) :
    scope.StartsEntry s.cursor := by
  rw [add_eq] at ok
  refine EntryReader.startsEntry (fun {kind _ word} (here : RouterField.ofKind? kind = _) => ?_) ok
  cases kind with
  | keyword first => exact ⟨first, rfl⟩
  | _ => cases here

theorem StoreFields.startsEntry {x y : StoreFields} (ok : x.add scope s = .ok y t) :
    scope.StartsEntry s.cursor := by
  rw [add_eq] at ok
  refine EntryReader.startsEntry (fun {kind _ word} (here : StoreField.ofKind? kind = _) => ?_) ok
  cases kind with
  | keyword first => exact ⟨first, rfl⟩
  | _ => cases here

theorem startsEntry_of_collect {α : Type} {item : Array α → Parser α} {xs ys : Array α}
    (starts : ∀ {y t}, item xs scope s = .ok y t → scope.StartsEntry s.cursor)
    (ok : collect item xs scope s = .ok ys t) : scope.StartsEntry s.cursor := by
  obtain ⟨y, read, -⟩ := map_eq_ok.mp ok
  exact starts read

theorem moving_collect {α : Type} {c : Course} {item : Array α → Parser α} {xs : Array α}
    (moving : c.Moving (item xs)) : c.Moving (collect item xs) :=
  moving.bind fun _ => Course.steady_pure _

namespace Scope.AfterItem

variable {n : Nat}

theorem settles (h : scope.AfterItem s i word)
    (separators : ∀ k, k < n → (scope.stream.get (i + k)).kind.IsSeparator)
    (stop : ¬ (scope.stream.get (i + n)).kind.IsSeparator) : scope.stream.Settles (i + n) := by
  cases h with
  | props entry | state entry =>
    exact entry.settles (fun _ _ _ => moving_collect Property.parser_starting.moving)
      (startsEntry_of_collect Property.startsEntry) separators stop
  | actions entry =>
    exact entry.settles (fun _ _ _ => moving_collect Action.parser_moving)
      (startsEntry_of_collect Action.startsEntry) separators stop
  | getters entry =>
    exact entry.settles (fun _ _ _ => moving_collect Getter.parser_starting.moving)
      (startsEntry_of_collect Getter.startsEntry) separators stop
  | routes _ entry =>
    exact entry.settles (fun _ _ _ => moving_collect (Route.parser_starting _).moving)
      (startsEntry_of_collect Route.startsEntry) separators stop

theorem lt (h : scope.AfterItem s i word) : s.cursor + 2 < i := by
  cases h with
  | props entry | state entry =>
    exact entry.lt fun _ _ _ => moving_collect Property.parser_starting.moving
  | actions entry => exact entry.lt fun _ _ _ => moving_collect Action.parser_moving
  | getters entry => exact entry.lt fun _ _ _ => moving_collect Getter.parser_starting.moving
  | routes opens entry =>
    have last := entry.lt fun _ _ _ => moving_collect (Route.parser_starting _).moving
    cases opens with
    | plain => exact last
    | colon => exact Nat.lt_of_succ_lt last

end Scope.AfterItem

namespace Scope.AfterEntry

variable {n : Nat}

theorem settles (h : scope.AfterEntry s i word)
    (separators : ∀ k, k < n → (scope.stream.get (i + k)).kind.IsSeparator)
    (stop : ¬ (scope.stream.get (i + n)).kind.IsSeparator) : scope.stream.Settles (i + n) := by
  cases h with
  | router entry =>
    exact entry.settles (fun _ _ _ => RouterFields.moving_add _) RouterFields.startsEntry separators stop
  | store entry =>
    exact entry.settles (fun _ _ _ => StoreFields.moving_add _) StoreFields.startsEntry separators stop
  | list item | inRouter _ _ item | inStore _ _ item => exact item.settles separators stop

theorem lt (h : scope.AfterEntry s i word) : s.cursor + 2 < i := by
  cases h with
  | list item => exact item.lt
  | router entry => exact entry.lt fun _ _ _ => RouterFields.moving_add _
  | store entry => exact entry.lt fun _ _ _ => StoreFields.moving_add _
  | inRouter before _ item =>
    have start := (before.reaches (Course.turning_entryRound fun _ => RouterFields.moving_add _)).cursor
    have lt := item.lt
    rw [ParserState.ahead_cursor] at start
    omega
  | inStore before _ item =>
    have start := (before.reaches (Course.turning_entryRound fun _ => StoreFields.moving_add _)).cursor
    have lt := item.lt
    rw [ParserState.ahead_cursor] at start
    omega

end Scope.AfterEntry

end

/-- The tokens of two scopes are the same but for the separators in one place. -/
structure Scope.Separation (a b : Scope) (gap after after' : Nat) : Prop extends
    a.Splice b gap after after' where
  separators : ∀ {i}, gap ≤ i → i < after → (a.stream.get i).kind.IsSeparator
  separators' : ∀ {i}, gap ≤ i → i < after' → (b.stream.get i).kind.IsSeparator
  stop : ¬ (a.stream.get after).kind.IsSeparator
  settles : a.stream.Settles after

namespace Scope.Separation

variable {a b : Scope} {gap after after' : Nat} (S : a.Separation b gap after after')

include S

theorem get_after' : b.stream.get after' = a.stream.get after :=
  (S.get_after (n := 0) S.size).symm

theorem settles_gap : a.stream.Settles gap ∧ b.stream.Settles gap := by
  constructor
  · rcases Nat.eq_or_lt_of_le S.le with same | some
    · exact same ▸ S.settles
    · exact .inl (S.separators (Nat.le_refl gap) some).goesOnAt
  · rcases Nat.eq_or_lt_of_le S.le' with rfl | some
    · rcases S.settles with settled | ⟨identifier, next⟩
      · exact .inl (by rwa [S.get_after'])
      · have size : after + 1 < a.stream.size :=
          TokenStream.lt_size_of_kind_ne (by rw [identifier]; simp)
        refine .inr ⟨by rwa [S.get_after'], ?_⟩
        rwa [← S.get_after size]
    · exact .inl (S.separators' (Nat.le_refl gap) some).goesOnAt

/-- Before the separators, and beyond them. -/
def crossing : a.Crossing b where
  before := S.toSplice.link S.settles_gap TokenRange.unplaced
  beyond := S.toSplice.linkAfter TokenRange.unplaced fun i n => by
    rw [TokenRange.unplaced, TokenRange.unplaced, Nat.add_sub_add_left, Nat.add_sub_add_left]
  left := rfl
  right := rfl
  free := rfl

theorem within {i : Nat} (le : i ≤ gap) : Within S.crossing.before.bound i := by
  rintro _ ⟨⟩
  exact le

theorem crosses_skipSeparators {v : ParserState} (here : v.cursor = gap) :
    S.crossing.Crosses (fun _ => id) skipSeparators skipSeparators v := by
  obtain ⟨n, rfl⟩ := Nat.exists_eq_add_of_le S.le
  obtain ⟨n', rfl⟩ := Nat.exists_eq_add_of_le S.le'
  subst here
  have first : skipSeparators a v = .ok () (v.ahead n) :=
    skipSeparators_apply (fun k lt => S.separators (Nat.le_add_right _ k) (Nat.add_lt_add_left lt _))
      S.stop
  have second : skipSeparators b v = .ok () (v.ahead n') := by
    refine skipSeparators_apply
      (fun k lt => S.separators' (Nat.le_add_right _ k) (Nat.add_lt_add_left lt _)) ?_
    rw [S.get_after']
    exact S.stop
  intro _ t ok
  cases first.symm.trans ok
  refine ⟨⟨Nat.le_refl _, S.size⟩, (), second.trans ?_, rfl⟩
  refine congrArg (Reply.ok ()) ?_
  change (⟨v.cursor + n', v.depth⟩ : ParserState) = ⟨v.cursor + n - (v.cursor + n) + (v.cursor + n'), v.depth⟩
  rw [Nat.sub_self, Nat.zero_add]

end Scope.Separation

theorem copies_collect {a b : Scope} {T : a.Link b} {α ε : Type} {n : Nat} {s : ParserState}
    {e : (TokenRange → TokenRange) → α → ε} {item : Array α → Parser α} {xs ys : Array α}
    (same : items e T.left xs = items e T.right ys) (h : T.Copies n e (item xs) (item ys) s) :
    T.Copies n (items e) (collect item xs) (collect item ys) s :=
  h.bind fun _ _ _ _ alike => copies_pure (items_push same alike)

namespace Scope.EndsEntry

variable {a b : Scope} {gap after after' : Nat} {S : a.Separation b gap after after'}
variable {α ε ζ σ : Type} {s : ParserState}
variable {e : (TokenRange → TokenRange) → α → ε} {d : (TokenRange → TokenRange) → σ → ζ}

theorem crosses {add : σ → Parser σ} {x y : σ} (h : a.EndsEntry add x s gap)
    (moving : ∀ scope depth x, (Scope.course scope depth).Moving (add x))
    (starts : ∀ {x y u v}, add x a u = .ok y v → a.StartsEntry u.cursor)
    (copies : ∀ (T : a.Link b) x y s, d T.left x = d T.right y → T.Copies 0 d (add x) (add y) s)
    (same : d TokenRange.unplaced x = d TokenRange.unplaced y) :
    S.crossing.Crosses d (foldEntries add x) (foldEntries add y) s := by
  obtain @⟨w, _, _, u, v, _, before, read, ends, -⟩ := h
  have start := (before.reaches (Course.turning_entryRound (moving a s.depth))).cursor
  have progress := (moving a _ w u rfl).progress read trivial
  refine Crossing.crosses_foldEntries moving copies before (Nat.le_of_lt (by omega)) (S.within (by omega))
    (starts read).more (fun w' there alike => ?_) same
  exact Crossing.crosses_entry (copies _ _ _ _ alike) there read (S.within (Nat.le_of_eq ends))
    (S.crosses_skipSeparators ends)

theorem crosses_manyAfter {item : Array α → Parser α} (h : a.EndsEntry (collect item) #[] s gap)
    (moving : ∀ scope depth before, (Scope.course scope depth).Moving (item before))
    (starts : ∀ {xs y u v}, item xs a u = .ok y v → a.StartsEntry u.cursor)
    (copies : ∀ (T : a.Link b) xs ys s, items e T.left xs = items e T.right ys →
      T.Copies 0 e (item xs) (item ys) s) :
    S.crossing.Crosses (each e) (manyAfter .closeBrace fun before => entry (item before))
      (manyAfter .closeBrace fun before => entry (item before)) s := by
  rw [manyAfter_entry]
  have entries := h.crosses (S := S) (d := items e) (y := #[])
    (fun scope depth xs => moving_collect (moving scope depth xs)) (startsEntry_of_collect starts)
    (fun T xs ys s same => copies_collect same (copies T xs ys s same)) rfl
  exact entries.map fun _ _ same => same

end Scope.EndsEntry

namespace Scope.AfterEntry

variable {a b : Scope} {gap after after' : Nat} {S : a.Separation b gap after after'}
variable {α ε : Type} {s u : ParserState} {word : Keyword}
variable {e : (TokenRange → TokenRange) → α → ε}

theorem crosses_braced {item : Parser α} (le : s.cursor < gap)
    (h : a.EndsEntry (collect fun _ => item) #[] (s.ahead 1) gap)
    (moving : ∀ scope depth, (Scope.course scope depth).Moving item)
    (starts : ∀ {y u v}, item a u = .ok y v → a.StartsEntry u.cursor)
    (copies : ∀ (T : a.Link b) s, T.Copies 0 e item item s) :
    S.crossing.Crosses (fun keep (x : List α × Span) => each e keep x.1)
      (braced (entry item)) (braced (entry item)) s := by
  refine crosses_expectSymbol (by simp) (Nat.le_of_lt le) (S.within le) fun _ => ?_
  have entries := h.crosses_manyAfter (S := S)
    (fun scope depth _ => moving scope depth) starts fun T _ _ s _ => copies T s
  refine entries.bind (n := 0) fun _ _ _ _ same => ?_
  exact copies_expectSymbol (by simp) (copies_pure same)

theorem crosses_propertyBlock (word : Keyword) (le : s.cursor + 2 < gap)
    (h : a.EndsEntry (collect fun _ => Property.parser) #[] (s.ahead 2) gap) :
    S.crossing.Crosses PropertyBlock.unplaced (PropertyBlock.parser word)
      (PropertyBlock.parser word) s := by
  refine crosses_expectKeyword (Nat.le_of_lt (by omega)) (S.within (by omega)) fun _ => ?_
  have entries := crosses_braced (S := S) (s := s.ahead 1)
    (Nat.lt_of_succ_lt le) h (fun _ _ => Property.parser_starting.moving) Property.startsEntry
    fun _ _ => Property.parser_copies
  refine entries.bind (n := 0) fun _ _ _ _ same => ?_
  exact copies_pure (congrArg (PropertyBlock.mk · default) same)

theorem crosses_actionsBlock (inFile : a.quotation = none) (le : s.cursor + 2 < gap)
    (h : a.EndsEntry (collect fun _ => Action.parser) #[] (s.ahead 2) gap) :
    S.crossing.Crosses ActionsBlock.unplaced ActionsBlock.parser ActionsBlock.parser s := by
  refine crosses_expectKeyword (Nat.le_of_lt (by omega)) (S.within (by omega)) fun there => ?_
  refine crosses_expectSymbol (by simp) there (S.within (Nat.le_of_lt le)) fun _ => ?_
  have entries := h.crosses_manyAfter (S := S)
    (fun _ _ _ => Action.parser_moving) Action.startsEntry fun _ _ _ _ _ => Action.parser_copies inFile
  refine entries.bind (n := 0) fun _ _ _ _ same => ?_
  exact copies_expectSymbol (by simp) (copies_pure (congrArg (ActionsBlock.mk · default) same))

theorem crosses_getters (inFile : a.quotation = none) (le : s.cursor + 2 < gap)
    (h : a.EndsEntry (collect fun _ => Getter.parser) #[] (s.ahead 2) gap) :
    S.crossing.Crosses (each Getter.unplaced) Getter.listParser Getter.listParser s := by
  refine crosses_expectKeyword (Nat.le_of_lt (by omega)) (S.within (by omega)) fun _ => ?_
  have entries := crosses_braced (S := S) (s := s.ahead 1)
    (Nat.lt_of_succ_lt le) h (fun _ _ => Getter.parser_starting.moving) Getter.startsEntry
    fun _ _ => Getter.parser_copies inFile
  exact entries.bind (n := 0) fun _ _ _ _ same => copies_pure same

theorem crosses_routes {t : ParserState} (opens : Route.OpensList a s t) (lt : t.cursor < gap)
    (h : a.EndsEntry (collect Route.parser) #[] t gap) :
    S.crossing.Crosses (each Route.unplaced) Route.listParser Route.listParser s := by
  have list := h.crosses_manyAfter (S := S)
    (fun _ _ before => (Route.parser_starting before).moving) Route.startsEntry
    fun _ _ _ _ same => Route.parser_copies same
  have rest : S.crossing.Crosses (each Route.unplaced)
      (manyAfter .closeBrace (fun before => entry (Route.parser before)) >>= fun routes =>
        expectSymbol .closeBrace >>= fun _ => pure routes)
      (manyAfter .closeBrace (fun before => entry (Route.parser before)) >>= fun routes =>
        expectSymbol .closeBrace >>= fun _ => pure routes) t :=
    list.bind (n := 0) fun _ _ _ _ same => copies_expectSymbol (by simp) (copies_pure same)
  cases opens with
  | plain word brace =>
    simp only [ParserState.ahead_cursor] at lt
    refine crosses_expectKeyword (Nat.le_of_lt (by omega)) (S.within (by omega)) fun there => ?_
    refine crosses_eatSymbol (by simp) there (S.within (Nat.le_of_lt lt)) (fun colon => ?_) fun _ => ?_
    · rw [ParserState.ahead_cursor, brace] at colon
      cases colon
    · exact crosses_expectSymbol (by simp) there (S.within (Nat.le_of_lt lt)) fun _ => rest
  | colon word colon brace =>
    simp only [ParserState.ahead_cursor] at lt
    refine crosses_expectKeyword (Nat.le_of_lt (by omega)) (S.within (by omega)) fun there => ?_
    refine crosses_eatSymbol (by simp) there (S.within (by simp; omega)) (fun _ there => ?_) fun none => ?_
    · exact crosses_expectSymbol (by simp) there (S.within (Nat.le_of_lt lt)) fun _ => rest
    · exact absurd colon none

end Scope.AfterEntry

section

variable {a b : Scope} {C : a.Crossing b} {s : ParserState}

theorem crosses_ensureFirst {α ε : Type} {e : (TokenRange → TokenRange) → α → ε} {p q : Unit → Parser α}
    {seen seen' : Bool} {field block : String} (same : seen = seen') (h : C.Crosses e (p ()) (q ()) s) :
    C.Crosses e (ensureFirst seen field block >>= p) (ensureFirst seen' field block >>= q) s := by
  subst same
  cases seen with
  | true =>
    intro x t ok
    obtain ⟨_, _, failed, -⟩ := bind_eq_ok.mp ok
    exact absurd failed fail_ne_ok
  | false => exact h

theorem RouterFields.crosses_add {fields fields' : RouterFields}
    (same : fields.unplaced C.beyond.left = fields'.unplaced C.beyond.right)
    (on : C.before.On s.cursor) (within : Within C.before.bound (s.cursor + 1))
    (here : (a.stream.get s.cursor).kind = .keyword .routes)
    (routes : C.Crosses (each Route.unplaced) Route.listParser Route.listParser s) :
    C.Crosses RouterFields.unplaced fields.add fields'.add s := by
  obtain ⟨mode, base, list, beforeEach, afterEach⟩ := fields
  obtain ⟨mode', base', list', beforeEach', afterEach'⟩ := fields'
  simp only [RouterFields.unplaced, RouterFields.mk.injEq] at same
  obtain ⟨rfl, rfl, sameRoutes, sameBefore, sameAfter⟩ := same
  refine crosses_current on within ?_
  rw [here]
  refine crosses_ensureFirst (isSome_of_map sameRoutes) ?_
  refine routes.bind (n := 0) fun _ _ _ _ value => copies_pure ?_
  rw [each, each] at value
  simp [unplaced, value, sameBefore, sameAfter]

end

namespace Scope.AfterItem

variable {a b : Scope} {gap after after' : Nat} {S : a.Separation b gap after after'}
variable {s : ParserState} {word : Keyword}

theorem crosses_store (inFile : a.quotation = none) {fields fields' : StoreFields}
    (h : a.AfterItem s gap word) (here : (a.stream.get s.cursor).kind = .keyword word)
    (same : fields.unplaced S.crossing.beyond.left =
      fields'.unplaced S.crossing.beyond.right) :
    S.crossing.Crosses StoreFields.unplaced fields.add fields'.add s := by
  have le := h.lt
  obtain ⟨state, getters, actions, persist, storageKey, plugins⟩ := fields
  obtain ⟨state', getters', actions', persist', storageKey', plugins'⟩ := fields'
  simp only [StoreFields.unplaced, StoreFields.mk.injEq] at same
  obtain ⟨sameState, sameGetters, sameActions, rfl, rfl, samePlugins⟩ := same
  refine crosses_current (Nat.le_of_lt (show s.cursor < gap by omega)) (S.within (by omega)) ?_
  rw [here]
  cases h with
  | state entry =>
    refine crosses_ensureFirst (isSome_of_map sameState) ?_
    refine (AfterEntry.crosses_propertyBlock _ le entry).bind (n := 0) fun _ _ _ _ value => copies_pure ?_
    simp [StoreFields.unplaced, value, sameGetters, sameActions, samePlugins]
  | getters entry =>
    refine crosses_ensureFirst (isSome_of_map sameGetters) ?_
    refine (AfterEntry.crosses_getters inFile le entry).bind (n := 0) fun _ _ _ _ value => copies_pure ?_
    rw [each, each] at value
    simp [StoreFields.unplaced, value, sameState, sameActions, samePlugins]
  | actions entry =>
    refine crosses_ensureFirst (isSome_of_map sameActions) ?_
    refine (AfterEntry.crosses_actionsBlock inFile le entry).bind (n := 0) fun _ _ _ _ value => copies_pure ?_
    simp [StoreFields.unplaced, value, sameState, sameGetters, samePlugins]
  | props | routes =>
    intro _ _ ok
    exact absurd ok failAtToken_ne_ok

end Scope.AfterItem

namespace Scope.AfterEntry

variable {a b : Scope} {gap after after' : Nat} {S : a.Separation b gap after after'}
variable {s : ParserState} {word : Keyword}

theorem crosses_router (inFile : a.quotation = none) (h : a.AfterEntry s gap .router) :
    S.crossing.Crosses RouterBlock.unplaced RouterBlock.parser RouterBlock.parser s := by
  have le := h.lt
  have moving (scope : Scope) (depth : Nat) (fields : RouterFields) :
      (scope.course depth).Moving fields.add := RouterFields.moving_add fields
  have copies (T : a.Link b) (x y : RouterFields) (s : ParserState)
      (same : x.unplaced T.left = y.unplaced T.right) :
      T.Copies 0 RouterFields.unplaced x.add y.add s := RouterFields.copies_add inFile same
  have fields : S.crossing.Crosses RouterFields.unplaced
      (foldEntries RouterFields.add RouterFields.filling.empty)
      (foldEntries RouterFields.add RouterFields.filling.empty) (s.ahead 2) := by
    cases h with
    | router entry => exact entry.crosses moving RouterFields.startsEntry copies rfl
    | @inRouter u _ before here item =>
      have lt := item.lt
      refine crosses_foldEntries moving copies before (Nat.le_of_lt le) (S.within (by omega))
        (StartsEntry.of_keyword here).more (fun _ there same => Crosses.entry ?_) rfl
      refine RouterFields.crosses_add same there (S.within (by omega)) here ?_
      cases item with
      | routes opens entry =>
        exact crosses_routes opens (entry.lt fun _ _ _ => moving_collect (Route.parser_starting _).moving)
          entry
    | list item => cases item
  refine crosses_expectKeyword (Nat.le_of_lt (by omega)) (S.within (by omega)) fun there => ?_
  refine crosses_expectSymbol (by simp) there (S.within (Nat.le_of_lt le)) fun _ => ?_
  refine fields.bind (n := 0) fun _ _ _ _ same => copies_expectSymbol (by simp) (copies_pure ?_)
  exact RouterFields.block_unplaced same

theorem crosses_store (inFile : a.quotation = none) (h : a.AfterEntry s gap .store) :
    S.crossing.Crosses StoreBlock.unplaced StoreBlock.parser StoreBlock.parser s := by
  have le := h.lt
  have moving (scope : Scope) (depth : Nat) (fields : StoreFields) :
      (scope.course depth).Moving fields.add := StoreFields.moving_add fields
  have copies (T : a.Link b) (x y : StoreFields) (s : ParserState)
      (same : x.unplaced T.left = y.unplaced T.right) :
      T.Copies 0 StoreFields.unplaced x.add y.add s := StoreFields.copies_add inFile same
  have fields : S.crossing.Crosses StoreFields.unplaced
      (foldEntries StoreFields.add StoreFields.filling.empty)
      (foldEntries StoreFields.add StoreFields.filling.empty) (s.ahead 2) := by
    cases h with
    | store entry => exact entry.crosses moving StoreFields.startsEntry copies rfl
    | @inStore u _ _ before here item =>
      have lt := item.lt
      refine crosses_foldEntries moving copies before (Nat.le_of_lt le) (S.within (by omega))
        (StartsEntry.of_keyword here).more (fun _ there same => Crosses.entry ?_) rfl
      exact item.crosses_store inFile here same
    | list item => cases item
  refine crosses_expectKeyword (Nat.le_of_lt (by omega)) (S.within (by omega)) fun there => ?_
  refine crosses_expectSymbol (by simp) there (S.within (Nat.le_of_lt le)) fun _ => ?_
  refine fields.bind (n := 0) fun _ _ _ _ same => copies_expectSymbol (by simp) (copies_pure ?_)
  exact StoreFields.block_unplaced same

theorem crosses_declaration (inFile : a.quotation = none) (h : a.AfterEntry s gap word) :
    S.crossing.Crosses Declaration.unplaced (Declaration.bare word) (Declaration.bare word)
      s := by
  cases h with
  | router entry =>
    exact (crosses_router inFile (.router entry)).map fun _ _ => congrArg Declaration.router
  | inRouter before here item =>
    exact (crosses_router inFile (.inRouter before here item)).map fun _ _ => congrArg Declaration.router
  | store entry =>
    exact (crosses_store inFile (.store entry)).map fun _ _ => congrArg Declaration.store
  | inStore before here item =>
    exact (crosses_store inFile (.inStore before here item)).map fun _ _ => congrArg Declaration.store
  | list item =>
    have le := item.lt
    cases item with
    | props entry => exact (crosses_propertyBlock _ le entry).map fun _ _ => congrArg Declaration.props
    | state entry => exact (crosses_propertyBlock _ le entry).map fun _ _ => congrArg Declaration.state
    | actions entry =>
      exact (crosses_actionsBlock inFile le entry).map fun _ _ => congrArg Declaration.actions
    | getters | routes =>
      intro _ _ ok
      exact absurd ok Declarations.failUnknown_ne_ok

end Scope.AfterEntry

theorem Declared.split {scope : Scope} {s t u : ParserState} {es es' : List Declaration}
    (atEnd : (scope.stream.get t.cursor).kind = .endOfFile) (h' : Declared scope s es' u)
    (h : Declared scope s es t) : ∃ later, es = es' ++ later ∧ Declared scope u later t := by
  induction h' generalizing es with
  | nil => exact ⟨es, rfl, h⟩
  | semicolon kind _ ih =>
    cases h with
    | nil =>
      rw [atEnd] at kind
      cases kind
    | semicolon _ more => exact ih more
    | declaration here => exact absurd kind (Declarations.reader_start here).2
  | declaration here read _ ih =>
    cases h with
    | nil => exact absurd atEnd (Declarations.reader_start here).1
    | semicolon kind => exact absurd kind (Declarations.reader_start here).2
    | declaration here' read' more =>
      cases here.symm.trans here'
      cases read.symm.trans read'
      obtain ⟨later, rfl, rest⟩ := ih more
      exact ⟨later, rfl, rest⟩

/-- An entry of a block that the file declares, or of a list in the block, ends at an index. -/
def Scope.EntryEnds (scope : Scope) (i : Nat) : Prop :=
  ∃ es s word, Declared scope .initial es s ∧ Declarations.reader.fieldAt? scope s = some word ∧
    scope.AfterEntry s i word

theorem Scope.Separation.of_toList {a b : Scope} {first mid mid' rest : List Token} {next : Token}
    (options : a.options = b.options) (inFile : a.quotation = none) (inFile' : b.quotation = none)
    (tokens : a.stream.toList = first ++ mid ++ next :: rest)
    (tokens' : b.stream.toList = first ++ mid' ++ next :: rest)
    (separators : ∀ t ∈ mid, t.kind.IsSeparator) (separators' : ∀ t ∈ mid', t.kind.IsSeparator)
    (stop : ¬ next.kind.IsSeparator) {s : ParserState} {word : Keyword}
    (entry : a.AfterEntry s first.length word) :
    a.Separation b first.length (first.length + mid.length) (first.length + mid'.length) := by
  have inner {i : Nat} (start : first.length ≤ i) (stop : i < first.length + mid.length) :=
    separators _ (TokenStream.get_mem_of_toList tokens start stop)
  have fromNext : a.stream.tokensFrom (first.length + mid.length) = next :: rest := by
    rw [TokenStream.tokensFrom_eq, tokens, ← List.length_append, List.drop_left]
  have last : a.stream.get (first.length + mid.length) = next := TokenStream.get_of_tokensFrom fromNext
  have settles : a.stream.Settles (first.length + mid.length) :=
    entry.settles (fun k lt => inner (Nat.le_add_right _ k) (Nat.add_lt_add_left lt _)) (last ▸ stop)
  have settled : next.kind.Settled := last ▸ settles.settled
  refine ⟨.of_toList options inFile inFile' tokens tokens' (fun t member => (separators t member).loose)
    (fun t member => (separators' t member).loose) ?_ ?_, inner,
    fun start stop => separators' _ (TokenStream.get_mem_of_toList tokens' start stop), last ▸ stop, settles⟩
  · rcases settled with level | identifier
    · rintro arrow
      rw [arrow] at level
      cases level
    · rw [identifier]
      simp
  · rcases settled with level | identifier
    · refine Option.eq_none_iff_forall_ne_some.mpr fun op update => ?_
      rw [Expr.goesOnAt_of_update update] at level
      cases level
    · rw [identifier]
      rfl

/-- After an entry any separators may stand, or none: the file declares the same, and the bodies of the
    functions in it have as many tokens. The brackets in its style blocks nest well, since a style block
    that reads on beyond its closing brace keeps the separators of other blocks as text. -/
theorem Program.parser_separators {a b : Scope} {first mid mid' rest : List Token} {next : Token}
    {program : Program} {t : ParserState} (options : a.options = b.options)
    (inFile : a.quotation = none) (inFile' : b.quotation = none)
    (tokens : a.stream.toList = first ++ mid ++ next :: rest)
    (tokens' : b.stream.toList = first ++ mid' ++ next :: rest)
    (separators : ∀ t ∈ mid, t.kind.IsSeparator) (separators' : ∀ t ∈ mid', t.kind.IsSeparator)
    (stop : ¬ next.kind.IsSeparator) (entry : a.EntryEnds first.length) (nest : a.StylesNest)
    (ok : Program.parser a .initial = .ok program t) :
    ∃ program' t', Program.parser b .initial = .ok program' t' ∧
      program.unplaced TokenRange.unplaced = program'.unplaced TokenRange.unplaced := by
  obtain ⟨es, s, word, before, here, entry⟩ := entry
  have S := Scope.Separation.of_toList options inFile inFile' tokens tokens' separators separators' stop
    entry
  have lt := entry.lt
  obtain ⟨atEnd, all, declared, distinct, filled⟩ := Declared.of_program ok
  obtain ⟨later, rfl, onward⟩ := before.split atEnd declared
  cases onward with
  | nil => exact absurd atEnd (Declarations.reader_start here).1
  | semicolon kind => exact absurd kind (Declarations.reader_start here).2
  | @declaration _ u _ found e later here' read more =>
    cases here.symm.trans here'
    obtain ⟨there, es', first', same⟩ := before.linked (T := S.crossing.before) inFile nest
      (fun _ _ _ _ _ _ => id) (.nil _) (Nat.zero_le _) (S.within (by omega))
    obtain ⟨beyond, e', second, alike⟩ := entry.crosses_declaration inFile read
    obtain ⟨final, later', rest', same'⟩ := more.linked (T := S.crossing.beyond) inFile nest
      (fun _ _ _ _ _ _ => id) (before.trans (.declaration here read (.nil _))) beyond
      (Scope.Crossing.within _)
    have start := Declaration.fieldAt?_linked here there (S.within (by omega))
    have whole := first'.trans (.declaration start second rest')
    have last : (b.stream.get (S.crossing.beyond.moved t).cursor).kind = .endOfFile := by
      rw [moved_cursor, ← S.crossing.beyond.token final (Scope.Crossing.within _), atEnd]
    have alike' : (es ++ e :: later).map (Declaration.unplaced S.crossing.beyond.left) =
        (es' ++ e' :: later').map (Declaration.unplaced S.crossing.beyond.right) := by
      rw [List.map_append, List.map_append, List.map_cons, List.map_cons, alike, same']
      exact congrArg (· ++ _) same
    obtain ⟨program', parsed, shown⟩ := whole.parser_linked last distinct filled alike'
    exact ⟨program', _, parsed, shown⟩

def storeTokens (mid : List Token) : List Token :=
  (tokenize "store { state { a: async b: 1 } persist: true }").take 7 ++ mid ++
    (tokenize "store { state { a: async b: 1 } persist: true }").drop 7

/-- A value that ends with the name `async` takes nothing of the next entry, with a comma and a semicolon
    after it or without. -/
theorem Program.parser_separators_async : ∃ mid program t program' t',
    Program.parser ⟨.ofList (storeTokens []), .standard, none⟩ .initial = .ok program t ∧
    Program.parser ⟨.ofList (storeTokens mid), .standard, none⟩ .initial = .ok program' t' ∧
    mid.map Token.raw = [",", ";"] ∧ program.store.isSome = true ∧
    program.unplaced TokenRange.unplaced = program'.unplaced TokenRange.unplaced := by
  let mid : List Token := (tokenize ", ;").take 2
  let next : Token := (storeTokens []).getD 7 default
  have kinds : (∀ t ∈ mid, t.kind = .symbol .comma ∨ t.kind = .symbol .semicolon) ∧
      next.kind = .identifier := by decide +kernel
  have tokens : (TokenStream.ofList (storeTokens [])).toList =
      (storeTokens []).take 7 ++ [] ++ next :: (storeTokens []).drop 8 := by
    decide +kernel
  have tokens' : (TokenStream.ofList (storeTokens mid)).toList =
      (storeTokens []).take 7 ++ mid ++ next :: (storeTokens []).drop 8 := by
    decide +kernel
  have length : ((storeTokens []).take 7).length = 7 := by decide +kernel
  have ⟨a, same⟩ : ∃ a : Scope, a = ⟨.ofList (storeTokens []), .standard, none⟩ := ⟨_, rfl⟩
  have plain (u v : ParserState) : ¬ a.DeclaresStyle u v := fun style => by
    obtain ⟨token, member, kind⟩ := style.mem
    have none : ∀ t ∈ a.stream.toList, t.kind ≠ .keyword .style := by
      rw [same]
      decide +kernel
    exact none token member kind
  obtain ⟨ys, v, property⟩ : ∃ ys v, collect (fun _ => Property.parser) #[] a ⟨4, 0⟩ = .ok ys v := by
    rw [same]
    exact Reply.exists_ok (by decide +kernel)
  have ends : v.cursor = 7 := by
    have cursor : (collect (fun _ => Property.parser) #[] a ⟨4, 0⟩).state.cursor = 7 := by
      rw [same]
      decide +kernel
    rwa [property] at cursor
  obtain ⟨zs, w, properties⟩ : ∃ zs w,
      foldEntries (collect fun _ => Property.parser) #[] a ⟨4, 0⟩ = .ok zs w := by
    rw [same]
    exact Reply.exists_ok (by decide +kernel)
  have entry : a.EntryEnds ((storeTokens []).take 7).length := by
    refine ⟨[], .initial, .store, .nil _, by rw [same]; decide +kernel, ?_⟩
    refine .inStore (.refl _ _) (by rw [same]; decide +kernel) (.state ?_)
    exact .intro (.refl _ _) property (ends.trans length.symm) properties
  have read : (Program.parser a .initial).answer.toOption.any (·.store.isSome) = true := by
    rw [same]
    decide +kernel
  cases ok : Program.parser a .initial with
  | error =>
    rw [ok] at read
    cases read
  | ok program t =>
    rw [ok] at read
    obtain ⟨program', t', second, shown⟩ := Program.parser_separators
      (b := ⟨.ofList (storeTokens mid), .standard, none⟩) (by rw [same]) (by rw [same]) rfl
      (by rw [same, tokens]) tokens' (by simp) kinds.1 (by simp [kinds.2, TokenKind.IsSeparator]) entry
      (fun u v style => (plain u v style).elim) ok
    exact ⟨mid, program, t, program', t', same ▸ ok, second, by decide +kernel, read, shown⟩

end PulseSyntax
