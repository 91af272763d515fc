import PulseSyntax.Proofs.Parser.Link
import PulseSyntax.Proofs.Parser.Run
import PulseSyntax.Proofs.Parser.Twin

namespace PulseSyntax

open PulseSyntax.Parser

namespace Parser

variable {scope : Scope} {σ : Type} {step : σ → Parser (ForInStep σ)} {x w : σ}
variable {s u : ParserState}

theorem Rounds.repeats {reply : Reply σ} (h : Rounds step scope x s w u)
    (all : Repeats step scope x s reply) : Repeats step scope w u reply := by
  induction h with
  | refl => exact all
  | head first _ _ _ ih =>
    cases all with
    | done _ round => cases first.symm.trans round
    | failed _ round => cases first.symm.trans round
    | yield _ round rest =>
      cases first.symm.trans round
      exact ih rest

theorem Rounds.reaches (turning : (scope.course s.depth).Turning step)
    (h : Rounds step scope x s w u) : s.Reaches scope u := by
  generalize depth : s.depth = d at turning
  induction h with
  | refl => exact .refl _ _
  | head first _ _ _ ih =>
    have reaches := (turning _ _ depth).reaches first
    exact reaches.trans (ih (reaches.depth.trans depth))

theorem Repeats.reaches {z : σ} {t : ParserState} (turning : (scope.course s.depth).Turning step)
    (h : Repeats step scope x s (.ok z t)) : s.Reaches scope t := by
  generalize depth : s.depth = d at turning
  generalize answer : Reply.ok z t = reply at h
  induction h with
  | failed => cases answer
  | done _ read =>
    cases answer
    exact (turning _ _ depth).reaches read
  | yield _ read _ ih =>
    have reaches := (turning _ _ depth).reaches read
    exact reaches.trans (ih (reaches.depth.trans depth) answer)

end Parser

namespace Scope.Link

variable {a b : Scope} {T : a.Link b} {α β ε ζ σ : Type} {n : Nat} {s : ParserState}
variable {e : (TokenRange → TokenRange) → α → ε} {d : (TokenRange → TokenRange) → σ → ε}

def round (d : (TokenRange → TokenRange) → σ → ε) (keep : TokenRange → TokenRange) :
    ForInStep σ → ForInStep ε := Track.round (d keep)

/-- What both runs show of the items that have been read. -/
def items (e : (TokenRange → TokenRange) → α → ε) (keep : TokenRange → TokenRange) (xs : Array α) :
    List ε := Track.items (e keep) xs

def each (e : (TokenRange → TokenRange) → α → ε) (keep : TokenRange → TokenRange) (xs : List α) :
    List ε := xs.map (e keep)

def optional (e : (TokenRange → TokenRange) → α → ε) (keep : TokenRange → TokenRange)
    (x : Option α) : Option ε := x.map (e keep)

theorem items_push {xs ys : Array α} {x y : α} (same : items e T.left xs = items e T.right ys)
    (last : e T.left x = e T.right y) :
    items e T.left (xs.push x) = items e T.right (ys.push y) := by
  simp only [items, Track.items_push, last] at same ⊢
  rw [same]

section

variable {step : σ → Parser (ForInStep σ)}

theorem copies_done {x y : σ} (same : d T.left x = d T.right y) :
    T.Copies n (round d) (pure (.done x)) (pure (.done y)) s :=
  copies_pure (congrArg ForInStep.done same)

theorem copies_yield {x y : σ} (same : d T.left x = d T.right y) :
    T.Copies n (round d) (pure (.yield x)) (pure (.yield y)) s :=
  copies_pure (congrArg ForInStep.yield same)

theorem exists_done {x : σ} {next : ForInStep σ}
    (h : round d T.left (.done x) = round d T.right next) :
    ∃ y, next = .done y ∧ d T.left x = d T.right y := by
  cases next with
  | done y => exact ⟨y, rfl, ForInStep.done.inj h⟩
  | yield => cases h

theorem exists_yield {x : σ} {next : ForInStep σ}
    (h : round d T.left (.yield x) = round d T.right next) :
    ∃ y, next = .yield y ∧ d T.left x = d T.right y := by
  cases next with
  | done => cases h
  | yield y => exact ⟨y, rfl, ForInStep.yield.inj h⟩

variable {x y z w : σ} {u : ParserState}

theorem copies_rounds (turning : ∀ scope depth, (Scope.course scope depth).Turning step)
    (h : ∀ x y s, d T.left x = d T.right y → T.Copies n (round d) (step x) (step y) s)
    (rounds : Rounds step a x s w u) (on : T.On s.cursor) (within : Within T.bound (u.cursor + n))
    (same : d T.left x = d T.right y) :
    T.On u.cursor ∧ ∃ w', Rounds step b y (T.moved s) w' (T.moved u) ∧
      d T.left w = d T.right w' := by
  induction rounds generalizing y with
  | refl => exact ⟨on, y, .refl _ _, same⟩
  | @head x v w s t u first inside progress rest ih =>
    have onward := (rest.reaches (turning a t.depth)).cursor
    obtain ⟨there, next, second, alike⟩ := (h _ _ _ same first).2 on
      (within.mono (Nat.add_le_add_right onward n))
    obtain ⟨v', rfl, last⟩ := exists_yield alike
    obtain ⟨final, w', more, same⟩ := ih there within last
    have further := (turning b s.depth y (T.moved s) rfl).progress second ⟨v', rfl⟩
    exact ⟨final, w', .head second (T.inside on).2 further more, same⟩

theorem copies_repeats (turning : ∀ scope depth, (Scope.course scope depth).Turning step)
    (h : ∀ x y s, d T.left x = d T.right y → T.Copies n (round d) (step x) (step y) s)
    {t : ParserState} (all : Parser.Repeats step a x s (.ok z t)) (on : T.On s.cursor)
    (within : Within T.bound (t.cursor + n)) (same : d T.left x = d T.right y) :
    T.On t.cursor ∧ ∃ w v y', Rounds step b y (T.moved s) w v ∧
      step w b v = .ok (.done y') (T.moved t) ∧ d T.left z = d T.right y' := by
  generalize answer : Reply.ok z t = reply at all
  induction all generalizing y with
  | failed => cases answer
  | @done x w s u inside read =>
    cases answer
    obtain ⟨there, next, second, alike⟩ := (h x y s same read).2 on within
    obtain ⟨y', rfl, last⟩ := exists_done alike
    exact ⟨there, y, T.moved s, y', .refl _ _, second, last⟩
  | @yield x w s u reply inside read rest ih =>
    cases answer
    have proceeds := turning a s.depth x s rfl
    have later := (rest.reaches (turning a u.depth)).cursor
    obtain ⟨there, next, second, alike⟩ := (h x y s same read).2 on
      (within.mono (Nat.add_le_add_right later n))
    obtain ⟨w', rfl, last⟩ := exists_yield alike
    obtain ⟨final, v, u', y', run, done, same⟩ := ih there last rfl
    have onward := (turning b s.depth y (T.moved s) rfl).progress second ⟨w', rfl⟩
    exact ⟨final, v, u', y', .head second (T.inside on).2 onward run, done, same⟩

theorem copies_loop (turning : ∀ scope depth, (Scope.course scope depth).Turning step)
    (h : ∀ x y s, d T.left x = d T.right y → T.Copies n (round d) (step x) (step y) s)
    (same : d T.left x = d T.right y) : T.Copies n d (loop step x) (loop step y) s := by
  intro z t ok
  refine ⟨fun _ => (((turning a s.depth).steady x s rfl).reaches ok).cursor, fun on within => ?_⟩
  have all : Parser.Repeats step a x s (loop step x a s) :=
    (turning a s.depth).repeats rfl (T.inside on).1
  rw [ok] at all
  obtain ⟨there, w, v, y', run, last, alike⟩ := copies_repeats turning h all on within same
  exact ⟨there, y', run.loop last, alike⟩

end

section

variable {step : α → Parser (Option α)}

theorem copies_chain (extending : ∀ scope depth, (Scope.course scope depth).Extending step)
    (h : ∀ x y s, e T.left x = e T.right y → T.Copies n (optional e) (step x) (step y) s) {x y : α}
    (same : e T.left x = e T.right y) : T.Copies n e (chain step x) (chain step y) s := by
  refine copies_loop (fun scope depth => (extending scope depth).turning) (fun x y s same => ?_) same
  refine (h x y s same).bind fun next next' _ _ alike => ?_
  cases next with
  | none =>
    cases next' with
    | none => exact copies_done same
    | some => cases alike
  | some x' =>
    cases next' with
    | none => cases alike
    | some y' => exact copies_yield (Option.some.inj alike)

end

section

variable {item : Array α → Parser α}

theorem copies_manyAfter (close : Symbol)
    (moving : ∀ scope depth before, (Scope.course scope depth).Moving (item before))
    (h : ∀ xs ys s, items e T.left xs = items e T.right ys →
      T.Copies (n + 1) e (item xs) (item ys) s) :
    T.Copies (n + 1) (each e) (manyAfter close item) (manyAfter close item) s := by
  rw [manyAfter_eq]
  refine (copies_loop (d := items e) (fun scope depth => Course.turning_manyRound (moving scope depth))
    (fun xs ys s same => ?_) rfl).bind fun xs ys _ _ same => copies_pure same
  refine copies_current ?_
  refine .ite (fun _ => copies_done same) fun _ => ?_
  exact (h xs ys s same).bind fun x y _ _ alike => copies_yield (items_push same alike)

theorem copies_many (close : Symbol) {item : Parser α}
    (moving : ∀ scope depth, (Scope.course scope depth).Moving item)
    (h : ∀ s, T.Copies (n + 1) e item item s) :
    T.Copies (n + 1) (each e) (many close item) (many close item) s :=
  copies_manyAfter close (fun scope depth _ => moving scope depth) fun _ _ s _ => h s

theorem copies_commaSeparatedAfter (close : Symbol)
    (steady : ∀ scope depth before, (Scope.course scope depth).Steady (item before))
    (h : ∀ xs ys s, items e T.left xs = items e T.right ys →
      T.Copies (n + 1) e (item xs) (item ys) s) :
    T.Copies (n + 1) (each e) (commaSeparatedAfter close item) (commaSeparatedAfter close item) s := by
  refine (copies_loop (d := items e) (fun scope depth => Course.turning_commaRound (steady scope depth))
    (fun xs ys s same => ?_) rfl).bind fun xs ys _ _ same => copies_pure same
  refine copies_isSymbol (fun _ => copies_done same) fun _ => ?_
  refine (h xs ys s same).bind fun x y _ _ alike => ?_
  have more := items_push same alike
  exact copies_eatSymbol (by simp) (fun _ => copies_yield more) fun _ => copies_done more

theorem copies_commaSeparated (close : Symbol) {item : Parser α}
    (steady : ∀ scope depth, (Scope.course scope depth).Steady item)
    (h : ∀ s, T.Copies (n + 1) e item item s) :
    T.Copies (n + 1) (each e) (commaSeparated close item) (commaSeparated close item) s :=
  copies_commaSeparatedAfter close (fun scope depth _ => steady scope depth) fun _ _ s _ => h s

theorem copies_skipSeparators :
    T.Copies (n + 1) (fun _ => id) skipSeparators skipSeparators s := by
  rw [skipSeparators_eq]
  refine copies_loop (d := fun _ => id) (fun _ _ => Course.turning_separatorRound) (fun _ _ s _ => ?_)
    rfl
  refine copies_current (.ite (fun separator => ?_) fun _ => copies_done rfl)
  rw [Bool.or_eq_true, beq_iff_eq, beq_iff_eq] at separator
  refine copies_pass ?_ ?_ (copies_yield rfl) <;> rcases separator with kind | kind <;> simp [kind]

theorem Copies.entry {p q : Parser α} (h : T.Copies (n + 1) e p q s) :
    T.Copies (n + 1) e (entry p) (entry q) s :=
  h.bind fun _ _ _ _ same => copies_skipSeparators.bind fun _ _ _ _ _ => copies_pure same

theorem copies_entryRound {add : σ → Parser σ} {x y : σ} (same : d T.left x = d T.right y)
    (h : T.Copies (n + 1) d (add x) (add y) s) :
    T.Copies (n + 1) (round d) (entryRound add x) (entryRound add y) s :=
  copies_current (.ite (fun _ => copies_done same) fun _ =>
    h.entry.bind fun _ _ _ _ alike => copies_yield alike)

theorem copies_foldEntries {add : σ → Parser σ}
    (moving : ∀ scope depth x, (Scope.course scope depth).Moving (add x))
    (h : ∀ x y s, d T.left x = d T.right y → T.Copies (n + 1) d (add x) (add y) s) {x y : σ}
    (same : d T.left x = d T.right y) :
    T.Copies (n + 1) d (foldEntries add x) (foldEntries add y) s := by
  rw [foldEntries_eq, foldEntries_eq]
  exact copies_loop (fun scope depth => Course.turning_entryRound (moving scope depth))
    (fun x y s same => copies_entryRound same (h x y s same)) same

theorem copies_braced {item : Parser α}
    (moving : ∀ scope depth, (Scope.course scope depth).Moving item)
    (h : ∀ s, T.Copies (n + 1) e item item s) :
    T.Copies n (fun keep (x : List α × Span) => each e keep x.1) (braced item) (braced item) s :=
  copies_expectSymbol (by simp) ((copies_many _ moving h).closed (by simp) fun _ _ _ same => same)

end

section

variable {scope : Scope} {x : Token} {t : ParserState} {kind : TokenKind}

theorem orExpect_eq_ok (fits : Bool) (real : kind ≠ .endOfFile)
    (real' : fits = true → (scope.stream.get s.cursor).kind ≠ .endOfFile) :
    (if fits = true then advance else expect kind) scope s = .ok x t ↔
      (fits = true ∨ (scope.stream.get s.cursor).kind = kind) ∧ x = scope.stream.get s.cursor ∧
        t = s.ahead 1 := by
  cases fits with
  | true =>
    rw [if_pos rfl, advance_apply (real' rfl), Reply.ok.injEq]
    exact ⟨fun ⟨read, next⟩ => ⟨.inl rfl, read.symm, next.symm⟩,
      fun ⟨_, read, next⟩ => ⟨read.symm, next.symm⟩⟩
  | false => simpa using expect_eq_ok real

theorem expectName_iff : expectName scope s = .ok x t ↔
    (scope.stream.get s.cursor).kind.isName = true ∧ x = scope.stream.get s.cursor ∧
      t = s.ahead 1 := by
  have answer : expectName scope s = .ok x t ↔ _ :=
    orExpect_eq_ok (scope.stream.get s.cursor).kind.isName (by simp) Course.isName_ne
  have name : (scope.stream.get s.cursor).kind = .identifier →
      (scope.stream.get s.cursor).kind.isName = true := fun kind => by rw [kind]; rfl
  rwa [or_iff_left_of_imp name] at answer

theorem expectStringOr_iff (real : kind ≠ .endOfFile) : expectStringOr kind scope s = .ok x t ↔
    ((scope.stream.get s.cursor).kind = .string ∨ (scope.stream.get s.cursor).kind = kind) ∧
      x = scope.stream.get s.cursor ∧ t = s.ahead 1 := by
  have answer : expectStringOr kind scope s = .ok x t ↔ _ :=
    orExpect_eq_ok ((scope.stream.get s.cursor).kind == .string) real fun string => by
      rw [beq_iff_eq.mp string]
      nofun
  exact answer.trans (and_congr_left' (or_congr_left beq_iff_eq))

end

section

variable {f g : Token → Parser α} {kind : TokenKind}

theorem copies_expectName (h : T.Copies n e (f (a.stream.get s.cursor)) (g (a.stream.get s.cursor))
    (s.ahead 1)) : T.Copies n e (expectName >>= f) (expectName >>= g) s := by
  refine copies_reads (·.isName = true) expectName_iff nofun (fun name => unforked ?_) fun _ => h
  intro sign
  rw [sign] at name
  cases name

theorem copies_expectStringOr (real : kind ≠ .endOfFile) (plain : kind ≠ .symbol .atSign)
    (h : T.Copies n e (f (a.stream.get s.cursor)) (g (a.stream.get s.cursor)) (s.ahead 1)) :
    T.Copies n e (expectStringOr kind >>= f) (expectStringOr kind >>= g) s := by
  refine copies_reads (fun found => found = .string ∨ found = kind) (expectStringOr_iff real) ?_
    (fun fits => unforked ?_) fun _ => h
  · exact not_or.mpr ⟨nofun, real.symm⟩
  · rcases fits with string | found
    · simp [string]
    · rwa [found]

theorem copies_startName {f g : Bool → Parser α} (moving : (a.course s.depth).Moving (isName >>= f))
    (yes : (a.stream.get s.cursor).kind.isName = true → T.Copies n e (f true) (g true) s)
    (no : T.Copies n e (f false) (g false) s) :
    T.Copies n e (isName >>= f) (isName >>= g) s := by
  have regroup (f : Bool → Parser α) : isName >>= f = current >>= fun t => f t.kind.isName := rfl
  rw [regroup] at moving
  rw [regroup, regroup]
  refine copies_start moving ?_
  cases name : (a.stream.get s.cursor).kind.isName with
  | true => exact yes name
  | false => exact no

end

theorem copies_rawBlock (inFile : a.quotation = none) :
    T.Copies n (fun keep => keep) rawBlock rawBlock s := by
  intro r t ok
  have onward := ((Course.starting_rawBlock (c := a.course s.depth)) s rfl).reaches ok
  refine ⟨fun _ => onward.cursor, fun on within => ?_⟩
  obtain ⟨there, r', second, same⟩ := T.body ok on (within.mono (Nat.le_add_right _ _))
  exact ⟨there, r', second, by rwa [if_pos inFile] at same⟩

end Scope.Link

end PulseSyntax
