import PulseSyntax.Proofs.Expr.Same
import PulseSyntax.Proofs.Parser.Balance
import PulseSyntax.Proofs.Parser.Course
import PulseSyntax.Proofs.Token.Body

/-!
Two runs of which the second meets the tokens of the first further on, at other places. Up to a limit
the tokens are the same, except that in markup a name may read as a selector in one run and as an
identifier in the other. Where the first run succeeds within the limit, the second does as well and
answers the same apart from places.
-/

namespace PulseSyntax

open PulseSyntax.Parser

def TokenKind.parensAfter (parens : Nat) : TokenKind → Nat
  | .symbol .openParen => parens + 1
  | .symbol .closeParen => parens - 1
  | _ => parens

namespace Token

/-- Tokens that are the same but for their places and for how a name in markup reads. -/
structure Near (t u : Token) : Prop where
  kind : t.kind = u.kind ∨ t.kind.isHead ∧ u.kind.isHead
  value : t.value = u.value
  raw : t.raw = u.raw

namespace Near

variable {t u : Token}

theorem of_content (h : t.content = u.content) : Near t u :=
  ⟨.inl (kind_of_content h), value_of_content h, raw_of_content h⟩

theorem content_of_kind (h : Near t u) (same : t.kind = u.kind) : t.content = u.content := by
  rw [content, content, same, h.value, h.raw]

theorem content (h : Near t u) (plain : t.kind.isHead = false) : t.content = u.content := by
  refine h.content_of_kind (h.kind.resolve_right fun heads => ?_)
  rw [plain] at heads
  cases heads.1

theorem kind_eq_iff (h : Near t u) {kind : TokenKind} (plain : kind.isHead = false) :
    t.kind = kind ↔ u.kind = kind := by
  rcases h.kind with same | heads
  · rw [same]
  · constructor
    · rintro rfl
      rw [plain] at heads
      cases heads.1
    · rintro rfl
      rw [plain] at heads
      cases heads.2

theorem beq_kind (h : Near t u) {kind : TokenKind} (plain : kind.isHead = false) :
    (t.kind == kind) = (u.kind == kind) := by
  rw [Bool.eq_iff_iff, beq_iff_eq, beq_iff_eq, h.kind_eq_iff plain]

theorem isHead (h : Near t u) : t.kind.isHead = u.kind.isHead := by
  rcases h.kind with same | heads
  · rw [same]
  · rw [heads.1, heads.2]

theorem text (h : Near t u) : t.text = u.text := by
  rw [Token.text, Token.text, h.value, h.raw]

end Near

end Token

/-- How the second of two scopes repeats the tokens of the first, from one index on and up to a
    limit. -/
structure Scope.Track (a b : Scope) where
  /-- How many tokens further on a token stands in the second scope. -/
  shift : Nat
  limit : Nat
  /-- So many parentheses are open before the token at an index. -/
  Open : Nat → Nat → Prop
  keep : TokenRange → TokenRange
  options : a.options = b.options
  keep_shift : ∀ r, keep r = keep ⟨r.start + shift, r.stop + shift⟩
  inside : limit < a.stream.size
  fits : limit + shift < b.stream.size
  near : ∀ {i}, i ≤ limit → (a.stream.get i).Near (b.stream.get (i + shift))
  exact_ : ∀ {parens i}, Open (parens + 1) i → i ≤ limit →
    (a.stream.get i).kind = (b.stream.get (i + shift)).kind
  name : ∀ {i}, i < limit → (a.stream.get i).kind = .symbol .atSign →
    (a.stream.get (i + 1)).kind = (b.stream.get (i + 1 + shift)).kind
  step : ∀ {parens i}, Open parens i → i < limit →
    Open ((a.stream.get i).kind.parensAfter parens) (i + 1)
  body : ∀ {parens r}, 2 ≤ r.start → (a.stream.get (r.start - 2)).kind = .symbol .arrow →
    a.Delimits r → r.stop < limit → Open parens (r.start - 1) → Open parens (r.stop + 1)
  lines : ∀ {i}, i ≤ limit → UpdateOp.ofKind? (a.stream.get i).kind ≠ none →
    ((a.stream.get i).line = (a.stream.get (i - 1)).line ↔
      (b.stream.get (i + shift)).line = (b.stream.get (i + shift - 1)).line)
  arrows : ∀ {i}, i ≤ limit → (a.stream.get i).kind = .symbol .openParen →
    Expr.closesBeforeArrow 0 (a.stream.tokensFrom i) =
      Expr.closesBeforeArrow 0 (b.stream.tokensFrom (i + shift))

def Scope.course (scope : Scope) (depth : Nat) : Course := ⟨scope, depth, False⟩

def Scope.At (scope : Scope) (I : Nat → Prop) (kind : TokenKind) (i : Nat) : Prop :=
  I i ∧ (scope.stream.get i).kind = kind

namespace Scope.Track

variable {a b : Scope} (T : a.Track b) {α β γ ε ζ σ : Type}

/-- The block of a function leaves the same in both runs. -/
def Leaves (leave : TokenRange → ArrowBody) : Prop :=
  ∀ r, Expr.unplacedBody leave (Expr.body a r) =
    Expr.unplacedBody leave (Expr.body b ⟨r.start + T.shift, r.stop + T.shift⟩)

def moved (s : ParserState) : ParserState := ⟨s.cursor + T.shift, s.depth⟩

@[simp] theorem moved_cursor (s : ParserState) : (T.moved s).cursor = s.cursor + T.shift := rfl

theorem moved_ahead (s : ParserState) (n : Nat) : T.moved (s.ahead n) = (T.moved s).ahead n := by
  simp [moved, ParserState.ahead, Nat.add_right_comm]

/-- The first run only reads on. Where it stays within the limit, starting where `I` holds, the
    second run follows it to where `J` holds, with an answer in which `e` shows no difference. -/
def Twin (I J : Nat → Prop) (e : α → ε) (p q : Parser α) : Prop :=
  ∀ ⦃s x t⦄, p a s = .ok x t → s.cursor ≤ t.cursor ∧ (I s.cursor → t.cursor ≤ T.limit →
    J t.cursor ∧ ∃ y, q b (T.moved s) = .ok y (T.moved t) ∧ e x = e y)

/-- Parsers whose last token may be the one at the limit. -/
def Closing (I : Nat → Prop) (e : α → ε) (p q : Parser α) : Prop :=
  ∀ ⦃s x t⦄, p a s = .ok x t → s.cursor < t.cursor ∧ (I s.cursor → t.cursor ≤ T.limit + 1 →
    ∃ y, q b (T.moved s) = .ok y (T.moved t) ∧ e x = e y)

/-- Where the condition holds both runs meet the same kind of token. -/
def Exact (I : Nat → Prop) : Prop :=
  ∀ ⦃i⦄, I i → i ≤ T.limit → (a.stream.get i).kind = (b.stream.get (i + T.shift)).kind

/-- From an index on every token is of the same kind in both runs. -/
def Free (first : Nat) : Prop := ∀ parens i, T.Open parens i ↔ first ≤ i

/-- The token at the limit is one that nothing is read past: up to the limit each other token has
    one after it. -/
class Walled : Prop where
  last : (a.stream.get T.limit).kind = .symbol .closeBrace ∨
    (a.stream.get T.limit).kind = .endOfFile

variable {T} {I J K : Nat → Prop} {e : α → ε} {e' : β → ζ} {p q p' q' : Parser α}
variable {parens : Nat} {kind : TokenKind}

theorem content (exact : T.Exact I) {i : Nat} (here : I i) (le : i ≤ T.limit) :
    (a.stream.get i).content = (b.stream.get (i + T.shift)).content :=
  (T.near le).content_of_kind (exact here le)

theorem open_succ {i : Nat} (here : T.Open parens i) (found : (a.stream.get i).kind = kind)
    (lt : i < T.limit) : T.Open (kind.parensAfter parens) (i + 1) := found ▸ T.step here lt

theorem lt_limit [wall : T.Walled] {i : Nat} (le : i ≤ T.limit)
    (brace : (a.stream.get i).kind ≠ .symbol .closeBrace)
    (real : (a.stream.get i).kind ≠ .endOfFile) : i < T.limit := by
  refine Nat.lt_of_le_of_ne le fun same => ?_
  subst same
  exact wall.last.elim brace real

theorem exact_open : T.Exact (T.Open (parens + 1)) := fun _ here le => T.exact_ here le

theorem Free.content {first : Nat} (free : T.Free first) {i : Nat} (start : first ≤ i)
    (le : i ≤ T.limit) : (a.stream.get i).content = (b.stream.get (i + T.shift)).content :=
  (T.near le).content_of_kind (T.exact_ ((free 1 i).mpr start) le)

theorem Exact.at (h : T.Exact I) : T.Exact (a.At I kind) := fun _ here => h here.1

theorem exact_at (plain : kind.isHead = false) : T.Exact (a.At I kind) := fun _ here le =>
  Token.kind_of_content ((T.near le).content (here.2 ▸ plain))

section

theorem Twin.bind {f g : α → Parser β} (h : T.Twin I J e p q)
    (hf : ∀ x y, e x = e y → T.Twin J K e' (f x) (g y)) : T.Twin I K e' (p >>= f) (q >>= g) := by
  intro s z u ok
  obtain ⟨x, t, first, rest⟩ := bind_eq_ok.mp ok
  have onward := (hf x x rfl rest).1
  refine ⟨Nat.le_trans (h first).1 onward, fun here within => ?_⟩
  obtain ⟨between, y, second, same⟩ := (h first).2 here (Nat.le_trans onward within)
  obtain ⟨there, w, last, alike⟩ := (hf x y same rest).2 between within
  exact ⟨there, w, by rw [bind_of_ok second, last], alike⟩

theorem Twin.close {f g : α → Parser β} (h : T.Twin I J e p q)
    (hf : ∀ x y, e x = e y → T.Closing J e' (f x) (g y)) : T.Closing I e' (p >>= f) (q >>= g) := by
  intro s z u ok
  obtain ⟨x, t, first, rest⟩ := bind_eq_ok.mp ok
  have onward := (hf x x rfl rest).1
  refine ⟨Nat.lt_of_le_of_lt (h first).1 onward, fun here within => ?_⟩
  obtain ⟨between, y, second, same⟩ :=
    (h first).2 here (Nat.le_of_lt_succ (Nat.lt_of_lt_of_le onward within))
  obtain ⟨w, last, alike⟩ := (hf x y same rest).2 between within
  exact ⟨w, by rw [bind_of_ok second, last], alike⟩

theorem Closing.map {f g : α → β} (h : T.Closing I e p q)
    (hf : ∀ x y, e x = e y → e' (f x) = e' (g y)) :
    T.Closing I e' (p >>= fun x => pure (f x)) (q >>= fun y => pure (g y)) := by
  intro s z u ok
  obtain ⟨x, t, first, rest⟩ := bind_eq_ok.mp ok
  cases rest
  refine ⟨(h first).1, fun here within => ?_⟩
  obtain ⟨y, second, same⟩ := (h first).2 here within
  exact ⟨g y, by rw [bind_of_ok second, pure_apply], hf x y same⟩

theorem Twin.mono {I' J' : Nat → Prop} (h : T.Twin I J e p q) (hI : ∀ i, I' i → I i)
    (hJ : ∀ i, J i → J' i) : T.Twin I' J' e p q := fun _ _ _ ok =>
  ⟨(h ok).1, fun here within =>
    let ⟨there, answer⟩ := (h ok).2 (hI _ here) within
    ⟨hJ _ there, answer⟩⟩

theorem Twin.from {I' : Nat → Prop} (h : T.Twin I J e p q) (hI : ∀ i, I' i → I i) :
    T.Twin I' J e p q := h.mono hI fun _ => id

theorem Twin.atKind (h : T.Twin I J e p q) : T.Twin (a.At I kind) J e p q := h.from fun _ => And.left

theorem twin_pure {x y : α} (same : e x = e y) : T.Twin I I e (pure x) (pure y) := by
  intro s z t ok
  cases ok
  exact ⟨Nat.le_refl _, fun here _ => ⟨here, y, rfl, same⟩⟩

theorem twin_of_fails (h : ∀ {s x t}, p a s ≠ .ok x t) : T.Twin I J e p q :=
  fun _ _ _ ok => absurd ok h

theorem Twin.ite {condition : Prop} [Decidable condition]
    (h : condition → T.Twin I J e p q) (h' : ¬condition → T.Twin I J e p' q') :
    T.Twin I J e (if condition then p else p') (if condition then q else q') := by
  split
  · next yes => exact h yes
  · next no => exact h' no

theorem Twin.map {f g : α → β} (h : T.Twin I J e p q)
    (hf : ∀ x y, e x = e y → e' (f x) = e' (g y)) : T.Twin I J e' (f <$> p) (g <$> q) :=
  h.bind fun x y same => twin_pure (hf x y same)

theorem Twin.deeper (h : T.Twin I J e p q) : T.Twin I J e (deeper p) (deeper q) := by
  intro s x t ok
  obtain ⟨u, inner, rfl⟩ := deeper_eq_ok.mp ok
  refine ⟨(h inner).1, fun here within => ?_⟩
  obtain ⟨there, y, second, same⟩ := (h inner).2 here within
  exact ⟨there, y, deeper_eq_ok.mpr ⟨_, second, rfl⟩, same⟩

theorem Twin.withLevels {p q : Nat → Parser α} (h : ∀ n, T.Twin I J e (p n) (q n)) :
    T.Twin I J e (withLevels p) (withLevels q) := by
  intro s x t ok
  refine ⟨(h _ ok).1, fun here within => ?_⟩
  have run := (h _ ok).2 here within
  rwa [T.options] at run

end

/-- Both runs tell alike whether a token of the kind is the next. -/
def Sees (T : a.Track b) (I : Nat → Prop) (kind : TokenKind) : Prop :=
  ∀ ⦃i⦄, I i → i ≤ T.limit →
    ((a.stream.get i).kind = kind ↔ (b.stream.get (i + T.shift)).kind = kind)

theorem sees_of_plain (plain : kind.isHead = false) : T.Sees I kind := fun _ _ le =>
  (T.near le).kind_eq_iff plain

theorem sees_symbol (sign : Symbol) : T.Sees I (.symbol sign) := sees_of_plain rfl

theorem Exact.sees (h : T.Exact I) : T.Sees I kind := fun _ here le => by rw [h here le]

section

variable {f g : Token → Parser α}

theorem twin_near (h : ∀ t u, t.Near u → T.Twin (a.At I t.kind) J e (f t) (g u)) :
    T.Twin I J e (current >>= f) (current >>= g) := by
  intro s x t ok
  rw [bind_of_ok current_apply] at ok
  have onward := (h _ _ (.of_content rfl) ok).1
  exact ⟨onward, fun here within =>
    (h _ _ (T.near (Nat.le_trans onward within)) ok).2 ⟨here, rfl⟩ within⟩

theorem twin_current (exact : T.Exact I)
    (h : ∀ t u, t.content = u.content → T.Twin (a.At I t.kind) J e (f t) (g u)) :
    T.Twin I J e (current >>= f) (current >>= g) := by
  intro s x t ok
  rw [bind_of_ok current_apply] at ok
  have onward := (h _ _ rfl ok).1
  exact ⟨onward, fun here within =>
    (h _ _ (content exact here (Nat.le_trans onward within)) ok).2 ⟨here, rfl⟩ within⟩

theorem twin_peek (h : ∀ t u, T.Twin I J e (f t) (g u)) :
    T.Twin I J e (peek >>= f) (peek >>= g) := fun _ _ _ ok => h _ _ ok

theorem twin_peekNear [T.Walled] (h : ∀ t u, (kind ≠ .symbol .closeBrace → kind ≠ .endOfFile → t.Near u) →
      T.Twin (a.At I kind) J e (f t) (g u)) :
    T.Twin (a.At I kind) J e (peek >>= f) (peek >>= g) := by
  intro s x t ok
  rw [bind_of_ok peek_apply] at ok
  have onward := (h _ _ (fun _ _ => .of_content rfl) ok).1
  refine ⟨onward, fun here within => ?_⟩
  refine (h _ _ (fun brace real => ?_) ok).2 here within
  have lt := lt_limit (Nat.le_trans onward within) (here.2 ▸ brace) (here.2 ▸ real)
  rw [moved_cursor, Nat.add_right_comm]
  exact T.near lt

theorem twin_previous : T.Twin I I (fun _ : Token => ()) previous previous := by
  intro s x t ok
  cases ok
  exact ⟨Nat.le_refl _, fun here _ => ⟨here, _, rfl, rfl⟩⟩

theorem twin_is {f g : Bool → Parser α} (sees : T.Sees I kind)
    (yes : T.Twin (a.At I kind) J e (f true) (g true))
    (no : T.Twin I J e (f false) (g false)) : T.Twin I J e (is kind >>= f) (is kind >>= g) := by
  intro s x t ok
  rw [bind_of_ok is_apply] at ok
  rw [bind_of_ok is_apply]
  by_cases found : (a.stream.get s.cursor).kind = kind
  · rw [beq_iff_eq.mpr found] at ok
    refine ⟨(yes ok).1, fun here within => ?_⟩
    have other := (sees here (Nat.le_trans (yes ok).1 within)).mp found
    rw [beq_iff_eq.mpr (show (b.stream.get (T.moved s).cursor).kind = kind from other)]
    exact (yes ok).2 ⟨here, found⟩ within
  · rw [beq_eq_false_iff_ne.mpr found] at ok
    refine ⟨(no ok).1, fun here within => ?_⟩
    have other := mt (sees here (Nat.le_trans (no ok).1 within)).mpr found
    rw [beq_eq_false_iff_ne.mpr (show (b.stream.get (T.moved s).cursor).kind ≠ kind from other)]
    exact (no ok).2 here within

theorem closing_is {f g : Bool → Parser α} (sees : T.Sees I kind)
    (yes : T.Closing (a.At I kind) e (f true) (g true))
    (no : T.Closing I e (f false) (g false)) :
    T.Closing I e (is kind >>= f) (is kind >>= g) := by
  intro s x t ok
  rw [bind_of_ok is_apply] at ok
  rw [bind_of_ok is_apply]
  by_cases found : (a.stream.get s.cursor).kind = kind
  · rw [beq_iff_eq.mpr found] at ok
    refine ⟨(yes ok).1, fun here within => ?_⟩
    have other := (sees here (Nat.le_of_lt_succ (Nat.lt_of_lt_of_le (yes ok).1 within))).mp found
    rw [beq_iff_eq.mpr (show (b.stream.get (T.moved s).cursor).kind = kind from other)]
    exact (yes ok).2 ⟨here, found⟩ within
  · rw [beq_eq_false_iff_ne.mpr found] at ok
    refine ⟨(no ok).1, fun here within => ?_⟩
    have other := mt (sees here (Nat.le_of_lt_succ (Nat.lt_of_lt_of_le (no ok).1 within))).mpr found
    rw [beq_eq_false_iff_ne.mpr (show (b.stream.get (T.moved s).cursor).kind ≠ kind from other)]
    exact (no ok).2 here within

theorem twin_isSymbol {sign : Symbol} {f g : Bool → Parser α}
    (yes : T.Twin (a.At I (.symbol sign)) J e (f true) (g true))
    (no : T.Twin I J e (f false) (g false)) :
    T.Twin I J e (isSymbol sign >>= f) (isSymbol sign >>= g) := twin_is (sees_symbol sign) yes no

theorem twin_advance_of (real : kind ≠ .endOfFile) {d : Token → ζ}
    (step : ∀ i, a.At I kind i → i < T.limit → J (i + 1) ∧
      d (a.stream.get i) = d (b.stream.get (i + T.shift)))
    (ends : T.Sees (a.At I kind) .endOfFile) :
    T.Twin (a.At I kind) J d advance advance := by
  intro s x t ok
  by_cases atEnd : (a.stream.get s.cursor).kind = .endOfFile
  · have stays : advance a s = .ok (a.stream.get s.cursor) s := by
      simp only [advance, atEnd, ↓reduceIte]
    rw [stays] at ok
    cases ok
    exact ⟨Nat.le_refl _, fun here _ => absurd (here.2.symm.trans atEnd) real⟩
  · rw [advance_apply atEnd] at ok
    cases ok
    refine ⟨Nat.le_succ _, fun here within => ?_⟩
    have le : s.cursor ≤ T.limit := Nat.le_of_succ_le within
    have inside : (b.stream.get (T.moved s).cursor).kind ≠ .endOfFile :=
      mt (ends here le).mpr atEnd
    obtain ⟨there, same⟩ := step _ here within
    exact ⟨there, _, by rw [advance_apply inside, moved_ahead]; rfl, same⟩

theorem twin_advance (real : kind ≠ .endOfFile) (exact : T.Exact (a.At (T.Open parens) kind)) :
    T.Twin (a.At (T.Open parens) kind) (T.Open (kind.parensAfter parens)) Token.content advance
      advance :=
  twin_advance_of real (fun _ here lt => ⟨open_succ here.1 here.2 lt,
    content exact here (Nat.le_of_lt lt)⟩) exact.sees

theorem twin_pass (real : kind ≠ .endOfFile)
    (plain : kind.parensAfter (parens + 1) = parens + 1) :
    T.Twin (a.At (T.Open (parens + 1)) kind) (T.Open (parens + 1)) Token.content advance advance := by
  have exact : T.Exact (a.At (T.Open (parens + 1)) kind) := exact_open.at
  have passes := twin_advance real exact
  rwa [plain] at passes

theorem twin_advance_text (real : kind ≠ .endOfFile) :
    T.Twin (a.At (T.Open parens) kind) (T.Open (kind.parensAfter parens)) Token.text advance
      advance :=
  twin_advance_of real (fun _ here lt => ⟨open_succ here.1 here.2 lt,
    (T.near (Nat.le_of_lt lt)).text⟩) (sees_of_plain rfl)

theorem expect_moved (real : kind ≠ .endOfFile) (sees : T.Sees I kind) {s t : ParserState}
    {x : Token} (ok : expect kind a s = .ok x t) (here : I s.cursor) (le : s.cursor ≤ T.limit) :
    expect kind b (T.moved s) = .ok (b.stream.get (s.cursor + T.shift)) (T.moved t) ∧
      x.content = (b.stream.get (s.cursor + T.shift)).content := by
  obtain ⟨found, rfl, rfl⟩ := (expect_eq_ok real).mp ok
  have other := (sees here le).mp found
  refine ⟨?_, (T.near le).content_of_kind (found.trans other.symm)⟩
  rw [moved_ahead]
  exact expect_apply other real

theorem twin_expect_of (real : kind ≠ .endOfFile) (sees : T.Sees I kind)
    (step : ∀ i, I i → (a.stream.get i).kind = kind → i < T.limit → J (i + 1)) :
    T.Twin I J Token.content (expect kind) (expect kind) := by
  intro s x t ok
  obtain ⟨found, -, rfl⟩ := (expect_eq_ok real).mp ok
  refine ⟨Nat.le_succ _, fun here within => ⟨step _ here found within, ?_⟩⟩
  exact ⟨_, expect_moved real sees ok here (Nat.le_of_succ_le within)⟩

theorem twin_expect (real : kind ≠ .endOfFile) (sees : T.Sees (T.Open parens) kind) :
    T.Twin (T.Open parens) (T.Open (kind.parensAfter parens)) Token.content (expect kind)
      (expect kind) :=
  twin_expect_of real sees fun _ here found lt => open_succ here found lt

theorem twin_expectSymbol (sign : Symbol) :
    T.Twin (T.Open parens) (T.Open ((TokenKind.symbol sign).parensAfter parens)) Token.content
      (expectSymbol sign) (expectSymbol sign) := twin_expect (by simp) (sees_symbol sign)

theorem twin_expectKeyword (word : Keyword) :
    T.Twin (T.Open parens) (T.Open parens) Token.content (expectKeyword word)
      (expectKeyword word) := twin_expect (by simp) (sees_of_plain rfl)

theorem closing_expect (real : kind ≠ .endOfFile) (sees : T.Sees I kind) :
    T.Closing I Token.content (expect kind) (expect kind) := by
  intro s x t ok
  obtain ⟨found, -, rfl⟩ := (expect_eq_ok real).mp ok
  exact ⟨Nat.lt_succ_self _, fun here within =>
    ⟨_, expect_moved real sees ok here (Nat.le_of_succ_le_succ within)⟩⟩

theorem closing_expectSymbol (sign : Symbol) :
    T.Closing I Token.content (expectSymbol sign) (expectSymbol sign) :=
  closing_expect (by simp) (sees_symbol sign)

theorem eat_bind (real : kind ≠ .endOfFile) (f : Bool → Parser α) :
    eat kind >>= f = is kind >>= fun found =>
      if found then advance >>= fun _ => f true else f false := by
  funext scope s
  rw [bind_of_ok is_apply, bind_apply, eat_apply real]
  by_cases found : (scope.stream.get s.cursor).kind = kind
  · rw [if_pos found, if_pos (beq_iff_eq.mpr found), bind_of_ok (advance_apply (found ▸ real))]
  · rw [if_neg found, if_neg (by simp [found])]

theorem twin_eat {f g : Bool → Parser α} (real : kind ≠ .endOfFile)
    (exact : T.Exact (a.At (T.Open parens) kind)) (sees : T.Sees (T.Open parens) kind)
    (yes : T.Twin (T.Open (kind.parensAfter parens)) J e (f true) (g true))
    (no : T.Twin (T.Open parens) J e (f false) (g false)) :
    T.Twin (T.Open parens) J e (eat kind >>= f) (eat kind >>= g) := by
  rw [eat_bind real, eat_bind real]
  exact twin_is sees ((twin_advance real exact).bind fun _ _ _ => yes) no

theorem twin_eatSymbol {sign : Symbol} {f g : Bool → Parser α}
    (yes : T.Twin (T.Open ((TokenKind.symbol sign).parensAfter parens)) J e (f true) (g true))
    (no : T.Twin (T.Open parens) J e (f false) (g false)) :
    T.Twin (T.Open parens) J e (eatSymbol sign >>= f) (eatSymbol sign >>= g) :=
  twin_eat (by simp) (exact_at rfl) (sees_symbol sign) yes no

end

end Scope.Track

end PulseSyntax
