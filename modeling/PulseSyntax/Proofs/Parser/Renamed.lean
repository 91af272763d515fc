import PulseSyntax.Parser.Basic
import PulseSyntax.Proofs.Parser.Yields
import PulseSyntax.Proofs.Token.Order
import PulseSyntax.Token.Word

/-!
A reserved word in place of a name. Of two runs the second meets the word wherever the first meets
the name, each where it stands. The second gives the answer of the first, renamed, unless that answer
is pinned to the name; and where it does not, it succeeds in no state but one where it has to stop.
-/

namespace PulseSyntax

/-- The token is an identifier with this spelling. -/
def Token.Names (x : String) (t : Token) : Prop := t.kind = .identifier ∧ t.raw = x

instance (x : String) (t : Token) : Decidable (t.Names x) :=
  inferInstanceAs (Decidable (_ ∧ _))

/-- The reserved word stands in for the name. -/
def Token.renamed (x : String) (k : Keyword) (t : Token) : Token :=
  if t.Names x then ⟨.keyword k, Word.keywordValue k, k.spelling, t.place⟩ else t

namespace Token

variable {x : String} {k : Keyword} {t : Token}

theorem renamed_of_names (h : t.Names x) :
    t.renamed x k = ⟨.keyword k, Word.keywordValue k, k.spelling, t.place⟩ := if_pos h

theorem renamed_of_not (h : ¬ t.Names x) : t.renamed x k = t := if_neg h

@[simp] theorem place_renamed : (t.renamed x k).place = t.place := by
  unfold renamed
  split <;> rfl

@[simp] theorem span_renamed : (t.renamed x k).span = t.span := congrArg Place.span place_renamed

@[simp] theorem line_renamed : (t.renamed x k).line = t.line := congrArg Place.line place_renamed

theorem kind_renamed_eq_iff {kind : TokenKind} (name : kind ≠ .identifier)
    (word : kind.isKeyword = false) : (t.renamed x k).kind = kind ↔ t.kind = kind := by
  by_cases h : t.Names x
  · rw [renamed_of_names h, h.1]
    refine iff_of_false ?_ (Ne.symm name)
    rintro rfl
    cases word
  · rw [renamed_of_not h]

@[simp] theorem kind_renamed_symbol {sign : Symbol} :
    (t.renamed x k).kind = .symbol sign ↔ t.kind = .symbol sign :=
  kind_renamed_eq_iff (by simp) rfl

@[simp] theorem kind_renamed_endOfFile : (t.renamed x k).kind = .endOfFile ↔ t.kind = .endOfFile :=
  kind_renamed_eq_iff (by simp) rfl

end Token

namespace TokenStream

def renamed (x : String) (k : Keyword) (stream : TokenStream) : TokenStream :=
  .ofList (stream.toList.map (Token.renamed x k))

variable {x : String} {k : Keyword}

theorem toList_eq_dropLast (stream : TokenStream) :
    stream.toList = stream.toList.dropLast ++ [stream.last] := by
  have some : stream.toList ≠ [] := by
    intro empty
    have size := stream.nonempty
    rw [← Array.length_toList, show stream.tokens.toList = [] from empty] at size
    cases size
  have back : stream.toList.getLast some = stream.last := Array.getLast_toList _ some
  rw [← back, List.dropLast_concat_getLast]

theorem toList_renamed (stream : TokenStream) :
    (stream.renamed x k).toList = stream.toList.map (Token.renamed x k) := by
  rw [renamed, toList_eq_dropLast stream, List.map_append]
  exact toList_ofList (Token.kind_renamed_endOfFile.mpr stream.last_kind)

theorem get_renamed (stream : TokenStream) (i : Nat) :
    (stream.renamed x k).get i = (stream.get i).renamed x k :=
  (get_congr (f := Token.renamed x k) (g := id)
    ((toList_renamed stream).symm.trans (List.map_id _).symm) i).symm

theorem size_renamed (stream : TokenStream) : (stream.renamed x k).size = stream.size :=
  size_congr (f := id) (g := Token.renamed x k)
    ((List.map_id _).trans (toList_renamed stream))

theorem tokensFrom_renamed (stream : TokenStream) (i : Nat) :
    (stream.renamed x k).tokensFrom i = (stream.tokensFrom i).map (Token.renamed x k) := by
  rw [tokensFrom_eq, tokensFrom_eq, toList_renamed, List.map_drop]

end TokenStream

/-- The scope in which the reserved word stands wherever the name does. -/
def Scope.renamed (x : String) (k : Keyword) (scope : Scope) : Scope :=
  { scope with stream := scope.stream.renamed x k }

@[simp] theorem Scope.get_renamed {x : String} {k : Keyword} (scope : Scope) (i : Nat) :
    (scope.renamed x k).stream.get i = (scope.stream.get i).renamed x k :=
  scope.stream.get_renamed i

end PulseSyntax

namespace PulseSyntax.Parser

variable {α β γ δ σ τ : Type}

/-- What two runs answer: what `name` makes of an answer which is not pinned, or else nothing that
    `stop` does not allow. -/
inductive Answers (name : α → β) (pins : α → Prop) (stop : β → ParserState → Prop) :
    Reply α → Reply β → Prop
  | same {x : α} {t : ParserState} (free : ¬ pins x) :
    Answers name pins stop (.ok x t) (.ok (name x) t)
  | pinned {x : α} {t : ParserState} {r : Reply β} (pin : pins x)
    (stops : ∀ ⦃y u⦄, r = .ok y u → stop y u) : Answers name pins stop (.ok x t) r
  | failed {e : ParseError} {t : ParserState} {r : Reply β}
    (stops : ∀ ⦃y u⦄, r = .ok y u → stop y u) : Answers name pins stop (.error e t) r

/-- No answer is pinned. -/
def Free (_ : α) : Prop := False

/-- No state is one to stop in. -/
def Nowhere (_ : α) (_ : ParserState) : Prop := False

section

variable {name : α → β} {pins : α → Prop} {stop : β → ParserState → Prop} {r : Reply α} {r' : Reply β}

end

variable {x : String} {k : Keyword} {a : Scope}

/-- Wherever both runs start, they answer so. -/
def Renames (x : String) (k : Keyword) (a : Scope) (name : α → β) (pins : α → Prop)
    (stop : β → ParserState → Prop) (p : Parser α) (q : Parser β) : Prop :=
  ∀ s, Answers name pins stop (p a s) (q (a.renamed x k) s)

section

variable {name : α → β} {pins : α → Prop} {stop : β → ParserState → Prop}
variable {name' : γ → δ} {pins' : γ → Prop} {stop' : δ → ParserState → Prop}
variable {p : Parser α} {q : Parser β} {f : α → Parser γ} {g : β → Parser δ} {s : ParserState}

theorem stops_bind (stays : ∀ w t, stop w t → Yields (g w) (a.renamed x k) t stop') (r : Reply β) :
    (∀ ⦃w u⦄, r = .ok w u → stop w u) → ∀ ⦃z v⦄, (match r with
      | .ok w u => g w (a.renamed x k) u
      | .error e u => .error e u) = .ok z v → stop' z v := by
  intro stops z v ok
  cases r with
  | ok w u => exact stays w u (stops rfl) ok
  | error => cases ok

theorem answers_bind (h : Answers name pins stop (p a s) (q (a.renamed x k) s))
    (hf : ∀ v t, p a s = .ok v t → ¬ pins v →
      Answers name' pins' stop' (f v a t) (g (name v) (a.renamed x k) t))
    (keeps : ∀ v t, pins v → Yields (f v) a t fun z _ => pins' z)
    (stays : ∀ w t, stop w t → Yields (g w) (a.renamed x k) t stop') :
    Answers name' pins' stop' ((p >>= f) a s) ((q >>= g) (a.renamed x k) s) := by
  rw [bind_apply, bind_apply]
  generalize first : p a s = r at h
  generalize q (a.renamed x k) s = r' at h
  cases h with
  | same free => exact hf _ _ first free
  | @pinned v t r' pin stops =>
    dsimp only
    cases rest : f v a t with
    | ok z u => exact .pinned (keeps v t pin rest) (stops_bind stays r' stops)
    | error => exact .failed (stops_bind stays r' stops)
  | failed stops => exact .failed (stops_bind stays _ stops)

theorem Renames.bind (h : Renames x k a name pins stop p q)
    (hf : ∀ v, ¬ pins v → Renames x k a name' pins' stop' (f v) (g (name v)))
    (keeps : ∀ v t, pins v → Yields (f v) a t fun z _ => pins' z)
    (stays : ∀ w t, stop w t → Yields (g w) (a.renamed x k) t stop') :
    Renames x k a name' pins' stop' (p >>= f) (q >>= g) := fun s =>
  answers_bind (h s) (fun v t _ free => hf v free t) keeps stays

theorem answers_step (h : Answers name Free Nowhere (p a s) (q (a.renamed x k) s))
    (hf : ∀ v t, p a s = .ok v t →
      Answers name' pins' stop' (f v a t) (g (name v) (a.renamed x k) t)) :
    Answers name' pins' stop' ((p >>= f) a s) ((q >>= g) (a.renamed x k) s) :=
  answers_bind h (fun v t ok _ => hf v t ok) (fun _ _ => False.elim) fun _ _ => False.elim

theorem Renames.step (h : Renames x k a name Free Nowhere p q)
    (hf : ∀ v, Renames x k a name' pins' stop' (f v) (g (name v))) :
    Renames x k a name' pins' stop' (p >>= f) (q >>= g) := fun s =>
  answers_step (h s) fun v t _ => hf v t

theorem renames_pure {v : α} {w : β} (same : w = name v) (free : ¬ pins v) :
    Renames x k a name pins stop (pure v) (pure w) := by
  subst same
  exact fun _ => .same free

theorem answers_of_yields (h : Yields p a s fun v _ => pins v)
    (h' : Yields q (a.renamed x k) s stop) :
    Answers name pins stop (p a s) (q (a.renamed x k) s) := by
  cases first : p a s with
  | ok => exact .pinned (h first) h'
  | error => exact .failed h'

theorem answers_of_fails (h : Yields p a s fun _ _ => False)
    (h' : Yields q (a.renamed x k) s fun _ _ => False) :
    Answers name pins stop (p a s) (q (a.renamed x k) s) :=
  answers_of_yields (h.mono fun _ _ => False.elim) (h'.mono fun _ _ => False.elim)

theorem renames_of_fails (h : ∀ {s v t}, p a s ≠ .ok v t)
    (h' : ∀ {s v t}, q (a.renamed x k) s ≠ .ok v t) : Renames x k a name pins stop p q :=
  fun _ => answers_of_fails (fun _ _ ok => h ok) fun _ _ ok => h' ok

theorem Renames.ite {condition : Prop} [Decidable condition] {p' : Parser α} {q' : Parser β}
    (h : condition → Renames x k a name pins stop p q)
    (h' : ¬ condition → Renames x k a name pins stop p' q') :
    Renames x k a name pins stop (if condition then p else p') (if condition then q else q') := by
  split
  · next yes => exact h yes
  · next no => exact h' no

theorem stops_deeper (keeps : ∀ y t n, stop y t → stop y { t with depth := n }) (r : Reply β) :
    (∀ ⦃y u⦄, r = .ok y u → stop y u) → ∀ ⦃z v⦄, (match r with
      | .ok y next => Reply.ok y { next with depth := next.depth - 1 }
      | .error e next => Reply.error e { next with depth := next.depth - 1 }) = .ok z v →
      stop z v := by
  intro stops z v ok
  cases r with
  | ok y u =>
    cases ok
    exact keeps _ _ _ (stops rfl)
  | error => cases ok

theorem Renames.deeper (keeps : ∀ y t n, stop y t → stop y { t with depth := n })
    (h : Renames x k a name pins stop p q) : Renames x k a name pins stop (deeper p) (deeper q) := by
  intro s
  have inner := h { s with depth := s.depth + 1 }
  unfold Parser.deeper
  generalize p a { s with depth := s.depth + 1 } = r at inner
  generalize q (a.renamed x k) { s with depth := s.depth + 1 } = r' at inner
  cases inner with
  | same free => exact .same free
  | pinned pin within => exact .pinned pin (stops_deeper keeps _ within)
  | failed within => exact .failed (stops_deeper keeps _ within)

end

section

variable {pins : Token → Prop} {stop : Token → ParserState → Prop} {kind : TokenKind}

theorem renames_peekAt (offset : Nat) (free : ∀ t, ¬ pins t) :
    Renames x k a (Token.renamed x k) pins stop (peekAt offset) (peekAt offset) := by
  intro s
  rw [peekAt_apply, peekAt_apply, Scope.get_renamed]
  exact .same (free _)

end

section

variable {kind : TokenKind}

theorem renames_current : Renames x k a (Token.renamed x k) Free Nowhere current current :=
  renames_peekAt 0 fun _ => id

theorem renames_previous :
    Renames x k a (Token.renamed x k) Free Nowhere previous previous := by
  intro s
  rw [previous_apply, previous_apply, Scope.get_renamed]
  exact .same id

theorem renames_cursor : Renames x k a id Free Nowhere cursor cursor := fun _ => .same id

theorem renames_advance : Renames x k a (Token.renamed x k) Free Nowhere advance advance := by
  intro s
  have same : advance (a.renamed x k) s = .ok ((a.stream.get s.cursor).renamed x k) (s.next a) := by
    unfold advance ParserState.next
    simp only [Scope.get_renamed, Token.kind_renamed_endOfFile]
    rfl
  rw [same]
  exact .same id

theorem renames_isSymbol (sign : Symbol) :
    Renames x k a id Free Nowhere (isSymbol sign) (isSymbol sign) := by
  intro s
  have same : (((a.renamed x k).stream.get s.cursor).kind == .symbol sign) =
      ((a.stream.get s.cursor).kind == .symbol sign) := by
    rw [Scope.get_renamed, Bool.eq_iff_iff, beq_iff_eq, beq_iff_eq, Token.kind_renamed_symbol]
  rw [isSymbol, is_apply, is_apply, same]
  exact .same id

theorem renames_expectSymbol (sign : Symbol) :
    Renames x k a (Token.renamed x k) Free Nowhere (expectSymbol sign) (expectSymbol sign) := by
  refine (renames_isSymbol sign).step fun found => ?_
  exact .ite (fun _ => renames_advance) fun _ =>
    renames_of_fails failAtToken_ne_ok failAtToken_ne_ok

theorem renames_eatSymbol (sign : Symbol) :
    Renames x k a id Free Nowhere (eatSymbol sign) (eatSymbol sign) := by
  refine (renames_isSymbol sign).step fun found => ?_
  refine .ite (fun _ => renames_advance.step fun _ => ?_) fun _ => renames_pure rfl id
  exact renames_pure rfl id

end

section

def roundOf (name : σ → τ) : ForInStep σ → ForInStep τ
  | .done v => .done (name v)
  | .yield v => .yield (name v)

variable {name : σ → τ} {pins : σ → Prop} {stop : τ → ParserState → Prop}
variable {turn : ForInStep τ → ParserState → Prop}
variable {step : σ → Parser (ForInStep σ)} {step' : τ → Parser (ForInStep τ)}

theorem Renames.iterate
    (h : ∀ v, ¬ pins v →
      Renames x k a (roundOf name) (fun next => pins next.value) turn (step v) (step' (name v)))
    (keeps : ∀ v t, pins v → Yields (step v) a t fun next _ => pins next.value)
    (done : ∀ w t, turn (.done w) t → stop w t)
    (yield : ∀ n w t, turn (.yield w) t →
      Yields (Parser.iterate step' n w) (a.renamed x k) t stop) (n : Nat) {v : σ}
    (free : ¬ pins v) :
    Renames x k a name pins stop (Parser.iterate step n v) (Parser.iterate step' n (name v)) := by
  induction n generalizing v with
  | zero => exact renames_pure rfl free
  | succ n ih =>
    refine (h v free).bind (fun next free => ?_) (fun next t pin => ?_) fun next t here => ?_
    · cases next with
      | done => exact renames_pure rfl free
      | yield => exact ih free
    · cases next with
      | done => exact yields_pure.mpr pin
      | yield => exact yields_iterate (I := fun v _ => pins v) keeps n pin
    · cases next with
      | done w => exact yields_pure.mpr (done w t here)
      | yield w => exact yield n w t here

theorem Renames.loop (turn : ForInStep τ → ParserState → Prop)
    (h : ∀ v, ¬ pins v →
      Renames x k a (roundOf name) (fun next => pins next.value) turn (step v) (step' (name v)))
    (keeps : ∀ v t, pins v → Yields (step v) a t fun next _ => pins next.value)
    (done : ∀ w t, turn (.done w) t → stop w t)
    (yield : ∀ n w t, turn (.yield w) t →
      Yields (Parser.iterate step' n w) (a.renamed x k) t stop) {v : σ} (free : ¬ pins v) :
    Renames x k a name pins stop (Parser.loop step v) (Parser.loop step' (name v)) := by
  intro s
  have run := Renames.iterate h keeps done yield (a.stream.size - s.cursor + 1) free s
  have size : (a.renamed x k).stream.size = a.stream.size := a.stream.size_renamed
  rwa [Parser.loop, Parser.loop, size]

end

section

variable {name : α → β} {pins : α → Prop} {halt : ParserState → Prop}

theorem Renames.chain {step : α → Parser (Option α)} {step' : β → Parser (Option β)}
    (h : ∀ v, ¬ pins v → Renames x k a (Option.map name) (fun next => ∃ w ∈ next, pins w)
      (fun _ => halt) (step v) (step' (name v)))
    (keeps : ∀ v t, pins v → Yields (step v) a t fun next _ => pins (next.getD v))
    (stays : ∀ w t, halt t → Yields (step' w) (a.renamed x k) t fun _ => halt) {v : α}
    (free : ¬ pins v) :
    Renames x k a name pins (fun _ => halt) (Parser.chain step v) (Parser.chain step' (name v)) := by
  have keepsRound (v : α) (t : ParserState) (pin : pins v) :
      Yields (chainRound step v) a t fun next _ => pins next.value := by
    refine yields_bind.mpr ((keeps v t pin).mono fun next u kept => ?_)
    cases next <;> exact yields_pure.mpr kept
  have staysRound (w : β) (t : ParserState) (here : halt t) :
      Yields (chainRound step' w) (a.renamed x k) t fun _ => halt := by
    refine yields_bind.mpr ((stays w t here).mono fun next u kept => ?_)
    cases next <;> exact yields_pure.mpr kept
  refine .loop (fun _ => halt) (fun v free => ?_) keepsRound (fun _ _ => id)
    (fun n w t here => yields_iterate (I := fun _ => halt) staysRound n here) free
  refine (h v free).bind (fun next found => ?_) (fun next t pin => ?_) fun next t here => ?_
  · cases next with
    | none => exact renames_pure rfl free
    | some w => exact renames_pure rfl fun pin => found ⟨w, rfl, pin⟩
  · obtain ⟨w, rfl, pin⟩ := pin
    exact yields_pure.mpr pin
  · cases next <;> exact yields_pure.mpr here

theorem Renames.commaSeparated (close : Symbol) {item : Parser α} {item' : Parser β}
    (noComma : ∀ t, halt t → (a.stream.get t.cursor).kind ≠ .symbol .comma)
    (h : Renames x k a name pins (fun _ => halt) item item') :
    Renames x k a (List.map name) (fun vs => ∃ v ∈ vs, pins v) (fun _ => halt)
      (Parser.commaSeparated close item) (Parser.commaSeparated close item') := by
  let pinned (vs : Array α) : Prop := ∃ v ∈ vs, pins v
  have rounds : Renames x k a (Array.map name) pinned (fun _ => halt)
      (Parser.loop (commaRound close fun _ => item) #[])
      (Parser.loop (commaRound close fun _ => item') #[]) := by
    rw [← show Array.map name #[] = #[] from Array.map_empty]
    refine .loop (fun round t => (∃ ws, round = .done ws) ∧ halt t) (fun vs free => ?_)
      (fun vs t pin => ?_) (fun _ _ => And.right) (fun _ _ _ turn => ?_) (by simp [pinned])
    · refine (renames_isSymbol close).step fun found =>
        .ite (fun _ => renames_pure rfl free) fun _ => ?_
      refine h.bind (fun v own => (renames_eatSymbol .comma).step fun found => ?_)
        (fun v t pin => ?_) fun w t here => ?_
      · have free' : ¬ pinned (vs.push v) := by grind
        have same : (vs.map name).push (name v) = (vs.push v).map name := (Array.map_push ..).symm
        exact .ite (fun _ => renames_pure (congrArg _ same) free')
          fun _ => renames_pure (congrArg _ same) free'
      · simp [pinned, pin]
      · simp [noComma t here, here]
    · obtain ⟨w, member, pin⟩ := pin
      simp [commaRound]
      exact ⟨fun _ => ⟨w, member, pin⟩, fun _ v u _ => ⟨w, Array.mem_push_of_mem v member, pin⟩⟩
    · obtain ⟨⟨ws, done⟩, -⟩ := turn
      cases done
  refine rounds.bind (fun vs free => ?_) (fun vs t pin => ?_) fun ws t here => ?_
  · exact renames_pure (by simp) (by simpa [pinned] using free)
  · simpa [pinned] using pin
  · exact yields_pure.mpr here

end

theorem renames_rawBlock : Renames x k a id Free Nowhere rawBlock rawBlock := by
  refine (renames_expectSymbol _).step fun _ => renames_cursor.step fun start => ?_
  refine (?_ : Renames x k a id Free Nowhere _ _).step fun _ => renames_cursor.step fun stop =>
    renames_advance.step fun _ => renames_pure rfl id
  refine .loop Nowhere (fun depth _ => renames_current.step fun t => ?_)
    (fun _ _ => False.elim) (fun _ _ => id) (fun _ _ _ => False.elim) id
  have brace (sign : Symbol) : ((t.renamed x k).kind == .symbol sign) = (t.kind == .symbol sign) := by
    rw [Bool.eq_iff_iff, beq_iff_eq, beq_iff_eq, Token.kind_renamed_symbol]
  have atEnd : ((t.renamed x k).kind == .endOfFile) = (t.kind == .endOfFile) := by
    rw [Bool.eq_iff_iff, beq_iff_eq, beq_iff_eq, Token.kind_renamed_endOfFile]
  simp only [brace, atEnd]
  refine .ite (fun _ => (renames_expectSymbol _).step fun _ => renames_pure rfl id) fun _ =>
    .ite (fun _ => renames_pure rfl id) fun _ => renames_advance.step fun _ => ?_
  exact .ite (fun _ => renames_pure rfl id) fun _ => .ite (fun _ => renames_pure rfl id)
    fun _ => renames_pure rfl id

end PulseSyntax.Parser
