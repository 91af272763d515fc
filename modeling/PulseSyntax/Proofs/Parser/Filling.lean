import Mathlib.Data.List.Induction
import PulseSyntax.Proofs.Parser.Course
import PulseSyntax.Proofs.Parser.Run
import PulseSyntax.Proofs.Parser.Yields

namespace PulseSyntax.Parser

structure Part (α : Type) where
  own : List Token
  value : α

/-- From one state to another the tokens are those of the parts, and the parser reads each of
    them. -/
inductive Parts (scope : Scope) (p : Parser α) :
    ParserState → List (Part α) → ParserState → Prop
  | nil (s : ParserState) : Parts scope p s [] s
  | cons {s t : ParserState} {own rest : List Token} {a : α} {parts : List (Part α)}
      (some : own ≠ []) (inside : ∀ t ∈ own, t.kind ≠ .endOfFile)
      (tokens : scope.remaining s = own ++ rest) (read : p scope s = .ok a (s.past own))
      (more : Parts scope p (s.past own) parts t) : Parts scope p s (⟨own, a⟩ :: parts) t

variable {α β σ : Type} {scope : Scope} {p : Parser α} {s t u : ParserState}

theorem exists_own (reaches : s.Reaches scope t) :
    ∃ own rest, scope.remaining s = own ++ rest ∧ t = s.past own ∧
      ∀ t ∈ own, t.kind ≠ .endOfFile := by
  obtain ⟨n, far⟩ := Nat.exists_eq_add_of_le reaches.cursor
  have same : t = s.ahead n := by
    have depth := reaches.depth
    cases t
    simp_all [ParserState.ahead]
  subst same
  clear far
  induction n generalizing s with
  | zero => exact ⟨[], _, rfl, rfl, by simp⟩
  | succ n ih =>
    have here := reaches.inside s.cursor (Nat.le_refl _) (by simp)
    have next := TokenStream.tokensFrom_of_kind_ne here
    have onward : (s.ahead 1).Reaches scope ((s.ahead 1).ahead n) :=
      ⟨rfl, Nat.le_add_right _ _, fun i from_s to_t =>
        reaches.inside i (Nat.le_of_succ_le from_s) (by simp at to_t ⊢; omega)⟩
    obtain ⟨own, rest, tokens, far, inside⟩ := ih onward
    refine ⟨scope.stream.get s.cursor :: own, rest, ?_, ?_, List.forall_mem_cons.mpr ⟨here, inside⟩⟩
    · rw [Scope.remaining, next]
      exact congrArg _ tokens
    · rw [ParserState.past_cons, ← far, ParserState.ahead_ahead, Nat.add_comm]

namespace Parts

variable {parts more : List (Part α)} {part : Part α}

theorem single {a : α} (read : p scope s = .ok a t) (reaches : s.Reaches scope t)
    (progress : s.cursor < t.cursor) : ∃ own, Parts scope p s [⟨own, a⟩] t := by
  obtain ⟨own, rest, tokens, rfl, inside⟩ := exists_own reaches
  refine ⟨own, .cons ?_ inside tokens read (.nil _)⟩
  rintro rfl
  exact absurd progress (Nat.lt_irrefl _)

theorem append (h : Parts scope p s parts t) (h' : Parts scope p t more u) :
    Parts scope p s (parts ++ more) u := by
  induction h with
  | nil => exact h'
  | cons some inside tokens read _ ih => exact .cons some inside tokens read (ih h')

theorem of_append (h : Parts scope p s (parts ++ more) u) :
    ∃ t, Parts scope p s parts t ∧ Parts scope p t more u := by
  induction parts generalizing s with
  | nil => exact ⟨s, .nil s, h⟩
  | cons part parts ih =>
    cases h with
    | cons some inside tokens read rest =>
      obtain ⟨t, first, second⟩ := ih rest
      exact ⟨t, .cons some inside tokens read first, second⟩

theorem tokens (h : Parts scope p s parts t) :
    scope.remaining s = parts.flatMap Part.own ++ scope.remaining t := by
  induction h with
  | nil => rfl
  | cons _ _ tokens _ _ ih =>
    rw [List.flatMap_cons, List.append_assoc, ← ih, tokens, Scope.remaining_past tokens]

theorem inside (h : Parts scope p s parts t) :
    ∀ t ∈ parts.flatMap Part.own, t.kind ≠ .endOfFile := by
  induction h with
  | nil => simp
  | cons _ inside _ _ _ ih =>
    rw [List.flatMap_cons]
    exact List.forall_mem_append.mpr ⟨inside, ih⟩

theorem read_of_mem (h : Parts scope p s parts t) (member : part ∈ parts) :
    ∃ u, p scope u = .ok part.value (u.past part.own) ∧
      ∃ rest, scope.remaining u = part.own ++ rest := by
  induction h with
  | nil => cases member
  | cons _ _ tokens read _ ih =>
    rcases List.mem_cons.mp member with rfl | later
    · exact ⟨_, read, _, tokens⟩
    · exact ih later

theorem takeWhile (h : Parts scope p s parts t)
    (atEnd : (scope.stream.get t.cursor).kind = .endOfFile) :
    (scope.remaining s).takeWhile (·.kind != .endOfFile) = parts.flatMap Part.own := by
  have stop : (scope.remaining t).takeWhile (·.kind != .endOfFile) = [] := by
    cases rest : scope.remaining t with
    | nil => rfl
    | cons first others =>
      rw [Scope.get_of_remaining rest] at atEnd
      simp [atEnd]
  rw [h.tokens, List.takeWhile_append_of_pos, stop, List.append_nil]
  simpa using h.inside

theorem of_cons (h : Parts scope p s (part :: parts) t) :
    s.cursor < (s.past part.own).cursor ∧ s.cursor < scope.stream.size ∧
      p scope s = .ok part.value (s.past part.own) ∧ Parts scope p (s.past part.own) parts t := by
  cases h with
  | @cons _ _ own rest _ _ some inside tokens read more =>
    obtain ⟨first, others, rfl⟩ := List.exists_cons_of_ne_nil some
    refine ⟨?_, Scope.lt_size_of_remaining tokens, read, more⟩
    simp [ParserState.past]

end Parts

theorem Rounds.loop_error {step : σ → Parser (ForInStep σ)} {a b : σ} {e : ParseError}
    (h : Rounds step scope a s b t) (last : step b scope t = .error e u) :
    Parser.loop step a scope s = .error e u := by
  have enough : scope.stream.size - s.cursor < scope.stream.size - s.cursor + 1 :=
    Nat.lt_succ_self _
  rw [Parser.loop]
  generalize scope.stream.size - s.cursor + 1 = rounds at enough ⊢
  induction h generalizing rounds with
  | refl =>
    obtain ⟨rounds, rfl⟩ := Nat.exists_eq_succ_of_ne_zero (Nat.ne_of_gt (Nat.zero_lt_of_lt enough))
    rw [Parser.iterate, bind_apply, last]
  | head first inside progress _ ih =>
    obtain ⟨rounds, rfl⟩ := Nat.exists_eq_succ_of_ne_zero (Nat.ne_of_gt (Nat.zero_lt_of_lt enough))
    rw [Parser.iterate, bind_of_ok first]
    exact ih last _ (by omega)

end PulseSyntax.Parser

namespace PulseSyntax

open PulseSyntax.Parser

/-- How entries fill a record. -/
structure Filling (σ ε κ : Type) where
  empty : σ
  field : ε → κ
  held : σ → κ → List ε
  put : σ → ε → σ
  isList : κ → Bool
  held_empty : ∀ key, held empty key = []
  held_put : ∀ [DecidableEq κ] a e key, isList (field e) ∨ held a (field e) = [] →
    held (put a e) key = held a key ++ if field e = key then [e] else []

namespace Filling

variable {σ ε κ : Type} (F : Filling σ ε κ)

/-- The field may not be filled once more. -/
def taken (a : σ) (key : κ) : Bool := !F.isList key && !(F.held a key).isEmpty

@[simp] theorem taken_empty {F : Filling σ ε κ} {key : κ} : F.taken F.empty key = false := by
  simp [taken, F.held_empty]

theorem taken_slot {F : Filling σ ε κ} {α : Type} {a : σ} {key : κ} {slot : Option α} {f : α → ε}
    (single : F.isList key = false) (held : F.held a key = (slot.map f).toList) :
    F.taken a key = slot.isSome := by
  rw [taken, single, held]
  cases slot <;> rfl

def fill (es : List ε) : σ := es.foldl F.put F.empty

/-- No two entries fill one field, unless it holds a list. -/
def Distinct (es : List ε) : Prop :=
  es.Pairwise fun e e' => F.field e = F.field e' → F.isList (F.field e)

variable {F} {es : List ε} {e : ε} {a b : σ} {key : κ}

theorem fill_concat : F.fill (es ++ [e]) = F.put (F.fill es) e := by
  rw [fill, List.foldl_append]
  rfl

theorem fill_append_option {next : Option ε} :
    F.fill (es ++ next.toList) = next.elim (F.fill es) (F.put (F.fill es)) := by
  cases next with
  | none => simp
  | some e => exact fill_concat

theorem distinct_concat : F.Distinct (es ++ [e]) ↔
    F.Distinct es ∧ ∀ e' ∈ es, F.field e' = F.field e → F.isList (F.field e) := by
  rw [Distinct, List.pairwise_append]
  simp only [List.pairwise_singleton, List.mem_singleton, forall_eq, true_and]
  refine and_congr_right fun _ => forall₂_congr fun e' _ => ?_
  exact ⟨fun h same => same ▸ h same, fun h same => same ▸ h same⟩

variable [DecidableEq κ]

theorem held_fill (distinct : F.Distinct es) (key : κ) :
    F.held (F.fill es) key = es.filter (F.field · = key) := by
  induction es using List.reverseRecOn generalizing key with
  | nil => exact F.held_empty key
  | append_singleton es e ih =>
    obtain ⟨distinct, single⟩ := distinct_concat.mp distinct
    have free : F.isList (F.field e) ∨ F.held (F.fill es) (F.field e) = [] := by
      by_cases list : F.isList (F.field e) = true
      · exact .inl list
      · right
        rw [ih distinct, List.filter_eq_nil_iff]
        intro e' member same
        exact list (single e' member (by simpa using same))
    rw [fill_concat, F.held_put _ _ _ free, ih distinct, List.filter_append, List.filter_cons,
      List.filter_nil]
    simp only [decide_eq_true_eq]

/-- Entries fill a record: no two are for one field, unless it holds a list, and each field holds
    those of its own in their order. -/
structure Fills (F : Filling σ ε κ) (es : List ε) (a : σ) : Prop where
  distinct : F.Distinct es
  held : ∀ key, F.held a key = es.filter (F.field · = key)

theorem Distinct.fills (distinct : F.Distinct es) : F.Fills es (F.fill es) :=
  ⟨distinct, held_fill distinct⟩

theorem taken_fill (distinct : F.Distinct es) :
    F.taken (F.fill es) key = true ↔ F.isList key = false ∧ ∃ e ∈ es, F.field e = key := by
  simp [taken, held_fill distinct]

theorem Distinct.concat (distinct : F.Distinct es)
    (free : F.taken (F.fill es) (F.field e) = false) : F.Distinct (es ++ [e]) := by
  refine distinct_concat.mpr ⟨distinct, fun e' member same => ?_⟩
  cases list : F.isList (F.field e) with
  | true => rfl
  | false =>
    have filled := (taken_fill distinct).mpr ⟨list, e', member, same⟩
    rw [free] at filled
    cases filled

theorem distinct_append_option {next : Option ε} (distinct : F.Distinct es) :
    F.Distinct (es ++ next.toList) ↔ ∀ e ∈ next, F.taken (F.fill es) (F.field e) = false := by
  cases next with
  | none => simpa using distinct
  | some e =>
    simp only [Option.toList_some, Option.mem_some_iff, forall_eq']
    refine ⟨fun more => ?_, distinct.concat⟩
    rw [Bool.eq_false_iff, ne_eq, taken_fill distinct]
    rintro ⟨single, e', member, same⟩
    rw [(distinct_concat.mp more).2 e' member same] at single
    cases single

/-- A repetition that fills a record. Its rounds read what `p` reads, of which some is an entry, and
    it is done at a token at which `stop` holds. -/
structure Turns {β : Type} (F : Filling σ ε κ) (step : σ → Parser (ForInStep σ)) (p : Parser β)
    (entryOf : β → Option ε) (stop : TokenKind → Prop) : Prop where
  yield_iff : ∀ {scope a b s t}, step a scope s = .ok (.yield b) t ↔
    ∃ v, p scope s = .ok v t ∧ (∀ e ∈ entryOf v, F.taken a (F.field e) = false) ∧
      b = (entryOf v).elim a (F.put a)
  done : ∀ {scope a b s t}, step a scope s = .ok (.done b) t →
    b = a ∧ t = s ∧ stop (scope.stream.get s.cursor).kind
  advances : ∀ {scope s v t}, p scope s = .ok v t → s.Reaches scope t ∧ s.cursor < t.cursor

section

variable {β : Type} {scope : Scope} {s t : ParserState} {step : σ → Parser (ForInStep σ)}
  {p : Parser β} {entryOf : β → Option ε} {stop : TokenKind → Prop} {parts : List (Parser.Part β)}

def entries (entryOf : β → Option ε) (parts : List (Parser.Part β)) : List ε :=
  parts.filterMap fun part => entryOf part.value

theorem entries_concat {part : Parser.Part β} :
    entries entryOf (parts ++ [part]) = entries entryOf parts ++ (entryOf part.value).toList := by
  rw [entries, List.filterMap_append]
  cases h : entryOf part.value <;> simp [entries, h]

namespace Turns

theorem rounds (h : F.Turns step p entryOf stop) (read : Parts scope p s parts t)
    (distinct : F.Distinct (entries entryOf parts)) :
    Rounds step scope F.empty s (F.fill (entries entryOf parts)) t := by
  induction parts using List.reverseRecOn generalizing t with
  | nil => cases read with | nil => exact .refl _ s
  | append_singleton parts part ih =>
    obtain ⟨u, before, last⟩ := read.of_append
    rw [entries_concat] at distinct ⊢
    have earlier : F.Distinct (entries entryOf parts) := (List.pairwise_append.mp distinct).1
    obtain ⟨progress, inside, ok, rest⟩ := last.of_cons
    cases rest with
    | nil =>
      refine (ih before earlier).trans (.head ?_ inside progress (.refl _ _))
      rw [fill_append_option]
      exact h.yield_iff.mpr ⟨_, ok, (distinct_append_option earlier).mp distinct, rfl⟩

theorem yields_loop (h : F.Turns step p entryOf stop) :
    Yields (loop step F.empty) scope s fun a t =>
      stop (scope.stream.get t.cursor).kind ∧ ∃ parts, Parts scope p s parts t ∧
        F.Distinct (entries entryOf parts) ∧ a = F.fill (entries entryOf parts) := by
  refine yields_loop_until (I := fun a t => ∃ parts, Parts scope p s parts t ∧
    F.Distinct (entries entryOf parts) ∧ a = F.fill (entries entryOf parts)) ?_
    ⟨[], .nil s, .nil, rfl⟩
  rintro _ u ⟨parts, before, distinct, rfl⟩ next v round
  cases next with
  | done b =>
    obtain ⟨rfl, rfl, atStop⟩ := h.done round
    exact ⟨atStop, parts, before, distinct, rfl⟩
  | yield b =>
    obtain ⟨value, ok, free, rfl⟩ := h.yield_iff.mp round
    obtain ⟨reaches, progress⟩ := h.advances ok
    obtain ⟨own, part⟩ := Parts.single ok reaches progress
    refine ⟨⟨parts ++ [⟨own, value⟩], before.append part, ?_, ?_⟩, progress,
      reaches.lt_size progress⟩
    · rw [entries_concat]
      exact (distinct_append_option distinct).mpr free
    · rw [entries_concat, fill_append_option]

theorem loop_error (h : F.Turns step p entryOf stop) (read : Parts scope p s parts t)
    (distinct : F.Distinct (entries entryOf parts)) {err : ParseError} {u : ParserState}
    (failed : step (F.fill (entries entryOf parts)) scope t = .error err u) :
    loop step F.empty scope s = .error err u :=
  (h.rounds read distinct).loop_error failed

end Turns

end

end Filling

/-- How the entries of a record are read. The words at the start of an entry name its field. -/
structure EntryReader {σ ε : Type} (F : Filling σ ε Keyword) where
  /-- The field of an entry that starts with tokens of these two kinds. -/
  field? : TokenKind → TokenKind → Option Keyword
  reader : Keyword → Parser ε
  repeated : Keyword → Cause
  unknown : ∀ {α : Type}, Parser α
  field_of_reader : ∀ {word scope s e t}, reader word scope s = .ok e t → F.field e = word
  repeated_kind : ∀ word, (repeated word).kind = .duplicateBlock
  unknown_ne_ok : ∀ {α : Type} {scope s t} {a : α}, unknown scope s ≠ .ok a t

namespace EntryReader

variable {σ ε : Type} {F : Filling σ ε Keyword} (R : EntryReader F)

def fieldAt? (scope : Scope) (s : ParserState) : Option Keyword :=
  R.field? (scope.stream.get s.cursor).kind (scope.stream.get (s.cursor + 1)).kind

/-- Reads an entry, whatever has been filled. -/
def entry : Parser ε := do
  match R.field? (← current).kind (← peek).kind with
  | some word => R.reader word
  | none => R.unknown

def add (a : σ) : Parser σ := do
  match R.field? (← current).kind (← peek).kind with
  | some word =>
    if F.taken a word then Parser.fail (R.repeated word) else F.put a <$> R.reader word
  | none => R.unknown

variable {R} {es : List ε} {e : ε} {a b : σ} {word : Keyword} {scope : Scope} {s t : ParserState}
  {err : ParseError}

theorem entry_eq_ok : R.entry scope s = .ok e t ↔
    ∃ word, R.fieldAt? scope s = some word ∧ R.reader word scope s = .ok e t := by
  rw [entry, bind_of_ok current_apply, bind_of_ok peek_apply, ← fieldAt?]
  cases R.fieldAt? scope s with
  | none => simp [R.unknown_ne_ok]
  | some word => simp

theorem add_of_fieldAt? (here : R.fieldAt? scope s = some word) :
    R.add a scope s =
      (if F.taken a word then Parser.fail (R.repeated word)
      else R.reader word >>= fun e => pure (F.put a e)) scope s := by
  rw [add, bind_of_ok current_apply, bind_of_ok peek_apply, ← fieldAt?, here]
  rfl

theorem add_eq_ok : R.add a scope s = .ok b t ↔
    ∃ e, R.entry scope s = .ok e t ∧ F.taken a (F.field e) = false ∧ b = F.put a e := by
  simp only [entry_eq_ok]
  cases here : R.fieldAt? scope s with
  | none =>
    rw [add, bind_of_ok current_apply, bind_of_ok peek_apply, ← fieldAt?, here]
    simp [R.unknown_ne_ok]
  | some word =>
    rw [add_of_fieldAt? here]
    constructor
    · split
      · exact fun ok => absurd ok fail_ne_ok
      · next free =>
        intro ok
        obtain ⟨e, u, read, last⟩ := bind_eq_ok.mp ok
        cases last
        refine ⟨e, ⟨word, rfl, read⟩, ?_, rfl⟩
        rw [R.field_of_reader read]
        simpa using free
    · rintro ⟨e, ⟨_, same, read⟩, free, rfl⟩
      cases same
      rw [R.field_of_reader read] at free
      rw [free, if_neg Bool.false_ne_true, bind_of_ok read, pure_apply]

/-- An entry at `s` is the second one for its field, after those of `es`. -/
structure Again (R : EntryReader F) (scope : Scope) (es : List ε) (s : ParserState)
    (word : Keyword) : Prop where
  before : F.Distinct es
  here : R.fieldAt? scope s = some word
  once : F.isList word = false
  filled : ∃ e ∈ es, F.field e = word

theorem Again.add (h : R.Again scope es s word) :
    R.add (F.fill es) scope s = .error ⟨R.repeated word, (scope.stream.get s.cursor).place⟩ s := by
  have filled := (Filling.taken_fill h.before).mpr ⟨h.once, h.filled⟩
  rw [add_of_fieldAt? h.here, if_pos filled, fail_apply]

/-- An entry at `s` is the first one for its field, after those of `es`. -/
structure First (R : EntryReader F) (scope : Scope) (es : List ε) (s : ParserState)
    (word : Keyword) : Prop where
  before : F.Distinct es
  here : R.fieldAt? scope s = some word
  unfilled : ∀ e ∈ es, F.field e ≠ word

theorem First.add (h : R.First scope es s word) (failed : R.reader word scope s = .error err t) :
    R.add (F.fill es) scope s = .error err t := by
  have free : ¬ F.taken (F.fill es) word = true := by
    rw [Filling.taken_fill h.before]
    rintro ⟨-, e, member, same⟩
    exact h.unfilled e member same
  rw [add_of_fieldAt? h.here, if_neg free, bind_apply, failed]

end EntryReader

end PulseSyntax
