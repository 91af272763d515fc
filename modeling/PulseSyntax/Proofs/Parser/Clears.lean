import PulseSyntax.Proofs.Expr.Stands
import PulseSyntax.Proofs.Outline.Owned

namespace PulseSyntax

open PulseSyntax.Parser

/-- From index `i` up to `j` text that forms no token stands in the bodies that are kept, if it stands
    there at all. -/
structure Scope.Clears (scope : Scope) (kept : TokenRange → Prop) (i j : Nat) : Prop where
  le : i ≤ j
  inBody : ∀ k, i ≤ k → k < j → (scope.stream.get k).kind = .invalid →
    ∃ r, kept r ∧ r.start ≤ k ∧ k < r.stop

namespace Scope.Clears

variable {scope : Scope} {kept more : TokenRange → Prop} {i j k : Nat}

theorem refl (i : Nat) : scope.Clears kept i i := ⟨Nat.le_refl i, fun _ le lt _ => by omega⟩

theorem trans (h : scope.Clears kept i j) (h' : scope.Clears kept j k) : scope.Clears kept i k where
  le := Nat.le_trans h.le h'.le
  inBody l first last invalid := by
    rcases Nat.lt_or_ge l j with before | after
    · exact h.inBody l first before invalid
    · exact h'.inBody l after last invalid

theorem mono (h : scope.Clears kept i j) (imp : ∀ r, kept r → more r) :
    scope.Clears more i j where
  le := h.le
  inBody k first last invalid := by
    obtain ⟨r, own, inside⟩ := h.inBody k first last invalid
    exact ⟨r, imp r own, inside⟩

theorem token {kind : TokenKind} (hk : (scope.stream.get i).kind = kind) (valid : kind ≠ .invalid) :
    scope.Clears kept i (i + 1) where
  le := Nat.le_succ i
  inBody k first last invalid := by
    obtain rfl : k = i := by omega
    exact absurd (hk.symm.trans invalid) valid

theorem block {r : TokenRange} (first : r.start = i + 1) (delimits : scope.Delimits r)
    (own : kept r) : scope.Clears kept i (r.stop + 1) where
  le := by
    have le := delimits.matched.le
    omega
  inBody k after before invalid := by
    have opening := delimits.opening
    rw [first, Nat.add_sub_cancel] at opening
    rcases Nat.eq_or_lt_of_le after with rfl | after
    · rw [opening] at invalid
      cases invalid
    rcases Nat.eq_or_lt_of_le (Nat.le_of_lt_succ before) with rfl | before
    · rw [delimits.closing] at invalid
      cases invalid
    exact ⟨r, own, by omega, before⟩

theorem read {s : ParserState} {kind : TokenKind} (o : scope.Clears kept i s.cursor)
    (hk : (scope.stream.get s.cursor).kind = kind) (valid : kind ≠ .invalid) :
    scope.Clears kept i (s.next scope).cursor := by
  by_cases he : (scope.stream.get s.cursor).kind = .endOfFile
  · rw [ParserState.next, if_pos he]
    exact o
  · rw [ParserState.next, if_neg he]
    exact o.trans (.token hk valid)

end Scope.Clears

theorem TokenKind.valid_of_isName {kind : TokenKind} (h : kind.isName) : kind ≠ .invalid := by
  rintro rfl
  cases h

theorem TokenKind.valid_of_word {kind : TokenKind} (h : kind = .identifier ∨ kind.isKeyword) :
    kind ≠ .invalid := by
  rintro rfl
  simp [isKeyword] at h

/-- The body is one of those in the fragments. -/
def Fragment.Keep (fs : List Fragment) (r : TokenRange) : Prop :=
  ∃ owner, (owner, r) ∈ fs.flatMap Fragment.owned

/-- The bodies in the fragments account for all text that forms no token. -/
structure Scope.Accounts (scope : Scope) (i j : Nat) (fs : List Fragment) : Prop where
  clears : scope.Clears (Fragment.Keep fs) i j

namespace Scope.Accounts

variable {scope : Scope} {i j k : Nat} {fs gs : List Fragment} {s : ParserState} {kind : TokenKind}

theorem refl (i : Nat) : scope.Accounts i i [] := ⟨.refl i⟩

theorem widen (h : scope.Accounts i j fs) (sub : ∀ f ∈ fs, f ∈ gs) : scope.Accounts i j gs := by
  refine ⟨h.clears.mono fun r ⟨owner, own⟩ => ⟨owner, ?_⟩⟩
  obtain ⟨f, member, owned⟩ := List.mem_flatMap.mp own
  exact List.mem_flatMap.mpr ⟨f, sub f member, owned⟩

theorem append (h : scope.Accounts i j fs) (h' : scope.Accounts j k gs) :
    scope.Accounts i k (fs ++ gs) :=
  ⟨(h.widen fun _ => List.mem_append_left _).clears.trans
    (h'.widen fun _ => List.mem_append_right _).clears⟩

theorem read (o : scope.Accounts i s.cursor fs) (hk : (scope.stream.get s.cursor).kind = kind)
    (valid : kind ≠ .invalid) : scope.Accounts i (s.next scope).cursor fs :=
  ⟨o.clears.read hk valid⟩

theorem readName (o : scope.Accounts i s.cursor fs) (name : (scope.stream.get s.cursor).kind.isName) :
    scope.Accounts i (s.next scope).cursor fs := o.read rfl (TokenKind.valid_of_isName name)

theorem readTwo {kind' : TokenKind} (o : scope.Accounts i s.cursor fs)
    (hk : (scope.stream.get s.cursor).kind = kind) (he : kind ≠ .endOfFile) (valid : kind ≠ .invalid)
    (hk' : (scope.stream.get (s.cursor + 1)).kind = kind') (valid' : kind' ≠ .invalid) :
    scope.Accounts i ((s.next scope).next scope).cursor fs := by
  have second : (scope.stream.get (s.next scope).cursor).kind = kind' := by
    rwa [ParserState.next_of_kind hk he]
  exact (o.read hk valid).read second valid'

end Scope.Accounts

namespace Parser

variable {α σ : Type} {scope : Scope}

/-- Where the parser succeeds, its answer accounts for the text that forms no token. -/
def Clean (scope : Scope) (fragments : α → List Fragment) (p : Parser α) : Prop :=
  ∀ s, Yields p scope s fun a t => scope.Accounts s.cursor t.cursor (fragments a)

namespace Clean

variable {fragments : α → List Fragment} {p : Parser α} {i : Nat} {s : ParserState}
  {fs : List Fragment}

theorem step (h : Clean scope fragments p) (o : scope.Accounts i s.cursor fs)
    {Q : α → ParserState → Prop}
    (goOn : ∀ a t, scope.Accounts i t.cursor (fs ++ fragments a) → Q a t) : Yields p scope s Q :=
  (h s).mono fun a t own => goOn a t (o.append own)

theorem deeper (h : Clean scope fragments p) : Clean scope fragments (deeper p) := by
  intro s a t ok
  obtain ⟨u, inner, rfl⟩ := deeper_eq_ok.mp ok
  have own := h { s with depth := s.depth + 1 } inner
  exact own

theorem withLevels {p : Nat → Parser α} (h : ∀ levels, Clean scope fragments (p levels)) :
    Clean scope fragments (withLevels p) := fun s => h (scope.options.maxDepth - s.depth) s

theorem loop (fragments : σ → List Fragment) {step : σ → Parser (ForInStep σ)}
    (h : ∀ a i s, scope.Accounts i s.cursor (fragments a) →
      Yields (step a) scope s fun next t => scope.Accounts i t.cursor (fragments next.value))
    {a : σ} (empty : fragments a = []) : Clean scope fragments (loop step a) := fun s =>
  yields_loop (I := fun a t => scope.Accounts s.cursor t.cursor (fragments a))
    (fun b t own => h b s.cursor t own) (by rw [empty]; exact .refl _)

theorem chain (fragments : α → List Fragment) {step : α → Parser (Option α)}
    (h : ∀ a i s, scope.Accounts i s.cursor (fragments a) →
      Yields (step a) scope s fun next t => scope.Accounts i t.cursor (fragments (next.getD a)))
    {a : α} (empty : fragments a = []) : Clean scope fragments (chain step a) := by
  refine loop fragments (fun a i s own => yields_bind.mpr ((h a i s own).mono fun next t own => ?_)) empty
  cases next with
  | none => exact yields_pure.mpr own
  | some b => exact yields_pure.mpr own

theorem manyAfter {item : Array α → Parser α} (close : Symbol)
    (h : ∀ before, Clean scope fragments (item before)) :
    Clean scope (·.flatMap fragments) (manyAfter close item) := by
  intro s
  rw [manyAfter_eq]
  refine yields_bind.mpr ((loop (fun items => items.toList.flatMap fragments)
    (fun items i s o => ?_) (by simp) s).mono fun items t o => yields_pure.mpr o)
  simp [manyRound]
  exact ⟨fun _ => o, fun _ _ => (h items).step o fun a t o => by simpa using o⟩

theorem commaSeparatedAfter {item : Array α → Parser α} (close : Symbol)
    (h : ∀ before, Clean scope fragments (item before)) :
    Clean scope (·.flatMap fragments) (commaSeparatedAfter close item) := by
  intro s
  refine yields_bind.mpr ((loop (fun items => items.toList.flatMap fragments)
    (fun items i s o => ?_) (by simp) s).mono fun items t o => yields_pure.mpr o)
  simp [commaRound]
  refine ⟨fun _ => by simpa using o, fun _ => (h items).step o fun a t o => ?_⟩
  exact ⟨fun comma => by simpa using o.read comma (by simp), fun _ => by simpa using o⟩

theorem commaSeparated (close : Symbol) (h : Clean scope fragments p) :
    Clean scope (·.flatMap fragments) (commaSeparated close p) :=
  commaSeparatedAfter close fun _ => h

end Clean

theorem clean_skipSeparators : Clean scope (fun _ => []) skipSeparators := by
  rw [skipSeparators_eq]
  refine .loop _ (fun _ i s o => ?_) rfl
  simp [separatorRound]
  exact ⟨fun separator => separator.elim (o.read · (by simp)) (o.read · (by simp)), fun _ _ => o⟩

namespace Clean

variable {fragments : α → List Fragment} {p : Parser α}

theorem entry (h : Clean scope fragments p) : Clean scope fragments (entry p) := by
  intro s
  simp [Parser.entry]
  refine (h s).mono fun a t o => clean_skipSeparators.step o fun _ t o => ?_
  simpa using o

theorem foldEntries {fragments : σ → List Fragment} {add : σ → Parser σ}
    (h : ∀ state i s, scope.Accounts i s.cursor (fragments state) →
      Yields (add state) scope s fun next t => scope.Accounts i t.cursor (fragments next))
    {state : σ} (empty : fragments state = []) :
    Clean scope fragments (foldEntries add state) := by
  rw [foldEntries_eq]
  refine loop fragments (fun state i s o => ?_) empty
  simp [entryRound, Parser.entry]
  refine ⟨fun _ => o, fun _ _ => (h state i s o).mono fun next t o => ?_⟩
  exact clean_skipSeparators.step o fun _ t o => by simpa using o

theorem braced (h : Clean scope fragments p) :
    Clean scope (·.1.flatMap fragments) (braced p) := by
  intro s
  simp [Parser.braced, many]
  intro opening
  refine (manyAfter .closeBrace fun _ => h).step ((Scope.Accounts.refl _).read opening (by simp))
    fun items t o closing => ?_
  simpa using o.read closing (by simp)

end Clean

theorem yields_rawBlock_clean {i : Nat} {s : ParserState} {fs : List Fragment}
    (o : scope.Accounts i s.cursor fs) :
    Yields rawBlock scope s fun r t =>
      ∀ owner, scope.Accounts i t.cursor (fs ++ [.body owner r]) := by
  intro r t ok owner
  obtain ⟨delimits, stop⟩ := yields_rawBlock (.refl scope.stream s.cursor)
    (Q := fun r t => scope.Delimits r ∧ t.cursor = r.stop + 1)
    (fun _ _ _ delimits _ stop => ⟨delimits, stop⟩) ok
  rw [stop]
  exact o.append ⟨.block (yields_rawBlock_start ok) delimits
    ⟨owner, by simp [Fragment.owned]⟩⟩

end Parser

end PulseSyntax
