import PulseSyntax.Proofs.Token.Context
import PulseSyntax.Proofs.Token.Reach.Scan

namespace PulseSyntax

/-- A string, a template or a comment that has no end. -/
def Token.IsUnterminated (t : Token) : Prop := t.kind = .invalid ∧ t.value ∈ unterminated

instance (t : Token) : Decidable t.IsUnterminated :=
  inferInstanceAs (Decidable (t.kind = .invalid ∧ t.value ∈ unterminated))

/-- A selector that takes in the end of a line has an open bracket. -/
def Token.HasOpenBracket (t : Token) : Prop :=
  t.kind = .selector ∧ t.raw.toList.getLast? = some '\n'

instance (t : Token) : Decidable t.HasOpenBracket :=
  inferInstanceAs (Decidable (t.kind = .selector ∧ t.raw.toList.getLast? = some '\n'))

namespace Lexer

/-- The context that a text leaves. -/
def left (ctx : Context) (text : List Char) : Context :=
  (pieces ctx 0 text).foldl Context.after ctx

theorem place_ne_nil (p : Position) (ps : List Piece) : place p ps ≠ [] := by
  cases ps with
  | nil => exact List.cons_ne_nil _ _
  | cons piece ps => cases piece <;> simp [place, Piece.token?, place_ne_nil]

theorem place_append (p : Position) (ps qs : List Piece) :
    place p (ps ++ qs) = (place p ps).dropLast ++ place (p.after (textOf ps)) qs := by
  induction ps generalizing p with
  | nil => rfl
  | cons piece ps ih =>
    rw [List.cons_append, place, place, ih, List.dropLast_append_of_ne_nil (place_ne_nil _ _),
      List.append_assoc, textOf_cons, Position.after_append]

theorem left_core (ctx : Context) (p : Position) (ps : List Piece) :
    (ps.foldl Context.after ctx).core = ctx.core.through (place p ps).dropLast := by
  induction ps generalizing ctx p with
  | nil => rfl
  | cons piece ps ih =>
    rw [List.foldl_cons, ih _ (p.after piece.text), place,
      List.dropLast_append_of_ne_nil (place_ne_nil _ _), Context.through_append]
    cases piece with
    | trivia => rfl
    | lexeme kind value text =>
      rw [Context.core_after_lexeme]
      rfl

theorem left_lastKind (text : List Char) :
    (left .initial text).lastKind = (tokens text).dropLast.getLast?.map (·.kind) := by
  have core := congrArg Context.lastKind (left_core .initial .origin (pieces .initial 0 text))
  rw [Context.through_lastKind] at core
  exact core.trans Option.or_none

section

variable {ctx : Context} {c : Char} {cs : List Char}

theorem pieces_of_blank (blank : Text.isBlank c) (ctx : Context) (cs : List Char) :
    pieces ctx 0 (c :: cs) = .trivia (c :: cs.takeWhile Text.isBlank) ::
      pieces (ctx.after (.trivia (c :: cs.takeWhile Text.isBlank))) 0
        (cs.dropWhile Text.isBlank) := by
  have cut : scan ctx c cs = [.trivia (c :: cs.takeWhile Text.isBlank)] := if_pos blank
  have whole : c :: cs = textOf (scan ctx c cs) ++ cs.dropWhile Text.isBlank := by
    rw [cut]
    simp
  rw [pieces_scan whole, cut]
  rfl

theorem pieces_blank (blank : Text.isBlank c) (ctx : Context) (cs : List Char) :
    ∃ run ps, pieces ctx 0 (c :: cs) = .trivia (c :: run) :: ps ∧
      pieces (ctx.after (.trivia [c])) 0 cs = if run.isEmpty then ps else .trivia run :: ps := by
  refine ⟨_, _, pieces_of_blank blank ctx cs, ?_⟩
  cases cs with
  | nil => rfl
  | cons e cs =>
    by_cases more : Text.isBlank e
    · rw [List.takeWhile_cons_of_pos more, List.dropWhile_cons_of_pos more]
      exact pieces_of_blank more _ cs
    · rw [List.takeWhile_cons_of_neg more, List.dropWhile_cons_of_neg more]
      rfl

theorem place_blank (blank : Text.isBlank c) (p : Position) :
    place p (pieces ctx 0 (c :: cs)) =
      place (p.after [c]) (pieces (ctx.after (.trivia [c])) 0 cs) := by
  obtain ⟨run, ps, whole, rest⟩ := pieces_blank blank ctx cs
  rw [whole, rest]
  cases run <;> rfl

theorem left_blank (blank : Text.isBlank c) :
    left ctx (c :: cs) = left (ctx.after (.trivia [c])) cs := by
  obtain ⟨run, ps, whole, rest⟩ := pieces_blank blank ctx cs
  rw [left, left, whole, rest]
  cases run <;> rfl

end

theorem left_scan {ctx : Context} {c : Char} {cs rest : List Char}
    (whole : c :: cs = textOf (scan ctx c cs) ++ rest) :
    left ctx (c :: cs) = left ((scan ctx c cs).foldl Context.after ctx) rest := by
  rw [left, pieces_scan whole, List.foldl_append]
  rfl

/-- A text that ends its last line, and is read to its end in a context. Its literals and comments
    have their ends, and so have the brackets of a selector in markup. -/
structure Complete (ctx : Context) (p : Position) (text : List Char) : Prop where
  terminated : ∀ t ∈ place p (pieces ctx 0 text), ¬t.IsUnterminated
  brackets : (left ctx text).block = some .view →
    ∀ t ∈ place p (pieces ctx 0 text), ¬t.HasOpenBracket

theorem Complete.not_unfinished {ctx : Context} {p : Position} {ps : List Piece} {text : List Char}
    (h : Complete ctx p text) (alone : pieces ctx 0 text = ps)
    (lineFeed : text.getLast? = some '\n') (whole : textOf ps = text) : ¬Unfinished ctx ps := by
  intro unfinished
  cases unfinished with
  | @literal value own unknown =>
    refine h.terminated ⟨.invalid, value, String.ofList own, p.place own⟩ ?_ ⟨rfl, unknown⟩
    rw [alone]
    exact List.mem_cons_self
  | @selector own markup =>
    have block : (left ctx text).block = some .view := by
      simp only [Context.inMarkup, Bool.and_eq_true, beq_iff_eq] at markup
      rw [left, alone]
      exact markup.1.1
    refine h.brackets block
      ⟨.selector, .text (String.ofList own), String.ofList own, p.place own⟩ ?_ ⟨rfl, ?_⟩
    · rw [alone]
      exact List.mem_cons_self
    · have same : own = text := by simpa using whole
      rw [String.toList_ofList, same, lineFeed]

theorem Complete.blank {ctx : Context} {p : Position} {c : Char} {text : List Char}
    (h : Complete ctx p (c :: text)) (isBlank : Text.isBlank c) :
    Complete (ctx.after (.trivia [c])) (p.after [c]) text where
  terminated := by
    rw [← place_blank isBlank]
    exact h.terminated
  brackets := by
    rw [← place_blank isBlank, ← left_blank isBlank]
    exact h.brackets

theorem Complete.scan {ctx : Context} {p : Position} {c : Char} {cs rest : List Char}
    (h : Complete ctx p (c :: cs)) (whole : c :: cs = textOf (scan ctx c cs) ++ rest) :
    Complete ((Lexer.scan ctx c cs).foldl Context.after ctx)
      (p.after (textOf (Lexer.scan ctx c cs))) rest := by
  have later : ∀ t ∈ place (p.after (textOf (Lexer.scan ctx c cs)))
      (pieces ((Lexer.scan ctx c cs).foldl Context.after ctx) 0 rest),
      t ∈ place p (pieces ctx 0 (c :: cs)) := by
    intro t member
    rw [pieces_scan whole, place_append]
    exact List.mem_append_right _ member
  refine ⟨fun t member => h.terminated t (later t member),
    fun view t member => h.brackets ?_ t (later t member)⟩
  rwa [left_scan whole]

theorem exists_rest {ctx : Context} {c d : Char} {x : List Char} {ps : List Piece}
    (short : (textOf ps).length ≤ x.length + 1) (same : ∀ r, scan ctx c (x ++ d :: r) = ps) :
    ∃ z, c :: x = textOf ps ++ z ∧ z.length ≤ x.length ∧
      ∀ r, c :: (x ++ d :: r) = textOf (scan ctx c (x ++ d :: r)) ++ (z ++ d :: r) := by
  obtain ⟨nonempty, after, cut⟩ := scans_scan ctx c (x ++ [d])
  have text := cut.text_eq
  rw [same] at text nonempty
  obtain ⟨z, own⟩ : textOf ps <+: c :: x :=
    List.prefix_of_prefix_length_le ⟨after, text.symm⟩ (List.prefix_append (c :: x) _) short
  refine ⟨z, own.symm, ?_, fun r => ?_⟩
  · have size := congrArg List.length own
    have some := List.length_pos_iff.mpr nonempty
    rw [List.length_append, List.length_cons] at size
    omega
  · rw [same, ← List.append_assoc, own, List.cons_append]

theorem place_seam {ctx : Context} {p : Position} {x : List Char}
    (h : Complete ctx p (x ++ ['\n'])) (b : List Char) :
    place p (pieces ctx 0 (x ++ '\n' :: b)) =
      (place p (pieces ctx 0 (x ++ ['\n']))).dropLast ++
        place (p.after (x ++ ['\n'])) (pieces (left ctx (x ++ ['\n'])) 0 b) := by
  induction length : x.length using Nat.strongRecOn generalizing ctx p x with
  | ind n ih =>
    cases x with
    | nil =>
      have blank : Text.isBlank '\n' := by decide
      simp only [List.nil_append]
      rw [place_blank blank, place_blank blank, left_blank blank]
      rfl
    | cons c x =>
      rw [List.cons_append, List.cons_append] at *
      by_cases blank : Text.isBlank c
      · rw [place_blank blank, place_blank blank, left_blank blank,
          ih x.length (by simp [← length]) (h.blank blank) rfl]
        rfl
      · cases reach_scan .lineFeed ctx (fun isBlank => absurd isBlank blank) x with
        | within short same =>
          -- The scan ends before the line feed, so it is the same in both texts.
          obtain ⟨z, own, shorter, whole⟩ := exists_rest short same
          have rest := h.scan (whole [])
          rw [same] at rest
          rw [pieces_scan (whole b), pieces_scan (whole []), left_scan (whole []), same, same,
            place_append, place_append, ih z.length (by simp [← length, Nat.lt_succ_of_le shorter])
              rest rfl,
            List.dropLast_append_of_ne_nil (place_ne_nil _ _), List.append_assoc,
            ← Position.after_append, ← List.append_assoc (textOf _) z, ← own]
          rfl
        | beyond long atLineFeed =>
          -- It takes in the line feed, and with it all of the text, which is not complete then.
          obtain ⟨-, after, cut⟩ := scans_scan ctx c (x ++ ['\n'])
          have all : textOf (scan ctx c (x ++ ['\n'])) = c :: x ++ ['\n'] :=
            eq_of_prefix_of_long ⟨after, cut.text_eq.symm⟩ (long [])
          have alone : pieces ctx 0 (c :: (x ++ ['\n'])) = scan ctx c (x ++ ['\n']) := by
            have whole : c :: (x ++ ['\n']) = textOf (scan ctx c (x ++ ['\n'])) ++ [] := by
              rw [all, List.append_nil]
              rfl
            rw [pieces_scan whole]
            exact List.append_nil _
          have last : (c :: x ++ ['\n']).getLast? = some '\n' := List.getLast?_concat
          exact absurd (atLineFeed rfl) (h.not_unfinished alone last all)

end Lexer

end PulseSyntax
