import PulseSyntax.Proofs.Token.Alike
import PulseSyntax.Proofs.Token.Kinds
import PulseSyntax.Proofs.Token.Seam

namespace PulseSyntax

def Piece.isBrace : Piece → Bool
  | lexeme kind _ _ => kind.isBrace
  | trivia _ => false

@[simp] theorem Piece.isBrace_trivia (text : List Char) : (trivia text).isBrace = false := rfl

@[simp] theorem Piece.isBrace_lexeme (kind : TokenKind) (value : TokenValue) (text : List Char) :
    (lexeme kind value text).isBrace = kind.isBrace := rfl

namespace Lexer

/-- Pieces without a brace. -/
def Plain (ps : List Piece) : Prop := ∀ piece ∈ ps, piece.isBrace = false

theorem Bare.plain {ps : List Piece} (h : Bare ps) : Plain ps := by
  intro piece member
  have bare := h piece member
  cases piece with
  | trivia => rfl
  | lexeme kind value text =>
    simp only [Piece.isBare_lexeme, TokenKind.isBare, Bool.and_eq_true, Bool.not_eq_true'] at bare
    exact bare.1.1

theorem plain_number (c : Char) (cs : List Char) : Plain (Numeral.scan c cs) := by
  obtain ⟨kind, value, own, scanned, counts⟩ := counts_number c cs
  cases counts <;> simp [scanned, Plain]

theorem plain_string (quote : Char) (cs : List Char) : Plain (Quoted.scanString quote cs) := by
  unfold Quoted.scanString
  split <;> simp [Plain]

theorem plain_template (cs : List Char) : Plain (Quoted.scanTemplate cs) := by
  unfold Quoted.scanTemplate
  split <;> simp [Plain]

theorem scan_plain_or (ctx : Context) (c : Char) (cs : List Char) :
    Plain (scan ctx c cs) ∨ scan ctx c cs = scanSymbol c cs := by
  have scanned := scanned_scan ctx c cs
  generalize scan ctx c cs = ps at scanned ⊢
  cases scanned with
  | bare h => exact .inl h.plain
  | symbol => exact .inr rfl
  | number => exact .inl (plain_number c cs)
  | string => exact .inl (plain_string c cs)
  | template => exact .inl (plain_template cs)

theorem scan_brace {ctx : Context} {c : Char} {cs : List Char} {piece : Piece}
    (member : piece ∈ scan ctx c cs) (brace : piece.isBrace) :
    ∃ sign, piece = .symbol sign ∧ scan ctx c cs = [.symbol sign] := by
  rcases scan_plain_or ctx c cs with plain | symbol
  · rw [plain piece member] at brace
    cases brace
  · rw [symbol] at member ⊢
    unfold scanSymbol at member ⊢
    split at member
    · next sign found => exact ⟨sign, List.mem_singleton.mp member, rfl⟩
    · rw [List.mem_singleton.mp member] at brace
      cases brace

theorem scan_closeBrace (ctx : Context) (r : List Char) :
    scan ctx '}' r = [.symbol .closeBrace] := rfl

theorem scan_append_brace {ctx : Context} {c : Char} {cs : List Char} {ps before rest : List Piece}
    {piece : Piece} (h : scan ctx c cs ++ ps = before ++ piece :: rest) (brace : piece.isBrace) :
    (∃ more, before = scan ctx c cs ++ more ∧ ps = more ++ piece :: rest) ∨
      before = [] ∧ scan ctx c cs = [piece] ∧ ps = rest ∧ ∃ sign, piece = .symbol sign := by
  rcases List.append_eq_append_iff.mp h with later | ⟨more, first, rest_eq⟩
  · exact .inl later
  · cases more with
    | nil =>
      rw [List.append_nil] at first
      exact .inl ⟨[], by rw [first, List.append_nil], rest_eq.symm⟩
    | cons _ more =>
      rw [List.cons_append, List.cons.injEq] at rest_eq
      obtain ⟨rfl, rfl⟩ := rest_eq
      obtain ⟨sign, same, alone⟩ := scan_brace (by rw [first]; simp) brace
      have first' := alone.symm.trans first
      cases before with
      | nil =>
        obtain rfl := (List.cons.inj first').2
        exact .inr ⟨rfl, first, rfl, sign, same⟩
      | cons => simp at first'

theorem pieces_brace {ctx : Context} {text : List Char} {before rest : List Piece} {piece : Piece}
    (h : pieces ctx 0 text = before ++ piece :: rest) (brace : piece.isBrace) :
    ∃ sign after, piece = .symbol sign ∧ text = textOf before ++ (piece.text ++ after) ∧
      rest = pieces ((before.foldl Context.after ctx).after piece) 0 after := by
  induction length : text.length using Nat.strongRecOn generalizing ctx text before with
  | ind n ih =>
    cases text with
    | nil => simp [pieces] at h
    | cons c cs =>
      obtain ⟨nonempty, left, cut⟩ := scans_scan ctx c cs
      have whole := cut.text_eq
      rw [pieces_scan whole] at h
      rcases scan_append_brace h brace with ⟨more, rfl, later⟩ | ⟨rfl, alone, rfl, sign, same⟩
      · have shorter : left.length < n := by
          rw [← length, whole, List.length_append]
          exact Nat.lt_add_of_pos_left (List.length_pos_iff.mpr nonempty)
        obtain ⟨sign, after, same, text, rest_eq⟩ := ih left.length shorter later rfl
        refine ⟨sign, after, same, ?_, ?_⟩
        · rw [whole, text, textOf_append, List.append_assoc]
        · rw [List.foldl_append, rest_eq]
      · refine ⟨sign, left, same, ?_, ?_⟩
        · rw [whole, alone, textOf_cons, textOf_nil, List.append_nil]
          rfl
        · rw [alone]
          rfl

theorem scan_before_openBrace {ctx : Context} {c : Char} {x after more : List Char}
    (ends : textOf (scan ctx c (x ++ '{' :: after)) ++ more = c :: x) (r : List Char) :
    scan ctx c (x ++ '{' :: r) = scan ctx c (x ++ '{' :: after) := by
  have size := congrArg List.length ends
  rw [List.length_append, List.length_cons] at size
  cases reach_scan .openBrace ctx (fun _ : Text.isBlank c => by decide) x with
  | within _ same => rw [same, same]
  | beyond long =>
    have beyond := long after
    omega

theorem pieces_openBrace {ctx : Context} {before rest : List Piece} {after : List Char}
    (h : pieces ctx 0 (textOf before ++ '{' :: after) = before ++ .symbol .openBrace :: rest)
    (r : List Char) :
    pieces ctx 0 (textOf before ++ '{' :: r) = before ++ .symbol .openBrace ::
      pieces ((before.foldl Context.after ctx).after (.symbol .openBrace)) 0 r := by
  induction length : (textOf before).length using Nat.strongRecOn generalizing ctx before with
  | ind n ih =>
    have opening (ctx : Context) (r : List Char) : pieces ctx 0 ('{' :: r) =
        .symbol .openBrace :: pieces (ctx.after (.symbol .openBrace)) 0 r :=
      @pieces_scan ctx '{' r r rfl
    cases text : textOf before with
    | nil =>
      rw [text, List.nil_append, opening] at h
      cases before with
      | nil => exact opening ctx r
      | cons piece before =>
        rw [List.cons_append, List.cons.injEq] at h
        rw [← h.1] at text
        cases text
    | cons c x =>
      rw [text, List.cons_append] at h
      rw [List.cons_append]
      obtain ⟨nonempty, left, cut⟩ := scans_scan ctx c (x ++ '{' :: after)
      have whole := cut.text_eq
      rw [pieces_scan whole] at h
      rcases scan_append_brace h rfl with ⟨more, rfl, later⟩ | ⟨rfl, -⟩
      · rw [textOf_append] at text
        have same := scan_before_openBrace text
        have whole' (r : List Char) : c :: (x ++ '{' :: r) =
            textOf (scan ctx c (x ++ '{' :: r)) ++ (textOf more ++ '{' :: r) := by
          rw [same, ← List.append_assoc, text, List.cons_append]
        have left_eq : left = textOf more ++ '{' :: after :=
          List.append_cancel_left (whole.symm.trans (whole' after))
        have shorter : (textOf more).length < n := by
          rw [← length, textOf_append, List.length_append]
          exact Nat.lt_add_of_pos_left (List.length_pos_iff.mpr nonempty)
        rw [left_eq] at later
        rw [pieces_scan (whole' r), same, ih _ shorter later rfl, List.foldl_append,
          List.append_assoc]
      · cases text

end Lexer

end PulseSyntax
