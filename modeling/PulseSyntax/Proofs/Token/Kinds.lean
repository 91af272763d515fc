import PulseSyntax.Proofs.Number.Exact
import PulseSyntax.Proofs.Token.Scan
import PulseSyntax.Proofs.Token.Stream

namespace PulseSyntax

/-- The kind is neither that of a brace nor that of a number or a quoted literal. -/
def TokenKind.isBare (kind : TokenKind) : Bool :=
  !kind.isBrace && !([string, template, number, bigInt].contains kind)

def TokenKind.isCommon : TokenKind → Bool
  | keyword _ | selector | hexColor | modifier => false
  | _ => true

def TokenKind.isWrittenAs (kind : TokenKind) (text : List Char) : Bool :=
  match kind with
  | keyword word => word.spelling.toList == text
  | _ => true

def Piece.isBare : Piece → Bool
  | lexeme kind _ text => kind.isBare && kind.isWrittenAs text
  | trivia _ => true

@[simp] theorem Piece.isBare_trivia (text : List Char) : (trivia text).isBare := rfl

@[simp] theorem Piece.isBare_lexeme (kind : TokenKind) (value : TokenValue) (text : List Char) :
    (lexeme kind value text).isBare = (kind.isBare && kind.isWrittenAs text) := rfl

def Piece.isCommon : Piece → Bool
  | lexeme kind _ _ => kind.isCommon
  | trivia _ => true

@[simp] theorem Piece.isCommon_trivia (text : List Char) : (trivia text).isCommon := rfl

@[simp] theorem Piece.isCommon_lexeme (kind : TokenKind) (value : TokenValue) (text : List Char) :
    (lexeme kind value text).isCommon = kind.isCommon := rfl

attribute [simp] TokenKind.isBrace TokenKind.isBare TokenKind.isCommon TokenKind.isWrittenAs

namespace Lexer

/-- Pieces without a brace, a number and a quoted literal. -/
def Bare (ps : List Piece) : Prop := ∀ piece ∈ ps, piece.isBare

/-- Pieces that a scan may find in every context. -/
def Common (ps : List Piece) : Prop := ∀ piece ∈ ps, piece.isCommon

section

variable {piece : Piece} {ps qs : List Piece}

@[simp] theorem common_nil : Common [] := List.forall_mem_nil _

@[simp] theorem common_cons : Common (piece :: ps) ↔ piece.isCommon ∧ Common ps :=
  List.forall_mem_cons

@[simp] theorem common_append : Common (ps ++ qs) ↔ Common ps ∧ Common qs :=
  List.forall_mem_append

@[simp] theorem bare_nil : Bare [] := List.forall_mem_nil _

@[simp] theorem bare_cons : Bare (piece :: ps) ↔ piece.isBare ∧ Bare ps := List.forall_mem_cons

@[simp] theorem bare_append : Bare (ps ++ qs) ↔ Bare ps ∧ Bare qs := List.forall_mem_append

theorem Bare.ite {p : Prop} [Decidable p] (hp : p → Bare ps) (hq : ¬p → Bare qs) :
    Bare (if p then ps else qs) := by
  split
  · next h => exact hp h
  · next h => exact hq h

end

theorem bare_selector (start rest : List Char) : Bare (Word.selector start rest) := by
  simp [Word.selector]

theorem bare_urlArgument (rest : List Char) : Bare (Word.urlArgument rest) := by
  have lead (space : List Char) :
      Bare (.symbol .openParen :: if space.isEmpty then [] else [.trivia space]) := by
    cases space <;> simp
  refine .ite (fun _ => lead _) fun _ => .ite (fun _ => lead _) fun _ => .ite (fun _ => ?_)
    fun _ => ?_
  · exact bare_append.mpr ⟨lead _, by simp⟩
  · exact bare_append.mpr ⟨lead _, by simp⟩

theorem common_urlArgument (rest : List Char) : Common (Word.urlArgument rest) := by
  unfold Word.urlArgument
  extract_lets inner space after lead raw value
  have common : Common lead := by
    refine common_cons.mpr ⟨rfl, ?_⟩
    split <;> simp
  split
  · exact common
  · split
    · exact common
    · split
      · exact common_append.mpr ⟨common, by simp⟩
      · exact common_append.mpr ⟨common, by simp⟩

theorem bare_word (ctx : Context) (c : Char) (cs : List Char) : Bare (Word.scan ctx c cs) := by
  refine .ite (fun _ => ?_) fun _ => .ite (fun _ => by simp) fun _ => ?_
  · exact bare_cons.mpr ⟨rfl, bare_urlArgument _⟩
  · split
    · next k found => simp [Keyword.spelling_of_ofSpelling? found]
    · exact .ite (fun _ => bare_selector _ _) fun _ => by simp

/-- The token of a number literal, which is an invalid one if the literal is bad. -/
inductive Counts : TokenKind → TokenValue → Prop
  | number {n : Binary64} (canonical : n.IsCanonical) : Counts .number (.number n)
  | bigInt (digits : String) : Counts .bigInt (.bigInt digits)
  | invalid (message : String) : Counts .invalid (.text message)

theorem counts_decimal (x : List Char) :
    ∃ kind value own, Numeral.scanDecimal x = [.lexeme kind value own] ∧ Counts kind value := by
  unfold Numeral.scanDecimal
  extract_lets d whole
  split
  · exact ⟨_, _, _, rfl, .bigInt _⟩
  · exact ⟨_, _, _, rfl, .number (Binary64.isCanonical_ofScientific _ _)⟩

theorem counts_radix (radix : Nat) (lead x : List Char) :
    ∃ kind value own, Numeral.scanRadix radix lead x = [.lexeme kind value own] ∧
      Counts kind value := by
  unfold Numeral.scanRadix
  extract_lets run digits text decimal
  split
  · exact ⟨_, _, _, rfl, .bigInt _⟩
  · split
    · exact ⟨_, _, _, rfl, .number (Binary64.isCanonical_ofNat _)⟩
    · exact ⟨_, _, _, rfl, .invalid _⟩

theorem counts_number (c : Char) (cs : List Char) :
    ∃ kind value own, Numeral.scan c cs = [.lexeme kind value own] ∧ Counts kind value := by
  unfold Numeral.scan
  split
  · split
    · exact counts_radix _ _ _
    · exact counts_decimal _
  · exact counts_decimal _

theorem common_number (c : Char) (cs : List Char) : Common (Numeral.scan c cs) := by
  obtain ⟨kind, value, own, scanned, counts⟩ := counts_number c cs
  rw [scanned]
  cases counts <;> simp

theorem common_string (quote : Char) (cs : List Char) : Common (Quoted.scanString quote cs) := by
  unfold Quoted.scanString
  split <;> simp

theorem common_template (cs : List Char) : Common (Quoted.scanTemplate cs) := by
  unfold Quoted.scanTemplate
  split <;> simp

theorem common_symbol (c : Char) (cs : List Char) : Common (scanSymbol c cs) := by
  unfold scanSymbol
  split <;> simp

theorem bare_at (ctx : Context) (cs : List Char) : Bare (Word.scanAt ctx cs) := by
  refine .ite (fun _ => by simp) fun _ => ?_
  refine bare_cons.mpr ⟨rfl, bare_cons.mpr ⟨?_, .ite (fun _ => by simp) fun _ => ?_⟩⟩
  · cases found : Keyword.ofSpelling? (String.ofList (Word.directiveTail cs)) with
    | none => split <;> simp
    | some k => split <;> simp [Keyword.spelling_of_ofSpelling? found]
  · simp [Bare, Word.modifiers]

theorem bare_hash (ctx : Context) (cs : List Char) : Bare (scanHash ctx cs) := by
  unfold scanHash
  split
  · simp
  · exact .ite (fun _ => bare_selector _ _) fun _ => by simp

theorem bare_dot (ctx : Context) (cs : List Char) : Bare (scanDot ctx cs) :=
  .ite (fun _ => by simp) fun _ => .ite (fun _ => bare_selector _ _) fun _ => by simp

theorem bare_comment (cs : List Char) : Bare [scanComment cs] := by
  unfold scanComment
  split <;> simp

theorem common_comment (cs : List Char) : Common [scanComment cs] := by
  unfold scanComment
  split <;> simp

/-- What the scan of a character finds: a symbol, a number, a quoted literal, or none of what these
    may be. -/
inductive Scanned (c : Char) (cs : List Char) : List Piece → Prop where
  | bare {ps : List Piece} (h : Bare ps) : Scanned c cs ps
  | number (starts : Numeral.startsHere c cs) : Scanned c cs (Numeral.scan c cs)
  | symbol : Scanned c cs (scanSymbol c cs)
  | string (quote : c = '"' ∨ c = '\'') : Scanned c cs (Quoted.scanString c cs)
  | template (tick : c = '`') : Scanned c cs (Quoted.scanTemplate cs)

theorem scanned_token (ctx : Context) (c : Char) (cs : List Char) :
    Scanned c cs (scanToken ctx c cs) := by
  simp only [scanToken, beq_iff_eq, Bool.or_eq_true]
  split
  · exact .bare (bare_word ctx c cs)
  · split
    · next starts => exact .number starts
    · split
      · next quote => exact .string quote
      · split
        · next tick => exact .template tick
        · split
          · exact .bare (bare_at ctx cs)
          · split
            · exact .bare (bare_hash ctx cs)
            · split
              · exact .bare (bare_dot ctx cs)
              · split
                · exact .bare (bare_word ctx c cs)
                · exact .symbol

theorem scanned_scan (ctx : Context) (c : Char) (cs : List Char) :
    Scanned c cs (scan ctx c cs) := by
  unfold scan
  split
  · exact .bare (by simp)
  · split
    · exact .bare (by simp)
    · split
      · exact .bare (bare_comment _)
      · exact scanned_token ctx c cs

end Lexer

end PulseSyntax
