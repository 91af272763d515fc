import PulseSyntax.Text.Basic

namespace PulseSyntax

/-- The bytes from `start` up to, not including, `stop`. -/
structure Span where
  start : Nat
  stop : Nat
deriving DecidableEq, Repr, Inhabited

namespace Span

def cover (a b : Span) : Span := ⟨min a.start b.start, max a.stop b.stop⟩

theorem cover_assoc (a b c : Span) : (a.cover b).cover c = a.cover (b.cover c) := by
  simp [cover, Nat.min_assoc, Nat.max_assoc]

theorem cover_self (a : Span) : a.cover a = a := by simp [cover]

end Span

structure Position where
  byte : Nat
  line : Nat
  column : Nat
deriving DecidableEq, Repr, Inhabited

namespace Position

def origin : Position := ⟨0, 1, 1⟩

def advance (p : Position) (c : Char) : Position :=
  if c = '\n' then ⟨p.byte + 1, p.line + 1, 1⟩ else ⟨p.byte + c.utf8Size, p.line, p.column + 1⟩

/-- The point reached after a text that starts at `p`. -/
def after (p : Position) (text : List Char) : Position := text.foldl advance p

@[simp] theorem after_nil (p : Position) : p.after [] = p := rfl

@[simp] theorem after_cons (p : Position) (c : Char) (cs : List Char) :
    p.after (c :: cs) = (p.advance c).after cs := rfl

theorem after_append (p : Position) (a b : List Char) :
    p.after (a ++ b) = (p.after a).after b := by
  simp [after]

theorem after_byte (p : Position) (text : List Char) :
    (p.after text).byte = p.byte + Text.byteSize text := by
  induction text generalizing p with
  | nil => rfl
  | cons c cs ih =>
    rw [after_cons, ih]
    unfold advance
    split
    · next h => subst h; simp [Text.byteSize, Nat.add_assoc]; rfl
    · simp [Text.byteSize, Nat.add_assoc]

end Position

/-- Where a token or an error stands: line and column of its first character, and its bytes. -/
structure Place where
  line : Nat
  column : Nat
  span : Span
deriving DecidableEq, Repr, Inhabited

/-- The place of a text that starts at `p`. -/
def Position.place (p : Position) (text : List Char) : Place :=
  ⟨p.line, p.column, ⟨p.byte, p.byte + Text.byteSize text⟩⟩

end PulseSyntax
