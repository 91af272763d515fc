import PulseSyntax.Token.Kind

namespace PulseSyntax

inductive BinaryOp where
  | mul | div | rem | pow
  | add | sub
  | eq | strictEq | notEq | strictNotEq | lt | gt | ltEq | gtEq
  | and
  | or | nullish
deriving DecidableEq, Repr, Inhabited

namespace BinaryOp

def symbol : BinaryOp → Symbol
  | mul => .star
  | div => .slash
  | rem => .percent
  | pow => .starStar
  | add => .plus
  | sub => .minus
  | eq => .eqEq
  | strictEq => .eqEqEq
  | notEq => .notEq
  | strictNotEq => .notEqEq
  | lt => .lt
  | gt => .gt
  | ltEq => .ltEq
  | gtEq => .gtEq
  | and => .and
  | or => .or
  | nullish => .nullish

def level : BinaryOp → Nat
  | mul | div | rem | pow => 1
  | add | sub => 2
  | eq | strictEq | notEq | strictNotEq | lt | gt | ltEq | gtEq => 3
  | and => 4
  | or | nullish => 5

def loosest : Nat := 5

theorem level_pos (op : BinaryOp) : 1 ≤ op.level := by cases op <;> decide

theorem level_le (op : BinaryOp) : op.level ≤ 5 := by cases op <;> decide

def isLogical : BinaryOp → Bool
  | and | or | nullish => true
  | _ => false

def all : List BinaryOp := [
  mul, div, rem, pow, add, sub, eq, strictEq, notEq, strictNotEq, lt, gt, ltEq, gtEq, and, or,
  nullish]

def ofKind? (level : Nat) (kind : TokenKind) : Option BinaryOp :=
  all.find? fun op => op.level == level && kind == .symbol op.symbol

end BinaryOp

inductive UnaryOp where
  | not | neg | plus
deriving DecidableEq, Repr, Inhabited

namespace UnaryOp

def symbol : UnaryOp → Symbol
  | not => .not
  | neg => .minus
  | plus => .plus

def ofKind? : TokenKind → Option UnaryOp
  | .symbol .not => some not
  | .symbol .minus => some neg
  | .symbol .plus => some plus
  | _ => none

end UnaryOp

inductive UpdateOp where
  | increment | decrement
deriving DecidableEq, Repr, Inhabited

namespace UpdateOp

def symbol : UpdateOp → Symbol
  | increment => .plusPlus
  | decrement => .minusMinus

def ofKind? : TokenKind → Option UpdateOp
  | .symbol .plusPlus => some increment
  | .symbol .minusMinus => some decrement
  | _ => none

end UpdateOp

inductive AssignOp where
  | assign | add | sub | mul | div | and | or | nullish
deriving DecidableEq, Repr, Inhabited

namespace AssignOp

def symbol : AssignOp → Symbol
  | assign => .eq
  | add => .plusEq
  | sub => .minusEq
  | mul => .starEq
  | div => .slashEq
  | and => .andEq
  | or => .orEq
  | nullish => .nullishEq

def ofKind? : TokenKind → Option AssignOp
  | .symbol .eq => some assign
  | .symbol .plusEq => some add
  | .symbol .minusEq => some sub
  | .symbol .starEq => some mul
  | .symbol .slashEq => some div
  | .symbol .andEq => some and
  | .symbol .orEq => some or
  | .symbol .nullishEq => some nullish
  | _ => none

end AssignOp

end PulseSyntax
