import RuleLang.Text.Basic

namespace RuleLang

inductive Kind where
  | finish
  | invalid
  | ident
  | numeric
  | string
  | trueWord
  | falseWord
  | assign
  | plus
  | minus
  | bang
  | asterisk
  | slash
  | lt
  | gt
  | le
  | ge
  | eq
  | ne
  | bitAnd
  | bitOr
  | and
  | or
  | comma
  | openParen
  | closeParen
  | openBrace
  | closeBrace
  deriving DecidableEq, Repr

namespace Kind

/-- The kind's own text where it has one, its name where tokens of the kind differ in text. -/
def spelling : Kind → Text
  | .finish => ['E', 'N', 'D']
  | .invalid => ['I', 'N', 'V', 'A', 'L', 'I', 'D']
  | .ident => ['I', 'D', 'E', 'N', 'T']
  | .numeric => ['N', 'U', 'M', 'E', 'R', 'I', 'C']
  | .string => ['S', 'T', 'R', 'I', 'N', 'G']
  | .trueWord => ['T', 'R', 'U', 'E']
  | .falseWord => ['F', 'A', 'L', 'S', 'E']
  | .assign => ['=']
  | .plus => ['+']
  | .minus => ['-']
  | .bang => ['!']
  | .asterisk => ['*']
  | .slash => ['/']
  | .lt => ['<']
  | .gt => ['>']
  | .le => ['<', '=']
  | .ge => ['>', '=']
  | .eq => ['=', '=']
  | .ne => ['!', '=']
  | .bitAnd => ['&']
  | .bitOr => ['|']
  | .and => ['&', '&']
  | .or => ['|', '|']
  | .comma => [',']
  | .openParen => ['(']
  | .closeParen => [')']
  | .openBrace => ['\x7b']
  | .closeBrace => ['\x7d']

def all : List Kind :=
  [.finish, .invalid, .ident, .numeric, .string, .trueWord, .falseWord, .assign, .plus, .minus,
    .bang, .asterisk, .slash, .lt, .gt, .le, .ge, .eq, .ne, .bitAnd, .bitOr, .and, .or, .comma,
    .openParen, .closeParen, .openBrace, .closeBrace]

def ofSpelling? (t : Text) : Option Kind :=
  all.find? fun k => k.spelling = t

theorem ofSpelling?_spelling (k : Kind) : ofSpelling? k.spelling = some k := by
  cases k <;> decide

def keyword? (t : Text) : Option Kind :=
  if t = ['t', 'r', 'u', 'e'] then some .trueWord
  else if t = ['f', 'a', 'l', 's', 'e'] then some .falseWord
  else none

def mark? : Char → Option Kind
  | '(' => some .openParen
  | ')' => some .closeParen
  | ',' => some .comma
  | '\x7b' => some .openBrace
  | '\x7d' => some .closeBrace
  | '+' => some .plus
  | '-' => some .minus
  | '*' => some .asterisk
  | '/' => some .slash
  | _ => none

def extensible? : Char → Option (Char × Kind × Kind)
  | '=' => some ('=', .eq, .assign)
  | '!' => some ('=', .ne, .bang)
  | '<' => some ('=', .le, .lt)
  | '>' => some ('=', .ge, .gt)
  | '&' => some ('&', .and, .bitAnd)
  | '|' => some ('|', .or, .bitOr)
  | _ => none

/-- Whether a token's offset is that of its last character; otherwise it is that of the character
behind it. -/
def citesLast : Kind → Bool
  | .assign | .bang | .lt | .gt | .le | .ge | .eq | .ne | .bitAnd | .bitOr | .and | .or
  | .invalid => true
  | _ => false

end Kind

inductive Precedence where
  | lowest
  | assign
  | equals
  | lessGreater
  | sum
  | product
  | unary
  | call
  deriving DecidableEq, Repr

namespace Precedence

def level : Precedence → Nat
  | .lowest => 0
  | .assign => 1
  | .equals => 2
  | .lessGreater => 3
  | .sum => 4
  | .product => 5
  | .unary => 6
  | .call => 7

instance : LT Precedence where
  lt p q := p.level < q.level

instance (p q : Precedence) : Decidable (p < q) :=
  inferInstanceAs (Decidable (p.level < q.level))

instance : LE Precedence where
  le p q := p.level ≤ q.level

instance (p q : Precedence) : Decidable (p ≤ q) :=
  inferInstanceAs (Decidable (p.level ≤ q.level))

theorem lt_def {p q : Precedence} : p < q ↔ p.level < q.level :=
  Iff.rfl

theorem le_def {p q : Precedence} : p ≤ q ↔ p.level ≤ q.level :=
  Iff.rfl

end Precedence

def Kind.precedence : Kind → Precedence
  | .assign => .assign
  | .eq | .ne => .equals
  | .lt | .le | .gt | .ge => .lessGreater
  | .plus | .minus => .sum
  | .asterisk | .slash => .product
  | .openParen => .call
  | _ => .lowest

inductive Operator where
  | assign
  | plus
  | minus
  | bang
  | mul
  | div
  | lt
  | gt
  | le
  | ge
  | eq
  | ne
  deriving DecidableEq, Repr

namespace Operator

def kind : Operator → Kind
  | .assign => .assign
  | .plus => .plus
  | .minus => .minus
  | .bang => .bang
  | .mul => .asterisk
  | .div => .slash
  | .lt => .lt
  | .gt => .gt
  | .le => .le
  | .ge => .ge
  | .eq => .eq
  | .ne => .ne

def ofKind? : Kind → Option Operator
  | .assign => some .assign
  | .plus => some .plus
  | .minus => some .minus
  | .bang => some .bang
  | .asterisk => some .mul
  | .slash => some .div
  | .lt => some .lt
  | .gt => some .gt
  | .le => some .le
  | .ge => some .ge
  | .eq => some .eq
  | .ne => some .ne
  | _ => none

theorem ofKind?_eq_some_iff {k : Kind} {op : Operator} : ofKind? k = some op ↔ k = op.kind := by
  cases k <;> cases op <;> decide

def spelling (op : Operator) : Text :=
  op.kind.spelling

def isArithmetic : Operator → Bool
  | .plus | .minus | .mul | .div => true
  | _ => false

def isComparison : Operator → Bool
  | .lt | .gt | .le | .ge | .eq | .ne => true
  | _ => false

def binary? (k : Kind) : Option Operator :=
  (ofKind? k).filter (· ≠ .bang)

end Operator

structure Token where
  kind : Kind
  literal : Text
  offset : Nat
  delimited : Bool := false
  deriving DecidableEq, Repr

def Token.finish (offset : Nat) : Token where
  kind := .finish
  literal := []
  offset := offset

def Token.shape (t : Token) : Kind × Text × Bool :=
  (t.kind, t.literal, t.delimited)

end RuleLang
