import RuleLang.Number.Binary64
import RuleLang.Token.Basic

namespace RuleLang

inductive Atom where
  | identifier (name : Text)
  /-- A variable between boundary marks has no number of its own. -/
  | number (value : Option Binary64)
  | string (value : Text)
  | boolean (value : Bool)
  | function (name : Text)
  deriving DecidableEq, Repr

inductive Tree where
  | atom (token : Token) (brackets : Nat) (content : Atom)
  | unary (token : Token) (brackets : Nat) (op : Operator) (right : Tree)
  | binary (token : Token) (brackets : Nat) (op : Operator) (left right : Tree)
  | call (token : Token) (brackets : Nat) (callee : Tree) (arguments : List Tree)
  deriving Repr

namespace Tree

mutual

def decEq : (t u : Tree) → Decidable (t = u)
  | .atom a n x, .atom b m y => decidable_of_iff (a = b ∧ n = m ∧ x = y) (by simp)
  | .unary a n x r, .unary b m y s =>
      have := decEq r s
      decidable_of_iff (a = b ∧ n = m ∧ x = y ∧ r = s) (by simp)
  | .binary a n x l r, .binary b m y k s =>
      have := decEq l k
      have := decEq r s
      decidable_of_iff (a = b ∧ n = m ∧ x = y ∧ l = k ∧ r = s) (by simp)
  | .call a n f xs, .call b m g ys =>
      have := decEq f g
      have := decEqList xs ys
      decidable_of_iff (a = b ∧ n = m ∧ f = g ∧ xs = ys) (by simp)
  | .atom .., .unary .. | .atom .., .binary .. | .atom .., .call .. => isFalse (by simp)
  | .unary .., .atom .. | .unary .., .binary .. | .unary .., .call .. => isFalse (by simp)
  | .binary .., .atom .. | .binary .., .unary .. | .binary .., .call .. => isFalse (by simp)
  | .call .., .atom .. | .call .., .unary .. | .call .., .binary .. => isFalse (by simp)

def decEqList : (ts us : List Tree) → Decidable (ts = us)
  | [], [] => isTrue rfl
  | t :: ts, u :: us =>
      have := decEq t u
      have := decEqList ts us
      decidable_of_iff (t = u ∧ ts = us) (by simp)
  | [], _ :: _ | _ :: _, [] => isFalse (by simp)

end

instance : DecidableEq Tree :=
  decEq

def token : Tree → Token
  | .atom t _ _ | .unary t _ _ _ | .binary t _ _ _ _ | .call t _ _ _ => t

def brackets : Tree → Nat
  | .atom _ n _ | .unary _ n _ _ | .binary _ n _ _ _ | .call _ n _ _ => n

def withBrackets (n : Nat) : Tree → Tree
  | .atom t _ a => .atom t n a
  | .unary t _ op r => .unary t n op r
  | .binary t _ op l r => .binary t n op l r
  | .call t _ f xs => .call t n f xs

def offset (t : Tree) : Nat :=
  t.token.offset

mutual

/-- The number of nodes on the longest path down from the root. -/
def height : Tree → Nat
  | .atom _ _ _ => 1
  | .unary _ _ _ r => r.height + 1
  | .binary _ _ _ l r => max l.height r.height + 1
  | .call _ _ f xs => max f.height (greatestHeight xs) + 1

def greatestHeight : List Tree → Nat
  | [] => 0
  | t :: ts => max t.height (greatestHeight ts)

end

@[simp]
theorem token_withBrackets (n : Nat) (t : Tree) : (t.withBrackets n).token = t.token := by
  cases t <;> rfl

@[simp]
theorem brackets_withBrackets (n : Nat) (t : Tree) : (t.withBrackets n).brackets = n := by
  cases t <;> rfl

@[simp]
theorem height_withBrackets (n : Nat) (t : Tree) : (t.withBrackets n).height = t.height := by
  cases t <;> simp [withBrackets, height]

theorem height_pos (t : Tree) : 0 < t.height := by
  cases t <;> simp [height]

end Tree

def Text.ofBool : Bool → Text
  | true => ['t', 'r', 'u', 'e']
  | false => ['f', 'a', 'l', 's', 'e']

namespace Tree

def atomSpelling (t : Token) : Atom → Text
  | .identifier name | .function name => name
  | .number _ | .string _ => t.literal
  | .boolean value => Text.ofBool value

def bracketed (n : Nat) (inner : Text) : Text :=
  List.replicate n '(' ++ inner ++ List.replicate n ')'

mutual

def spelling : Tree → Text
  | .atom t n a => bracketed n (atomSpelling t a)
  | .unary _ n op r => bracketed n (op.spelling ++ r.spelling)
  | .binary _ n op l r => bracketed n (l.spelling ++ ' ' :: op.spelling ++ ' ' :: r.spelling)
  | .call _ n f xs => bracketed n (f.spelling ++ '(' :: listSpelling xs ++ [')'])

def listSpelling : List Tree → Text
  | [] => []
  | t :: ts => t.spelling ++ tailSpelling ts

def tailSpelling : List Tree → Text
  | [] => []
  | t :: ts => ',' :: ' ' :: t.spelling ++ tailSpelling ts

end

end Tree

end RuleLang
