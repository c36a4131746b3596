import RuleLang.Text.Basic

namespace RuleLang.Json

inductive Document where
  | null
  | boolean (b : Bool)
  | number (numeral : Text)
  | string (t : Text)
  | array (items : List Document)
  | object (members : List (Text × Document))
  deriving Repr

def natural (n : Nat) : Document :=
  .number (Nat.toDigits 10 n)

def integer : Int → Document
  | .ofNat n => natural n
  | .negSucc n => .number ('-' :: Nat.toDigits 10 (n + 1))

def option {α : Type} (f : α → Document) : Option α → Document
  | some a => f a
  | none => .null

def list {α : Type} (f : α → Document) (xs : List α) : Document :=
  .array (xs.map f)

def hexDigits4 (n : Nat) : Text :=
  let digits := Nat.toDigits 16 n
  List.replicate (4 - digits.length) '0' ++ digits

def escape (c : Char) : Text :=
  match c with
  | '"' => ['\\', '"']
  | '\\' => ['\\', '\\']
  | '\n' => ['\\', 'n']
  | '\r' => ['\\', 'r']
  | '\t' => ['\\', 't']
  | '\x08' => ['\\', 'b']
  | '\x0c' => ['\\', 'f']
  | c => if c.toNat < 0x20 then '\\' :: 'u' :: hexDigits4 c.toNat else [c]

def quoted (t : Text) : Text :=
  '"' :: t.flatMap escape ++ ['"']

def indentation (depth : Nat) : Text :=
  '\n' :: List.replicate (2 * depth) ' '

mutual

def pretty (depth : Nat) : Document → Text
  | .null => ['n', 'u', 'l', 'l']
  | .boolean true => ['t', 'r', 'u', 'e']
  | .boolean false => ['f', 'a', 'l', 's', 'e']
  | .number numeral => numeral
  | .string t => quoted t
  | .array [] => ['[', ']']
  | .array (d :: ds) =>
      '[' :: indentation (depth + 1) ++ pretty (depth + 1) d ++ prettyItems (depth + 1) ds
        ++ indentation depth ++ [']']
  | .object [] => ['\x7b', '\x7d']
  | .object ((k, d) :: ms) =>
      '\x7b' :: indentation (depth + 1) ++ quoted k ++ ':' :: ' ' :: pretty (depth + 1) d
        ++ prettyMembers (depth + 1) ms ++ indentation depth ++ ['\x7d']

def prettyItems (depth : Nat) : List Document → Text
  | [] => []
  | d :: ds => ',' :: indentation depth ++ pretty depth d ++ prettyItems depth ds

def prettyMembers (depth : Nat) : List (Text × Document) → Text
  | [] => []
  | (k, d) :: ms =>
      ',' :: indentation depth ++ quoted k ++ ':' :: ' ' :: pretty depth d
        ++ prettyMembers depth ms

end

mutual

def compact : Document → Text
  | .null => ['n', 'u', 'l', 'l']
  | .boolean true => ['t', 'r', 'u', 'e']
  | .boolean false => ['f', 'a', 'l', 's', 'e']
  | .number numeral => numeral
  | .string t => quoted t
  | .array [] => ['[', ']']
  | .array (d :: ds) => '[' :: compact d ++ compactItems ds ++ [']']
  | .object [] => ['\x7b', '\x7d']
  | .object ((k, d) :: ms) =>
      '\x7b' :: quoted k ++ ':' :: compact d ++ compactMembers ms ++ ['\x7d']

def compactItems : List Document → Text
  | [] => []
  | d :: ds => ',' :: compact d ++ compactItems ds

def compactMembers : List (Text × Document) → Text
  | [] => []
  | (k, d) :: ms => ',' :: quoted k ++ ':' :: compact d ++ compactMembers ms

end

end RuleLang.Json
