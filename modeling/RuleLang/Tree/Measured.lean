import RuleLang.Tree.Parser

namespace RuleLang

/-- A tree and its height, which is worked out once, when the root is put above its parts. -/
structure Measured where
  tree : Tree
  height : Nat
  height_eq : height = tree.height

namespace Measured

def leaf (t : Token) (content : Atom) : Measured where
  tree := .atom t 0 content
  height := 1
  height_eq := rfl

@[simp]
theorem tree_leaf (t : Token) (content : Atom) : (leaf t content).tree = .atom t 0 content := rfl

def unary (t : Token) (op : Operator) (right : Measured) : Measured where
  tree := .unary t 0 op right.tree
  height := right.height + 1
  height_eq := by rw [right.height_eq, Tree.height]

@[simp]
theorem tree_unary (t : Token) (op : Operator) (right : Measured) :
    (unary t op right).tree = .unary t 0 op right.tree := rfl

def binary (t : Token) (op : Operator) (left right : Measured) : Measured where
  tree := .binary t 0 op left.tree right.tree
  height := max left.height right.height + 1
  height_eq := by rw [left.height_eq, right.height_eq, Tree.height]

@[simp]
theorem tree_binary (t : Token) (op : Operator) (left right : Measured) :
    (binary t op left right).tree = .binary t 0 op left.tree right.tree := rfl

theorem foldl_max_height (n : Nat) (xs : List Measured) :
    (xs.map height).foldl max n = max n (Tree.greatestHeight (xs.map tree)) := by
  induction xs generalizing n with
  | nil => exact (Nat.max_zero n).symm
  | cons x xs ih =>
      rw [List.map_cons, List.foldl_cons, ih, x.height_eq, List.map_cons, Tree.greatestHeight,
        Nat.max_assoc]

def call (t : Token) (callee : Measured) (xs : List Measured) : Measured where
  tree := .call t 0 callee.tree (xs.map tree)
  height := (xs.map height).foldl max callee.height + 1
  height_eq := by rw [foldl_max_height, callee.height_eq, Tree.height]

@[simp]
theorem tree_call (t : Token) (callee : Measured) (xs : List Measured) :
    (call t callee xs).tree = .call t 0 callee.tree (xs.map tree) := rfl

def withBrackets (n : Nat) (m : Measured) : Measured where
  tree := m.tree.withBrackets n
  height := m.height
  height_eq := by rw [m.height_eq, Tree.height_withBrackets]

@[simp]
theorem tree_withBrackets (n : Nat) (m : Measured) :
    (m.withBrackets n).tree = m.tree.withBrackets n := rfl

end Measured

namespace Parser

def checkHeightMeasuring (o : ParseOptions) (m : Measured) : Parse Unit :=
  if o.maxDepth < m.height then throw (.tooDeep o.maxDepth m.tree.token) else pure ()

def numberMeasuring (o : ParseOptions) : Parse Measured := do
  let t ← number o
  return { tree := t, height := t.height, height_eq := rfl }

def groupMeasuring (inner : Parse Measured) : Parse Measured := do
  checkAdjacent
  refuseEmptyGroup
  bump
  let m ← inner
  let n ← countGroup m.tree.token
  expect .closeParen
  return m.withBrackets n

def unaryMeasuring (op : Operator) (operand : Parse Measured) : Parse Measured := do
  let t ← current
  bump
  checkAdjacent
  return .unary t op (← operand)

def operandMeasuring (o : ParseOptions) (sub : Precedence → Parse Measured) : Parse Measured := do
  let t ← current
  match t.kind with
  | .ident => return .leaf t (.identifier t.literal)
  | .string => return .leaf t (.string (Text.unwrap '\'' t.literal))
  | .trueWord => return .leaf t (.boolean true)
  | .falseWord => return .leaf t (.boolean false)
  | .numeric => numberMeasuring o
  | .openParen => groupMeasuring (sub .lowest)
  | .bang => unaryMeasuring .bang (sub .unary)
  | .minus => unaryMeasuring .minus (sub .unary)
  | _ => throw (.noOperand t)

def binaryMeasuring (op : Operator) (sub : Precedence → Parse Measured) (left : Measured) :
    Parse Measured := do
  checkAdjacent
  let t ← current
  bump
  return .binary t op left (← sub t.kind.precedence)

def moreArgumentsMeasuring (argument : Parse Measured) : Nat → Parse (List Measured)
  | 0 => return []
  | n + 1 => do
      if (← peek).kind = .comma then
        bump
        bump
        let m ← argument
        return m :: (← moreArgumentsMeasuring argument n)
      else return []

def argumentsMeasuring (argument : Parse Measured) : Parse (List Measured) := do
  if (← peek).kind = .closeParen then
    bump
    checkAdjacent
    return []
  else
    bump
    let first ← argument
    let more ← moreArgumentsMeasuring argument (← remaining)
    expect .closeParen
    checkAdjacent
    return first :: more

def callMeasuring (argument : Parse Measured) (callee : Measured) : Parse Measured := do
  checkAdjacent
  let t ← current
  let xs ← argumentsMeasuring argument
  return .call t (.leaf callee.tree.token (.function (calleeName callee.tree))) xs

def extendMeasuring (sub : Precedence → Parse Measured) (left : Measured) :
    Continuation → Parse Measured
  | .operator op => binaryMeasuring op sub left
  | .call => callMeasuring (sub .lowest) left

def chainMeasuring (o : ParseOptions) (sub : Precedence → Parse Measured) (min : Precedence) :
    Nat → Measured → Parse Measured
  | 0, left => return left
  | n + 1, left => do
      match ← following min with
      | none => return left
      | some c =>
          bump
          refuseFinish
          let m ← extendMeasuring sub left c
          checkHeightMeasuring o m
          chainMeasuring o sub min n m

def expressionMeasuring (o : ParseOptions) : Nat → Precedence → Parse Measured
  | 0, _ => do
      enter
      tooDeep o
  | room + 1, min => do
      enter
      checkAdjacent
      let first ← operandMeasuring o (expressionMeasuring o room)
      checkHeightMeasuring o first
      let m ← chainMeasuring o (expressionMeasuring o room) min (← remaining) first
      leave
      return m

def parseMeasuring (o : ParseOptions) : Parse Measured := do
  let m ← expressionMeasuring o (o.maxDepth - (← get).depth) .lowest
  refuseRest
  return m

end Parser

end RuleLang
