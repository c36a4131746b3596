import RuleLang.Proofs.Parsing.Sizes
import RuleLang.Tree.Measured

namespace RuleLang.Parser

open Measured (tree)

variable {o : ParseOptions} {sub : Precedence → Parse Measured} {x : Parse Measured}

theorem map_throw {α β : Type} (f : α → β) (e : ParseError) :
    f <$> (throw e : Parse α) = throw e := rfl

theorem checkHeightMeasuring_eq (m : Measured) :
    checkHeightMeasuring o m = checkHeight o m.tree := by
  rw [checkHeightMeasuring, m.height_eq, checkHeight]

theorem tree_numberMeasuring : tree <$> numberMeasuring o = number o := by
  simp [numberMeasuring]

theorem tree_groupMeasuring : tree <$> groupMeasuring x = group (tree <$> x) := by
  simp [groupMeasuring, group]

theorem tree_unaryMeasuring (op : Operator) :
    tree <$> unaryMeasuring op x = unary op (tree <$> x) := by
  simp [unaryMeasuring, unary]

theorem tree_operandMeasuring :
    tree <$> operandMeasuring o sub = operand o fun min => tree <$> sub min := by
  rw [operandMeasuring, operand, map_bind]
  congr 1
  funext t
  generalize t.kind = k
  cases k <;>
    simp [tree_numberMeasuring, tree_groupMeasuring, tree_unaryMeasuring, map_throw]

theorem tree_binaryMeasuring (op : Operator) (left : Measured) :
    tree <$> binaryMeasuring op sub left = binary op (fun min => tree <$> sub min) left.tree := by
  simp [binaryMeasuring, binary]

theorem map_tree_moreArgumentsMeasuring (n : Nat) :
    List.map tree <$> moreArgumentsMeasuring x n = moreArguments (tree <$> x) n := by
  induction n with
  | zero => simp [moreArgumentsMeasuring, moreArguments]
  | succ n ih =>
      rw [moreArgumentsMeasuring, moreArguments, map_bind]
      congr 1
      funext t
      split <;> simp [← ih]

theorem map_tree_argumentsMeasuring :
    List.map tree <$> argumentsMeasuring x = arguments (tree <$> x) := by
  rw [argumentsMeasuring, arguments, map_bind]
  congr 1
  funext t
  split <;> simp [← map_tree_moreArgumentsMeasuring]

theorem tree_callMeasuring (callee : Measured) :
    tree <$> callMeasuring x callee = call (tree <$> x) callee.tree := by
  simp [callMeasuring, call, ← map_tree_argumentsMeasuring]

theorem tree_extendMeasuring (left : Measured) (c : Continuation) :
    tree <$> extendMeasuring sub left c = extend (fun min => tree <$> sub min) left.tree c := by
  cases c with
  | operator op => exact tree_binaryMeasuring op left
  | call => exact tree_callMeasuring left

theorem tree_chainMeasuring (min : Precedence) (n : Nat) (left : Measured) :
    tree <$> chainMeasuring o sub min n left =
      chain o (fun min => tree <$> sub min) min n left.tree := by
  induction n generalizing left with
  | zero => simp [chainMeasuring, chain]
  | succ n ih =>
      rw [chainMeasuring, chain, map_bind]
      congr 1
      funext c
      cases c with
      | none => simp
      | some c => simp [← tree_extendMeasuring, checkHeightMeasuring_eq, ih]

theorem tree_expressionMeasuring (room : Nat) (min : Precedence) :
    tree <$> expressionMeasuring o room min = expression o room min := by
  induction room generalizing min with
  | zero => simp [expressionMeasuring, expression, tooDeep, map_throw]
  | succ room ih =>
      simp [expressionMeasuring, expression, ← funext ih, ← tree_operandMeasuring,
        checkHeightMeasuring_eq, ← tree_chainMeasuring]

theorem tree_parseMeasuring (o : ParseOptions) : tree <$> parseMeasuring o = parse o := by
  simp [parseMeasuring, parse, ← tree_expressionMeasuring]

/-- The height a tree was given when it was made is within the limit. -/
theorem height_parseMeasuring_le {p q : Parser} {m : Measured}
    (h : parseMeasuring o p = .ok m q) : parse o p = .ok m.tree q ∧ m.height ≤ o.maxDepth := by
  have hparse : parse o p = .ok m.tree q := by
    rw [← tree_parseMeasuring, map_eq_ok]
    exact ⟨m, h, rfl⟩
  exact ⟨hparse, m.height_eq ▸ height_expression_le (parse_eq_ok.mp hparse).1⟩

end RuleLang.Parser
