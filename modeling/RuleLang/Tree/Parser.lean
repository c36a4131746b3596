import RuleLang.Number.Binary64
import RuleLang.Tree.Cursor
import RuleLang.Tree.Basic

namespace RuleLang

structure ParseOptions where
  /-- Numeric tokens between two of these marks are variables and need not be numbers. -/
  boundary : Char := '$'
  /-- The deepest nesting and the greatest height of a tree. -/
  maxDepth : Nat := 128
  deriving DecidableEq, Repr

structure Parser where
  cursor : Cursor
  depth : Nat := 0
  /-- The token of the expression in the last group, and how many groups closed around it. -/
  lastGroup : Option (Token × Nat) := none
  deferred : Option ParseError := none
  /-- The positions at which expressions were begun, the latest first. -/
  begun : List Nat := []
  deriving DecidableEq, Repr

abbrev Parse := EStateM ParseError Parser

namespace Parser

def current : Parse Token := fun p => .ok p.cursor.here p

def peek : Parse Token := fun p => .ok p.cursor.peek p

def bump : Parse Unit := fun p => .ok () { p with cursor := p.cursor.bump }

def remaining : Parse Nat := fun p => .ok p.cursor.ahead.length p

def checkAdjacent : Parse Unit := fun p =>
  match p.deferred with
  | some e => .error e p
  | none =>
      if p.cursor.here.kind.mayPrecede p.cursor.peek.kind then .ok () p
      else .error (.unexpected p.cursor.peek) p

def expect (k : Kind) : Parse Unit := fun p =>
  if p.cursor.peek.kind = k then .ok () { p with cursor := p.cursor.bump }
  else .error (.expected k p.cursor.peek) p

def enter : Parse Unit := fun p =>
  .ok () { p with depth := p.depth + 1, begun := p.cursor.position :: p.begun }

def leave : Parse Unit := fun p => .ok () { p with depth := p.depth - 1 }

def checkHeight (o : ParseOptions) (t : Tree) : Parse Unit :=
  if o.maxDepth < t.height then throw (.tooDeep o.maxDepth t.token) else pure ()

def countGroup (inner : Token) : Parse Nat := fun p =>
  let n :=
    match p.lastGroup with
    | some (t, n) => if t = inner then n + 1 else 1
    | none => 1
  .ok n { p with lastGroup := some (inner, n) }

def ellipsis : Text := ['.', '.', '.']

/-- A number, or a variable. A bare `...` makes a node and leaves its error for later. -/
def number (o : ParseOptions) : Parse Tree := fun p =>
  let t := p.cursor.here
  if t.delimited || Text.wrappedIn o.boundary t.literal then .ok (.atom t 0 (.number none)) p
  else
    match Numeral.leading? t.literal with
    | some n => .ok (.atom t 0 (.number (some (.ofDecimal n.value)))) p
    | none =>
        if t.literal = ellipsis then
          .ok (.atom t 0 (.number none)) { p with deferred := some (.notANumber t) }
        else .error (.notANumber t) p

def refuseEmptyGroup : Parse Unit := fun p =>
  if p.cursor.peek.kind = .closeParen then .error (.emptyGroup p.cursor.here) p else .ok () p

def group (inner : Parse Tree) : Parse Tree := do
  checkAdjacent
  refuseEmptyGroup
  bump
  let t ← inner
  let n ← countGroup t.token
  expect .closeParen
  return t.withBrackets n

def unary (op : Operator) (operand : Parse Tree) : Parse Tree := do
  let t ← current
  bump
  checkAdjacent
  return .unary t 0 op (← operand)

def operand (o : ParseOptions) (sub : Precedence → Parse Tree) : Parse Tree := do
  let t ← current
  match t.kind with
  | .ident => return .atom t 0 (.identifier t.literal)
  | .string => return .atom t 0 (.string (Text.unwrap '\'' t.literal))
  | .trueWord => return .atom t 0 (.boolean true)
  | .falseWord => return .atom t 0 (.boolean false)
  | .numeric => number o
  | .openParen => group (sub .lowest)
  | .bang => unary .bang (sub .unary)
  | .minus => unary .minus (sub .unary)
  | _ => throw (.noOperand t)

def binary (op : Operator) (sub : Precedence → Parse Tree) (left : Tree) : Parse Tree := do
  checkAdjacent
  let t ← current
  bump
  return .binary t 0 op left (← sub t.kind.precedence)

def moreArguments (argument : Parse Tree) : Nat → Parse (List Tree)
  | 0 => return []
  | n + 1 => do
      if (← peek).kind = .comma then
        bump
        bump
        let t ← argument
        return t :: (← moreArguments argument n)
      else return []

def arguments (argument : Parse Tree) : Parse (List Tree) := do
  if (← peek).kind = .closeParen then
    bump
    checkAdjacent
    return []
  else
    bump
    let first ← argument
    let more ← moreArguments argument (← remaining)
    expect .closeParen
    checkAdjacent
    return first :: more

def calleeName : Tree → Text
  | .atom _ _ (.identifier name) => name
  | t => t.token.literal

def call (argument : Parse Tree) (callee : Tree) : Parse Tree := do
  checkAdjacent
  let t ← current
  let xs ← arguments argument
  return .call t 0 (.atom callee.token 0 (.function (calleeName callee))) xs

inductive Continuation where
  | operator (op : Operator)
  | call
  deriving DecidableEq, Repr

def Continuation.ofKind? (k : Kind) : Option Continuation :=
  if k = .openParen then some .call else (Operator.binary? k).map .operator

def following (min : Precedence) : Parse (Option Continuation) := fun p =>
  let k := p.cursor.peek.kind
  .ok (if p.deferred = none ∧ min < k.precedence then Continuation.ofKind? k else none) p

def refuseFinish : Parse Unit := fun p =>
  if p.cursor.peek.kind = .finish then .error (.unexpected p.cursor.here) p else .ok () p

def extend (sub : Precedence → Parse Tree) (left : Tree) : Continuation → Parse Tree
  | .operator op => binary op sub left
  | .call => call (sub .lowest) left

def chain (o : ParseOptions) (sub : Precedence → Parse Tree) (min : Precedence) :
    Nat → Tree → Parse Tree
  | 0, left => return left
  | n + 1, left => do
      match ← following min with
      | none => return left
      | some c =>
          bump
          refuseFinish
          let t ← extend sub left c
          checkHeight o t
          chain o sub min n t

def tooDeep {α : Type} (o : ParseOptions) : Parse α := do
  throw (.tooDeep o.maxDepth (← current))

/-- An expression whose operators bind tighter than the given precedence. The number is how many
levels of nesting are still allowed. -/
def expression (o : ParseOptions) : Nat → Precedence → Parse Tree
  | 0, _ => do
      enter
      tooDeep o
  | room + 1, min => do
      enter
      checkAdjacent
      let first ← operand o (expression o room)
      checkHeight o first
      let t ← chain o (expression o room) min (← remaining) first
      leave
      return t

def refuseRest : Parse Unit := fun p =>
  if p.deferred = none ∧ p.cursor.peek.kind ≠ .finish then .error (.unexpected p.cursor.peek) p
  else .ok () p

def parse (o : ParseOptions) : Parse Tree := do
  let t ← expression o (o.maxDepth - (← get).depth) .lowest
  refuseRest
  return t

end Parser

structure ParseSession where
  parser? : Option Parser
  deriving DecidableEq, Repr

namespace ParseSession

def ofTokens : List Token → ParseSession
  | [] => ⟨none⟩
  | t :: ts => ⟨some { cursor := { here := t, ahead := ts } }⟩

def parse (o : ParseOptions) (s : ParseSession) : Except ParseError Tree × ParseSession :=
  match s.parser? with
  | none => (.error .noTokens, s)
  | some p =>
      match Parser.parse o p with
      | .ok t p' => (.ok t, ⟨some p'⟩)
      | .error e p' => (.error e, ⟨some p'⟩)

def takeDeferred (s : ParseSession) : Option ParseError × ParseSession :=
  match s.parser? with
  | none => (none, s)
  | some p => (p.deferred, ⟨some { p with deferred := none }⟩)

end ParseSession

structure Parsed where
  tree : Option Tree
  error : Option ParseError
  deriving DecidableEq, Repr

def parseTokens (o : ParseOptions) (tokens : List Token) : Parsed :=
  match (ParseSession.ofTokens tokens).parse o with
  | (.ok t, s) => { tree := some t, error := s.takeDeferred.1 }
  | (.error e, _) => { tree := none, error := some e }

end RuleLang
