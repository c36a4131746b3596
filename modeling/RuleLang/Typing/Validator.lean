import RuleLang.Typing.Rules

namespace RuleLang

abbrev Infer := EStateM TypeFault Nat

namespace Infer

def settle {α : Type} (result : Except TypeFault α) : Infer α := fun depth =>
  match result with
  | .ok a => .ok a depth
  | .error e => .error e depth

def nested {α : Type} (limit : Nat) (offset : Int) (step : Infer α) : Infer α := fun depth =>
  if limit < depth + 1 then .error (.tooDeep limit offset) depth
  else
    match step (depth + 1) with
    | .ok a depth => .ok a (depth - 1)
    | .error e depth => .error e (depth - 1)

mutual

def value (s : Scope) : Tree → Infer Value
  | .atom t _ a => nested s.maxDepth t.offset (settle (s.atom t.offset a))
  | .unary t _ op r =>
      nested s.maxDepth t.offset do
        let right ← value s r
        settle (Value.unary op t.offset right)
  | .binary t _ op l r =>
      nested s.maxDepth t.offset do
        let left ← value s l
        let right ← value s r
        settle (Value.binary op t.offset left right)
  | .call t _ f xs =>
      nested s.maxDepth t.offset do
        let callee ← value s f
        let arguments ← values s xs
        settle (Value.call callee arguments)

def values (s : Scope) : List Tree → Infer (List Value)
  | [] => return []
  | t :: ts => do
      let v ← value s t
      return v :: (← values s ts)

end

end Infer

structure Validator where
  scope : Scope
  depth : Nat := 0
  deriving DecidableEq, Repr

namespace Validator

def requireNumeric (v : Value) : Except TypeFault Value :=
  if v.type = .numeric then .ok v else .error .notNumeric

def validate (v : Validator) (t : Tree) : Except TypeFault Value × Validator :=
  match Infer.value v.scope t v.depth with
  | .ok value depth => (requireNumeric value, { v with depth })
  | .error e depth => (.error e, { v with depth })

end Validator

structure Validation where
  valid : Bool
  error : Option TypeFault
  deriving DecidableEq, Repr

def Validation.of : Except TypeFault Value → Validation
  | .ok _ => { valid := true, error := none }
  | .error e => { valid := false, error := some e }

def validate (s : Scope) (t : Tree) : Validation :=
  .of (Validator.validate { scope := s } t).1

end RuleLang
