import RuleLang.Typing.Fault
import RuleLang.Value.Basic

namespace RuleLang

structure Scope where
  /-- Take every identifier for a number without looking it up. -/
  trustNames : Bool := false
  /-- The first keyword of a name counts. -/
  keywords : List Keyword := []
  functions : Functions := []
  maxDepth : Nat := 128
  deriving DecidableEq, Repr

namespace Scope

def keyword? (s : Scope) (name : Text) : Option Keyword :=
  s.keywords.find? fun k => k.name = name

def identifier (s : Scope) (name : Text) (offset : Int) : Except TypeFault Value :=
  if s.trustNames then .ok ⟨.numeric .one, offset⟩
  else
    match (s.keyword? name).bind (·.value? offset) with
    | some v => .ok v
    | none => .error (.unknownName name offset)

def function (s : Scope) (name : Text) (offset : Int) : Except TypeFault Value :=
  match s.functions.find? name with
  | some f => .ok ⟨.function f, offset⟩
  | none => .error (.unknownFunction name offset)

def atom (s : Scope) (offset : Int) : Atom → Except TypeFault Value
  | .identifier name => s.identifier name offset
  | .number value => .ok ⟨.numeric (value.getD .one), offset⟩
  | .string value => .ok ⟨.string value, offset⟩
  | .boolean value => .ok ⟨.boolean value, offset⟩
  | .function name => s.function name offset

end Scope

namespace Value

def isFalsy (v : Value) : Bool :=
  v.content = .boolean false || v.content = .null

def unary (op : Operator) (offset : Int) (right : Value) : Except TypeFault Value :=
  match op with
  | .bang => .ok ⟨.boolean right.isFalsy, right.offset⟩
  | .minus =>
      if right.type = .numeric then .ok ⟨.numeric .one, offset⟩
      else .error (.notNegatable right.type right.offset)
  | _ => .error (.notUnary op right.type offset)

def binary (op : Operator) (offset : Int) (left right : Value) : Except TypeFault Value :=
  let truth : Value := ⟨.boolean true, left.offset⟩
  match left.type, right.type with
  | .numeric, .numeric =>
      if op.isArithmetic then .ok ⟨.numeric .one, left.offset⟩
      else if op.isComparison then .ok truth
      else .error (.notBinary .numeric op .numeric left.offset)
  | .string, .string =>
      if op = .plus then .ok ⟨.string [], left.offset⟩
      else if op.isComparison then .ok truth
      else .error (.notBinary .string op .string left.offset)
  | l, r =>
      if op = .eq ∨ op = .ne then .ok truth
      else if l ≠ r then .error (.mismatch l op r offset)
      else .error (.notBinary l op r offset)

def misfit? (parameters : List Parameter) (arguments : List Value) : Option (Parameter × Value) :=
  (parameters.zip arguments).find? fun (p, a) => p.type ≠ a.type

def result (f : Signature) (offset : Int) : Except TypeFault Value :=
  match placeholder? f.returnType offset with
  | some v => .ok v
  | none => .error (.unsupportedResult f.returnType offset)

def call (callee : Value) (arguments : List Value) : Except TypeFault Value :=
  match callee.content with
  | .function f =>
      if f.variadic then result f callee.offset
      else if arguments.length ≠ f.parameters.length then
        .error (.argumentCount f.parameters.length arguments.length callee.offset)
      else
        match misfit? f.parameters arguments with
        | some (p, a) => .error (.argumentType p.type a.type a.offset callee.offset)
        | none => result f callee.offset
  | _ => .error (.notAFunction callee.type callee.offset)

end Value

end RuleLang
