import Mathlib.Data.List.Forall2
import RuleLang.Typing.Rules

namespace RuleLang

namespace DataType

def inhabited : List DataType :=
  [.numeric, .string, .boolean, .json, .bytes]

def ofKeyword (t : DataType) : DataType :=
  if t ∈ inhabited then t else .null

end DataType

namespace Operator

def arithmetic : List Operator :=
  [.plus, .minus, .mul, .div]

def comparisons : List Operator :=
  [.lt, .gt, .le, .ge, .eq, .ne]

def equalities : List Operator :=
  [.eq, .ne]

end Operator

namespace Scope

def First (s : Scope) (name : Text) (k : Keyword) : Prop :=
  k.name = name ∧ ∃ before after, s.keywords = before ++ k :: after ∧ ∀ j ∈ before, j.name ≠ name

def Unknown (s : Scope) (name : Text) : Prop :=
  ∀ k, s.First name k → k.type = .error

end Scope

def Signature.Accepts (f : Signature) (types : List DataType) : Prop :=
  f.variadic = true ∨ types = f.parameters.map (·.type)

inductive HasType (s : Scope) : Tree → DataType → Prop
  | number {t : Token} {n : Nat} {v : Option Binary64} :
      HasType s (.atom t n (.number v)) .numeric
  | string {t : Token} {n : Nat} {v : Text} : HasType s (.atom t n (.string v)) .string
  | boolean {t : Token} {n : Nat} {v : Bool} : HasType s (.atom t n (.boolean v)) .boolean
  | trusted {t : Token} {n : Nat} {name : Text} (ht : s.trustNames = true) :
      HasType s (.atom t n (.identifier name)) .numeric
  | keyword {t : Token} {n : Nat} {name : Text} {k : Keyword} (ht : s.trustNames = false)
      (hk : s.First name k) (he : k.type ≠ .error) :
      HasType s (.atom t n (.identifier name)) (.ofKeyword k.type)
  | function {t : Token} {n : Nat} {name : Text} {f : Signature}
      (hf : s.functions.find? name = some f) : HasType s (.atom t n (.function name)) .function
  | bang {t : Token} {n : Nat} {r : Tree} {τ : DataType} (hr : HasType s r τ) :
      HasType s (.unary t n .bang r) .boolean
  | minus {t : Token} {n : Nat} {r : Tree} (hr : HasType s r .numeric) :
      HasType s (.unary t n .minus r) .numeric
  | calculate {t : Token} {n : Nat} {op : Operator} {l r : Tree} (hl : HasType s l .numeric)
      (hr : HasType s r .numeric) (ho : op ∈ Operator.arithmetic) :
      HasType s (.binary t n op l r) .numeric
  | compareNumbers {t : Token} {n : Nat} {op : Operator} {l r : Tree} (hl : HasType s l .numeric)
      (hr : HasType s r .numeric) (ho : op ∈ Operator.comparisons) :
      HasType s (.binary t n op l r) .boolean
  | join {t : Token} {n : Nat} {l r : Tree} (hl : HasType s l .string) (hr : HasType s r .string) :
      HasType s (.binary t n .plus l r) .string
  | compareStrings {t : Token} {n : Nat} {op : Operator} {l r : Tree} (hl : HasType s l .string)
      (hr : HasType s r .string) (ho : op ∈ Operator.comparisons) :
      HasType s (.binary t n op l r) .boolean
  | equate {t : Token} {n : Nat} {op : Operator} {l r : Tree} {σ τ : DataType}
      (hl : HasType s l σ) (hr : HasType s r τ) (ho : op ∈ Operator.equalities) :
      HasType s (.binary t n op l r) .boolean
  | call {t u : Token} {n m : Nat} {name : Text} {f : Signature} {xs : List Tree}
      {types : List DataType} (hf : s.functions.find? name = some f)
      (hx : List.Forall₂ (HasType s) xs types) (ha : f.Accepts types)
      (hr : f.returnType ∈ DataType.inhabited) :
      HasType s (.call t n (.atom u m (.function name)) xs) f.returnType

def Typable (s : Scope) (t : Tree) : Prop :=
  ∃ τ, HasType s t τ

namespace Tree

def anchor : Tree → Int
  | .atom t _ _ => t.offset
  | .unary _ _ .bang r => r.anchor
  | .unary t _ _ _ => t.offset
  | .binary _ _ _ l _ => l.anchor
  | .call _ _ f _ => f.anchor

mutual

def postorder : Tree → List Tree
  | .atom t n a => [.atom t n a]
  | .unary t n op r => postorder r ++ [.unary t n op r]
  | .binary t n op l r => postorder l ++ (postorder r ++ [.binary t n op l r])
  | .call t n f xs => postorder f ++ (listPostorder xs ++ [.call t n f xs])

def listPostorder : List Tree → List Tree
  | [] => []
  | t :: ts => postorder t ++ listPostorder ts

end

theorem mem_postorder (t : Tree) : t ∈ t.postorder := by
  cases t <;> simp [postorder]

end Tree

inductive Faulty (s : Scope) : Tree → TypeFault → Prop
  | unknownName {t : Token} {n : Nat} {name : Text} (ht : s.trustNames = false)
      (hk : s.Unknown name) : Faulty s (.atom t n (.identifier name)) (.unknownName name t.offset)
  | unknownFunction {t : Token} {n : Nat} {name : Text} (hf : s.functions.find? name = none) :
      Faulty s (.atom t n (.function name)) (.unknownFunction name t.offset)
  | notNegatable {t : Token} {n : Nat} {r : Tree} {τ : DataType} (hr : HasType s r τ)
      (hτ : τ ≠ .numeric) : Faulty s (.unary t n .minus r) (.notNegatable τ r.anchor)
  | notUnary {t : Token} {n : Nat} {op : Operator} {r : Tree} {τ : DataType} (hr : HasType s r τ)
      (hb : op ≠ .bang) (hm : op ≠ .minus) : Faulty s (.unary t n op r) (.notUnary op τ t.offset)
  | notForNumbers {t : Token} {n : Nat} {op : Operator} {l r : Tree} (hl : HasType s l .numeric)
      (hr : HasType s r .numeric) (ha : op ∉ Operator.arithmetic)
      (hc : op ∉ Operator.comparisons) :
      Faulty s (.binary t n op l r) (.notBinary .numeric op .numeric l.anchor)
  | notForStrings {t : Token} {n : Nat} {op : Operator} {l r : Tree} (hl : HasType s l .string)
      (hr : HasType s r .string) (hp : op ≠ .plus) (hc : op ∉ Operator.comparisons) :
      Faulty s (.binary t n op l r) (.notBinary .string op .string l.anchor)
  | notBinary {t : Token} {n : Nat} {op : Operator} {l r : Tree} {τ : DataType}
      (hl : HasType s l τ) (hr : HasType s r τ) (hn : τ ≠ .numeric) (hs : τ ≠ .string)
      (ho : op ∉ Operator.equalities) :
      Faulty s (.binary t n op l r) (.notBinary τ op τ t.offset)
  | mismatch {t : Token} {n : Nat} {op : Operator} {l r : Tree} {σ τ : DataType}
      (hl : HasType s l σ) (hr : HasType s r τ) (hne : σ ≠ τ) (ho : op ∉ Operator.equalities) :
      Faulty s (.binary t n op l r) (.mismatch σ op τ t.offset)
  | notAFunction {t : Token} {n : Nat} {f : Tree} {xs : List Tree} {τ : DataType}
      {types : List DataType} (hf : HasType s f τ) (hτ : τ ≠ .function)
      (hx : List.Forall₂ (HasType s) xs types) :
      Faulty s (.call t n f xs) (.notAFunction τ f.anchor)
  | argumentCount {t u : Token} {n m : Nat} {name : Text} {f : Signature} {xs : List Tree}
      {types : List DataType} (hf : s.functions.find? name = some f)
      (hx : List.Forall₂ (HasType s) xs types) (hv : f.variadic = false)
      (hl : xs.length ≠ f.parameters.length) :
      Faulty s (.call t n (.atom u m (.function name)) xs)
        (.argumentCount f.parameters.length xs.length u.offset)
  | argumentType {t u : Token} {n m : Nat} {name : Text} {f : Signature} {x : Tree}
      {before after : List Tree} {p : Parameter} {accepted rest : List Parameter} {τ : DataType}
      {types : List DataType} (hf : s.functions.find? name = some f) (hv : f.variadic = false)
      (hp : f.parameters = accepted ++ p :: rest)
      (hb : List.Forall₂ (HasType s) before (accepted.map (·.type))) (hx : HasType s x τ)
      (hne : p.type ≠ τ) (ha : List.Forall₂ (HasType s) after types)
      (hl : after.length = rest.length) :
      Faulty s (.call t n (.atom u m (.function name)) (before ++ x :: after))
        (.argumentType p.type τ x.anchor u.offset)
  | unsupportedResult {t u : Token} {n m : Nat} {name : Text} {f : Signature} {xs : List Tree}
      {types : List DataType} (hf : s.functions.find? name = some f)
      (hx : List.Forall₂ (HasType s) xs types) (ha : f.Accepts types)
      (hr : f.returnType ∉ DataType.inhabited) :
      Faulty s (.call t n (.atom u m (.function name)) xs)
        (.unsupportedResult f.returnType u.offset)

inductive Blames (s : Scope) : List Tree → TypeFault → Prop
  | here {u : Tree} {after : List Tree} {e : TypeFault} (hu : Faulty s u e) :
      Blames s (u :: after) e
  | later {u : Tree} {after : List Tree} {e : TypeFault} (hu : Typable s u)
      (ha : Blames s after e) : Blames s (u :: after) e

end RuleLang
