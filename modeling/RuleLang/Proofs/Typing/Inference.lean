import RuleLang.Typing.Validator

namespace RuleLang

namespace Scope

mutual

def infer (s : Scope) : Tree → Except TypeFault Value
  | .atom t _ a => s.atom t.offset a
  | .unary t _ op r => do Value.unary op t.offset (← infer s r)
  | .binary t _ op l r => do
      let left ← infer s l
      let right ← infer s r
      Value.binary op t.offset left right
  | .call _ _ f xs => do
      let callee ← infer s f
      let arguments ← inferAll s xs
      Value.call callee arguments

def inferAll (s : Scope) : List Tree → Except TypeFault (List Value)
  | [] => return []
  | t :: ts => do
      let v ← infer s t
      return v :: (← inferAll s ts)

end

end Scope

namespace Infer

variable {α β : Type}

theorem bind_settle {x : Infer α} {f : α → Infer β} {r : Except TypeFault α}
    {g : α → Except TypeFault β} {depth : Nat} (hx : x depth = settle r depth)
    (hf : ∀ a, f a depth = settle (g a) depth) :
    (x >>= f) depth = settle (r >>= g) depth := by
  change EStateM.bind x f depth = _
  cases r with
  | error e =>
      simp only [EStateM.bind, hx, settle]
      rfl
  | ok a =>
      simp only [EStateM.bind, hx]
      exact hf a

theorem nested_settle {limit : Nat} {offset : Int} {step : Infer α} {r : Except TypeFault α}
    {depth : Nat} (hd : depth + 1 ≤ limit) (hs : step (depth + 1) = settle r (depth + 1)) :
    nested limit offset step depth = settle r depth := by
  have hl : ¬ limit < depth + 1 := by omega
  cases r <;> simp [nested, hl, hs, settle]

variable (s : Scope)

mutual

theorem value_eq_infer :
    ∀ (t : Tree) (depth : Nat), depth + t.height ≤ s.maxDepth →
      value s t depth = settle (s.infer t) depth
  | .atom t n a, depth, h => by
      rw [value, Scope.infer]
      exact nested_settle h rfl
  | .unary t n op r, depth, h => by
      simp only [Tree.height] at h
      rw [value, Scope.infer]
      refine nested_settle (by omega) (bind_settle ?_ fun right => rfl)
      exact value_eq_infer r (depth + 1) (by omega)
  | .binary t n op l r, depth, h => by
      simp only [Tree.height] at h
      rw [value, Scope.infer]
      refine nested_settle (by omega) (bind_settle ?_ fun left => bind_settle ?_ fun right => rfl)
      · exact value_eq_infer l (depth + 1) (by omega)
      · exact value_eq_infer r (depth + 1) (by omega)
  | .call t n f xs, depth, h => by
      simp only [Tree.height] at h
      rw [value, Scope.infer]
      refine nested_settle (by omega) (bind_settle ?_ fun callee => bind_settle ?_ fun vs => rfl)
      · exact value_eq_infer f (depth + 1) (by omega)
      · exact values_eq_inferAll xs (depth + 1) (by omega)

theorem values_eq_inferAll :
    ∀ (ts : List Tree) (depth : Nat), depth + Tree.greatestHeight ts ≤ s.maxDepth →
      values s ts depth = settle (s.inferAll ts) depth
  | [], depth, _ => by
      rw [values, Scope.inferAll]
      rfl
  | t :: ts, depth, h => by
      simp only [Tree.greatestHeight] at h
      rw [values, Scope.inferAll]
      refine bind_settle ?_ fun v => bind_settle ?_ fun vs => rfl
      · exact value_eq_infer t depth (by omega)
      · exact values_eq_inferAll ts depth (by omega)

end

end Infer

end RuleLang
