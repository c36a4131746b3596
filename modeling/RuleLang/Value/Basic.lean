import RuleLang.Catalog.Basic
import RuleLang.Number.Layout
import RuleLang.Tree.Basic

namespace RuleLang

inductive Content where
  | numeric (value : Binary64)
  | string (value : Text)
  | boolean (value : Bool)
  | null
  | json
  | bytes
  | function (signature : Signature)
  deriving DecidableEq, Repr

def Content.type : Content → DataType
  | .numeric _ => .numeric
  | .string _ => .string
  | .boolean _ => .boolean
  | .null => .null
  | .json => .json
  | .bytes => .bytes
  | .function _ => .function

structure Value where
  content : Content
  offset : Int
  deriving DecidableEq, Repr

namespace Value

def type (v : Value) : DataType :=
  v.content.type

def placeholder? (t : DataType) (offset : Int) : Option Value :=
  match t with
  | .numeric => some ⟨.numeric .one, offset⟩
  | .string => some ⟨.string [], offset⟩
  | .boolean => some ⟨.boolean true, offset⟩
  | .json => some ⟨.json, offset⟩
  | .bytes => some ⟨.bytes, offset⟩
  | _ => none

theorem type_of_placeholder? {t : DataType} {offset : Int} {v : Value}
    (h : placeholder? t offset = some v) : v.type = t ∧ v.offset = offset := by
  cases t <;> simp [placeholder?] at h <;> subst h <;> simp [type, Content.type]

def display (v : Value) : Text :=
  match v.content with
  | .numeric value => Layout.plain value
  | .string value => value
  | .boolean value => Text.ofBool value
  | .null | .json => "null".toList
  | .bytes => "[]".toList
  | .function f => f.name ++ "()".toList

end Value

/-- The value a keyword stands for. One declared to be an error stands for none. -/
def Keyword.value? (k : Keyword) (offset : Int) : Option Value :=
  match k.type with
  | .error => none
  | t => some ((Value.placeholder? t offset).getD ⟨.null, offset⟩)

end RuleLang
