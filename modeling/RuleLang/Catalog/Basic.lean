import RuleLang.Json.Basic

namespace RuleLang

inductive DataType where
  | string
  | numeric
  | boolean
  | byte
  | bytes
  | json
  | object
  | error
  | null
  | function
  deriving DecidableEq, Repr

namespace DataType

def spelling : DataType → Text
  | .string => "string".toList
  | .numeric => "numeric".toList
  | .boolean => "boolean".toList
  | .byte => "byte".toList
  | .bytes => "[]byte".toList
  | .json => "json".toList
  | .object => "object".toList
  | .error => "error".toList
  | .null => "null".toList
  | .function => "lib_function".toList

def name (t : DataType) : String :=
  String.ofList t.spelling

def all : List DataType :=
  [.string, .numeric, .boolean, .byte, .bytes, .json, .object, .error, .null, .function]

def ofSpelling? (t : Text) : Option DataType :=
  all.find? fun type => type.spelling = t

theorem ofSpelling?_spelling (t : DataType) : ofSpelling? t.spelling = some t := by
  cases t <;> decide +kernel

end DataType

structure Parameter where
  index : Nat
  type : DataType
  name : Text
  deriving DecidableEq, Repr

structure Signature where
  name : Text
  description : Text := []
  tag : Text := []
  returnType : DataType
  parameters : List Parameter := []
  /-- Neither the number nor the types of the arguments matter. -/
  variadic : Bool := false
  deriving DecidableEq, Repr

structure Keyword where
  name : Text
  type : DataType
  description : Text := []
  deriving DecidableEq, Repr

/-- Functions by the names under which rules call them; every name has one entry. -/
abbrev Functions := List (Text × Signature)

namespace Functions

def insert (name : Text) (f : Signature) : Functions → Functions
  | [] => [(name, f)]
  | (n, g) :: fs => if n = name then (name, f) :: fs else (n, g) :: insert name f fs

def find? : Functions → Text → Option Signature
  | [], _ => none
  | (n, f) :: fs, name => if n = name then some f else find? fs name

theorem find?_insert (name other : Text) (f : Signature) (fs : Functions) :
    find? (insert name f fs) other = if name = other then some f else find? fs other := by
  induction fs with
  | nil => rfl
  | cons e fs ih =>
      obtain ⟨n, g⟩ := e
      by_cases hn : n = name
      · subst hn
        by_cases h : n = other <;> simp [insert, find?, h]
      · by_cases h : n = other
        · subst h
          simp [insert, find?, hn, Ne.symm hn]
        · simp [insert, find?, hn, h, ih]

end Functions

structure Catalog where
  keywords : List Keyword := []
  functions : Functions := []
  deriving DecidableEq, Repr

def deviceKeywords : List Keyword :=
  [{ name := "IOT_DATA".toList
     type := .json
     description := "Data reported by the device".toList },
    { name := "IOT_DATA_TIME".toList
      type := .numeric
      description := "Time the reported data was stored".toList }]

open Json (Document)

def DataType.document (t : DataType) : Document :=
  .string t.spelling

def Keyword.document (k : Keyword) : Document :=
  .object
    [("name".toList, .string k.name), ("type".toList, k.type.document),
      ("desc".toList, .string k.description)]

def Parameter.document (p : Parameter) : Document :=
  .object
    [("index".toList, Json.natural p.index), ("type".toList, p.type.document),
      ("name".toList, .string p.name)]

def Signature.document (f : Signature) : Document :=
  .object
    [("name".toList, .string f.name), ("description".toList, .string f.description),
      ("tag".toList, .string f.tag), ("returnType".toList, f.returnType.document),
      ("params".toList, Json.list Parameter.document f.parameters),
      ("uncertainParam".toList, .boolean f.variadic)]

def Functions.document (fs : Functions) : Document :=
  .object (fs.map fun (name, f) => (name, f.document))

def Catalog.document (c : Catalog) : Document :=
  .object
    [("keywords".toList, Json.list Keyword.document c.keywords),
      ("functions".toList, c.functions.document)]

end RuleLang
