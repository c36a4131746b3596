import RuleLang.Catalog.Basic
import RuleLang.Json.Reading

namespace RuleLang

inductive CatalogFault where
  | unfit
  | malformed
  | cutShort
  deriving DecidableEq, Repr

def CatalogFault.ofJson : Json.Fault → CatalogFault
  | .malformed => .malformed
  | .cutShort => .cutShort

namespace Catalog

open Json (Reading Ending)

abbrev Decoder (α : Type) := Reading → Except CatalogFault α

namespace Decoder

def wrongKind {α : Type} : Decoder α := fun r =>
  .error ((r.ownFault?.map .ofJson).getD .unfit)

def ensure (fault : Option Json.Fault) : Except CatalogFault Unit :=
  match fault with
  | some f => .error (.ofJson f)
  | none => .ok ()

def text : Decoder Text
  | .string (some t) => .ok t
  | r => wrongKind r

def flag : Decoder Bool
  | .boolean b => .ok b
  | r => wrongKind r

def indexLimit : Nat := 0x10000000000000000

def index : Decoder Nat
  | .number n =>
      if n.all Char.isDigit && Text.digitsValue n < indexLimit then .ok (Text.digitsValue n)
      else wrongKind (.number n)
  | r => wrongKind r

def items {α : Type} (d : Decoder α) : List Reading → Except CatalogFault (List α)
  | [] => .ok []
  | r :: rs => do
      let a ← d r
      return a :: (← items d rs)

def list {α : Type} (d : Decoder α) : Decoder (List α)
  | .array rs ending => do
      let xs ← items d rs
      ensure ending.fault?
      return xs
  | r => wrongKind r

def typeName (t : Text) : Except CatalogFault DataType :=
  match DataType.ofSpelling? t with
  | some type => .ok type
  | none => .error .unfit

/-- A type by its name, or as an object whose only member has that name and the value null. -/
def dataType : Decoder DataType
  | .string (some t) => typeName t
  | .brokenString f _ | .missing f => .error (.ofJson f)
  | .object [] ending =>
      match ending with
      | .cut => .error .cutShort
      | .brokenKey f _ => .error (.ofJson f)
      | _ => .error .malformed
  | .object ((none, _) :: _) _ => .error .malformed
  | .object ((some key, r) :: more) ending => do
      let type ← typeName key
      match r with
      | .null => pure ()
      | r => wrongKind r
      match more, ending with
      | [], .closed => return type
      | [], .cut => .error .cutShort
      | _, _ => .error .malformed
  | _ => .error .malformed

structure Field (δ : Type) where
  name : Text
  isSet : δ → Bool
  optional : Bool := false
  read : δ → Decoder δ

def positions {δ : Type} (ending : Ending) :
    List (Field δ) → List Reading → δ → Except CatalogFault δ
  | [], [], d => do
      match ending with
      | .closed => return d
      | .cut => .error .cutShort
      | _ => .error .malformed
  | [], _ :: _, _ => .error .malformed
  | f :: fs, [], d => do
      ensure ending.fault?
      if f.optional then positions ending fs [] d else .error .unfit
  | f :: fs, r :: rs, d => do positions ending fs rs (← f.read d r)

/-- Members with other names are passed over, and no name may come twice. -/
def namedFields {δ : Type} (fields : List (Field δ)) :
    List (Option Text × Reading) → δ → Except CatalogFault δ
  | [], d => return d
  | (none, _) :: _, _ => .error .malformed
  | (some key, r) :: ms, d => do
      match fields.find? fun f => f.name = key with
      | some f =>
          if f.isSet d then .error .unfit
          else namedFields fields ms (← f.read d r)
      | none => do
          ensure r.skippedFault?
          namedFields fields ms d

def record {δ α : Type} (empty : δ) (fields : List (Field δ)) (make? : δ → Option α) : Decoder α :=
  let finish d := match make? d with
    | some a => .ok a
    | none => .error .unfit
  fun
  | .array rs ending => do finish (← positions ending fields rs empty)
  | .object ms ending => do
      let d ← namedFields fields ms empty
      ensure ending.fault?
      finish d
  | r => wrongKind r

end Decoder

open Decoder

structure KeywordDraft where
  name : Option Text := none
  type : Option DataType := none
  description : Option Text := none

def keyword : Decoder Keyword :=
  record {}
    [{ name := "name".toList
       isSet d := d.name.isSome
       read d r := do return { d with name := some (← text r) } },
      { name := "type".toList
        isSet d := d.type.isSome
        read d r := do return { d with type := some (← dataType r) } },
      { name := "desc".toList
        isSet d := d.description.isSome
        optional := true
        read d r := do return { d with description := some (← text r) } }]
    fun (d : KeywordDraft) => do
      return { name := ← d.name, type := ← d.type, description := d.description.getD [] }

structure ParameterDraft where
  index : Option Nat := none
  type : Option DataType := none
  name : Option Text := none

def parameter : Decoder Parameter :=
  record {}
    [{ name := "index".toList
       isSet d := d.index.isSome
       read d r := do return { d with index := some (← Decoder.index r) } },
      { name := "type".toList
        isSet d := d.type.isSome
        read d r := do return { d with type := some (← dataType r) } },
      { name := "name".toList
        isSet d := d.name.isSome
        read d r := do return { d with name := some (← text r) } }]
    fun (d : ParameterDraft) => do
      return { index := ← d.index, type := ← d.type, name := ← d.name }

structure SignatureDraft where
  name : Option Text := none
  description : Option Text := none
  tag : Option Text := none
  returnType : Option DataType := none
  parameters : Option (List Parameter) := none
  variadic : Option Bool := none

def signature : Decoder Signature :=
  record {}
    [{ name := "name".toList
       isSet d := d.name.isSome
       read d r := do return { d with name := some (← text r) } },
      { name := "description".toList
        isSet d := d.description.isSome
        optional := true
        read d r := do return { d with description := some (← text r) } },
      { name := "tag".toList
        isSet d := d.tag.isSome
        optional := true
        read d r := do return { d with tag := some (← text r) } },
      { name := "returnType".toList
        isSet d := d.returnType.isSome
        read d r := do return { d with returnType := some (← dataType r) } },
      { name := "params".toList
        isSet d := d.parameters.isSome
        optional := true
        read d r := do return { d with parameters := some (← list parameter r) } },
      { name := "uncertainParam".toList
        isSet d := d.variadic.isSome
        optional := true
        read d r := do return { d with variadic := some (← flag r) } }]
    fun (d : SignatureDraft) => do
      return {
        name := ← d.name
        description := d.description.getD []
        tag := d.tag.getD []
        returnType := ← d.returnType
        parameters := d.parameters.getD []
        variadic := d.variadic.getD false }

def functionMembers :
    List (Option Text × Reading) → Functions → Except CatalogFault Functions
  | [], fs => return fs
  | (none, _) :: _, _ => .error .malformed
  | (some key, r) :: ms, fs => do functionMembers ms (fs.insert key (← signature r))

/-- The last of several functions under one name counts. -/
def functionTable : Decoder Functions
  | .object ms ending => do
      let fs ← functionMembers ms []
      ensure ending.fault?
      return fs
  | r => wrongKind r

structure Draft where
  keywords : Option (List Keyword) := none
  functions : Option Functions := none

def ofReading : Decoder Catalog :=
  record {}
    [{ name := "keywords".toList
       isSet d := d.keywords.isSome
       optional := true
       read d r := do return { d with keywords := some (← list keyword r) } },
      { name := "functions".toList
        isSet d := d.functions.isSome
        optional := true
        read d r := do return { d with functions := some (← functionTable r) } }]
    fun (d : Draft) => some { keywords := d.keywords.getD [], functions := d.functions.getD [] }

def load (read : Text → Reading × Option Text) (t : Text) : Except CatalogFault Catalog := do
  let (r, rest) := read t
  let c ← ofReading r
  if (rest.map Json.skipBlanks) = some [] then return c else .error .malformed

def ofText : Text → Except CatalogFault Catalog :=
  load Json.read

end Catalog

end RuleLang
