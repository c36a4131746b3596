import RuleLang.Diagnostic
import RuleLang.Token.Basic
import RuleLang.Catalog.Basic

namespace RuleLang

/-- The last number of each cause but the final one is the offset it is reported at. -/
inductive TypeFault where
  | unknownName (name : Text) (offset : Int)
  | unknownFunction (name : Text) (offset : Int)
  | notNegatable (type : DataType) (offset : Int)
  | notUnary (op : Operator) (type : DataType) (offset : Int)
  | notBinary (left : DataType) (op : Operator) (right : DataType) (offset : Int)
  | mismatch (left : DataType) (op : Operator) (right : DataType) (offset : Int)
  | notAFunction (type : DataType) (offset : Int)
  | argumentCount (needed found : Nat) (offset : Int)
  | argumentType (needed found : DataType) (argument offset : Int)
  | unsupportedResult (type : DataType) (offset : Int)
  | tooDeep (limit : Nat) (offset : Int)
  | notNumeric
  deriving DecidableEq, Repr

namespace TypeFault

def pair (left : DataType) (op : Operator) (right : DataType) : String :=
  left.name ++ " " ++ String.ofList op.spelling ++ " " ++ right.name

def diagnostic : TypeFault → Diagnostic
  | .unknownName name offset =>
      .checkPosition ("Identifier not found: " ++ String.ofList name) offset
  | .unknownFunction name offset =>
      .checkPosition ("Function not found: " ++ String.ofList name) offset
  | .notNegatable type offset => ⟨"Unknown operator -" ++ type.name, offset⟩
  | .notUnary op type offset =>
      .checkPosition ("Unknown operator: " ++ String.ofList op.spelling ++ type.name) offset
  | .notBinary left op right offset =>
      .checkPosition ("Unknown operator: " ++ pair left op right) offset
  | .mismatch left op right offset =>
      .checkPosition ("Type mismatch: " ++ pair left op right) offset
  | .notAFunction type offset => ⟨"Not a function: " ++ type.name, offset⟩
  | .argumentCount needed found offset =>
      { Diagnostic.checkPosition
          (toString needed ++ " parameters need, but " ++ toString found ++ " found") (offset + 1)
        with offset }
  | .argumentType needed found argument offset =>
      { Diagnostic.checkPosition
          (needed.name ++ " type parameter need, but get " ++ found.name ++ " type") argument
        with offset }
  | .unsupportedResult type offset =>
      .checkPosition ("Unsupported data type " ++ type.name) offset
  | .tooDeep limit offset =>
      .checkPosition ("Maximum nesting depth exceeded (" ++ toString limit ++ ")") offset
  | .notNumeric => ⟨"The expression return value must be numeric", Diagnostic.nowhere⟩

end TypeFault

end RuleLang
