import RuleLang.Json.Basic
import RuleLang.Report
import RuleLang.Value.Basic

namespace RuleLang

open Json (Document)

def Diagnostic.document (d : Diagnostic) : Document :=
  .object
    [("message".toList, .string d.message.toList), ("offset".toList, Json.integer d.offset)]

def Token.document (t : Token) : Document :=
  .object <|
    [("literal".toList, .string t.literal), ("kind".toList, .string t.kind.spelling),
      ("offset".toList, Json.natural t.offset)]
      ++ if t.delimited then [("variable".toList, .boolean true)] else []

def Operator.name : Operator → Text
  | .assign => "Assign".toList
  | .plus => "Plus".toList
  | .minus => "Minus".toList
  | .bang => "Bang".toList
  | .mul => "Mul".toList
  | .div => "Div".toList
  | .lt => "Lt".toList
  | .gt => "Gt".toList
  | .le => "Lte".toList
  | .ge => "Gte".toList
  | .eq => "Eq".toList
  | .ne => "NotEq".toList

/-- Infinite numbers have no numeral. -/
def Binary64.document (x : Binary64) : Document :=
  if x.isFinite then .number (Layout.scientific x) else .null

def Atom.node : Atom → Text × Document
  | .identifier name => ("Identifier".toList, .string name)
  | .number value => ("NumericLiteral".toList, Json.option Binary64.document value)
  | .string value => ("StringLiteral".toList, .string value)
  | .boolean value => ("Boolean".toList, .boolean value)
  | .function name => ("Function".toList, .string name)

namespace Tree

def nodeDocument (t : Token) (brackets : Nat) (node : Text) (fields : List (Text × Document)) :
    Document :=
  .object <|
    ("token".toList, t.document)
      :: (if brackets = 0 then [] else [("with_bracket".toList, Json.natural brackets)])
      ++ ("node".toList, .string node) :: fields

mutual

def document : Tree → Document
  | .atom t n a => nodeDocument t n a.node.1 [("value".toList, a.node.2)]
  | .unary t n op r =>
      nodeDocument t n "Prefix".toList
        [("operator".toList, .string op.name), ("right".toList, r.document)]
  | .binary t n op l r =>
      nodeDocument t n "Infix".toList
        [("operator".toList, .string op.name), ("left".toList, l.document),
          ("right".toList, r.document)]
  | .call t n f xs =>
      nodeDocument t n "Call".toList
        [("function".toList, f.document), ("arguments".toList, .array (documents xs))]

def documents : List Tree → List Document
  | [] => []
  | t :: ts => t.document :: documents ts

end

end Tree

def Stage.name : Stage → Text
  | .lexing => "LexError".toList
  | .parsing => "ParseError".toList
  | .validation => "ValidationError".toList

def StageError.document (e : StageError) : Document :=
  .object
    [("stage".toList, .string e.stage.name), ("error".toList, e.diagnostic.document)]

namespace CommandLine

inductive Result where
  | lexed (tokens : List Token) (error : Option Diagnostic)
  | parsed (tree : Option Tree) (error : Option Diagnostic)
  | checked (report : Report)
  deriving DecidableEq, Repr

namespace Result

def document : Result → Document
  | .lexed tokens error =>
      .object
        [("tokens".toList, Json.list Token.document tokens),
          ("error".toList, Json.option Diagnostic.document error)]
  | .parsed tree error =>
      .object
        [("ast".toList, Json.option Tree.document tree),
          ("error".toList, Json.option Diagnostic.document error)]
  | .checked report =>
      .object
        [("tokens".toList, Json.list Token.document report.tokens),
          ("ast".toList, Json.option Tree.document report.tree),
          ("is_valid".toList, .boolean report.valid),
          ("error".toList, Json.option StageError.document report.error)]

def failed : Result → Bool
  | .lexed _ error | .parsed _ error => error.isSome
  | .checked report => !report.valid

end Result

end CommandLine

end RuleLang
