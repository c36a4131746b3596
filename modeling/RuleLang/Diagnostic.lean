namespace RuleLang

structure Diagnostic where
  message : String
  offset : Int
  deriving DecidableEq, Repr

namespace Diagnostic

def nowhere : Int := -1

def checkPosition (what : String) (offset : Int) : Diagnostic where
  message := what ++ ", please check position(" ++ toString offset ++ ")"
  offset := offset

end Diagnostic

inductive Stage where
  | lexing
  | parsing
  | validation
  deriving DecidableEq, Repr

def Stage.label : Stage → String
  | .lexing => "lex error"
  | .parsing => "parse error"
  | .validation => "validation error"

structure StageError where
  stage : Stage
  diagnostic : Diagnostic
  deriving DecidableEq, Repr

def StageError.text (e : StageError) : String :=
  e.stage.label ++ ": " ++ e.diagnostic.message

end RuleLang
