import RuleLang.CommandLine.Program

namespace RuleLang.CommandLine

def readCatalog (path : Text) : IO (Option Text) := do
  try
    let content ← IO.FS.readFile (String.ofList path)
    return some content.toList
  catch _ => return none

def usage : Text :=
  "usage: lex|parse|check [options] expression\n".toList

def Asked.catalogPath : Asked → Option Text
  | .request (.check _ r) => r.catalogPath
  | _ => none

end RuleLang.CommandLine

open RuleLang.CommandLine in
def main (args : List String) : IO UInt32 := do
  let args := args.map String.toList
  let path := (ask usage args).catalogPath
  let content ← match path with
    | some p => readCatalog p
    | none => pure none
  let file p := if some p = path then content else none
  let outcome := (Environment.standard usage file).run args
  IO.print (String.ofList outcome.output)
  return outcome.exitCode.toUInt32
