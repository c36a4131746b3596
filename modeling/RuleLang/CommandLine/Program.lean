import RuleLang.Catalog.Reader
import RuleLang.CommandLine.Arguments
import RuleLang.CommandLine.Output
import RuleLang.Pattern.Matching

namespace RuleLang

def NameRule.ofPattern? : Text → Option NameRule :=
  compiled? Pattern.compile?

namespace CommandLine

/-- What the program takes from elsewhere: the meaning of its arguments, the content of files, how
patterns are compiled, and how JSON is read and written. -/
structure Environment where
  ask : List Text → Asked
  file : Text → Option Text
  compile : Text → Option (Text → Bool)
  read : Text → Json.Reading × Option Text
  write : Json.Document → Text

def Input.lexOptions? (i : Input) (compile : Text → Option (Text → Bool)) : Option LexOptions := do
  let names ← NameRule.compiled? compile (i.pattern.getD NameRule.usualPattern)
  return { allowHan := i.allowHan, allowEmpty := i.allowEmpty, boundary := i.boundary, names }

def Input.parseOptions (i : Input) : ParseOptions :=
  { boundary := i.boundary }

def References.scope (r : References) (c : Catalog) : Scope :=
  { trustNames := r.trustNames
    keywords := (if r.devicePresets then deviceKeywords else []) ++ c.keywords
    functions := c.functions }

namespace Result

def ofLexing (l : LexOptions) (source : Text) : Result :=
  .lexed (lex l source).tokens ((lex l source).error.map LexError.diagnostic)

def ofParsing (l : LexOptions) (p : ParseOptions) (source : Text) : Result :=
  let lexed := lex l source
  let parsed := parseTokens p lexed.tokens
  .parsed parsed.tree
    ((lexed.error.map LexError.diagnostic).or (parsed.error.map ParseError.diagnostic))

def ofCheck (l : LexOptions) (p : ParseOptions) (s : Scope) (source : Text) : Result :=
  .checked (check l p s source)

end Result

namespace Environment

def catalog? (e : Environment) (r : References) : Option Catalog :=
  match r.catalogPath with
  | none => some {}
  | some path => do
      match Catalog.load e.read (← e.file path) with
      | .ok c => some c
      | .error _ => none

def result? (e : Environment) : Request → Option Result
  | .lex i => do
      let l ← i.lexOptions? e.compile
      return .ofLexing l i.expression
  | .parse i => do
      let l ← i.lexOptions? e.compile
      return .ofParsing l i.parseOptions i.expression
  | .check i r => do
      let c ← e.catalog? r
      let l ← i.lexOptions? e.compile
      return .ofCheck l i.parseOptions (r.scope c) i.expression

def outcome (e : Environment) (x : Result) : Outcome where
  exitCode := if x.failed then 1 else 0
  output := e.write x.document ++ ['\n']

def run (e : Environment) (args : List Text) : Outcome :=
  match e.ask args with
  | .answered o => o
  | .request r =>
      match e.result? r with
      | some x => e.outcome x
      | none => .misuse

def standard (help : Text) (file : Text → Option Text) : Environment where
  ask := CommandLine.ask help
  file := file
  compile := Pattern.compile?
  read := Json.read
  write := Json.pretty 0

end Environment

def run (file : Text → Option Text) (args : List Text) : Outcome :=
  (Environment.standard [] file).run args

end CommandLine

end RuleLang
