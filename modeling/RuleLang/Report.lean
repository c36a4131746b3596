import RuleLang.Token.Lexer
import RuleLang.Tree.Parser
import RuleLang.Typing.Validator

namespace RuleLang

structure Report where
  tokens : List Token
  tree : Option Tree
  valid : Bool
  error : Option StageError
  deriving DecidableEq, Repr

def LexError.staged (e : LexError) : StageError :=
  ⟨.lexing, e.diagnostic⟩

def ParseError.staged (e : ParseError) : StageError :=
  ⟨.parsing, e.diagnostic⟩

def TypeFault.staged (e : TypeFault) : StageError :=
  ⟨.validation, e.diagnostic⟩

/-- The first error counts. A tree is made even of a faulty text, but only that of a faultless one
is validated. -/
def check (l : LexOptions) (p : ParseOptions) (s : Scope) (source : Text) : Report :=
  let lexed := lex l source
  let parsed := parseTokens p lexed.tokens
  let report error : Report :=
    { tokens := lexed.tokens, tree := parsed.tree, valid := false, error }
  match lexed.error, parsed.error, parsed.tree with
  | some e, _, _ => report (some e.staged)
  | none, some e, _ => report (some e.staged)
  | none, none, none => report none
  | none, none, some t =>
      let validation := validate s t
      { report (validation.error.map TypeFault.staged) with valid := validation.valid }

end RuleLang
