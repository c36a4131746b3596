import RuleLang.Token.Lexeme

namespace RuleLang

structure Lexer where
  options : LexOptions
  rest : Text
  passed : Nat := 0
  error : Option LexError := none
  finished : Bool := false

namespace Lexer

def start (o : LexOptions) (source : Text) : Lexer :=
  if source.all Text.isBlank && !o.allowEmpty then
    { options := o, rest := source, error := some ⟨.blankSource, 0⟩, finished := true }
  else { options := o, rest := source }

def next (l : Lexer) : Option Token × Lexer :=
  if l.finished then (none, l)
  else
    let start := l.passed + (l.rest.takeWhile Text.isBlank).length
    match l.rest.dropWhile Text.isBlank with
    | [] => (some (Token.finish start), { l with rest := [], passed := start, finished := true })
    | first :: behind =>
        let x := Lexeme.ofText l.options first behind
        (some (x.token start),
          { l with
            rest := x.rest
            passed := start + x.text.length
            error := l.error.or (x.errorAt start)
            finished := x.kind = .invalid })

def take : Nat → Lexer → List Token × Lexer
  | 0, l => ([], l)
  | n + 1, l =>
      match l.next with
      | (none, l') => ([], l')
      | (some t, l') =>
          let (ts, last) := take n l'
          (t :: ts, last)

end Lexer

structure Lexed where
  tokens : List Token
  error : Option LexError
  deriving DecidableEq, Repr

/-- All tokens of a source. There is at most one for each character, and the one behind all others. -/
def lex (o : LexOptions) (source : Text) : Lexed :=
  let (tokens, last) := (Lexer.start o source).take (source.length + 1)
  { tokens, error := last.error }

end RuleLang
