import RuleLang.Diagnostic
import RuleLang.Token.Basic

namespace RuleLang

structure Cursor where
  /-- The tokens passed, the latest first. -/
  behind : List Token := []
  here : Token
  ahead : List Token
  deriving DecidableEq, Repr

namespace Cursor

/-- A list that ends without the finishing token is read as if one followed its last token. -/
def peek (c : Cursor) : Token :=
  c.ahead.head?.getD (.finish c.here.offset)

def bump (c : Cursor) : Cursor :=
  match c.ahead with
  | [] => c
  | t :: ts => { behind := c.here :: c.behind, here := t, ahead := ts }

def position (c : Cursor) : Nat :=
  c.behind.length

def tokens (c : Cursor) : List Token :=
  c.behind.reverse ++ c.here :: c.ahead

theorem tokens_bump (c : Cursor) : c.bump.tokens = c.tokens := by
  unfold bump
  split <;> simp [tokens, *]

theorem getElem?_position (c : Cursor) : c.tokens[c.position]? = some c.here := by
  simp [tokens, position]

end Cursor

namespace Kind

def mayPrecede (k next : Kind) : Bool :=
  match k with
  | .ident => next ≠ .ident
  | .numeric | .string => next ∉ [.ident, .numeric, .string, .openParen]
  | .closeParen => next ∉ [.ident, .numeric, .string]
  | .openParen =>
      next ∈ [.ident, .numeric, .string, .closeParen, .plus, .minus, .openParen, .bang, .trueWord,
        .falseWord]
  | .assign | .asterisk | .slash | .gt | .lt | .ge | .le | .eq | .ne =>
      next ∈ [.ident, .numeric, .string, .openParen, .bang]
  | .minus | .bang => next ∈ [.ident, .numeric, .openParen]
  | .plus => next ∈ [.ident, .numeric, .openParen, .string, .bang]
  | _ => true

end Kind

inductive ParseError where
  | noTokens
  | unexpected (found : Token)
  | emptyGroup (opening : Token)
  | expected (kind : Kind) (found : Token)
  | noOperand (found : Token)
  | notANumber (found : Token)
  | tooDeep (limit : Nat) (found : Token)
  deriving DecidableEq, Repr

namespace ParseError

def token? : ParseError → Option Token
  | .noTokens => none
  | .unexpected t | .emptyGroup t | .expected _ t | .noOperand t | .notANumber t
  | .tooDeep _ t => some t

def invalidSyntax (what : String) (t : Token) : String :=
  "Invalid syntax, " ++ what ++ ", '" ++ String.ofList t.literal ++ "' ; position: "
    ++ toString (t.offset + 1)

def message : ParseError → String
  | .noTokens => "No tokens to parse"
  | .unexpected t => invalidSyntax "Unexpected token" t
  | .emptyGroup t => invalidSyntax "Group can not be empty" t
  | .expected k t =>
      "Expected next token to be " ++ String.ofList k.spelling ++ ", got "
        ++ String.ofList t.kind.spelling ++ " instead : " ++ toString t.offset
  | .noOperand t =>
      "No prefix parse function for " ++ String.ofList t.kind.spelling ++ " found : "
        ++ toString (t.offset + 1)
  | .notANumber t => "Could not parse " ++ String.ofList t.literal ++ " as float64"
  | .tooDeep limit t =>
      "Maximum nesting depth exceeded (" ++ toString limit ++ ") ; position: "
        ++ toString (t.offset + 1)

def diagnostic (e : ParseError) : Diagnostic where
  message := e.message
  offset :=
    match e.token? with
    | some t => t.offset
    | none => Diagnostic.nowhere

end ParseError

end RuleLang
