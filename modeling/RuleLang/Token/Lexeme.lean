import RuleLang.Diagnostic
import RuleLang.Token.Basic

namespace RuleLang

inductive LexFault where
  | blankSource
  | invalidToken (c : Char)
  | unterminatedString
  | formatCharacter
  | emptyString
  | unclosedVariable (boundary : Char)
  | illegalVariable (hint : String)
  | identifierAfterNumber (c : Char)
  deriving DecidableEq, Repr

def LexFault.describe : LexFault → String
  | .blankSource => "Expression should not be empty"
  | .invalidToken c => "Invalid token " ++ String.singleton c
  | .unterminatedString => "Unterminated string constant '"
  | .formatCharacter =>
      "Illegal stringliteral Stringliteral can not include blank, enter, tab and other format character"
  | .emptyString => "Illegal stringliteral Stringliteral can not be empty"
  | .unclosedVariable boundary => "Lack of " ++ String.singleton boundary
  | .illegalVariable hint => "Illegal variable, " ++ hint
  | .identifierAfterNumber c => "Identifier directly after number " ++ String.singleton c

structure LexError where
  fault : LexFault
  offset : Nat
  deriving DecidableEq, Repr

def LexError.diagnostic (e : LexError) : Diagnostic :=
  Diagnostic.checkPosition e.fault.describe e.offset

structure NameRule where
  accepts : Text → Bool
  hint : String

namespace NameRule

def isNameCharacter (c : Char) : Bool :=
  c.isAlphanum || c == '_' || c == '.' || c == '-'

def usual : NameRule where
  accepts t := !t.isEmpty && t.all isNameCharacter
  hint := "Variable should only include number, letter, \"_\", \"-\", \".\""

def custom (accepts : Text → Bool) : NameRule where
  accepts := accepts
  hint := "Characters outside the allowed range appear"

/-- That is `^[0-9A-Za-z_.\-]+$`. -/
def usualPattern : Text :=
  ['^', '[', '0', '-', '9', 'A', '-', 'Z', 'a', '-', 'z', '_', '.', '\\', '-', ']', '+', '$']

/-- The rule of a pattern that can be compiled. Only the usual pattern, written as above, comes with
a message that lists the characters allowed. -/
def compiled? (compile : Text → Option (Text → Bool)) (pattern : Text) : Option NameRule :=
  (compile pattern).map fun accepts =>
    if pattern = usualPattern then { usual with accepts } else custom accepts

end NameRule

structure LexOptions where
  allowHan : Bool := false
  /-- Blank sources and empty string literals are fine. -/
  allowEmpty : Bool := false
  boundary : Char := '$'
  names : NameRule := .usual

namespace LexOptions

def isHan (c : Char) : Bool :=
  0x4E00 ≤ c.toNat && c.toNat ≤ 0x9FD5

def isLetter (o : LexOptions) (c : Char) : Bool :=
  c == '_' || c.isAlpha || (o.allowHan && isHan c)

def isWordCharacter (o : LexOptions) (c : Char) : Bool :=
  o.isLetter c || c.isDigit

end LexOptions

structure Lexeme where
  kind : Kind
  text : Text
  rest : Text
  delimited : Bool := false
  /-- The first thing wrong with the lexeme, and how far behind its first character. -/
  fault : Option (Nat × LexFault) := none

namespace Lexeme

def isNumberCharacter (c : Char) : Bool :=
  c.isDigit || c == '.'

def extensible (first second : Char) (both alone : Kind) : Text → Lexeme
  | c :: rest =>
      if c = second then { kind := both, text := [first, c], rest }
      else { kind := alone, text := [first], rest := c :: rest }
  | [] => { kind := alone, text := [first], rest := [] }

def stringFault (o : LexOptions) (content : Text) (closed : Bool) : Option (Nat × LexFault) :=
  match content.findIdx? Text.isFormat with
  | some i => some (i + 1, .formatCharacter)
  | none =>
      if !closed then some (content.length + 1, .unterminatedString)
      else if content.isEmpty && !o.allowEmpty then some (1, .emptyString)
      else if Text.wrappedIn o.boundary content
          && !o.names.accepts (Text.unwrap o.boundary content) then
        some (content.length + 2, .illegalVariable o.names.hint)
      else none

def string (o : LexOptions) (behind : Text) : Lexeme :=
  let content := behind.takeWhile (· ≠ '\'')
  match behind.dropWhile (· ≠ '\'') with
  | [] =>
      { kind := .string
        text := '\'' :: content
        rest := []
        fault := stringFault o content false }
  | quote :: rest =>
      { kind := .string
        text := '\'' :: (content ++ [quote])
        rest
        fault := stringFault o content true }

def word (o : LexOptions) (first : Char) (behind : Text) : Lexeme :=
  let text := first :: behind.takeWhile o.isWordCharacter
  { kind := (Kind.keyword? text).getD .ident
    text
    rest := behind.dropWhile o.isWordCharacter }

def numberFault (length : Nat) : Text → Option (Nat × LexFault)
  | c :: _ => if c = '_' ∨ c.isAlpha then some (length, .identifierAfterNumber c) else none
  | [] => none

def number (first : Char) (behind : Text) : Lexeme :=
  let text := first :: behind.takeWhile isNumberCharacter
  let rest := behind.dropWhile isNumberCharacter
  { kind := .numeric, text, rest, fault := numberFault text.length rest }

def variableName (o : LexOptions) (behind : Text) : Lexeme :=
  let name := behind.takeWhile (· ≠ o.boundary)
  match behind.dropWhile (· ≠ o.boundary) with
  | [] =>
      { kind := .numeric
        text := o.boundary :: name
        rest := []
        delimited := true
        fault := some (name.length + 1, .unclosedVariable o.boundary) }
  | mark :: rest =>
      { kind := .numeric
        text := o.boundary :: (name ++ [mark])
        rest
        delimited := true
        fault :=
          if o.names.accepts name then none
          else some (name.length + 1, .illegalVariable o.names.hint) }

def ofText (o : LexOptions) (first : Char) (behind : Text) : Lexeme :=
  match Kind.mark? first with
  | some kind => { kind, text := [first], rest := behind }
  | none =>
      match Kind.extensible? first with
      | some (second, both, alone) => extensible first second both alone behind
      | none =>
          if first = '\'' then string o behind
          else if o.isLetter first then word o first behind
          else if isNumberCharacter first then number first behind
          else if first = o.boundary then variableName o behind
          else
            { kind := .invalid
              text := [first]
              rest := behind
              fault := some (0, .invalidToken first) }

def token (x : Lexeme) (start : Nat) : Token where
  kind := x.kind
  literal := x.text
  offset := start + x.text.length - (if x.kind.citesLast then 1 else 0)
  delimited := x.delimited

def errorAt (x : Lexeme) (start : Nat) : Option LexError :=
  x.fault.map fun (distance, fault) => ⟨fault, start + distance⟩

end Lexeme

end RuleLang
