import RuleLang.Token.Lexer

namespace RuleLang

/-- A lexer that goes through the characters of a stored text and cuts its tokens out by bytes. -/
structure Scanner where
  options : LexOptions
  source : String
  characters : List (Nat × Char)
  located : characters = Text.located 0 source.toList
  position : Nat := 0
  error : Option LexError := none
  finished : Bool := false

namespace Scanner

open Text (Misplaced)

def start (o : LexOptions) (source : String) : Scanner :=
  let s : Scanner :=
    { options := o, source, characters := Text.located 0 source.toList, located := rfl }
  if source.toList.all Text.isBlank && !o.allowEmpty then
    { s with error := some ⟨.blankSource, 0⟩, finished := true }
  else s

def char? (s : Scanner) : Option Char :=
  s.characters[s.position]?.map Prod.snd

def nextChar? (s : Scanner) : Option Char :=
  s.characters[s.position + 1]?.map Prod.snd

/-- The position may lie anywhere behind the last character. -/
def read (s : Scanner) : Scanner :=
  { s with position := s.position + 1 }

def raise (fault? : Option LexFault) (offset : Nat) (s : Scanner) : Scanner :=
  { s with error := s.error.or (fault?.map fun fault => ⟨fault, offset⟩) }

def byteAt (s : Scanner) (position : Nat) : Nat :=
  (s.characters[position]?.map Prod.fst).getD s.source.utf8ByteSize

def slice (s : Scanner) (start stop : Nat) : Except Misplaced Text := do
  return (← Text.slice s.source (s.byteAt start) (s.byteAt stop)).toList

theorem position_lt_of_char? {s : Scanner} {c : Char} (h : s.char? = some c) :
    s.position < s.characters.length := by
  simp only [char?, Option.map_eq_some_iff] at h
  obtain ⟨a, ha, -⟩ := h
  exact (List.getElem?_eq_some_iff.mp ha).1

def readWhile (fits : Char → Bool) (s : Scanner) : Scanner :=
  match _h : s.char? with
  | some c => if fits c then s.read.readWhile fits else s
  | none => s
termination_by s.characters.length - s.position
decreasing_by exact Nat.sub_succ_lt_self _ _ (position_lt_of_char? _h)

/-- Reads up to the next such mark, or to the end if there is none. -/
def readTo (mark : Char) (fault? : Char → Option LexFault) (missing : LexFault) (s : Scanner) :
    Bool × Scanner :=
  match _h : s.read.char? with
  | none => (false, s.read.raise (some missing) s.read.position)
  | some c =>
      if c = mark then (true, s.read)
      else (s.read.raise (fault? c) s.read.position).readTo mark fault? missing
termination_by s.characters.length - s.position
decreasing_by
  have hlt : s.position + 1 < s.characters.length := position_lt_of_char? _h
  exact Nat.sub_succ_lt_self _ _ (Nat.lt_of_succ_lt hlt)

def single (kind : Kind) (s : Scanner) : Except Misplaced (Token × Scanner) := do
  let literal ← s.slice s.position (s.position + 1)
  return ({ kind, literal, offset := s.position + 1 }, s)

def double (second : Char) (both alone : Kind) (s : Scanner) :
    Except Misplaced (Token × Scanner) := do
  if s.nextChar? = some second then
    let last := s.read
    let literal ← s.slice s.position (last.position + 1)
    return ({ kind := both, literal, offset := last.position }, last)
  else
    let literal ← s.slice s.position (s.position + 1)
    return ({ kind := alone, literal, offset := s.position }, s)

def string (s : Scanner) : Except Misplaced (Token × Scanner) := do
  let mark := s.options.boundary
  let names := s.options.names
  let formatFault? (c : Char) := if Text.isFormat c then some LexFault.formatCharacter else none
  let (closed, last) := s.readTo '\'' formatFault? .unterminatedString
  let isEmpty := !s.options.allowEmpty && last.position = s.position + 1
  let last := last.raise (if isEmpty then some .emptyString else none) last.position
  let content ← s.slice (s.position + 1) last.position
  let isIllegal := Text.wrappedIn mark content && !names.accepts (Text.unwrap mark content)
  let last := last.raise (if isIllegal then some (.illegalVariable names.hint) else none)
    (last.position + 1)
  if closed then
    let literal ← s.slice s.position (last.position + 1)
    return ({ kind := .string, literal, offset := last.position + 1 }, last)
  else
    let literal ← s.slice s.position last.position
    return ({ kind := .string, literal, offset := s.characters.length }, last)

def word (s : Scanner) : Except Misplaced (Token × Scanner) := do
  let behind := s.read.readWhile s.options.isWordCharacter
  let literal ← s.slice s.position behind.position
  return ({ kind := (Kind.keyword? literal).getD .ident, literal, offset := behind.position },
    behind)

def number (s : Scanner) : Except Misplaced (Token × Scanner) := do
  let behind := s.readWhile Lexeme.isNumberCharacter
  let literal ← s.slice s.position behind.position
  let fault? := behind.char?.bind fun c =>
    if c = '_' ∨ c.isAlpha then some (LexFault.identifierAfterNumber c) else none
  return ({ kind := .numeric, literal, offset := behind.position },
    behind.raise fault? behind.position)

def variableName (s : Scanner) : Except Misplaced (Token × Scanner) := do
  let mark := s.options.boundary
  let names := s.options.names
  let (_, last) := s.readTo mark (fun _ => none) (.unclosedVariable mark)
  let literal ← s.slice s.position (last.position + 1)
  let isLegal := names.accepts (Text.unwrap mark literal)
  let behind := (last.raise (if isLegal then none else some (.illegalVariable names.hint))
    last.position).read
  return ({ kind := .numeric, literal, offset := min behind.position s.characters.length,
            delimited := true }, behind)

def invalid (c : Char) (s : Scanner) : Except Misplaced (Token × Scanner) := do
  let literal ← s.slice s.position (s.position + 1)
  return ({ kind := .invalid, literal, offset := s.position },
    { s.raise (some (.invalidToken c)) s.position with finished := true })

def reading (x : Except Misplaced (Token × Scanner)) : Except Misplaced (Token × Scanner) := do
  let (t, s) ← x
  return (t, s.read)

@[simp]
theorem reading_ok (t : Token) (s : Scanner) : reading (.ok (t, s)) = .ok (t, s.read) := rfl

def lexeme (c : Char) (s : Scanner) : Except Misplaced (Token × Scanner) :=
  match Kind.mark? c with
  | some kind => reading (s.single kind)
  | none =>
      match Kind.extensible? c with
      | some (second, both, alone) => reading (s.double second both alone)
      | none =>
          if c = '\'' then reading s.string
          else if s.options.isLetter c then s.word
          else if Lexeme.isNumberCharacter c then s.number
          else if c = s.options.boundary then s.variableName
          else reading (s.invalid c)

def next (s : Scanner) : Except Misplaced (Option Token × Scanner) := do
  if s.finished then return (none, s)
  let s := s.readWhile Text.isBlank
  match s.char? with
  | none => return (some (.finish s.characters.length), { s with finished := true })
  | some c =>
      let (t, s) ← s.lexeme c
      return (some t, s)

def take : Nat → Scanner → Except Misplaced (List Token × Scanner)
  | 0, s => return ([], s)
  | n + 1, s => do
      match ← s.next with
      | (none, s) => return ([], s)
      | (some t, s) =>
          let (ts, last) ← s.take n
          return (t :: ts, last)

end Scanner

/-- All tokens of a stored text, or a byte at which it could not be cut. -/
def scan (o : LexOptions) (source : String) : Except Text.Misplaced Lexed := do
  let (tokens, last) ← (Scanner.start o source).take (source.toList.length + 1)
  return { tokens, error := last.error }

end RuleLang
