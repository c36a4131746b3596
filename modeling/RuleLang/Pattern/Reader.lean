import RuleLang.Pattern.Basic
import RuleLang.Text.Basic

namespace RuleLang.Pattern

def escaped? (c : Char) : Option Char :=
  match c with
  | 'n' => some '\n'
  | 't' => some '\t'
  | 'r' => some '\r'
  | _ => if c.toNat < 0x80 && !c.isAlphanum && c != '<' && c != '>' then some c else none

namespace CharSet

def character? : Text → Option (Char × Text)
  | '\\' :: c :: t => (escaped? c).map (·, t)
  | '\\' :: [] => none
  | c :: t => some (c, t)
  | [] => none

/-- A character, or a range of them. A hyphen before the closing bracket or before another hyphen
makes no range. -/
def range? (t : Text) : Option (CharSet × Text) := do
  let (low, t) ← character? t
  match t with
  | '-' :: ']' :: _ | '-' :: '-' :: _ => return (.range low low, t)
  | '-' :: t =>
      let (high, t) ← character? t
      if low ≤ high then return (.range low high, t) else none
  | t => return (.range low low, t)

def ofName? : Text → Option (CharSet × Text)
  | ':' :: t => do
      let (negated, t) := match t with
        | '^' :: t => (true, t)
        | t => (false, t)
      match t.dropWhile (· ≠ ':') with
      | ':' :: ']' :: rest =>
          let ranges ← named? (String.ofList (t.takeWhile (· ≠ ':')))
          return (.named negated ranges, rest)
      | _ => none
  | _ => none

def combine (left : Option (CharSet × Combination)) (right : CharSet) : CharSet :=
  match left with
  | some (s, how) => .combined how s right
  | none => right

mutual

/-- A set behind its opening bracket. Hyphens at its start, or else a closing bracket there, are
characters of the set. -/
def bracketed? : Nat → Text → Option (CharSet × Text)
  | 0, _ => none
  | n + 1, t => do
      let (negated, t) := match t with
        | '^' :: t => (true, t)
        | t => (false, t)
      let hyphens := (t.takeWhile (· = '-')).map fun c => .range c c
      let (first, t) := match hyphens, t.dropWhile (· = '-') with
        | [], ']' :: t => ([.range ']' ']'], t)
        | _, t => (hyphens, t)
      let (body, t) ← body? n none first t
      return (.bracketed negated body, t)

def body? : Nat → Option (CharSet × Combination) → List CharSet → Text → Option (CharSet × Text)
  | 0, _, _, _ => none
  | n + 1, left, items, t =>
      let here := combine left (ofItems items.reverse)
      let item : Option (CharSet × Text) → Option (CharSet × Text)
        | some (s, t) => body? n left (s :: items) t
        | none => none
      match t with
      | ']' :: t => some (here, t)
      | '[' :: t => item ((ofName? t).or (bracketed? n t))
      | c :: d :: rest =>
          match Combination.ofMark? c with
          | some how => if c = d then body? n (some (here, how)) [] rest else item (range? t)
          | none => item (range? t)
      | t => item (range? t)

end

end CharSet

def countLimit : Nat := 0x100000000

def count? (t : Text) : Option (Nat × Text) :=
  let t := t.dropWhile Text.isBlank
  let digits := t.takeWhile Char.isDigit
  let n := Text.digitsValue digits
  if digits.isEmpty || countLimit ≤ n then none
  else some (n, (t.dropWhile Char.isDigit).dropWhile Text.isBlank)

def bounds? (t : Text) : Option (Count × Text) := do
  let (least, t) ← count? t
  match t with
  | '\x7d' :: t => return (.exactly least, t)
  | ',' :: '\x7d' :: t => return (.atLeast least, t)
  | ',' :: t =>
      let (most, t) ← count? t
      match t with
      | '\x7d' :: t =>
          if h : least ≤ most then return (⟨least, some most, by simpa using h⟩, t) else none
      | _ => none
  | _ => none

structure Frame where
  numbered : Bool
  options : List Pattern := []
  parts : List Pattern := []

namespace Frame

def push (f : Frame) (p : Pattern) : Frame :=
  { f with parts := p :: f.parts }

def alternative (f : Frame) : Frame :=
  { f with options := .ofParts f.parts.reverse :: f.options, parts := [] }

def close (f : Frame) : Pattern :=
  .ofOptions f.alternative.options.reverse

def repeated (f : Frame) (count : Count) (t : Text) : Option (Frame × Text) :=
  match f.parts, t with
  | p :: parts, '?' :: t => some ({ f with parts := .repeated p count false :: parts }, t)
  | p :: parts, t => some ({ f with parts := .repeated p count true :: parts }, t)
  | [], _ => none

end Frame

def readFrom : Nat → List Frame → Frame → Text → Option Pattern
  | 0, _, _, _ => none
  | n + 1, outer, f, t =>
      let repeated (count : Count) (t : Text) : Option Pattern := do
        let (f, t) ← f.repeated count t
        readFrom n outer f t
      match t with
      | [] => if outer.isEmpty then some f.close else none
      | '(' :: '?' :: ':' :: t => readFrom n (f :: outer) { numbered := false } t
      | '(' :: '?' :: _ => none
      | '(' :: t => readFrom n (f :: outer) { numbered := true } t
      | ')' :: t =>
          match outer with
          | [] => none
          | g :: outer => readFrom n outer (g.push (.group f.numbered f.close)) t
      | '|' :: t => readFrom n outer f.alternative t
      | '*' :: t => repeated (.atLeast 0) t
      | '+' :: t => repeated (.atLeast 1) t
      | '?' :: t => repeated .atMostOnce t
      | '\x7b' :: t => do
          let (count, t) ← bounds? t
          repeated count t
      | '^' :: t => readFrom n outer (f.push .start) t
      | '$' :: t => readFrom n outer (f.push .finish) t
      | '.' :: t => readFrom n outer (f.push .any) t
      | '[' :: t => do
          let (s, t) ← CharSet.bracketed? (2 * t.length + 2) t
          readFrom n outer (f.push (.set s)) t
      | '\\' :: [] => none
      | '\\' :: c :: t => do readFrom n outer (f.push (.character (← escaped? c))) t
      | c :: t => readFrom n outer (f.push (.character c)) t

/-- The pattern a text spells, if it spells one. Every step uses up a character. -/
def read? (t : Text) : Option Pattern :=
  readFrom (t.length + 1) [] { numbered := false } t

end RuleLang.Pattern
