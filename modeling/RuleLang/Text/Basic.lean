namespace RuleLang

/-- Text as the characters it is made of. Every offset counts characters. -/
abbrev Text := List Char

namespace Text

def dropFirst (mark : Char) : Text → Text
  | [] => []
  | c :: t => if c = mark then t else c :: t

def dropLast (mark : Char) (t : Text) : Text :=
  if t.getLast? = some mark then List.dropLast t else t

def unwrap (mark : Char) (t : Text) : Text :=
  dropLast mark (dropFirst mark t)

/-- The text starts and ends with the mark; a single mark does both. -/
def wrappedIn (mark : Char) (t : Text) : Bool :=
  t.head? == some mark && t.getLast? == some mark

def digitsValue (t : Text) : Nat :=
  t.foldl (fun n c => 10 * n + (c.toNat - '0'.toNat)) 0

theorem unwrap_wrap (mark : Char) (t : Text) :
    unwrap mark (mark :: (t ++ [mark])) = t := by
  simp [unwrap, dropFirst, dropLast]

/-- First and last code point of each run of characters with the property `White_Space`. -/
def blankRanges : List (Nat × Nat) :=
  [(0x9, 0xD), (0x20, 0x20), (0x85, 0x85), (0xA0, 0xA0), (0x1680, 0x1680), (0x2000, 0x200A),
    (0x2028, 0x2029), (0x202F, 0x202F), (0x205F, 0x205F), (0x3000, 0x3000)]

def isBlank (c : Char) : Bool :=
  blankRanges.any fun r => r.1 ≤ c.toNat && c.toNat ≤ r.2

/-- Characters of the general category `Cc`. -/
def isControl (c : Char) : Bool :=
  c.toNat ≤ 0x1F || (0x7F ≤ c.toNat && c.toNat ≤ 0x9F)

def isFormat (c : Char) : Bool :=
  isBlank c || isControl c

/-- A byte outside of a text or inside of one of its characters. -/
structure Misplaced where
  byte : Nat
  deriving DecidableEq, Repr

def place (s : String) (byte : Nat) : Except Misplaced s.Pos :=
  if h : String.Pos.Raw.IsValid s ⟨byte⟩ then .ok ⟨⟨byte⟩, h⟩ else .error ⟨byte⟩

def sliceFrom (s : String) (byte : Nat) : Except Misplaced String := do
  return (s.sliceFrom (← place s byte)).copy

def sliceTo (s : String) (byte : Nat) : Except Misplaced String := do
  return (s.sliceTo (← place s byte)).copy

def slice (s : String) (start stop : Nat) : Except Misplaced String := do
  sliceFrom (← sliceTo s stop) start

/-- Every character with the byte it starts at. -/
def located : Nat → Text → List (Nat × Char)
  | _, [] => []
  | byte, c :: t => (byte, c) :: located (byte + c.utf8Size) t

end Text

end RuleLang
