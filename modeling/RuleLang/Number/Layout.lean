import RuleLang.Number.Binary64

namespace RuleLang

namespace Shortest

inductive Tie where
  | up
  | toEven
  deriving DecidableEq, Repr

/-- The reals that round to a magnitude, in quarters of `2 ^ step * 2 ^ -1074`. -/
structure Interval where
  low : Nat
  middle : Nat
  high : Nat
  step : Nat
  closed : Bool
  deriving Repr

/-- The neighbour below is half as far away when the significand is the least of its step. -/
def Interval.of (x : Binary64) : Interval :=
  let m := x.significand
  { low := 4 * m - (if m = Binary64.significands ∧ 0 < x.step then 1 else 2)
    middle := 4 * m
    high := 4 * m + 2
    step := x.step
    closed := m % 2 = 0 }

def Interval.scaled (i : Interval) (quarters : Nat) (exponent : Int) : Nat × Nat :=
  let num := quarters * Nat.pow 2 i.step
  let den := 4 * Nat.pow 2 Binary64.leastScale
  match exponent with
  | .ofNat e => (num, den * Nat.pow 10 e)
  | .negSucc e => (num * Nat.pow 10 (e + 1), den)

def Interval.holds (i : Interval) (d : Decimal) : Bool :=
  let (low, den) := i.scaled i.low d.exponent
  let (high, _) := i.scaled i.high d.exponent
  if i.closed then low ≤ d.digits * den && d.digits * den ≤ high
  else low < d.digits * den && d.digits * den < high

def atExponent (tie : Tie) (i : Interval) (exponent : Int) : Option Decimal :=
  let (num, den) := i.scaled i.middle exponent
  let below : Decimal := ⟨num / den, exponent⟩
  let above : Decimal := ⟨num / den + 1, exponent⟩
  let gap := 2 * (num % den)
  let upward := den < gap || (gap = den && (tie = .up || below.digits % 2 = 1))
  let (first, second) := if upward then (above, below) else (below, above)
  if 0 < first.digits && i.holds first then some first
  else if 0 < second.digits && i.holds second then some second
  else none

def greatestExponent : Int := 308

def exponents : List Int :=
  (List.range 633).map fun (n : Nat) => greatestExponent - n

/-- The coarsest power of ten with a multiple in the interval makes the fewest digits. -/
def decimal (tie : Tie) (x : Binary64) : Decimal :=
  if x.magnitude = 0 then ⟨0, 0⟩
  else (exponents.findSome? (atExponent tie (.of x))).getD ⟨0, 0⟩

end Shortest

namespace Layout

def digitChars (n : Nat) : Text :=
  Nat.toDigits 10 n

def zeros (n : Nat) : Text :=
  List.replicate n '0'

def point (digits : Text) (places : Int) : Text :=
  match places with
  | .ofNat p =>
      if digits.length ≤ p then digits ++ zeros (p - digits.length)
      else digits.take p ++ (if p = 0 then ['0'] else []) ++ '.' :: digits.drop p
  | .negSucc p => '0' :: '.' :: (zeros (p + 1) ++ digits)

def signed (x : Binary64) (magnitude : Text) : Text :=
  if x.isNegative then '-' :: magnitude else magnitude

def plain (x : Binary64) : Text :=
  signed x <|
    if x.isFinite then
      let d := Shortest.decimal .up x
      let digits := digitChars d.digits
      if d.digits = 0 then ['0'] else point digits (digits.length + d.exponent)
    else ['i', 'n', 'f']

def exponentText (e : Int) : Text :=
  (if 0 ≤ e then ['+'] else ['-']) ++ digitChars e.natAbs

/-- Whole numbers end in `.0`, and an exponent stands where more than sixteen places before the dot
or five zeros behind it would be needed. -/
def scientific (x : Binary64) : Text :=
  signed x <|
    let d := Shortest.decimal .toEven x
    let digits := digitChars d.digits
    let places : Int := digits.length + d.exponent
    if d.digits = 0 then ['0', '.', '0']
    else if 0 ≤ d.exponent && places ≤ 16 then point digits places ++ ['.', '0']
    else if -5 < places && places ≤ 16 then point digits places
    else
      match digits with
      | [c] => c :: 'e' :: exponentText (places - 1)
      | c :: rest => c :: '.' :: rest ++ 'e' :: exponentText (places - 1)
      | [] => []

end Layout

end RuleLang
