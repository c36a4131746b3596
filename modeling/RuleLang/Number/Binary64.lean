import RuleLang.Text.Basic

namespace RuleLang

/-- The number `digits * 10 ^ exponent`. -/
structure Decimal where
  digits : Nat
  exponent : Int
  deriving DecidableEq, Repr

structure Numeral where
  whole : Text
  fraction : Option Text
  deriving DecidableEq, Repr

namespace Numeral

def front (t : Text) : Numeral where
  whole := t.takeWhile Char.isDigit
  fraction :=
    match t.dropWhile Char.isDigit with
    | '.' :: rest => some (rest.takeWhile Char.isDigit)
    | _ => none

def digits (n : Numeral) : Text :=
  n.whole ++ n.fraction.getD []

def spelling (n : Numeral) : Text :=
  match n.fraction with
  | some fraction => n.whole ++ '.' :: fraction
  | none => n.whole

def value (n : Numeral) : Decimal where
  digits := Text.digitsValue n.digits
  exponent := -(n.fraction.getD []).length

def leading? (t : Text) : Option Numeral :=
  if (front t).digits = [] then none else some (front t)

end Numeral

structure Binary64 where
  bits : UInt64
  deriving DecidableEq, Repr

namespace Binary64

/-- Finite magnitudes are multiples of `2 ^ -1074`. -/
def leastScale : Nat := 1074

def significands : Nat := 0x10000000000000

def signPlace : Nat := 0x8000000000000000

/-- The bits of infinity. Finite magnitudes have smaller ones, in the order of their values. -/
def infinityBits : Nat := 2047 * significands

def one : Binary64 := ⟨0x3FF0000000000000⟩

def roundQuotient (num den : Nat) : Nat :=
  let q := num / den
  let r := num % den
  if 2 * r < den then q
  else if den < 2 * r then q + 1
  else if q % 2 = 0 then q
  else q + 1

/-- The bits of the magnitude nearest to the quotient. The significand is scaled to fewer than
`2 ^ 53`, and its highest bit, like a carry out of rounding, adds one to the exponent. -/
def magnitudeBits (num den : Nat) : Nat :=
  let scaled := num * Nat.pow 2 leastScale
  let step := (scaled / den).log2 - 52
  min infinityBits (step * significands + roundQuotient scaled (den * Nat.pow 2 step))

def ofMagnitude (negative : Bool) (bits : Nat) : Binary64 :=
  ⟨UInt64.ofNat (bits + if negative then signPlace else 0)⟩

def ofDecimal (d : Decimal) (negative : Bool := false) : Binary64 :=
  ofMagnitude negative <|
    match d.exponent with
    | .ofNat e => magnitudeBits (d.digits * Nat.pow 10 e) 1
    | .negSucc e => magnitudeBits d.digits (Nat.pow 10 (e + 1))

def isNegative (x : Binary64) : Bool :=
  signPlace ≤ x.bits.toNat

def magnitude (x : Binary64) : Nat :=
  x.bits.toNat % signPlace

def isFinite (x : Binary64) : Bool :=
  x.magnitude < infinityBits

/-- Significand and step of the magnitude, which is `significand * 2 ^ step * 2 ^ -1074`. -/
def significand (x : Binary64) : Nat :=
  if x.magnitude < significands then x.magnitude
  else x.magnitude % significands + significands

def step (x : Binary64) : Nat :=
  x.magnitude / significands - 1

def multiple (x : Binary64) : Nat :=
  x.significand * Nat.pow 2 x.step

def times (x y : Binary64) : Binary64 :=
  ofMagnitude false (magnitudeBits (x.multiple * y.multiple) (Nat.pow 2 (2 * leastScale)))

def dividedBy (x y : Binary64) : Binary64 :=
  ofMagnitude false (magnitudeBits x.multiple y.multiple)

end Binary64

end RuleLang
