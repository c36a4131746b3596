import RuleLang.Number.Binary64

namespace RuleLang.Json.Number

def significandLimit : Nat := 0x10000000000000000

def greatestPower : Nat := 308

def absorb (significand : Nat) : Text → Nat × Text
  | [] => (significand, [])
  | c :: t =>
      let longer := 10 * significand + (c.toNat - '0'.toNat)
      if longer < significandLimit then absorb longer t else (significand, c :: t)

/-- Significand and exponent of the digits. Digits without room count as zeros in the whole part
and not at all in the fraction. -/
def decimal (n : Numeral) : Decimal :=
  let fraction := n.fraction.getD []
  let (whole, left) := absorb 0 n.whole
  let (digits, unused) := absorb whole fraction
  ⟨digits, left.length - (fraction.length - unused.length : Nat)⟩

def power (exponent : Nat) : Binary64 :=
  .ofDecimal ⟨1, exponent⟩

def divide (x : Binary64) (exponent : Nat) : Binary64 :=
  x.dividedBy (power exponent)

/-- The magnitude of a decimal, if it is not too large. Dividing by the greatest power twice leaves
nothing of any significand. -/
def scaled? (d : Decimal) : Option Binary64 :=
  let x := Binary64.ofDecimal ⟨d.digits, 0⟩
  if d.digits = 0 then some x
  else
    match d.exponent with
    | .ofNat e =>
        if greatestPower < e then none
        else if (x.times (power e)).isFinite then some (x.times (power e))
        else none
    | .negSucc e =>
        let e := e + 1
        if e ≤ greatestPower then some (divide x e)
        else if e ≤ 2 * greatestPower then some (divide (divide x greatestPower) (e - greatestPower))
        else some (.ofDecimal ⟨0, 0⟩)

def writtenExponent : Text → Int
  | '-' :: ds => -(Text.digitsValue ds : Int)
  | '+' :: ds => Text.digitsValue ds
  | ds => Text.digitsValue ds

/-- The number is rounded twice, once as a significand and once when a power of ten is applied to
that, so it can miss the nearest one by a little. -/
def value? (numeral : Text) : Option Binary64 :=
  let t := Text.dropFirst '-' numeral
  let d := decimal (.front t)
  let e := writtenExponent ((t.dropWhile (· ≠ 'e')).drop 1)
  (scaled? { d with exponent := d.exponent + e }).map fun x =>
    .ofMagnitude (numeral.head? = some '-') x.magnitude

end RuleLang.Json.Number
