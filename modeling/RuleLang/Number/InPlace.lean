import RuleLang.Number.Binary64

namespace RuleLang

namespace Numeral

def isDigitByte (b : UInt8) : Bool :=
  0x30 ≤ b && b ≤ 0x39

def digitBytes (s : String) : Nat :=
  (s.toUTF8.data.toList.takeWhile isDigitByte).length

structure Extent where
  digits : Nat
  stop : Nat
  deriving DecidableEq, Repr

def extent (s : String) : Except Text.Misplaced Extent := do
  let whole := digitBytes s
  if (← Text.sliceFrom s whole).startsWith '.' then
    let fraction := digitBytes (← Text.sliceFrom s (whole + 1))
    return ⟨whole + fraction, whole + 1 + fraction⟩
  else return ⟨whole, whole⟩

def convertLeading (convert : String → Option Binary64) (s : String) :
    Except Text.Misplaced (Option Binary64) := do
  let e ← extent s
  if e.digits = 0 then return none
  else return convert (← Text.sliceTo s e.stop)

end Numeral

end RuleLang
