import RuleLang.Json.Basic
import RuleLang.Json.Number

/-!
JSON text read as far as it can be. A fault stays in the document at the place where it was met, so
that whoever goes through the document in order meets it there, if at all.

Text that is passed over is read less strictly than text that is used: escapes need not make
characters and numbers may have any size.
-/

namespace RuleLang.Json

inductive Fault where
  | malformed
  | cutShort
  deriving DecidableEq, Repr

inductive Ending where
  | closed
  | cut
  | noComma
  | dangling (fault : Fault)
  | notAKey
  /-- A key with a fault, and the fault if the key is passed over. -/
  | brokenKey (used skipped : Fault)
  deriving DecidableEq, Repr

def Ending.fault? : Ending → Option Fault
  | .closed => none
  | .cut => some .cutShort
  | .noComma | .notAKey => some .malformed
  | .dangling f | .brokenKey f _ => some f

def Ending.skippedFault? : Ending → Option Fault
  | .brokenKey _ f => some f
  | e => e.fault?

inductive Reading where
  | null
  | boolean (b : Bool)
  | number (numeral : Text)
  | string (content : Option Text)
  | array (items : List Reading) (ending : Ending)
  | object (members : List (Option Text × Reading)) (ending : Ending)
  | missing (fault : Fault)
  | brokenString (used skipped : Fault)
  | broken (used skipped : Fault)
  deriving Repr

namespace Reading

mutual

/-- The first fault met by whoever passes over the value. -/
def skippedFault? : Reading → Option Fault
  | .null | .boolean _ | .number _ | .string _ => none
  | .array items ending => (itemsFault? items).or ending.skippedFault?
  | .object members ending => (membersFault? members).or ending.skippedFault?
  | .missing f | .brokenString _ f | .broken _ f => some f

def itemsFault? : List Reading → Option Fault
  | [] => none
  | r :: rs => r.skippedFault?.or (itemsFault? rs)

def membersFault? : List (Option Text × Reading) → Option Fault
  | [] => none
  | (_, r) :: ms => r.skippedFault?.or (membersFault? ms)

end

end Reading

def isBlank (c : Char) : Bool :=
  c == ' ' || c == '\n' || c == '\t' || c == '\r'

def skipBlanks (t : Text) : Text :=
  t.dropWhile isBlank

def faultAt (t : Text) : Fault :=
  if t.isEmpty then .cutShort else .malformed

inductive Unit16 where
  | character (c : Char)
  | escaped (n : Nat)
  deriving DecidableEq, Repr

namespace Unit16

def isHigh (n : Nat) : Bool :=
  0xD800 ≤ n && n < 0xDC00

def isLow (n : Nat) : Bool :=
  0xDC00 ≤ n && n < 0xE000

def paired (high low : Nat) : Char :=
  Char.ofNat (0x10000 + (high - 0xD800) * 0x400 + (low - 0xDC00))

def text? : List Unit16 → Option Text
  | [] => some []
  | .character c :: us => (text? us).map (c :: ·)
  | .escaped n :: us =>
      if isHigh n then
        match us with
        | .escaped m :: us => if isLow m then (text? us).map (paired n m :: ·) else none
        | _ => none
      else if isLow n then none
      else (text? us).map (Char.ofNat n :: ·)

/-- The units without a high surrogate at their end, whose partner may be still to come. -/
def settled (us : List Unit16) : List Unit16 :=
  match us.getLast? with
  | some (.escaped n) => if isHigh n then us.dropLast else us
  | _ => us

end Unit16

def hexValue? (c : Char) : Option Nat :=
  if c.isDigit then some (c.toNat - '0'.toNat)
  else if 'a' ≤ c && c ≤ 'f' then some (c.toNat - 'a'.toNat + 10)
  else if 'A' ≤ c && c ≤ 'F' then some (c.toNat - 'A'.toNat + 10)
  else none

def bytes (t : Text) : Nat :=
  t.foldl (fun n c => n + c.utf8Size) 0

def hexUnit (t : Text) : Except Fault (Nat × Text) :=
  match (t.take 4).mapM hexValue? with
  | some [a, b, c, d] => .ok (((a * 16 + b) * 16 + c) * 16 + d, t.drop 4)
  | _ => .error (if bytes t < 4 then .cutShort else .malformed)

def simpleEscape? : Char → Option Char
  | '"' => some '"'
  | '\\' => some '\\'
  | '/' => some '/'
  | 'b' => some '\x08'
  | 'f' => some '\x0c'
  | 'n' => some '\n'
  | 'r' => some '\r'
  | 't' => some '\t'
  | _ => none

def units : Nat → Text → List Unit16 × Except Fault Text
  | 0, _ => ([], .error .cutShort)
  | n + 1, t =>
      match t with
      | [] => ([], .error .cutShort)
      | '"' :: t => ([], .ok t)
      | '\\' :: [] => ([], .error .cutShort)
      | '\\' :: 'u' :: t =>
          match hexUnit t with
          | .error f => ([], .error f)
          | .ok (u, t) =>
              let (us, rest) := units n t
              (.escaped u :: us, rest)
      | '\\' :: c :: t =>
          match simpleEscape? c with
          | none => ([], .error .malformed)
          | some c =>
              let (us, rest) := units n t
              (.character c :: us, rest)
      | c :: t =>
          if c.toNat < 0x20 then ([], .error .malformed)
          else
            let (us, rest) := units n t
            (.character c :: us, rest)

/-- A surrogate without its partner counts before a fault behind it. -/
def usedFault (us : List Unit16) (behind : Fault) : Fault :=
  if (Unit16.text? (Unit16.settled us)).isNone then .malformed else behind

def digits (t : Text) : Text × Text :=
  (t.takeWhile Char.isDigit, t.dropWhile Char.isDigit)

def wholePart (t : Text) : Except Fault (Text × Text) :=
  match digits t with
  | ([], rest) => .error (faultAt rest)
  | ('0' :: _ :: _, _) => .error .malformed
  | (ds, rest) => .ok (ds, rest)

def fractionPart : Text → Except Fault (Text × Text)
  | '.' :: t =>
      match digits t with
      | ([], rest) => .error (faultAt rest)
      | (ds, rest) => .ok ('.' :: ds, rest)
  | t => .ok ([], t)

def signPart : Text → Text × Text
  | '+' :: t => (['+'], t)
  | '-' :: t => (['-'], t)
  | t => ([], t)

def exponentPart (t : Text) : Except Fault (Text × Text) :=
  match t with
  | c :: rest =>
      if c = 'e' ∨ c = 'E' then
        let (sign, rest) := signPart rest
        match digits rest with
        | ([], rest) => .error (faultAt rest)
        | (ds, rest) => .ok ('e' :: sign ++ ds, rest)
      else .ok ([], t)
  | [] => .ok ([], t)

def numeral (t : Text) : Except Fault (Text × Text) := do
  let (sign, t) := match t with
    | '-' :: t => (['-'], t)
    | t => ([], t)
  let (whole, t) ← wholePart t
  let (fraction, t) ← fractionPart t
  let (exponent, t) ← exponentPart t
  return (sign ++ whole ++ fraction ++ exponent, t)

def word (r : Reading) : Text → Text → Reading × Option Text
  | [], t => (r, some t)
  | c :: cs, d :: t => if c = d then word r cs t else (.broken .malformed .malformed, none)
  | _ :: _, [] => (.broken .cutShort .cutShort, none)

def numberValue (t : Text) : Reading × Option Text :=
  match numeral t with
  | .ok (n, rest) => (.number n, some rest)
  | .error f => (.broken f .malformed, none)

def stringValue (t : Text) : Reading × Option Text :=
  match units (t.length + 1) t with
  | (us, .ok rest) => (.string (Unit16.text? us), some rest)
  | (us, .error f) => (.brokenString (usedFault us f) f, none)

def Reading.ownFault? : Reading → Option Fault
  | .null | .boolean _ | .array _ _ | .object _ _ => none
  | .number n => if (Number.value? n).isNone then some .malformed else none
  | .string content => if content.isNone then some .malformed else none
  | .missing f | .brokenString f _ | .broken f _ => some f

mutual

def value : Nat → Text → Reading × Option Text
  | 0, _ => (.missing .cutShort, none)
  | n + 1, t =>
      match skipBlanks t with
      | [] => (.missing .cutShort, none)
      | '"' :: t => stringValue t
      | '[' :: t =>
          let (items, ending, rest) := items n true t
          (.array items ending, rest)
      | '\x7b' :: t =>
          let (members, ending, rest) := members n true t
          (.object members ending, rest)
      | 'n' :: t => word .null ['u', 'l', 'l'] t
      | 't' :: t => word (.boolean true) ['r', 'u', 'e'] t
      | 'f' :: t => word (.boolean false) ['a', 'l', 's', 'e'] t
      | c :: t =>
          if c = '-' ∨ c.isDigit then numberValue (c :: t) else (.missing .malformed, none)

def items : Nat → Bool → Text → List Reading × Ending × Option Text
  | 0, _, _ => ([], .cut, none)
  | n + 1, first, t =>
      let item t :=
        match value n t with
        | (r, none) => ([r], .cut, none)
        | (r, some t) =>
            let (rs, ending, rest) := items n false t
            (r :: rs, ending, rest)
      match skipBlanks t, first with
      | [], _ => ([], .cut, none)
      | ']' :: t, _ => ([], .closed, some t)
      | ',' :: t, false =>
          match skipBlanks t with
          | [] => ([], .dangling .cutShort, none)
          | ']' :: _ => ([], .dangling .malformed, none)
          | t => item t
      | t, true => item t
      | _, false => ([], .noComma, none)

def members : Nat → Bool → Text → List (Option Text × Reading) × Ending × Option Text
  | 0, _, _ => ([], .cut, none)
  | n + 1, first, t =>
      let member t :=
        match t with
        | '"' :: t =>
            match stringValue t with
            | (.string key, some t) =>
                match skipBlanks t with
                | ':' :: t =>
                    match value n t with
                    | (r, none) => ([(key, r)], .cut, none)
                    | (r, some t) =>
                        let (ms, ending, rest) := members n false t
                        ((key, r) :: ms, ending, rest)
                | t => ([(key, .missing (faultAt t))], .cut, none)
            | (.brokenString used skipped, _) => ([], .brokenKey used skipped, none)
            | _ => ([], .noComma, none)
        | _ => ([], .notAKey, none)
      match skipBlanks t, first with
      | [], _ => ([], .cut, none)
      | '\x7d' :: t, _ => ([], .closed, some t)
      | ',' :: t, false =>
          match skipBlanks t with
          | [] => ([], .dangling .cutShort, none)
          | '\x7d' :: _ => ([], .dangling .malformed, none)
          | t => member t
      | t, true => member t
      | _, false => ([], .noComma, none)

end

/-- Every second step uses up a character. -/
def read (t : Text) : Reading × Option Text :=
  value (2 * t.length + 2) t

end RuleLang.Json
